/-
**Steps of system calls, kills and the tasks of the worker.**

`TaskOp` are the steps of the processes, of the scheduler and of the worker. `TaskOp.Safe` is what a step
must meet: the worker is not killed, the pid of a new process is not in use, and what lies behind the
process table does not look like a process to run.

* `TaskSound.step`: a safe step keeps the queue sound.
* `TaskInv.resched_honours`: when a call of `resched` honours a fatal signal.
* `TaskSound.step_process`: a process keeps its pid and its signals.
-/

import RlCpu.Kernel.TaskQueue

namespace RlCpu.Kernel

open RlCpu.Lib

variable {δ : Type}

/-! ### Steps -/

/-- A step. -/
inductive TaskOp
  /-- `sys_fork`, `sys_clone`, `sys_execve`, `sys_waitpid` or `sys_exit` of the running process. -/
  | sys (task : TaskType) (args : Word) (tStack : InterruptFrame)
  /-- `sys_kill` -/
  | kill (pid sig : Word)
  /-- A time slice ends, or the running process yields. -/
  | resched (tStack : InterruptFrame)
  /-- The worker comes to entry `q` of its queue. -/
  | worker (enableCopyOnWrite : Bool) (exe : Option Executable) (q : Fin maxQueueSize)
  /-- The running process uses its memory. -/
  | user (mm : Mm)
  /-- What lies behind the process table changes. -/
  | behind (p : Process)

/-- The table that `resched` sees, if the step calls it. -/
def TaskOp.scheduled (k : KernelState δ) : TaskOp → Option (KernelState δ × InterruptFrame)
  | .sys task args tStack => some (sysTask task args k, tStack)
  | .resched tStack => some (k, tStack)
  | _ => none

/-- The step `op` leads from `k` to `t`. System calls are made by user processes, and the worker's loop
runs in entry 0. -/
def TaskStep (k : KernelState δ) (op : TaskOp) (t : KernelState δ) : Prop :=
  match op with
  | .sys task args tStack => task ≠ .none ∧ k.currentTask ≠ 0 ∧
      ∃ fuel frame seen, Kernel.resched fuel tStack (sysTask task args k) = some (.ok (frame, t, seen))
  | .kill pid sig => t = k.sendSig pid sig
  | .resched tStack => ∃ fuel frame seen,
      Kernel.resched fuel tStack k = some (.ok (frame, t, seen))
  | .worker enableCopyOnWrite exe q => k.currentTask = 0 ∧ workerTask enableCopyOnWrite exe q k = .ok t
  | .user mm => t = { k with mm := mm }
  | .behind p => t = k.setProc maxProc p

/-- No process has the pid that comes next. -/
def KernelState.FreshPid (k : KernelState δ) : Prop :=
  ∀ i < maxProc, (k.procs i).state ≠ .none → (k.procs i).pid ≠ k.nextPid + 1

/-- **What a step must meet.** -/
def TaskOp.Safe (k : KernelState δ) : TaskOp → Prop
  | .kill pid sig => ¬ ((k.sendSig pid sig).procs 0).Fatal
  | .worker _ _ q => (k.kernelTaskQueue q).type = .fork ∨ (k.kernelTaskQueue q).type = .clone → k.FreshPid
  | .behind p => ¬ p.Selectable
  | _ => True

/-- Safe steps. -/
def SafeTaskStep (k : KernelState δ) (op : TaskOp) (t : KernelState δ) : Prop :=
  TaskStep k op t ∧ op.Safe k

/-- **A consistent state with an empty queue**: the worker is ready, the running process is live, pids
are unique, and no process waits for the worker. -/
structure Consistent (k : KernelState δ) : Prop where
  low : k.currentTask < maxProc
  worker : (k.procs 0).state = .run
  running : (k.procs k.currentTask).state ≠ .none
  pids : ∀ i < maxProc, ∀ j < maxProc, (k.procs i).state ≠ .none → (k.procs j).state ≠ .none →
    (k.procs i).pid = (k.procs j).pid → i = j
  idle : ∀ i < maxProc, (k.procs i).state ≠ .kworker
  empty : ∀ q, ¬ k.Queued q

/-- Nothing is there that makes the first `resched` go wrong. -/
structure Unthreatened (k : KernelState δ) : Prop where
  calm : ¬ (k.procs 0).Fatal
  behind : ¬ (k.procs maxProc).Selectable

variable {k t : KernelState δ} {op : TaskOp}

theorem Consistent.taskInv (start : Consistent k) (safe : Unthreatened k) : TaskInv k where
  low := start.low
  worker := start.worker
  calm := safe.calm
  behind := safe.behind
  pids := start.pids
  waiting i low waits := absurd waits (start.idle i low)
  served q queued := absurd queued (start.empty q)

/-- The step of a run keeps this. -/
def TaskSound (k : KernelState δ) : Prop := TaskInv k ∧ k.Running

theorem Consistent.taskSound (start : Consistent k) (safe : Unthreatened k) : TaskSound k :=
  ⟨start.taskInv safe, start.running, start.idle _ start.low⟩

/-! ### One step -/

/-- What `resched` keeps, and the process it resumes. -/
theorem TaskInv.resched (inv : TaskInv k) {fuel : Nat} {tStack frame : InterruptFrame} {seen : List Nat}
    (result : resched fuel tStack k = some (.ok (frame, t, seen))) : TaskSound t := by
  have keep : ∀ (s : KernelState δ) (l : List Nat) (i : Nat), TaskInv s → s.currentTask < i →
      i ≤ maxProc → (s.procs i).Selectable → (s.procs i).Fatal → TaskInv (s.kill i) := by
    intro s l i inv after low selectable fatal
    have inTable : i < maxProc := lt_of_le_of_ne low fun atEnd => inv.behind (atEnd ▸ selectable)
    exact inv.kill inTable (by omega) selectable
  obtain ⟨s, next, before, kept, -, stops, place, -, rfl⟩ := resched_keeps (P := fun k _ => TaskInv k)
    (fun _ _ inv => inv.stops) keep (fun _ _ _ inv _ _ _ => inv) inv.low result (inv.saveFrame tStack)
  have low : next < maxProc := by
    rcases place with rfl | ⟨-, low⟩
    · decide
    · exact lt_of_le_of_ne low fun atEnd => kept.behind (atEnd ▸ stops.1)
  exact kept.resume low stops.1

theorem TaskSound.sysTask (sound : TaskSound k) {task : TaskType} {args : Word} (some : task ≠ .none)
    (user : k.currentTask ≠ 0) : TaskInv (sysTask task args k) :=
  (sound.1.enqueue sound.1.low user sound.2.1 sound.2.2 some).1

/-- The worker's loop keeps the invariant, pids and signals. -/
theorem TaskInv.workerTask {cow : Bool} {exe : Option Executable} {q : Fin maxQueueSize} (inv : TaskInv k)
    (fresh : (k.kernelTaskQueue q).type = .fork ∨ (k.kernelTaskQueue q).type = .clone → k.FreshPid)
    (returns : workerTask cow exe q k = .ok t) : TaskInv t ∧ Keeps k t := by
  unfold Kernel.workerTask at returns
  split at returns
  case h_1 none =>
    obtain rfl := Except.ok.inj returns
    exact ⟨inv, .refl k⟩
  case h_2 type =>
    exact inv.taskFork (by simp [KernelState.Queued, type]) (fresh (Or.inl type)) returns
  case h_3 type => exact inv.taskExecve (by simp [KernelState.Queued, type]) returns
  case h_4 type => exact inv.taskExit (by simp [KernelState.Queued, type]) returns
  case h_5 type => exact inv.taskWaitpid (by simp [KernelState.Queued, type]) returns
  case h_6 type =>
    exact inv.taskClone (by simp [KernelState.Queued, type]) (fresh (Or.inr type)) returns

/-- A signal changes nothing but the pending signals of one process. -/
theorem sendSig_procs (k : KernelState δ) (pid sig : Word) (i : Nat) :
    ∃ mask, ((k.sendSig pid sig).procs i) =
      { k.procs i with signalsPending := (k.procs i).signalsPending ||| mask } := by
  unfold KernelState.sendSig
  split
  case h_1 j found =>
    by_cases equal : i = j
    · exact ⟨1 <<< sig.toNat, by rw [equal, KernelState.setProc_self]⟩
    · refine ⟨0#16, ?_⟩
      rw [KernelState.setProc_ne _ _ equal, BitVec.or_zero]
  case h_2 => exact ⟨0#16, by rw [BitVec.or_zero]⟩

theorem sendSig_behind (k : KernelState δ) (pid sig : Word) :
    (k.sendSig pid sig).procs maxProc = k.procs maxProc := by
  unfold KernelState.sendSig
  split
  case h_1 j found =>
    have low := (KernelState.findProcByPid_some found).1
    exact KernelState.setProc_ne _ _ (by omega)
  case h_2 => rfl

theorem sendSig_rest (k : KernelState δ) (pid sig : Word) :
    (k.sendSig pid sig).currentTask = k.currentTask ∧
      (k.sendSig pid sig).kernelTaskQueue = k.kernelTaskQueue := by
  unfold KernelState.sendSig
  split <;> exact ⟨rfl, rfl⟩

/-- A signal that leaves the worker alive keeps the invariant. -/
theorem TaskInv.sendSig (inv : TaskInv k) (pid sig : Word) (calm : ¬ ((k.sendSig pid sig).procs 0).Fatal) :
    TaskInv (k.sendSig pid sig) := by
  obtain ⟨current, queue⟩ := sendSig_rest k pid sig
  have same : ∀ i, ((k.sendSig pid sig).procs i).pid = (k.procs i).pid ∧
      ((k.sendSig pid sig).procs i).state = (k.procs i).state := fun i => by
    obtain ⟨mask, made⟩ := sendSig_procs k pid sig i
    rw [made]
    exact ⟨rfl, rfl⟩
  refine ⟨?_, (same 0).2.trans inv.worker, calm, ?_, fun i low j low' here here' equal => ?_,
    fun i low here => ?_, fun q here => ?_⟩
  · rw [current]
    exact inv.low
  · rw [sendSig_behind]
    exact inv.behind
  · rw [(same i).2] at here
    rw [(same j).2] at here'
    exact inv.pids i low j low' here here' ((same i).1.symm.trans (equal.trans (same j).1))
  · rw [(same i).2] at here
    unfold KernelState.Queued
    rw [queue, (same i).1]
    exact inv.waiting i low here
  · unfold KernelState.Queued at here
    rw [queue] at here ⊢
    obtain ⟨i, low, waits, pid⟩ := inv.served q here
    exact ⟨i, low, (same i).2.trans waits, (same i).1.trans pid⟩

/-- The worker goes on as the running process. -/
theorem TaskInv.worker_running (inv : TaskInv k) (here : k.currentTask = 0) : k.Running := by
  unfold KernelState.Running
  rw [here, inv.worker]
  exact ⟨by decide, by decide⟩

/-- **One step.** -/
theorem TaskSound.step (sound : TaskSound k) (step : SafeTaskStep k op t) : TaskSound t := by
  obtain ⟨step, safe⟩ := step
  cases op with
  | sys task args tStack =>
    obtain ⟨some, user, fuel, frame, seen, result⟩ := step
    exact (sound.sysTask some user).resched result
  | kill pid sig =>
    obtain rfl : t = k.sendSig pid sig := step
    refine ⟨sound.1.sendSig pid sig safe, ?_⟩
    obtain ⟨mask, made⟩ := sendSig_procs k pid sig k.currentTask
    unfold KernelState.Running
    rw [(sendSig_rest k pid sig).1, made]
    exact sound.2
  | resched tStack =>
    obtain ⟨fuel, frame, seen, result⟩ := step
    exact sound.1.resched result
  | worker cow exe q =>
    obtain ⟨current, returns⟩ := step
    obtain ⟨inv, keeps⟩ := sound.1.workerTask safe returns
    exact ⟨inv, inv.worker_running (keeps.current.trans current)⟩
  | user mm =>
    obtain rfl : t = { k with mm := mm } := step
    exact ⟨sound.1.setMm mm, sound.2⟩
  | behind p =>
    obtain rfl : t = k.setProc maxProc p := step
    have same : ∀ i < maxProc, (k.setProc maxProc p).procs i = k.procs i := fun i low =>
      KernelState.setProc_ne _ _ (Nat.ne_of_lt low)
    refine ⟨sound.1.congr sound.1.low rfl (fun i low => ?_) ?_ ?_, ?_⟩
    · rw [same i low]
      exact ⟨rfl, rfl⟩
    · rw [same 0 (by decide)]
    · rw [KernelState.setProc_self]
      exact safe
    · unfold KernelState.Running
      rw [KernelState.setProc_currentTask, same _ sound.1.low]
      exact sound.2

/-! ### Steps performed -/

/-- A step performed; `none` where it does not return. -/
def TaskOp.perform (k : KernelState δ) : TaskOp → Option (KernelState δ)
  | .sys task args tStack =>
      if task ≠ .none ∧ k.currentTask ≠ 0 then
        match Kernel.resched 20 tStack (sysTask task args k) with
        | some (.ok (_, t, _)) => some t
        | _ => none
      else none
  | .kill pid sig => some (k.sendSig pid sig)
  | .resched tStack =>
      match Kernel.resched 20 tStack k with
      | some (.ok (_, t, _)) => some t
      | _ => none
  | .worker enableCopyOnWrite exe q =>
      if k.currentTask = 0 then
        match workerTask enableCopyOnWrite exe q k with
        | .ok t => some t
        | .error _ => none
      else none
  | .user _ => none
  | .behind p => some (k.setProc maxProc p)

theorem TaskOp.perform_taskStep (performed : op.perform k = some t) : TaskStep k op t := by
  cases op with
  | sys task args tStack =>
    dsimp only [perform] at performed
    split at performed
    case isFalse => cases performed
    case isTrue may =>
      split at performed
      case h_2 => cases performed
      case h_1 frame u seen result =>
        obtain rfl := Option.some.inj performed
        exact ⟨may.1, may.2, 20, frame, seen, result⟩
  | kill pid sig =>
    obtain rfl := Option.some.inj performed
    exact rfl
  | resched tStack =>
    dsimp only [perform] at performed
    split at performed
    case h_2 => cases performed
    case h_1 frame u seen result =>
      obtain rfl := Option.some.inj performed
      exact ⟨20, frame, seen, result⟩
  | worker cow exe q =>
    dsimp only [perform] at performed
    split at performed
    case isFalse => cases performed
    case isTrue current =>
      split at performed
      case h_2 => cases performed
      case h_1 u result =>
        obtain rfl := Option.some.inj performed
        exact ⟨current, result⟩
  | user mm => cases performed
  | behind p =>
    obtain rfl := Option.some.inj performed
    exact rfl

/-! ### A kernel with one process -/

/-- `resched` returns, with a result in which `p` holds. -/
def reschedChecks (f : Nat) (s : InterruptFrame) (p : KernelState δ → List Nat → Bool) (k : KernelState δ) : Bool :=
  match resched f s k with
  | some (.ok (_, t, seen)) => p t seen
  | _ => false

theorem resched_of_check {f : Nat} {s : InterruptFrame} {p : KernelState δ → List Nat → Bool}
    (check : reschedChecks f s p k = true) :
    ∃ frame t seen, resched f s k = some (.ok (frame, t, seen)) ∧ p t seen = true := by
  unfold reschedChecks at check
  split at check
  case h_1 frame t seen result => exact ⟨frame, t, seen, result, check⟩
  case h_2 => cases check

/-- Frames play no role below. -/
def someFrame : InterruptFrame := ⟨0, 0, 0, 0, 0, 0, 0⟩

/-- The kernel with one ready process, when it runs. -/
def bootUser : KernelState Unit := { bootKernel [1] with currentTask := 1 }

theorem bootKernel_procs (i : Nat) (high : 1 < i) : (bootKernel [1]).procs i = noProcess := by
  have first : i ≠ 0 := by omega
  have second : i ≠ 1 := by omega
  unfold bootKernel
  simp [first, second]

theorem boot_consistent (k : KernelState Unit) (procs : k.procs = (bootKernel [1]).procs)
    (queue : k.kernelTaskQueue = (bootKernel [1]).kernelTaskQueue) (low : k.currentTask ≤ 1) :
    Consistent k ∧ Unthreatened k := by
  have states : ∀ i, (k.procs i).state ≠ .none → i ≤ 1 := fun i here => by
    by_contra high
    rw [procs, bootKernel_procs i (by omega)] at here
    exact here rfl
  have cases : ∀ i ≤ 1, i = 0 ∨ i = 1 := fun i low => by omega
  refine ⟨⟨lt_of_le_of_lt low (by decide), ?_, ?_, fun i _ j _ here here' => ?_, fun i _ waits => ?_, fun q queued => ?_⟩,
    ?_, ?_⟩
  · rw [procs]
    rfl
  · rw [procs]
    rcases cases _ low with zero | one
    · rw [zero]
      decide
    · rw [one]
      decide
  · rw [procs]
    rcases cases _ (states i here) with rfl | rfl <;> rcases cases _ (states j here') with rfl | rfl <;>
      decide
  · rcases cases _ (states i (by rw [waits]; decide)) with rfl | rfl <;> rw [procs] at waits <;>
      cases waits
  · unfold KernelState.Queued at queued
    rw [queue] at queued
    exact queued rfl
  · rw [procs]
    decide
  · rw [procs]
    decide

/-! ### Fatal signals -/

/-- `SIGKILL` or `SIGPIPE` is pending. -/
def Process.Doomed (p : Process) : Prop :=
  p.signalsPending.getLsbD sigKill = true ∨ p.signalsPending.getLsbD sigPipe = true

/-- More signals. -/
theorem Process.Doomed.or {p q : Process} {mask : Word} (doomed : p.Doomed)
    (more : q.signalsPending = p.signalsPending ||| mask) : q.Doomed := by
  unfold Process.Doomed at doomed ⊢
  rw [more, BitVec.getLsbD_or, BitVec.getLsbD_or]
  exact doomed.imp (fun bit => by rw [bit, Bool.true_or]) fun bit => by rw [bit, Bool.true_or]

/-- `SIGKILL` is the lowest pending signal. -/
def Process.Heard (p : Process) : Prop :=
  p.signalsPending.getLsbD sigKill = true ∧ ∀ sig < sigKill, p.signalsPending.getLsbD sig = false

/-- `getSignalFromMask` returns the lowest pending signal below `SIGNUM`. -/
theorem getSignalFromMask_eq_iff {m : Word} {sig : Nat} (low : sig < sigNum) :
    getSignalFromMask m = sig ↔ m.getLsbD sig = true ∧ ∀ i < sig, m.getLsbD i = false := by
  have scan : ((List.range sigNum).find? fun i => m.getLsbD i) = some sig ↔
      m.getLsbD sig = true ∧ ∀ i < sig, m.getLsbD i = false := by
    rw [List.find?_range_eq_some]
    simp [low]
  rw [← scan]
  unfold getSignalFromMask
  cases (List.range sigNum).find? fun i => m.getLsbD i with
  | some i => simp
  | none =>
    refine ⟨fun same => ?_, fun same => by cases same⟩
    exact absurd same (Nat.ne_of_gt low)

theorem getSignalFromMask_le (mask : Word) : getSignalFromMask mask ≤ sigNum := by
  unfold getSignalFromMask
  cases found : (List.range sigNum).find? fun i => mask.getLsbD i with
  | some i => exact (List.mem_range.mp (List.mem_of_find?_eq_some found)).le
  | none => exact le_rfl

/-- `getSignalFromMask` never returns `SIGPIPE`, and returns `SIGKILL` when no lower signal is there. -/
theorem Process.fatal_iff (p : Process) : p.Fatal ↔ p.Heard := by
  have kills := getSignalFromMask_eq_iff (m := p.signalsPending) (show sigKill < sigNum by decide)
  constructor
  · rintro ⟨-, found | found⟩
    · exact kills.mp found
    · have small := getSignalFromMask_le p.signalsPending
      rw [found] at small
      exact absurd small (by decide)
  · intro heard
    refine ⟨fun none => ?_, Or.inl (kills.mpr heard)⟩
    have bit := heard.1
    rw [none] at bit
    cases bit

/-- Entry `i` waits for the worker to end it, and nothing else waits for it. -/
def KernelState.Exiting (k : KernelState δ) (i : Nat) : Prop :=
  (k.procs i).state = .kworker ∧ ∃ q, k.Queued q ∧ (k.kernelTaskQueue q).callerPid = (k.procs i).pid ∧
    (k.kernelTaskQueue q).type = .exit ∧
    ∀ r, k.Queued r → (k.kernelTaskQueue r).callerPid = (k.procs i).pid → r = q

/-- **What a call of `resched` should do with a process that has a fatal signal**: it is not resumed, and
where the scan would stop at it, it is handed to the worker to end. The scan came to all that was
accessed but the interrupted entry, the first. -/
def Honoured (k t : KernelState δ) (seen : List Nat) (i : Nat) : Prop :=
  t.currentTask ≠ i ∧ (i ∈ seen.dropLast → (k.procs i).Selectable → t.Exiting i)

/-- An exit of entry `i` is queued. -/
def KernelState.HasExit (k : KernelState δ) (i : Nat) : Prop :=
  (k.procs i).state = .kworker ∧ ∃ q, (k.kernelTaskQueue q).type = .exit ∧
    (k.kernelTaskQueue q).callerPid = (k.procs i).pid

theorem KernelState.HasExit.not_selectable {i : Nat} (exit : k.HasExit i) : ¬ (k.procs i).Selectable :=
  fun selectable => selectable.not_kworker exit.1

/-- An exit that is queued is the only entry of its process. -/
theorem TaskInv.exiting (inv : TaskInv k) {i : Nat} (low : i < maxProc) (exit : k.HasExit i) :
    k.Exiting i := by
  obtain ⟨waits, q, type, caller⟩ := exit
  obtain ⟨only, -, unique⟩ := inv.waiting i low waits
  have queued : k.Queued q := by
    unfold KernelState.Queued
    rw [type]
    decide
  refine ⟨waits, q, queued, caller, type, fun r queued' caller' => ?_⟩
  exact (unique r ⟨queued', caller'⟩).trans (unique q ⟨queued, caller⟩).symm

/-- The scan so far, from the table `k` to the table `s`: a process is as it was, or was killed because
its lowest signal is `SIGKILL`; where the scan came to one that it would stop at, it was killed. -/
structure Scanned (k s : KernelState δ) (visited : List Nat) : Prop where
  inv : TaskInv s
  keeps : Keeps k s
  started : visited ≠ []
  either : ∀ i, s.procs i = k.procs i ∨ i < maxProc ∧ (k.procs i).Heard ∧ s.HasExit i
  passed : ∀ i ∈ visited.dropLast, (k.procs i).Selectable → s.HasExit i

namespace Scanned

variable {s : KernelState δ} {visited : List Nat} {i : Nat}

theorem same (scanned : Scanned k s visited) (selectable : (s.procs i).Selectable) :
    s.procs i = k.procs i := by
  rcases scanned.either i with same | ⟨-, -, exit⟩
  · exact same
  · exact absurd selectable exit.not_selectable

/-- A process with a fatal signal is killed. -/
theorem kill (scanned : Scanned k s visited) (after : s.currentTask < i) (low : i ≤ maxProc)
    (selectable : (s.procs i).Selectable) (fatal : (s.procs i).Fatal) :
    Scanned k (s.kill i) (i :: visited) := by
  have inv := scanned.inv
  have inTable : i < maxProc := lt_of_le_of_ne low fun atEnd => inv.behind (atEnd ▸ selectable)
  have here : (s.procs i).state ≠ .none := fun none => by
    unfold Process.Selectable at selectable
    simp [none] at selectable
  have queues : TaskInv (s.kill i) ∧ ∃ q, ¬ s.Queued q ∧
      s.kill i = (s.setTask q ⟨.exit, (s.procs i).pid, 0⟩).setState i .kworker :=
    inv.enqueue inTable (by omega) here selectable.not_kworker (by decide)
  obtain ⟨killed, q, free, made⟩ := queues
  have exit : (s.kill i).HasExit i := by
    rw [made]
    refine ⟨by rw [KernelState.setState_self], q, ?_, ?_⟩ <;>
      rw [KernelState.setState_queue, KernelState.setTask_self]
    rw [KernelState.setState_self, KernelState.setTask_procs]
  have still : ∀ j, s.HasExit j → (s.kill i).HasExit j := by
    rintro j ⟨waits, r, type, caller⟩
    have apart : j ≠ i := fun equal => selectable.not_kworker (equal ▸ waits)
    have ne : r ≠ q := fun equal => free (by
      unfold KernelState.Queued
      rw [← equal, type]
      decide)
    unfold KernelState.HasExit
    rw [KernelState.kill_ne s apart]
    refine ⟨waits, r, ?_, ?_⟩ <;> rw [made, KernelState.setState_queue, KernelState.setTask_ne _ _ ne]
    · exact type
    · exact caller
  have keeps : Keeps k (s.kill i) := by
    have same : Keeps k (s.addKernelTask .exit (s.procs i).pid 0) :=
      scanned.keeps.congr (s.addKernelTask_currentTask _ _ _) (s.addKernelTask_procs _ _ _)
    exact same.setState i .kworker
  refine ⟨killed, keeps, List.cons_ne_nil _ _, fun j => ?_, fun j mem stops => ?_⟩
  · by_cases equal : j = i
    · subst equal
      rw [scanned.same selectable, Process.fatal_iff] at fatal
      exact Or.inr ⟨inTable, fatal, exit⟩
    · rw [KernelState.kill_ne s equal]
      exact (scanned.either j).imp_right fun killed => ⟨killed.1, killed.2.1, still j killed.2.2⟩
  · rw [List.dropLast_cons_of_ne_nil scanned.started] at mem
    rcases List.mem_cons.mp mem with rfl | before
    · exact exit
    · exact still j (scanned.passed j before stops)

/-- A process at which the scan does not stop is passed. -/
theorem skip (scanned : Scanned k s visited) (blind : ¬ (s.procs i).Selectable) :
    Scanned k s (i :: visited) := by
  refine ⟨scanned.inv, scanned.keeps, List.cons_ne_nil _ _, scanned.either, fun j mem stops => ?_⟩
  rw [List.dropLast_cons_of_ne_nil scanned.started] at mem
  rcases List.mem_cons.mp mem with rfl | before
  · rcases scanned.either j with same | killed
    · exact absurd (same ▸ stops) blind
    · exact killed.2.2
  · exact scanned.passed j before stops

end Scanned

/-- The end of the scan. -/
theorem TaskInv.scanned (inv : TaskInv k) {fuel : Nat} {tStack frame : InterruptFrame} {seen : List Nat}
    (result : Kernel.resched fuel tStack k = some (.ok (frame, t, seen))) :
    ∃ s next before, Scanned (k.saveFrame tStack) s before ∧ seen = next :: before ∧ next < maxProc ∧
      (s.procs next).Stops ∧ t = s.resume next := by
  obtain ⟨s, next, before, scanned, rfl, stops, place, -, rfl⟩ :=
    resched_keeps (P := fun s visited => Scanned (k.saveFrame tStack) s visited)
      (fun _ _ scanned => scanned.inv.stops)
      (fun _ _ _ scanned after low selectable fatal => scanned.kill after low selectable fatal)
      (fun _ _ _ scanned _ _ blind => scanned.skip blind) inv.low result
      ⟨inv.saveFrame tStack, .refl _, List.cons_ne_nil _ _, fun _ => Or.inl rfl, fun _ mem => by cases mem⟩
  refine ⟨s, next, before, scanned, rfl, ?_, stops, rfl⟩
  rcases place with rfl | ⟨-, low⟩
  · decide
  · exact lt_of_le_of_ne low fun atEnd => scanned.inv.behind (atEnd ▸ stops.1)

/-- **A call of `resched` honours a fatal signal exactly when, if the scan would stop at its process,
`SIGKILL` is the lowest signal of the process.** -/
theorem TaskInv.resched_honours (inv : TaskInv k) {fuel : Nat} {tStack frame : InterruptFrame}
    {seen : List Nat} {i : Nat} (low : i < maxProc)
    (result : Kernel.resched fuel tStack k = some (.ok (frame, t, seen))) :
    Honoured k t seen i ↔ (i ∈ seen.dropLast → (k.procs i).Selectable → (k.procs i).Heard) := by
  obtain ⟨s, next, before, scanned, rfl, inTable, stops, rfl⟩ := inv.scanned result
  have visits : (next :: before).dropLast = next :: before.dropLast :=
    List.dropLast_cons_of_ne_nil scanned.started
  have selects : ∀ j, ((k.saveFrame tStack).procs j).Selectable ↔ (k.procs j).Selectable :=
    k.saveFrame_selectable tStack
  have hears : ∀ j, ((k.saveFrame tStack).procs j).Heard ↔ (k.procs j).Heard := fun j => by
    rw [← Process.fatal_iff, ← Process.fatal_iff, KernelState.saveFrame_fatal]
  have resumed : (k.procs next).Selectable ∧ ¬ (k.procs next).Heard := by
    have same := scanned.same stops.1
    rw [← selects, ← hears, ← same, ← Process.fatal_iff]
    exact stops
  rw [visits]
  unfold Honoured
  rw [KernelState.resume_currentTask]
  constructor
  · rintro ⟨apart, honoured⟩ visited selectable
    have waits := (honoured (visits ▸ visited) selectable).1
    rw [KernelState.resume_ne _ _ (Ne.symm apart)] at waits
    rcases scanned.either i with same | ⟨-, heard, -⟩
    · rw [← selects, ← same] at selectable
      exact absurd waits selectable.not_kworker
    · exact (hears i).mp heard
  · intro heard
    have apart : next ≠ i := by
      rintro rfl
      exact resumed.2 (heard List.mem_cons_self resumed.1)
    refine ⟨apart, fun visited selectable => ?_⟩
    rw [visits] at visited
    have before := (List.mem_cons.mp visited).resolve_left (Ne.symm apart)
    have exit := scanned.passed i before ((selects i).mpr selectable)
    refine (scanned.inv.resume inTable stops.1).1.exiting low ?_
    unfold KernelState.HasExit
    rw [KernelState.resume_ne _ _ (Ne.symm apart), KernelState.resume_queue]
    exact exit

/-- `resched` changes no pid and no signal of a process that is there. -/
theorem TaskInv.resched_process (inv : TaskInv k) {fuel : Nat} {tStack frame : InterruptFrame}
    {seen : List Nat} {i : Nat} (result : Kernel.resched fuel tStack k = some (.ok (frame, t, seen)))
    (here : (k.procs i).state ≠ .none) : (t.procs i).pid = (k.procs i).pid ∧
      (t.procs i).signalsPending = (k.procs i).signalsPending := by
  obtain ⟨s, next, before, scanned, -, -, -, rfl⟩ := inv.scanned result
  have kept := scanned.keeps.process i (by rwa [KernelState.saveFrame_state])
  rw [KernelState.saveFrame_signals, KernelState.saveFrame_pid] at kept
  have same : ((s.resume next).procs i).pid = (s.procs i).pid ∧
      ((s.resume next).procs i).signalsPending = (s.procs i).signalsPending := by
    by_cases equal : i = next
    · rw [equal, KernelState.resume_self]
      exact ⟨rfl, rfl⟩
    · rw [KernelState.resume_ne _ _ equal]
      exact ⟨rfl, rfl⟩
  exact ⟨same.1.trans kept.1, same.2.trans kept.2⟩

/-- **A process keeps its pid and its signals** as long as it is there. -/
theorem TaskSound.step_process (sound : TaskSound k) (step : SafeTaskStep k op t) {i : Nat}
    (low : i < maxProc) (here : (k.procs i).state ≠ .none) : (t.procs i).pid = (k.procs i).pid ∧
      ∃ mask, (t.procs i).signalsPending = (k.procs i).signalsPending ||| mask := by
  obtain ⟨step, safe⟩ := step
  have kept : ∀ {s : KernelState δ}, (s.procs i).pid = (k.procs i).pid ∧
      (s.procs i).signalsPending = (k.procs i).signalsPending → (s.procs i).pid = (k.procs i).pid ∧
      ∃ mask, (s.procs i).signalsPending = (k.procs i).signalsPending ||| mask := fun same =>
    ⟨same.1, 0#16, by rw [same.2, BitVec.or_zero]⟩
  cases op with
  | sys task args tStack =>
    obtain ⟨some, user, fuel, frame, seen, result⟩ := step
    have same : Keeps k (Kernel.sysTask task args k) := Keeps.setState
      ((Keeps.refl k).congr (k.addKernelTask_currentTask _ _ _) (k.addKernelTask_procs _ _ _)) _ _
    have there : ((Kernel.sysTask task args k).procs i).state ≠ .none := by
      unfold Kernel.sysTask
      by_cases equal : i = k.currentTask
      · rw [equal, KernelState.setState_self]
        exact show ProcState.kworker ≠ .none by decide
      · rw [KernelState.setState_ne _ _ equal, KernelState.addKernelTask_procs]
        exact here
    have went := (sound.sysTask some user).resched_process result there
    have first := same.process i here
    exact kept ⟨went.1.trans first.1, went.2.trans first.2⟩
  | kill pid sig =>
    obtain rfl : t = k.sendSig pid sig := step
    obtain ⟨mask, made⟩ := sendSig_procs k pid sig i
    rw [made]
    exact ⟨rfl, mask, rfl⟩
  | resched tStack =>
    obtain ⟨fuel, frame, seen, result⟩ := step
    exact kept (sound.1.resched_process result here)
  | worker cow exe q =>
    obtain ⟨current, returns⟩ := step
    obtain ⟨-, keeps⟩ := sound.1.workerTask safe returns
    exact kept (keeps.process i here)
  | user mm =>
    obtain rfl : t = { k with mm := mm } := step
    exact kept ⟨rfl, rfl⟩
  | behind p =>
    obtain rfl : t = k.setProc maxProc p := step
    rw [KernelState.setProc_ne _ _ (Nat.ne_of_lt low)]
    exact kept ⟨rfl, rfl⟩

/-- The table that `resched` sees is as sound. -/
theorem TaskSound.scheduled (sound : TaskSound k) {v : KernelState δ} {tStack : InterruptFrame}
    (step : TaskStep k op t) (calls : op.scheduled k = some (v, tStack)) : TaskInv v := by
  cases op with
  | sys task args tStack' =>
    obtain ⟨rfl, rfl⟩ := Prod.mk.inj (Option.some.inj calls)
    exact sound.sysTask step.1 step.2.1
  | resched tStack' =>
    obtain ⟨rfl, rfl⟩ := Prod.mk.inj (Option.some.inj calls)
    exact sound.1
  | kill pid sig => cases calls
  | worker cow exe q => cases calls
  | user mm => cases calls
  | behind p => cases calls

end RlCpu.Kernel
