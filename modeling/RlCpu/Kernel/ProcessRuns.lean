/-
**Runs of processes that make system calls, are killed, and wait for files.**

`ProcessOp` adds to `TaskOp` what `try_k_read` and `try_k_write` do to the process table: a system call that
blocks its process (`ProcessOp.transfer`), and an entry of the wait queue that the worker serves at the start of
a pass (`ProcessOp.wake`). `processWaitQEntry` sets the state of its process without a look at it, so a step is
safe only where the process it wakes was not killed while it waited.

* `taskRun_queueOk`: the queue is sound over runs of safe steps.
* `wake_queueOk_iff`: it is not sound after a killed process is woken.
* `kill_worker`: a `SIGKILL` for pid 0 stops the worker.
* `taskRun_fatal`: when fatal signals are honoured over safe runs.
* `sigpipe_ignored`: `SIGPIPE` alone is not honoured.
-/

import RlCpu.Kernel.TaskRuns
import RlCpu.Lib.Runs

namespace RlCpu.Kernel

open RlCpu.Lib

variable {δ : Type}

/-! ### Steps -/

/-- What `try_k_read` and `try_k_write` do to the process they serve. -/
inductive Transferred
  /-- It goes on. -/
  | done
  /-- It is blocked. -/
  | blocked
  /-- Nobody reads the pipe: it gets `SIGPIPE`, and is blocked. -/
  | broken

/-- The tables after `try_k_read` or `try_k_write` for entry `p`, up to the call of `resched`. -/
def KernelState.transferred (k : KernelState δ) (p : Nat) : Transferred → KernelState δ
  | .done => k
  | .blocked => k.setState p .blocked
  | .broken => (k.sendSig (k.procs p).pid (BitVec.ofNat 16 sigPipe)).setState p .blocked

/-- A step. -/
inductive ProcessOp (δ : Type)
  /-- One that leaves the wait queue alone. -/
  | task (op : TaskOp)
  /-- `sys_read` or `sys_write` of the running process, which blocks it. -/
  | transfer (result : Transferred) (tStack : InterruptFrame)
  /-- The worker comes to an entry of the wait queue, of process `pid`: `processWaitQEntry`. -/
  | wake (pid : Word) (result : Transferred)
  /-- Files change. -/
  | files (fs : FsState δ)

/-- The table that `resched` sees, if the step calls it. -/
def ProcessOp.scheduled (k : KernelState δ) : ProcessOp δ → Option (KernelState δ × InterruptFrame)
  | .task op => op.scheduled k
  | .transfer result tStack => some (k.transferred k.currentTask result, tStack)
  | _ => none

/-- The step `op` leads from `k` to `t`. The worker makes no system calls, so no entry of the wait queue is
of entry 0. -/
def ProcessStep (k : KernelState δ) (op : ProcessOp δ) (t : KernelState δ) : Prop :=
  match op with
  | .task op => TaskStep k op t
  | .transfer result tStack => k.currentTask ≠ 0 ∧
      ∃ fuel frame seen,
        Kernel.resched fuel tStack (k.transferred k.currentTask result) = some (.ok (frame, t, seen))
  | .wake pid result => k.currentTask = 0 ∧ ∃ p, p ≠ 0 ∧ k.findProcByPid pid = some p ∧
      t = (k.setState p .run).transferred p result
  | .files fs => t = { k with fs := fs }

/-- **What a step must meet**: a process that is woken does not wait for the worker. -/
def ProcessOp.Safe (k : KernelState δ) : ProcessOp δ → Prop
  | .task op => op.Safe k
  | .wake pid _ => ∀ p ∈ k.findProcByPid pid, (k.procs p).state ≠ .kworker
  | _ => True

/-- Safe steps. -/
def SafeProcessStep (k : KernelState δ) (op : ProcessOp δ) (t : KernelState δ) : Prop :=
  ProcessStep k op t ∧ op.Safe k

variable {k t : KernelState δ} {op : ProcessOp δ} {ops : List (ProcessOp δ)}

/-! ### One step -/

/-- A process that is there is found by its pid. -/
theorem TaskInv.findProcByPid (inv : TaskInv k) {p : Nat} (low : p < maxProc)
    (here : (k.procs p).state ≠ .none) : k.findProcByPid (k.procs p).pid = some p := by
  cases found : k.findProcByPid (k.procs p).pid with
  | none => exact absurd (KernelState.findProcByPid_none found low rfl) here
  | some i =>
    obtain ⟨low', pid, here'⟩ := KernelState.findProcByPid_some found
    rw [inv.pids i low' p low here' here pid]

/-- Pids stay, signals are added, and the states of other processes stay. -/
theorem transferred_procs (k : KernelState δ) (p : Nat) (result : Transferred) (i : Nat) :
    ((k.transferred p result).procs i).pid = (k.procs i).pid ∧
      (∃ mask, ((k.transferred p result).procs i).signalsPending = (k.procs i).signalsPending ||| mask) ∧
      (i ≠ p → ((k.transferred p result).procs i).state = (k.procs i).state) := by
  have set : ∀ s : KernelState δ, ((s.setState p .blocked).procs i).pid = (s.procs i).pid ∧
      ((s.setState p .blocked).procs i).signalsPending = (s.procs i).signalsPending ∧
      (i ≠ p → ((s.setState p .blocked).procs i).state = (s.procs i).state) := fun s => by
    by_cases equal : i = p
    · subst equal
      rw [KernelState.setState_self]
      exact ⟨rfl, rfl, fun apart => absurd rfl apart⟩
    · rw [KernelState.setState_ne _ _ equal]
      exact ⟨rfl, rfl, fun _ => rfl⟩
  cases result with
  | done => exact ⟨rfl, ⟨0#16, by rw [BitVec.or_zero]; rfl⟩, fun _ => rfl⟩
  | blocked =>
    obtain ⟨pid, signals, state⟩ := set k
    exact ⟨pid, ⟨0#16, by rw [BitVec.or_zero]; exact signals⟩, state⟩
  | broken =>
    obtain ⟨pid, signals, state⟩ := set (k.sendSig (k.procs p).pid (BitVec.ofNat 16 sigPipe))
    obtain ⟨mask, made⟩ := sendSig_procs k (k.procs p).pid (BitVec.ofNat 16 sigPipe) i
    rw [made] at pid signals state
    exact ⟨pid, ⟨mask, signals⟩, state⟩

theorem transferred_currentTask (k : KernelState δ) (p : Nat) (result : Transferred) :
    (k.transferred p result).currentTask = k.currentTask := by
  cases result with
  | done | blocked => rfl
  | broken => exact (sendSig_rest k _ _).1

/-- The process that is served is there, and does not wait for the worker. -/
theorem transferred_served {p : Nat} (here : (k.procs p).state ≠ .none) (idle : (k.procs p).state ≠ .kworker)
    (result : Transferred) : ((k.transferred p result).procs p).state ≠ .none ∧
      ((k.transferred p result).procs p).state ≠ .kworker := by
  cases result with
  | done => exact ⟨here, idle⟩
  | blocked | broken =>
    unfold KernelState.transferred
    rw [KernelState.setState_self]
    exact ⟨show ProcState.blocked ≠ .none by decide, show ProcState.blocked ≠ .kworker by decide⟩

/-- **A transfer for a process that the worker does not serve** keeps the invariant. -/
theorem TaskInv.transferred (inv : TaskInv k) {p : Nat} (low : p < maxProc) (other : p ≠ 0)
    (here : (k.procs p).state ≠ .none) (idle : (k.procs p).state ≠ .kworker) (result : Transferred) :
    TaskInv (k.transferred p result) := by
  have block : ∀ s : KernelState δ, TaskInv s → (s.procs p).state = (k.procs p).state →
      TaskInv (s.setState p .blocked) := fun s inv same =>
    inv.alter low other (by rwa [same]) (by rwa [same]) rfl (show ProcState.blocked ≠ .kworker by decide)
  cases result with
  | done => exact inv
  | blocked => exact block k inv rfl
  | broken =>
    obtain ⟨mask, made⟩ := sendSig_procs k (k.procs p).pid (BitVec.ofNat 16 sigPipe) p
    refine block _ (inv.sendSig _ _ ?_) (by rw [made])
    -- the signal is for `p`
    unfold KernelState.sendSig
    rw [inv.findProcByPid low here]
    dsimp only
    rw [KernelState.setProc_ne _ _ other.symm]
    exact inv.calm

/-- The table that `resched` sees is sound. -/
theorem TaskSound.transferred (sound : TaskSound k) (user : k.currentTask ≠ 0) (result : Transferred) :
    TaskInv (k.transferred k.currentTask result) :=
  sound.1.transferred sound.1.low user sound.2.1 sound.2.2 result

/-- **A process is woken.** -/
theorem TaskInv.wake (inv : TaskInv k) {pid : Word} {p : Nat} (other : p ≠ 0) (found : k.findProcByPid pid = some p)
    (idle : (k.procs p).state ≠ .kworker) (result : Transferred) :
    TaskInv ((k.setState p .run).transferred p result) := by
  obtain ⟨low, -, here⟩ := KernelState.findProcByPid_some found
  have ready : ((k.setState p .run).procs p).state = .run := by rw [KernelState.setState_self]
  have woken : TaskInv (k.setState p .run) :=
    inv.alter low other here idle rfl (show ProcState.run ≠ .kworker by decide)
  exact woken.transferred low other (by rw [ready]; decide) (by rw [ready]; decide) result

/-- **One step.** -/
theorem TaskSound.processStep (sound : TaskSound k) (step : SafeProcessStep k op t) : TaskSound t := by
  obtain ⟨step, safe⟩ := step
  cases op with
  | task op => exact sound.step ⟨step, safe⟩
  | transfer result tStack =>
    obtain ⟨user, fuel, frame, seen, returns⟩ := step
    exact (sound.transferred user result).resched returns
  | wake pid result =>
    obtain ⟨current, p, other, found, rfl⟩ := step
    have inv := sound.1.wake other found (safe p found) result
    refine ⟨inv, inv.worker_running ?_⟩
    rw [transferred_currentTask]
    exact current
  | files fs =>
    obtain rfl : t = { k with fs := fs } := step
    exact ⟨sound.1.congr sound.1.low rfl (fun _ _ => ⟨rfl, rfl⟩) rfl sound.1.behind, sound.2⟩

/-- A run of safe steps. -/
theorem TaskSound.run (run : Run SafeProcessStep k ops t) (sound : TaskSound k) : TaskSound t :=
  run.preserves (fun _ _ _ sound step => TaskSound.processStep sound step) sound

/-- **The queue over runs**: from a consistent state with an empty queue, in every state that a run of
safe steps leads to, the worker is ready, each process that waits for it has exactly one entry in the
queue, each entry is of a process that waits, and the queue has room for one more. -/
theorem taskRun_queueOk (start : Consistent k) (safe : Unthreatened k) (run : Run SafeProcessStep k ops t) :
    QueueOk t := (TaskSound.run run (start.taskSound safe)).1.queueOk

/-- **When a wake keeps the queue sound**: the entry of a process that was killed while it waited stays in the
queue, and nobody waits for it. -/
theorem wake_queueOk_iff {pid : Word} {result : Transferred} (sound : TaskSound k)
    (step : ProcessStep k (.wake pid result) t) : QueueOk t ↔ ProcessOp.Safe k (.wake pid result) := by
  constructor
  swap
  · exact fun safe => (sound.processStep ⟨step, safe⟩).1.queueOk
  obtain ⟨current, p, other, found, rfl⟩ := step
  intro ok p' found' waits
  obtain rfl := Option.some.inj (found.symm.trans found')
  obtain ⟨low, -, here⟩ := KernelState.findProcByPid_some found
  have inv := sound.1
  obtain ⟨q, ⟨queued, caller⟩, -⟩ := inv.waiting p low waits
  have queue : ((k.setState p .run).transferred p result).kernelTaskQueue = k.kernelTaskQueue := by
    cases result with
    | done | blocked => rfl
    | broken => exact (sendSig_rest (k.setState p .run) _ _).2
  obtain ⟨i, low', waits', pid'⟩ := ok.served q (by unfold KernelState.Queued; rw [queue]; exact queued)
  have ready : ((k.setState p .run).procs p).state = .run := by rw [KernelState.setState_self]
  have apart : i ≠ p := by
    rintro rfl
    exact (transferred_served (by rw [ready]; decide) (by rw [ready]; decide) result).2 waits'
  obtain ⟨pids, -, states⟩ := transferred_procs (k.setState p .run) p result i
  rw [states apart, KernelState.setState_ne _ _ apart] at waits'
  rw [pids, KernelState.setState_ne _ _ apart, queue, caller] at pid'
  exact apart (inv.pids i low' p low (by rw [waits']; decide) here pid')

/-! ### Steps performed -/

/-- A step performed; `none` where it does not return. -/
def ProcessOp.perform (k : KernelState δ) : ProcessOp δ → Option (KernelState δ)
  | .task op => op.perform k
  | .transfer result tStack =>
      if k.currentTask ≠ 0 then
        match Kernel.resched 20 tStack (k.transferred k.currentTask result) with
        | some (.ok (_, t, _)) => some t
        | _ => none
      else none
  | .wake pid result =>
      if k.currentTask = 0 then
        match k.findProcByPid pid with
        | some p => if p ≠ 0 then some ((k.setState p .run).transferred p result) else none
        | none => none
      else none
  | .files fs => some { k with fs := fs }

theorem ProcessOp.perform_step (performed : op.perform k = some t) : ProcessStep k op t := by
  cases op with
  | task op => exact TaskOp.perform_taskStep performed
  | transfer result tStack =>
    dsimp only [perform] at performed
    split at performed
    case isFalse => cases performed
    case isTrue user =>
      split at performed
      case h_2 => cases performed
      case h_1 frame u seen returns =>
        obtain rfl := Option.some.inj performed
        exact ⟨user, 20, frame, seen, returns⟩
  | wake pid result =>
    dsimp only [perform] at performed
    split at performed
    case isFalse => cases performed
    case isTrue current =>
      split at performed
      case h_2 => cases performed
      case h_1 p found =>
        split at performed
        case isFalse => cases performed
        case isTrue other => exact ⟨current, p, other, found, (Option.some.inj performed).symm⟩
  | files fs => exact (Option.some.inj performed).symm

instance : Decidable k.FreshPid := inferInstanceAs (Decidable (∀ i < maxProc, _ → _))

instance : (op : TaskOp) → Decidable (op.Safe k)
  | .kill _ _ => inferInstanceAs (Decidable (¬ _))
  | .worker _ _ _ => inferInstanceAs (Decidable (_ → k.FreshPid))
  | .behind _ => inferInstanceAs (Decidable (¬ _))
  | .sys _ _ _ | .resched _ | .user _ => isTrue trivial

instance : (op : ProcessOp δ) → Decidable (op.Safe k)
  | .task op => inferInstanceAs (Decidable (op.Safe k))
  | .wake _ _ => inferInstanceAs (Decidable (∀ p ∈ _, _))
  | .transfer _ _ | .files _ => isTrue trivial

/-- A safe step performed. -/
def performSafe (k : KernelState δ) (op : ProcessOp δ) : Option (KernelState δ) :=
  if op.Safe k then op.perform k else none

theorem performSafe_step (performed : performSafe k op = some t) : SafeProcessStep k op t := by
  unfold performSafe at performed
  split at performed
  case isFalse => cases performed
  case isTrue safe => exact ⟨ProcessOp.perform_step performed, safe⟩

/-- Process 1 forks and waits for a file; its child exits; process 1 is woken and waits for the child. -/
def servedOps : List (ProcessOp Unit) :=
  [.task (.sys .fork 0 someFrame), .task (.worker false none 0), .task (.resched someFrame),
    .transfer .blocked someFrame, .task (.sys .exit 0 someFrame), .wake 1 .done, .task (.worker false none 0),
    .task (.resched someFrame), .task (.sys .waitpid 0 someFrame), .task (.worker false none 0)]

/-- The worker serves a fork, an exit and a `waitpid`: process 1 is ready, and its child is gone. -/
theorem taskRun_queueOk_served : ∃ t, Run SafeProcessStep bootUser servedOps t ∧
    ((t.procs 1).state = .run ∧ (t.procs 2).state = .none ∧ t.nextPid = 15) ∧ QueueOk t := by
  obtain ⟨start, safe⟩ := boot_consistent bootUser rfl rfl le_rfl
  have check : (performAll performSafe bootUser servedOps).any (fun t =>
      decide ((t.procs 1).state = .run ∧ (t.procs 2).state = .none ∧ t.nextPid = 15)) = true := by decide +kernel
  obtain ⟨t, run, passed⟩ := Run.of_check (fun _ _ _ => performSafe_step) check
  exact ⟨t, run, of_decide_eq_true passed, taskRun_queueOk start safe run⟩

/-! ### The worker can be killed -/

/-- **A `SIGKILL` for pid 0 stops the worker**: the next call of `resched` queues an exit of pid 0, and
leaves entry 0 waiting for itself. -/
theorem kill_worker : Consistent bootUser ∧ Unthreatened bootUser ∧
    ∃ ops t, Run ProcessStep bootUser ops t ∧ ¬ QueueOk t := by
  obtain ⟨start, safe⟩ := boot_consistent bootUser rfl rfl le_rfl
  obtain ⟨frame, t, seen, result, state⟩ := resched_of_check (k := bootUser.sendSig 0 3) (f := 20)
    (s := someFrame) (p := fun t _ => decide ((t.procs 0).state = .kworker)) (by decide)
  refine ⟨start, safe, [.task (.kill 0 3), .task (.resched someFrame)], t,
    .cons rfl (.single ⟨20, frame, seen, result⟩), fun sound => ?_⟩
  have waits : (t.procs 0).state = .kworker := of_decide_eq_true state
  rw [sound.worker] at waits
  cases waits

/-! ### Fatal signals -/

/-- **A process keeps its pid and its signals** as long as it is there. -/
theorem TaskSound.processStep_process (sound : TaskSound k) (step : SafeProcessStep k op t) {i : Nat}
    (low : i < maxProc) (here : (k.procs i).state ≠ .none) : (t.procs i).pid = (k.procs i).pid ∧
      ∃ mask, (t.procs i).signalsPending = (k.procs i).signalsPending ||| mask := by
  obtain ⟨step, safe⟩ := step
  cases op with
  | task op => exact sound.step_process ⟨step, safe⟩ low here
  | transfer result tStack =>
    obtain ⟨user, fuel, frame, seen, returns⟩ := step
    obtain ⟨pid, ⟨mask, signals⟩, states⟩ := transferred_procs k k.currentTask result i
    have there : ((k.transferred k.currentTask result).procs i).state ≠ .none := by
      by_cases equal : i = k.currentTask
      · subst equal
        exact (transferred_served here sound.2.2 result).1
      · rw [states equal]
        exact here
    have went := (sound.transferred user result).resched_process returns there
    exact ⟨went.1.trans pid, mask, went.2.trans signals⟩
  | wake pid result =>
    obtain ⟨current, p, other, found, rfl⟩ := step
    obtain ⟨pids, ⟨mask, signals⟩, -⟩ := transferred_procs (k.setState p .run) p result i
    have same : ((k.setState p .run).procs i).pid = (k.procs i).pid ∧
        ((k.setState p .run).procs i).signalsPending = (k.procs i).signalsPending := by
      by_cases equal : i = p
      · rw [equal, KernelState.setState_self]
        exact ⟨rfl, rfl⟩
      · rw [KernelState.setState_ne _ _ equal]
        exact ⟨rfl, rfl⟩
    rw [same.1] at pids
    rw [same.2] at signals
    exact ⟨pids, mask, signals⟩
  | files fs =>
    obtain rfl : t = { k with fs := fs } := step
    exact ⟨rfl, 0#16, by rw [BitVec.or_zero]⟩

/-- A safe step after which entry `i` still holds a process. -/
def StepWith (i : Nat) (k : KernelState δ) (op : ProcessOp δ) (t : KernelState δ) : Prop :=
  SafeProcessStep k op t ∧ (t.procs i).state ≠ .none

/-- The table that `resched` sees is sound. -/
theorem TaskSound.schedules (sound : TaskSound k) {v : KernelState δ} {tStack : InterruptFrame}
    (step : ProcessStep k op t) (calls : op.scheduled k = some (v, tStack)) : TaskInv v := by
  cases op with
  | task op => exact sound.scheduled step calls
  | transfer result tStack' =>
    obtain ⟨rfl, rfl⟩ := Prod.mk.inj (Option.some.inj calls)
    exact sound.transferred step.1 result
  | wake pid result => cases calls
  | files fs => cases calls

/-- **Fatal signals over runs**: once `SIGKILL` or `SIGPIPE` is pending for a process, it stays so as long
as the process is there, and each call of `resched` honours it exactly when, if the scan would stop at
the process, `SIGKILL` is its lowest pending signal. -/
theorem taskRun_fatal {s u v : KernelState δ} {before after : List (ProcessOp δ)} {tStack frame : InterruptFrame}
    {fuel i : Nat} {seen : List Nat} (start : Consistent k) (safe : Unthreatened k)
    (reached : Run SafeProcessStep k before s) (low : i < maxProc) (here : (s.procs i).state ≠ .none)
    (doomed : (s.procs i).Doomed) (later : Run (StepWith i) s after u) (step : ProcessStep u op t)
    (calls : op.scheduled u = some (v, tStack))
    (result : Kernel.resched fuel tStack v = some (.ok (frame, t, seen))) :
    (u.procs i).Doomed ∧
      (Honoured v t seen i ↔ (i ∈ seen.dropLast → (v.procs i).Selectable → (v.procs i).Heard)) := by
  have sound := TaskSound.run reached (start.taskSound safe)
  have keep : ∀ (s : KernelState δ) (op : ProcessOp δ) (t : KernelState δ),
      TaskSound s ∧ (s.procs i).state ≠ .none ∧ (s.procs i).Doomed → StepWith i s op t →
      TaskSound t ∧ (t.procs i).state ≠ .none ∧ (t.procs i).Doomed := by
    rintro s op t ⟨sound, here, doomed⟩ ⟨step, still⟩
    obtain ⟨-, mask, signals⟩ := sound.processStep_process step low here
    exact ⟨sound.processStep step, still, doomed.or signals⟩
  have kept := later.preserves keep ⟨sound, here, doomed⟩
  exact ⟨kept.2.2, (kept.1.schedules step calls).resched_honours low result⟩

/-- **`SIGPIPE` is ignored**: the process it is pending for is the next to run. -/
theorem sigpipe_ignored : Consistent (bootKernel [1]) ∧ Unthreatened (bootKernel [1]) ∧
    ∃ s t frame seen, Run SafeProcessStep (bootKernel [1]) [.task (.kill 1 5)] s ∧ (s.procs 1).Doomed ∧
      resched 20 someFrame s = some (.ok (frame, t, seen)) ∧ ¬ Honoured s t seen 1 := by
  obtain ⟨start, safe⟩ := boot_consistent (bootKernel [1]) rfl rfl (by decide)
  obtain ⟨frame, t, seen, result, current⟩ := resched_of_check (k := (bootKernel [1]).sendSig 1 5)
    (f := 20) (s := someFrame) (p := fun t _ => decide (t.currentTask = 1)) (by decide)
  refine ⟨start, safe, _, t, frame, seen, .single ⟨rfl, ?_⟩, Or.inr (by decide), result, fun honoured => ?_⟩
  · show ¬ (((bootKernel [1]).sendSig 1 5).procs 0).Fatal
    decide
  · exact honoured.1 (of_decide_eq_true current)

/-- Process 1 writes to a pipe that nobody reads, and is killed while it is blocked: `SIGKILL` is honoured. -/
theorem taskRun_fatal_sigkill : ∃ s t frame seen,
    Run SafeProcessStep bootUser [.transfer .broken someFrame, .task (.kill 1 3)] s ∧
    resched 20 someFrame s = some (.ok (frame, t, seen)) ∧ 1 ∈ seen.dropLast ∧ (s.procs 1).Selectable ∧
    Honoured s t seen 1 := by
  obtain ⟨start, safe⟩ := boot_consistent bootUser rfl rfl le_rfl
  have check : (performAll performSafe bootUser [.transfer .broken someFrame]).any (fun s =>
      decide ((s.procs 1).state ≠ .none ∧ (s.procs 1).signalsPending.getLsbD sigPipe = true ∧
        ¬ ((s.sendSig 1 3).procs 0).Fatal ∧ ((s.sendSig 1 3).procs 1).state ≠ .none ∧
        ((s.sendSig 1 3).procs 1).Selectable ∧ ((s.sendSig 1 3).procs 1).Fatal) &&
      reschedChecks 20 someFrame (fun _ seen => decide (1 ∈ seen.dropLast)) (s.sendSig 1 3)) = true := by
    decide +kernel
  obtain ⟨s, reached, check⟩ := Run.of_check (fun _ _ _ => performSafe_step) check
  rw [Bool.and_eq_true, decide_eq_true_eq] at check
  obtain ⟨⟨here, pipe, calm, still, selectable, fatal⟩, scan⟩ := check
  obtain ⟨frame, t, seen, result, came⟩ := resched_of_check scan
  have killed : SafeProcessStep s (.task (.kill 1 3)) (s.sendSig 1 3) := ⟨rfl, calm⟩
  have later : ProcessStep (s.sendSig 1 3) (.task (.resched someFrame)) t := ⟨20, frame, seen, result⟩
  have honours := taskRun_fatal start safe reached (show 1 < maxProc by decide) here (Or.inr pipe)
    (.single ⟨killed, still⟩) later rfl result
  refine ⟨_, t, frame, seen, reached.append (.single killed), result, of_decide_eq_true came, selectable, ?_⟩
  exact honours.2.mpr fun _ _ => (Process.fatal_iff _).mp fatal

end RlCpu.Kernel
