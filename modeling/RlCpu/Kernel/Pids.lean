/-
**Process identity (`sched_genPid`, `findProcByPid`, `do_fork`).**

A pid is the number that follows the last one, in 16 bits, whether a process still has it or not.

`PidsOk k`: the processes have different pids, and only the worker has pid 0. `SamePids k t`: no process came, went or
changed its pid. `NoSpawn k t`: none came or changed its pid. `Spawned k t`: one came, with the next pid.

* `workerTask_pids`: a task of the worker spawns nothing, or a process with the next pid.
* `pidRun_ok_iff`: identity is kept exactly by spawns whose pid is free and not 0.
* `pidRun_wraps`: after 65535 spawns the next process has pid 0.
-/

import RlCpu.Kernel.Fork
import RlCpu.Kernel.TaskRuns

namespace RlCpu.Kernel

open RlCpu.Lib

variable {δ : Type}

/-! ### What happens to the pids -/

/-- **Processes are told by their pids.** -/
structure PidsOk (k : KernelState δ) : Prop where
  distinct : ∀ i < maxProc, ∀ j < maxProc, (k.procs i).state ≠ .none → (k.procs j).state ≠ .none →
    (k.procs i).pid = (k.procs j).pid → i = j
  worker : ∀ i < maxProc, (k.procs i).state ≠ .none → (k.procs i).pid = 0 → i = 0
  found : ∀ i < maxProc, (k.procs i).state ≠ .none → k.findProcByPid (k.procs i).pid = some i

/-- No process came, went or changed its pid. -/
structure SamePids (k t : KernelState δ) : Prop where
  nextPid : t.nextPid = k.nextPid
  pid : ∀ i, (t.procs i).pid = (k.procs i).pid
  live : ∀ i, (t.procs i).state = .none ↔ (k.procs i).state = .none

/-- No process came or changed its pid. -/
structure NoSpawn (k t : KernelState δ) : Prop where
  nextPid : t.nextPid = k.nextPid
  live : ∀ i < maxProc, (t.procs i).state ≠ .none →
    (k.procs i).state ≠ .none ∧ (t.procs i).pid = (k.procs i).pid

/-- **One process came**, with the next pid. -/
structure Spawned (k t : KernelState δ) (j : Nat) : Prop where
  low : j < maxProc
  free : (k.procs j).state = .none
  live : (t.procs j).state ≠ .none
  pid : (t.procs j).pid = k.nextPid + 1
  nextPid : t.nextPid = k.nextPid + 1
  others : ∀ i, i ≠ j → (t.procs i).pid = (k.procs i).pid ∧
    ((t.procs i).state = .none ↔ (k.procs i).state = .none)

/-- The next pid is not 0, and no process has it. -/
def KernelState.NextPidFree (k : KernelState δ) : Prop :=
  k.nextPid + 1 ≠ 0 ∧ ∀ i < maxProc, (k.procs i).state ≠ .none → (k.procs i).pid ≠ k.nextPid + 1

variable {k s t : KernelState δ} {i j : Nat} {p : Process} {q : Fin maxQueueSize}

namespace SamePids

theorem refl (k : KernelState δ) : SamePids k k := ⟨rfl, fun _ => rfl, fun _ => Iff.rfl⟩

theorem trans (first : SamePids k s) (second : SamePids s t) : SamePids k t :=
  ⟨second.nextPid.trans first.nextPid, fun i => (second.pid i).trans (first.pid i),
    fun i => (second.live i).trans (first.live i)⟩

theorem quiet (steady : SamePids k t) : NoSpawn k t :=
  ⟨steady.nextPid, fun i _ here => ⟨fun none => here ((steady.live i).mpr none), steady.pid i⟩⟩

theorem congr (steady : SamePids k s) (procs : t.procs = s.procs) (nextPid : t.nextPid = s.nextPid) : SamePids k t :=
  steady.trans ⟨nextPid, fun i => by rw [procs], fun i => by rw [procs]⟩

/-- An entry changed but for its pid and whether it is in use. -/
theorem setProc (steady : SamePids k s) (pid : p.pid = (s.procs i).pid)
    (live : p.state = .none ↔ (s.procs i).state = .none) : SamePids k (s.setProc i p) := by
  refine steady.trans ⟨rfl, fun j => ?_, fun j => ?_⟩ <;> by_cases same : j = i
  · rw [same, KernelState.setProc_self, pid]
  · rw [KernelState.setProc_ne _ _ same]
  · rw [same, KernelState.setProc_self, live]
  · rw [KernelState.setProc_ne _ _ same]

/-- A process in use goes to a state in use. -/
theorem setState (steady : SamePids k s) {state : ProcState} (here : (s.procs i).state ≠ .none)
    (some : state ≠ .none) : SamePids k (s.setState i state) :=
  steady.setProc rfl (iff_of_false some here)

/-- A state changes no pid. -/
theorem pid_setState (steady : SamePids k s) (c : Nat) (state : ProcState) (i : Nat) :
    ((s.setState c state).procs i).pid = (k.procs i).pid := by
  by_cases own : i = c
  · rw [own, KernelState.setState_self]
    exact steady.pid c
  · rw [KernelState.setState_ne _ _ own]
    exact steady.pid i

theorem endTask (steady : SamePids k s) (q : Fin maxQueueSize) : SamePids k (s.endTask q) := steady.congr rfl rfl

theorem setMm (steady : SamePids k s) (mm : Mm) : SamePids k { s with mm := mm } := steady.congr rfl rfl

end SamePids

namespace NoSpawn

theorem trans (first : NoSpawn k s) (second : NoSpawn s t) : NoSpawn k t := by
  refine ⟨second.nextPid.trans first.nextPid, fun i low here => ?_⟩
  obtain ⟨here', pid⟩ := second.live i low here
  obtain ⟨here'', pid'⟩ := first.live i low here'
  exact ⟨here'', pid.trans pid'⟩

/-- An entry is given back. -/
theorem freed (k : KernelState δ) (i : Nat) : NoSpawn k (k.setState i .none) := by
  refine ⟨rfl, fun j _ here => ?_⟩
  by_cases same : j = i
  · rw [same, KernelState.setState_self] at here
    exact absurd rfl here
  · rw [KernelState.setState_ne _ _ same] at here ⊢
    exact ⟨here, rfl⟩

end NoSpawn

/-- What follows a spawn without a spawn. -/
theorem Spawned.steady (spawned : Spawned k s j) (steady : SamePids s t) : Spawned k t j := by
  refine ⟨spawned.low, spawned.free, fun none => spawned.live ((steady.live j).mp none),
    (steady.pid j).trans spawned.pid, steady.nextPid.trans spawned.nextPid, fun i ne => ?_⟩
  obtain ⟨pid, live⟩ := spawned.others i ne
  exact ⟨(steady.pid i).trans pid, (steady.live i).trans live⟩

/-- `findProcByPid` finds a process that is the only one with its pid. -/
theorem found_of_distinct (distinct : ∀ i < maxProc, ∀ j < maxProc, (k.procs i).state ≠ .none →
    (k.procs j).state ≠ .none → (k.procs i).pid = (k.procs j).pid → i = j) (low : i < maxProc)
    (here : (k.procs i).state ≠ .none) : k.findProcByPid (k.procs i).pid = some i := by
  cases found : k.findProcByPid (k.procs i).pid with
  | none => exact absurd (KernelState.findProcByPid_none found low rfl) here
  | some j =>
    obtain ⟨low', pid, here'⟩ := KernelState.findProcByPid_some found
    rw [distinct j low' i low here' here pid]

theorem PidsOk.of_distinct (distinct : ∀ i < maxProc, ∀ j < maxProc, (k.procs i).state ≠ .none →
    (k.procs j).state ≠ .none → (k.procs i).pid = (k.procs j).pid → i = j)
    (worker : ∀ i < maxProc, (k.procs i).state ≠ .none → (k.procs i).pid = 0 → i = 0) : PidsOk k :=
  ⟨distinct, worker, fun _ low here => found_of_distinct distinct low here⟩

/-- **Without a spawn identity is kept.** -/
theorem PidsOk.quiet (ok : PidsOk k) (quiet : NoSpawn k t) : PidsOk t := by
  refine .of_distinct (fun i low j low' here here' same => ?_) fun i low here zero => ?_
  · obtain ⟨live, pid⟩ := quiet.live i low here
    obtain ⟨live', pid'⟩ := quiet.live j low' here'
    exact ok.distinct i low j low' live live' (pid.symm.trans (same.trans pid'))
  · obtain ⟨live, pid⟩ := quiet.live i low here
    exact ok.worker i low live (pid.symm.trans zero)

/-- **With a spawn it is kept if and only if the next pid is free.** The worker is there, so the new process is not in
its entry. -/
theorem PidsOk.spawned_iff (ok : PidsOk k) (spawned : Spawned k t j) (other : j ≠ 0) :
    PidsOk t ↔ k.NextPidFree := by
  constructor
  · intro ok'
    refine ⟨fun zero => ?_, fun i low here same => ?_⟩
    · exact other (ok'.worker j spawned.low spawned.live (spawned.pid.trans zero))
    · have ne : i ≠ j := fun equal => here (equal ▸ spawned.free)
      obtain ⟨pid, live⟩ := spawned.others i ne
      have here' : (t.procs i).state ≠ .none := fun none => here (live.mp none)
      exact ne (ok'.distinct i low j spawned.low here' spawned.live (pid.trans (same.trans spawned.pid.symm)))
  · rintro ⟨some, free⟩
    have old : ∀ i < maxProc, i ≠ j → (t.procs i).state ≠ .none →
        (k.procs i).state ≠ .none ∧ (t.procs i).pid = (k.procs i).pid := fun i low ne here => by
      obtain ⟨pid, live⟩ := spawned.others i ne
      exact ⟨fun none => here (live.mpr none), pid⟩
    have fresh : ∀ i < maxProc, i ≠ j → (t.procs i).state ≠ .none → (t.procs i).pid ≠ (t.procs j).pid := by
      intro i low ne here same
      obtain ⟨live, pid⟩ := old i low ne here
      exact free i low live (pid.symm.trans (same.trans spawned.pid))
    refine .of_distinct (fun i low l low' here here' same => ?_) fun i low here zero => ?_
    · by_cases first : i = j <;> by_cases second : l = j
      · exact first.trans second.symm
      · exact absurd (first ▸ same.symm) (fresh l low' second here')
      · exact absurd (second ▸ same) (fresh i low first here)
      · obtain ⟨live, pid⟩ := old i low first here
        obtain ⟨live', pid'⟩ := old l low' second here'
        exact ok.distinct i low l low' live live' (pid.symm.trans (same.trans pid'))
    · by_cases first : i = j
      · rw [first, spawned.pid] at zero
        exact absurd zero some
      · obtain ⟨live, pid⟩ := old i low first here
        exact ok.worker i low live (pid.symm.trans zero)

/-! ### The tasks of the worker -/

variable {task : TaskType} {args : Word} {cow : Bool} {exe : Option Executable}

/-- `do_fork` spawns. -/
theorem doFork_spawned {clone : Bool} (here : (k.procs i).state ≠ .none)
    (returns : doFork cow i clone k = .ok (some (j, t))) : Spawned k t j := by
  obtain ⟨low, free, selector, mm, fs, rfl⟩ := doFork_ok here returns
  have new : (k.setProc j (forked (k.procs i) i (k.nextPid + 1) selector clone)).procs j =
      forked (k.procs i) i (k.nextPid + 1) selector clone := KernelState.setProc_self _ _ _
  refine ⟨low, free, ?_, ?_, rfl, fun l ne => ?_⟩
  · show ((k.setProc j _).procs j).state ≠ .none
    rw [new]
    exact ProcState.noConfusion
  · show ((k.setProc j _).procs j).pid = _
    rw [new]
    rfl
  · show ((k.setProc j _).procs l).pid = _ ∧ (((k.setProc j _).procs l).state = .none ↔ _)
    rw [KernelState.setProc_ne _ _ ne]
    exact ⟨rfl, Iff.rfl⟩

/-- A fork gives up where the table is full. -/
theorem doFork_none {clone : Bool} : doFork cow i clone k = .ok none ↔ ¬ k.SlotFree := by
  rw [← getFreeProc_returns]
  unfold doFork
  cases found : k.getFreeProc with
  | none => exact iff_of_true rfl fun ⟨_, _, _, clash⟩ => by cases clash
  | some v =>
    obtain ⟨l, s⟩ := v
    obtain ⟨low, free, rfl⟩ := KernelState.getFreeProc_some found
    refine iff_of_false (fun clash => ?_) fun none => none ⟨l, low, free, rfl⟩
    obtain ⟨_, -, rest⟩ := bind_ok clash
    cases rest

/-- A task of the worker that makes a process. -/
structure Spawns (k : KernelState δ) (q : Fin maxQueueSize) : Prop where
  type : (k.kernelTaskQueue q).type = .fork ∨ (k.kernelTaskQueue q).type = .clone
  caller : k.findProcByPid (k.kernelTaskQueue q).callerPid ≠ none
  slot : k.SlotFree

/-- **`do_kernel_task_fork`** -/
theorem taskFork_pids (fork : (k.kernelTaskQueue q).type = .fork) (returns : taskFork cow q k = .ok t) :
    (Spawns k q ∧ ∃ j, Spawned k t j) ∨ (¬ Spawns k q ∧ NoSpawn k t) := by
  unfold taskFork at returns
  dsimp only at returns
  split at returns
  case h_1 missing =>
    obtain rfl := Except.ok.inj returns
    exact Or.inr ⟨fun spawns => spawns.caller missing, (SamePids.refl k).quiet⟩
  case h_2 i found =>
    obtain ⟨-, -, here⟩ := KernelState.findProcByPid_some found
    obtain ⟨made, forks, rest⟩ := bind_ok returns
    cases made with
    | none =>
      dsimp only at rest
      split at rest
      · obtain rfl := Except.ok.inj rest
        exact Or.inr ⟨fun spawns => doFork_none.mp forks spawns.slot,
          (((SamePids.refl k).endTask q).setState here (by decide)).quiet⟩
      · cases rest
    | some v =>
      obtain ⟨j, s⟩ := v
      have spawned := doFork_spawned here forks
      have slot : k.SlotFree := ⟨j, spawned.low, spawned.free⟩
      have live : (s.procs i).state ≠ .none := fun none =>
        here (((spawned.others i fun same => here (same ▸ spawned.free)).2).mp none)
      dsimp only at rest
      obtain ⟨s', replied, rest⟩ := bind_ok rest
      obtain ⟨mm, rfl⟩ := replyFork_ok replied
      have steady : SamePids s ((KernelState.endTask { s with mm := mm } q).setState i .run) :=
        (((SamePids.refl s).setMm mm).endTask q).setState live (by decide)
      obtain rfl := Except.ok.inj rest
      refine Or.inl ⟨⟨Or.inl fork, by rw [found]; exact Option.some_ne_none i, slot⟩, j, ?_⟩
      split
      · refine spawned.steady (steady.setState (fun none => spawned.live ?_) (by decide))
        exact (steady.live j).mp none
      · exact spawned.steady steady

/-- **`do_kernel_task_clone`** -/
theorem taskClone_pids (clone : (k.kernelTaskQueue q).type = .clone) (returns : taskClone cow q k = .ok t) :
    (Spawns k q ∧ ∃ j, Spawned k t j) ∨ (¬ Spawns k q ∧ NoSpawn k t) := by
  unfold taskClone at returns
  dsimp only at returns
  split at returns
  case h_1 missing =>
    obtain rfl := Except.ok.inj returns
    exact Or.inr ⟨fun spawns => spawns.caller missing, (SamePids.refl k).quiet⟩
  case h_2 i found =>
    obtain ⟨-, -, here⟩ := KernelState.findProcByPid_some found
    obtain ⟨made, forks, rest⟩ := bind_ok returns
    cases made with
    | none => cases rest
    | some v =>
      obtain ⟨j, s⟩ := v
      have spawned := doFork_spawned here forks
      have slot : k.SlotFree := ⟨j, spawned.low, spawned.free⟩
      have live : (s.procs i).state ≠ .none := fun none =>
        here (((spawned.others i fun same => here (same ▸ spawned.free)).2).mp none)
      dsimp only at rest
      obtain ⟨⟨words, s'⟩, replied, rest⟩ := bind_ok rest
      obtain ⟨mm, rfl⟩ := replyClone_ok replied
      obtain ⟨s'', put, rest⟩ := bind_ok rest
      obtain ⟨mm', rfl⟩ := putArgs_ok put
      obtain rfl := Except.ok.inj rest
      refine Or.inl ⟨⟨Or.inr clone, by rw [found]; exact Option.some_ne_none i, slot⟩, j, ?_⟩
      have changed : SamePids s (KernelState.setProc { s with mm := mm' } j { s.procs j with
          intFrame := ⟨swUser ||| ((s.procs j).mmuSelector &&& 0xff), words.getD 2 0 + 1, words.getD 1 0,
            words.getD 2 0 + 1, words.getD 2 0, 0, 0⟩
          isThread := true }) := ((SamePids.refl s).setMm mm').setProc rfl Iff.rfl
      have run : ProcState.run ≠ .none := ProcState.noConfusion
      have ready := (changed.endTask q).setState (i := j) (fun none => spawned.live ((changed.live j).mp none)) run
      exact spawned.steady (ready.setState (fun none => live ((ready.live i).mp none)) (by decide))

theorem doExecve_pids (here : (k.procs i).state ≠ .none) (returns : doExecve i exe k = .ok t) : SamePids k t := by
  unfold doExecve at returns
  split at returns
  · obtain rfl := Except.ok.inj returns
    exact (SamePids.refl k).setState here (by decide)
  · obtain ⟨mm, -, rest⟩ := bind_ok returns
    obtain rfl := Except.ok.inj rest
    refine SamePids.congr (s := k.setProc i _) ((SamePids.refl k).setProc ?_ ?_) rfl rfl
    · rfl
    · exact iff_of_false (fun clash => by cases clash) here

/-- **`do_kernel_task_execve`** -/
theorem taskExecve_pids (returns : taskExecve exe q k = .ok t) : NoSpawn k t := by
  unfold taskExecve at returns
  dsimp only at returns
  split at returns
  case h_1 =>
    obtain rfl := Except.ok.inj returns
    exact (SamePids.refl k).quiet
  case h_2 i found =>
    obtain ⟨-, -, here⟩ := KernelState.findProcByPid_some found
    obtain ⟨⟨words, s⟩, read, rest⟩ := bind_ok returns
    obtain ⟨mm, rfl⟩ := getArgs_ok read
    obtain ⟨s, executed, rest⟩ := bind_ok rest
    obtain rfl := Except.ok.inj rest
    have before : SamePids k ({ k with mm := mm } : KernelState δ) := (SamePids.refl k).setMm mm
    have loaded : SamePids k s := before.trans (doExecve_pids here executed)
    exact ((loaded.endTask q).setState (fun none => here ((loaded.live i).mp none)) (by decide)).quiet

/-- **`do_kernel_task_waitpid`** -/
theorem taskWaitpid_pids (returns : taskWaitpid q k = .ok t) : NoSpawn k t := by
  unfold taskWaitpid at returns
  dsimp only at returns
  split at returns
  case h_1 =>
    obtain rfl := Except.ok.inj returns
    exact (SamePids.refl k).quiet
  case h_2 i found =>
    obtain ⟨-, -, here⟩ := KernelState.findProcByPid_some found
    obtain ⟨⟨words, s⟩, read, rest⟩ := bind_ok returns
    obtain ⟨mm, rfl⟩ := getArgs_ok read
    have before : SamePids k ({ k with mm := mm } : KernelState δ) := (SamePids.refl k).setMm mm
    dsimp only at rest
    split at rest
    · split at rest
      · obtain ⟨mm', rfl⟩ := putArgs_ok rest
        exact (((before.setState here (by decide)).endTask q).setMm mm').quiet
      · obtain rfl := Except.ok.inj rest
        exact before.quiet
    case h_2 c child =>
      obtain ⟨s, first, rest⟩ := bind_ok rest
      obtain ⟨mm', rfl⟩ := putArgs_ok first
      obtain ⟨s, second, rest⟩ := bind_ok rest
      obtain ⟨mm'', rfl⟩ := putArgs_ok second
      obtain rfl := Except.ok.inj rest
      have freed : NoSpawn k (KernelState.setState { k with mm := mm } c .none) := before.quiet.trans (.freed _ c)
      have ready : NoSpawn k ((KernelState.setState { k with mm := mm } c .none).setState i .run) := by
        refine ⟨freed.nextPid, fun l low live => ?_⟩
        by_cases same : l = i
        · refine ⟨same ▸ here, ?_⟩
          rw [same, KernelState.setState_self]
          exact before.pid_setState c .none i
        · rw [KernelState.setState_ne _ _ same] at live ⊢
          exact freed.live l low live
      exact ready.trans ((((SamePids.refl _).setMm mm'').endTask q).quiet)

/-- **`do_kernel_task_exit`** -/
theorem taskExit_pids (returns : taskExit q k = .ok t) : NoSpawn k t := by
  unfold taskExit at returns
  dsimp only at returns
  split at returns
  case h_1 =>
    obtain rfl := Except.ok.inj returns
    exact ((SamePids.refl k).endTask q).quiet
  case h_2 i found =>
    obtain ⟨-, -, here⟩ := KernelState.findProcByPid_some found
    obtain ⟨⟨words, s⟩, read, rest⟩ := bind_ok returns
    obtain ⟨mm, rfl⟩ := getArgs_ok read
    dsimp only at rest
    have dead : SamePids k ((KernelState.setProc { k with mm := mm } i { k.procs i with
        retval := words.getD 1 0, state := .zombie }).endTask q) := by
      refine (((SamePids.refl k).setMm mm).setProc ?_ ?_).endTask q
      · rfl
      · exact iff_of_false (fun clash => by cases clash) here
    split at rest
    · obtain rfl := Except.ok.inj rest
      exact dead.quiet
    · obtain ⟨s, closed, rest⟩ := bind_ok rest
      obtain ⟨openFiles, fs, rfl⟩ := closeFiles_ok _ closed
      obtain ⟨mm₁, -, rest⟩ := bind_ok rest
      obtain ⟨mm₂, -, rest⟩ := bind_ok rest
      obtain rfl := Except.ok.inj rest
      refine SamePids.quiet (dead.trans (SamePids.congr (s := KernelState.setProc _ i _)
        ((SamePids.refl _).setProc ?_ ?_) rfl rfl))
      · rfl
      · exact Iff.rfl

/-- **A task of the worker spawns one process, or none.** -/
theorem workerTask_pids (returns : workerTask cow exe q k = .ok t) :
    (Spawns k q ∧ ∃ j, Spawned k t j) ∨ (¬ Spawns k q ∧ NoSpawn k t) := by
  have other : ∀ {type : TaskType}, (k.kernelTaskQueue q).type = type → type ≠ .fork → type ≠ .clone →
      ¬ Spawns k q := fun here fork clone spawns =>
    spawns.type.elim (fun same => fork (here.symm.trans same)) fun same => clone (here.symm.trans same)
  unfold workerTask at returns
  split at returns
  case h_1 type =>
    obtain rfl := Except.ok.inj returns
    exact Or.inr ⟨other type (by decide) (by decide), (SamePids.refl k).quiet⟩
  case h_2 type => exact taskFork_pids type returns
  case h_3 type => exact Or.inr ⟨other type (by decide) (by decide), taskExecve_pids returns⟩
  case h_4 type => exact Or.inr ⟨other type (by decide) (by decide), taskExit_pids returns⟩
  case h_5 type => exact Or.inr ⟨other type (by decide) (by decide), taskWaitpid_pids returns⟩
  case h_6 type => exact taskClone_pids type returns

/-! ### Runs -/

/-- A task of the worker, or anything else that spawns no process. -/
inductive PidOp
  | task (enableCopyOnWrite : Bool) (exe : Option Executable) (q : Fin maxQueueSize)
  | other

/-- The step `op` leads from `k` to `t`. The worker's entry is in use. -/
def PidStep (k : KernelState δ) (op : PidOp) (t : KernelState δ) : Prop :=
  ((k.procs 0).state ≠ .none ∧ (t.procs 0).state ≠ .none) ∧ match op with
    | .task enableCopyOnWrite exe q => workerTask enableCopyOnWrite exe q k = .ok t
    | .other => NoSpawn k t

/-- A step that spawns a process has a free pid for it. -/
def PidOp.Fresh (k : KernelState δ) : PidOp → Prop
  | .task _ _ q => Spawns k q → k.NextPidFree
  | .other => True

/-- A step that keeps identity. -/
def FreshStep (k : KernelState δ) (op : PidOp) (t : KernelState δ) : Prop := PidStep k op t ∧ op.Fresh k

variable {op : PidOp} {ops : List PidOp}

/-- **One step keeps identity if and only if it has a free pid.** -/
theorem PidsOk.step_iff (ok : PidsOk k) (step : PidStep k op t) : PidsOk t ↔ op.Fresh k := by
  obtain ⟨⟨worker, -⟩, step⟩ := step
  cases op with
  | other => exact iff_of_true (ok.quiet step) trivial
  | task cow exe q =>
    obtain ⟨spawns, j, spawned⟩ | ⟨none, quiet⟩ := workerTask_pids step
    · rw [ok.spawned_iff spawned fun same => worker (same ▸ spawned.free)]
      exact ⟨fun free _ => free, fun free => free spawns⟩
    · exact iff_of_true (ok.quiet quiet) fun spawns => absurd spawns none

/-- **Identity over runs**: it holds in every state that a run of fresh steps leads to, and the next step keeps it if
and only if it is fresh. -/
theorem pidRun_ok_iff (start : PidsOk k) (run : Run FreshStep k ops t) :
    PidsOk t ∧ ∀ op u, PidStep t op u → (PidsOk u ↔ op.Fresh t) := by
  have ok := run.preserves (fun _ _ _ ok step => (ok.step_iff step.1).mpr step.2) start
  exact ⟨ok, fun _ _ step => ok.step_iff step⟩

/-! ### 65535 forks -/

/-- Processes without pages; the worker and process 1 have the selectors 0 and 1. -/
def pidMm : Mm where
  table _ := freePageMark
  pageMap _ := 0
  selectorMap s := if s.val ≤ 1 then 1 else 0
  ram _ _ := 0

/-- Process 1. -/
def pidInit : Process := { noProcess with pid := 1, state := .kworker, mmuSelector := 1 }

/-- The worker, process 1 unless nothing was forked yet, and nothing else. The last of them forks. -/
def pidKernel (init : Bool) (nextPid : Word) : KernelState Unit :=
  { bootKernel [] with
    procs := fun i =>
      if i = 0 then { noProcess with state := .run } else if i = 1 ∧ init then pidInit else noProcess
    nextPid := nextPid
    kernelTaskQueue := fun q => if q = 0 then ⟨.fork, if init then 1 else 0, 0⟩ else ⟨.none, 0, 0⟩
    mm := pidMm }

/-- A fork that wants no answer, where there is memory for it. -/
theorem taskFork_unanswered {v : Word × Mm} (served : k.findProcByPid (k.kernelTaskQueue q).callerPid = some i)
    (slot : k.SlotFree) (args : (k.kernelTaskQueue q).args = 0)
    (memory : forkMemory false false (k.procs i) k.mm = .ok v) : ∃ t, taskFork false q k = .ok t := by
  obtain ⟨-, -, there⟩ := KernelState.findProcByPid_some served
  obtain ⟨j, below, free, found⟩ := getFreeProc_returns.mpr slot
  have ne : i ≠ j := fun same => there (same ▸ free)
  unfold taskFork
  dsimp only
  rw [served, args]
  dsimp only
  rw [doFork_eq ne found, memory]
  exact ⟨_, rfl⟩

theorem pidKernel_memory (init : Bool) : (forkMemory false false (if init then pidInit else { noProcess with
    state := .run }) pidMm).isOk = true := by
  cases init <;> decide

theorem pidKernel_forks (init : Bool) (n : Word) :
    ∃ t, workerTask false none 0 (pidKernel init n) = .ok t ∧ ∃ j, Spawned (pidKernel init n) t j := by
  have slot : (pidKernel init n).SlotFree := ⟨2, by decide, rfl⟩
  have memory := pidKernel_memory init
  obtain ⟨t, returns⟩ : ∃ t, workerTask false none 0 (pidKernel init n) = .ok t := by
    cases result : forkMemory false false (if init then pidInit else { noProcess with state := .run }) pidMm with
    | error fault => rw [result] at memory; cases memory
    | ok v =>
      cases init with
      | false => exact taskFork_unanswered (k := pidKernel false n) (q := 0) (i := 0) rfl slot rfl result
      | true => exact taskFork_unanswered (k := pidKernel true n) (q := 0) (i := 1) rfl slot rfl result
  refine ⟨t, returns, ?_⟩
  obtain ⟨-, spawned⟩ | ⟨none, -⟩ := workerTask_pids returns
  · exact spawned
  · refine absurd ⟨Or.inl rfl, ?_, slot⟩ none
    cases init with
    | false => exact Option.some_ne_none 0
    | true => exact Option.some_ne_none 1

/-- **A fork, and what follows until the next.** The new process exits, and process 1 waits for it. -/
theorem pidKernel_round (n : Word) :
    Run PidStep (pidKernel true n) [.task false none 0, .other] (pidKernel true (n + 1)) := by
  obtain ⟨t, returns, j, spawned⟩ := pidKernel_forks true n
  have kept : ∀ i, ((pidKernel true n).procs i).state ≠ .none → (t.procs i).state ≠ .none ∧
      (t.procs i).pid = ((pidKernel true n).procs i).pid := fun i here => by
    obtain ⟨pid, live⟩ := spawned.others i fun same => here (same ▸ spawned.free)
    exact ⟨fun none => here (live.mp none), pid⟩
  have worker : (t.procs 0).state ≠ .none := (kept 0 ProcState.noConfusion).1
  refine .cons ⟨⟨ProcState.noConfusion, worker⟩, returns⟩ (.single ⟨⟨worker, ProcState.noConfusion⟩, ?_⟩)
  refine ⟨spawned.nextPid.symm, fun i _ here => ?_⟩
  obtain ⟨here', pid⟩ := kept i here
  exact ⟨here', pid.symm⟩

/-- The first fork: the worker makes process 1. -/
theorem pidKernel_first : Run PidStep (pidKernel false 0) [.task false none 0, .other] (pidKernel true 1) := by
  obtain ⟨t, returns, nextPid, worker, workerPid, init, initPid⟩ : ∃ t,
      workerTask false none 0 (pidKernel false 0) = .ok t ∧ t.nextPid = 1 ∧ (t.procs 0).state = .run ∧
      (t.procs 0).pid = 0 ∧ (t.procs 1).state = .construct ∧ (t.procs 1).pid = 1 :=
    ⟨_, rfl, rfl, rfl, rfl, rfl, rfl⟩
  have live : (t.procs 0).state ≠ .none := by rw [worker]; decide
  refine .cons ⟨⟨ProcState.noConfusion, live⟩, returns⟩ (.single ⟨⟨live, ProcState.noConfusion⟩, ?_⟩)
  refine ⟨nextPid.symm, fun i _ here => ?_⟩
  match i with
  | 0 => exact ⟨live, workerPid.symm⟩
  | 1 => exact ⟨by rw [init]; decide, initPid.symm⟩
  | i + 2 => exact absurd rfl here

theorem pidKernel_rounds (n : Nat) :
    ∃ ops, Run PidStep (pidKernel false 0) ops (pidKernel true (BitVec.ofNat 16 (n + 1))) := by
  induction n with
  | zero => exact ⟨_, pidKernel_first⟩
  | succ n ih =>
    obtain ⟨ops, run⟩ := ih
    have next : (BitVec.ofNat 16 (n + 1) + 1 : Word) = BitVec.ofNat 16 (n + 1 + 1) := by
      rw [BitVec.ofNat_add (n + 1) 1]
      rfl
    exact ⟨_, run.append (next ▸ pidKernel_round _)⟩

/-- At the start there is the worker alone. -/
theorem pidKernel_alone {i : Nat} (here : ((pidKernel false 0).procs i).state ≠ .none) : i = 0 := by
  by_contra ne
  refine here ?_
  show (if i = 0 then _ else if i = 1 ∧ false = true then _ else _ : Process).state = _
  rw [if_neg ne, if_neg fun both => Bool.noConfusion both.2]
  rfl

theorem pidKernel_ok : PidsOk (pidKernel false 0) :=
  .of_distinct (fun _ _ _ _ here here' _ => (pidKernel_alone here).trans (pidKernel_alone here').symm)
    fun _ _ here _ => pidKernel_alone here

/-- **After one fork.** -/
theorem pidRun_ok_iff_first : PidsOk (pidKernel true 1) ∧
    ∀ op u, PidStep (pidKernel true 1) op u → (PidsOk u ↔ op.Fresh (pidKernel true 1)) := by
  have fresh : Run FreshStep (pidKernel false 0) [.task false none 0, .other] (pidKernel true 1) := by
    cases pidKernel_first with
    | cons fork rest =>
      cases rest with
      | cons other last =>
        cases last
        refine .cons ⟨fork, fun _ => ⟨by decide, fun i _ here => ?_⟩⟩ (.single ⟨other, trivial⟩)
        rw [pidKernel_alone here]
        decide
  exact pidRun_ok_iff pidKernel_ok fresh

/-- **After 65535 forks the next process has pid 0.** -/
theorem pidRun_wraps : PidsOk (pidKernel false 0) ∧ ∃ ops t, Run PidStep (pidKernel false 0) ops t ∧ ¬ PidsOk t := by
  obtain ⟨ops, run⟩ := pidKernel_rounds 65534
  obtain ⟨t, returns, j, spawned⟩ := pidKernel_forks true (BitVec.ofNat 16 (65534 + 1))
  have here : ((pidKernel true (BitVec.ofNat 16 (65534 + 1))).procs 0).state ≠ .none := ProcState.noConfusion
  have other : j ≠ 0 := fun same => here (same ▸ spawned.free)
  obtain ⟨-, live⟩ := spawned.others 0 other.symm
  have step : PidStep (pidKernel true (BitVec.ofNat 16 (65534 + 1))) (.task false none 0) t :=
    ⟨⟨here, fun none => here (live.mp none)⟩, returns⟩
  refine ⟨pidKernel_ok, _, t, run.append (.single step), fun ok => ?_⟩
  exact other (ok.worker j spawned.low spawned.live (spawned.pid.trans (by decide)))

end RlCpu.Kernel
