/-
**Processes and kernel tasks (`sched.h`, `kernel_worker.h`, and the functions on their tables).**

`procs` is indexed by every number, as the array is in the source: entry `MAXPROC` and those after it
are what lies behind the table in memory, read as processes. A `struct Process *` is such an index.

`KernelState` is what the scheduler, the kernel worker and the system calls on processes share. `cProc` is
always the address of the entry `currentTask`, and is not kept apart.
-/

import RlCpu.Kernel.Mm
import RlCpu.Kernel.RlfsTree

namespace RlCpu.Kernel

/-! ### Constants and structures -/

/-- `MAXPROC` -/
abbrev maxProc : Nat := 15
/-- `MAX_FILES_PER_PROC` -/
abbrev maxFilesPerProc : Nat := 15
/-- `MAX_QUEUE_SIZE` -/
abbrev maxQueueSize : Nat := 15

instance : NeZero maxQueueSize := ⟨nofun⟩

/-- `PROC_STATE_*` -/
inductive ProcState
  | none
  | run
  | sleep
  | zombie
  | kworker
  | new
  | construct
  | blocked
  deriving DecidableEq, Repr

/-- `struct InterruptFrame` -/
structure InterruptFrame where
  sw : Word
  sp : Word
  highPC : Word
  bp : Word
  ap : Word
  s : Word
  d : Word
  deriving DecidableEq

/-- `struct Process` -/
structure Process where
  pid : Word
  state : ProcState
  intFrame : InterruptFrame
  mmuSelector : Word
  parent : Option Nat
  retval : Word
  openFiles : Fin maxFilesPerProc → Option FilePtr
  signalsPending : Word
  isThread : Bool

/-- `KERNEL_TASK_*` -/
inductive TaskType
  | none
  | fork
  | execve
  | exit
  | waitpid
  | clone
  deriving DecidableEq, Repr

/-- `struct KernelTask` -/
structure KernelTask where
  type : TaskType
  callerPid : Word
  args : Word
  deriving DecidableEq

/-- What the scheduler, the kernel worker and the system calls on processes share. -/
structure KernelState (δ : Type) where
  procs : Nat → Process
  currentTask : Nat
  nextPid : Word
  kernelTaskQueue : Fin maxQueueSize → KernelTask
  mm : Mm
  fs : FsState δ

variable {δ : Type}

namespace KernelState

/-! ### Single changes -/

/-- Entry `i` of `procs` changed. -/
def setProc (k : KernelState δ) (i : Nat) (p : Process) : KernelState δ :=
  { k with procs := Function.update k.procs i p }

/-- `procs[i].state = state` -/
def setState (k : KernelState δ) (i : Nat) (state : ProcState) : KernelState δ :=
  k.setProc i { k.procs i with state := state }

/-- Entry `i` of `kernelTaskQueue` changed. -/
def setTask (k : KernelState δ) (i : Fin maxQueueSize) (task : KernelTask) : KernelState δ :=
  { k with kernelTaskQueue := Function.update k.kernelTaskQueue i task }

/-- `kernelTaskQueue[i].type = KERNEL_TASK_NONE` -/
def endTask (k : KernelState δ) (i : Fin maxQueueSize) : KernelState δ :=
  k.setTask i { k.kernelTaskQueue i with type := .none }

section Changes

variable (k : KernelState δ) (i j : Nat) (p : Process) (state : ProcState) (q : Fin maxQueueSize)
  (task : KernelTask)

@[simp] theorem setProc_self : (k.setProc i p).procs i = p := Function.update_self _ _ _
@[simp] theorem setProc_currentTask : (k.setProc i p).currentTask = k.currentTask := rfl
@[simp] theorem setProc_queue : (k.setProc i p).kernelTaskQueue = k.kernelTaskQueue := rfl
@[simp] theorem setState_self :
    (k.setState i state).procs i = { k.procs i with state := state } := Function.update_self _ _ _
@[simp] theorem setState_currentTask : (k.setState i state).currentTask = k.currentTask := rfl
@[simp] theorem setState_queue : (k.setState i state).kernelTaskQueue = k.kernelTaskQueue := rfl
@[simp] theorem setTask_procs : (k.setTask q task).procs = k.procs := rfl
@[simp] theorem setTask_currentTask : (k.setTask q task).currentTask = k.currentTask := rfl
@[simp] theorem setTask_self : (k.setTask q task).kernelTaskQueue q = task :=
  Function.update_self _ _ _
@[simp] theorem endTask_procs : (k.endTask q).procs = k.procs := rfl
@[simp] theorem endTask_currentTask : (k.endTask q).currentTask = k.currentTask := rfl
@[simp] theorem endTask_self :
    (k.endTask q).kernelTaskQueue q = { k.kernelTaskQueue q with type := .none } :=
  Function.update_self _ _ _

variable {i j q}

theorem setProc_ne (ne : j ≠ i) : (k.setProc i p).procs j = k.procs j :=
  Function.update_of_ne ne _ _

theorem setState_ne (ne : j ≠ i) : (k.setState i state).procs j = k.procs j :=
  Function.update_of_ne ne _ _

theorem setTask_ne {r : Fin maxQueueSize} (ne : r ≠ q) :
    (k.setTask q task).kernelTaskQueue r = k.kernelTaskQueue r := Function.update_of_ne ne _ _

theorem endTask_ne {r : Fin maxQueueSize} (ne : r ≠ q) :
    (k.endTask q).kernelTaskQueue r = k.kernelTaskQueue r := Function.update_of_ne ne _ _

end Changes

/-! ### The process table -/

/-- `findProcByPid` -/
def findProcByPid (k : KernelState δ) (pid : Word) : Option Nat :=
  (List.range maxProc).find? fun i => (k.procs i).pid = pid ∧ (k.procs i).state ≠ .none

/-- `findProcByParent` -/
def findProcByParent (k : KernelState δ) (parent : Nat) : Option Nat :=
  (List.range maxProc).find? fun i => (k.procs i).parent = some parent ∧ (k.procs i).state ≠ .none

/-- `get_free_proc` -/
def getFreeProc (k : KernelState δ) : Option (Nat × KernelState δ) :=
  match (List.range maxProc).find? fun i => (k.procs i).state = .none with
  | some i => some (i, k.setState i .construct)
  | none => none

/-- `sendSig` -/
def sendSig (k : KernelState δ) (pid sig : Word) : KernelState δ :=
  match k.findProcByPid pid with
  | some i => k.setProc i
      { k.procs i with signalsPending := (k.procs i).signalsPending ||| (1 <<< sig.toNat) }
  | none => k

/-- `addKernelTask` -/
def addKernelTask (k : KernelState δ) (task : TaskType) (callerPid args : Word) : KernelState δ :=
  match (List.finRange maxQueueSize).find? fun i => (k.kernelTaskQueue i).type = .none with
  | some i => k.setTask i ⟨task, callerPid, args⟩
  | none => k

theorem findProcByPid_some {k : KernelState δ} {pid : Word} {i : Nat}
    (found : k.findProcByPid pid = some i) :
    i < maxProc ∧ (k.procs i).pid = pid ∧ (k.procs i).state ≠ .none := by
  have here := List.find?_some found
  exact ⟨List.mem_range.mp (List.mem_of_find?_eq_some found), by simpa using here⟩

theorem findProcByPid_none {k : KernelState δ} {pid : Word} (missing : k.findProcByPid pid = none) {i : Nat}
    (low : i < maxProc) (same : (k.procs i).pid = pid) : (k.procs i).state = .none := by
  have here := List.find?_eq_none.mp missing i (List.mem_range.mpr low)
  simpa [same] using here

theorem findProcByParent_some {k : KernelState δ} {parent i : Nat}
    (found : k.findProcByParent parent = some i) :
    i < maxProc ∧ (k.procs i).parent = some parent ∧ (k.procs i).state ≠ .none := by
  have here := List.find?_some found
  exact ⟨List.mem_range.mp (List.mem_of_find?_eq_some found), by simpa using here⟩

theorem getFreeProc_some {k t : KernelState δ} {i : Nat} (found : k.getFreeProc = some (i, t)) :
    i < maxProc ∧ (k.procs i).state = .none ∧ t = k.setState i .construct := by
  unfold getFreeProc at found
  split at found
  case h_1 j here =>
    obtain ⟨rfl, rfl⟩ := Prod.mk.inj (Option.some.inj found)
    have free := List.find?_some here
    exact ⟨List.mem_range.mp (List.mem_of_find?_eq_some here), by simpa using free, rfl⟩
  case h_2 => cases found

/-- `addKernelTask` does nothing or fills a free entry. -/
theorem addKernelTask_cases (k : KernelState δ) (task : TaskType) (callerPid args : Word) :
    (∃ i, (k.kernelTaskQueue i).type = .none ∧
      k.addKernelTask task callerPid args = k.setTask i ⟨task, callerPid, args⟩) ∨
    ((∀ i, (k.kernelTaskQueue i).type ≠ .none) ∧ k.addKernelTask task callerPid args = k) := by
  unfold addKernelTask
  split
  case h_1 i found =>
    have free := List.find?_some found
    exact Or.inl ⟨i, by simpa using free, rfl⟩
  case h_2 missing =>
    refine Or.inr ⟨fun i => ?_, rfl⟩
    have busy := List.find?_eq_none.mp missing i (List.mem_finRange i)
    simpa using busy

@[simp] theorem addKernelTask_procs (k : KernelState δ) (task : TaskType) (callerPid args : Word) :
    (k.addKernelTask task callerPid args).procs = k.procs := by
  unfold addKernelTask
  split <;> rfl

@[simp] theorem addKernelTask_currentTask (k : KernelState δ) (task : TaskType) (callerPid args : Word) :
    (k.addKernelTask task callerPid args).currentTask = k.currentTask := by
  unfold addKernelTask
  split <;> rfl

end KernelState

end RlCpu.Kernel
