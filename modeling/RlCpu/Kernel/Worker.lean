/-
**The kernel worker (`fork.c`, `execve.c`, `kernel_worker.c`) and the system calls it serves
(`sys_proc.c`).**

A system call on processes is put in `kernelTaskQueue`, and its caller waits in state `KWORKER` until
the worker has served it. The worker reads the arguments from, and writes the results to, the memory of
the caller.

`Executable` is what `do_execve` gets from the file and from `parseArgs`: the words of the two segments
and of the argument block. The text segment has a 32-bit size, the data segment a 16-bit one.
-/

import RlCpu.Kernel.Sched

namespace RlCpu.Kernel

variable {δ : Type}

/-! ### `do_fork` -/

/-- `SW_COMMIT_ENABLE | SW_INT_ENABLE | SW_USER_MODE` -/
abbrev swUser : Word := 0x7000

/-- The loop of `do_fork` over the open files: `refcnt++`. -/
def addRefs (openFiles : Fin maxFilesPerProc → Option FilePtr) (files : KSet File maxFiles) :
    KSet File maxFiles :=
  (List.finRange maxFilesPerProc).foldl (fun files fd =>
    match openFiles fd with
    | some fp => files.assign fp { files.el fp with refcnt := (files.el fp).refcnt + 1 }
    | none => files) files

/-- The process that `do_fork` makes from `p`, which is entry `parent`. -/
def forked (p : Process) (parent : Nat) (pid selector : Word) (clone : Bool) : Process :=
  { p with
    state := .construct
    pid := pid
    parent := some parent
    mmuSelector := selector
    isThread := clone
    intFrame := { p.intFrame with sw := (p.intFrame.sw &&& 0xff00) ||| (selector &&& 0x00ff) } }

/-- The selector and the memory of the process that `do_fork` makes from `p`. -/
def forkMemory (enableCopyOnWrite clone : Bool) (p : Process) (m : Mm) : Except Fault (Word × Mm) :=
  if clone then pure (p.mmuSelector, m)
  else do
    let selector ← m.getFreeSelector
    let m ← m.markSelector selector 1
    let m ← forkPages enableCopyOnWrite p.pid p.mmuSelector selector m
    pure (selector, m)

/-- `do_fork` of entry `i`; `none` is `NULL`. -/
def doFork (enableCopyOnWrite : Bool) (i : Nat) (clone : Bool) (k : KernelState δ) :
    Except Fault (Option (Nat × KernelState δ)) :=
  match k.getFreeProc with
  | none => pure none
  | some (j, k) => do
      let p := k.procs i
      let pid := k.nextPid + 1
      let (selector, mm) ← forkMemory enableCopyOnWrite clone p k.mm
      pure (some (j, { k.setProc j (forked p i pid selector clone) with
        nextPid := pid
        mm := mm
        fs := { k.fs with openFiles := addRefs p.openFiles k.fs.openFiles } }))

/-! ### `do_execve` -/

/-- What is loaded, and the argument block. -/
structure Executable where
  sizeText : Nat
  text : Nat → Word
  sizeData : Nat
  data : Nat → Word
  argv : List Word
  text_lt : sizeText < 2 ^ 32
  data_lt : sizeData < 2 ^ 16

/-- Words read to the start of the kernel's window. -/
def Mm.readToWindow (m : Mm) (words : List Word) : Mm :=
  words.zipIdx.foldl (fun m w => m.store 0 (windowAddr (BitVec.ofNat 16 w.2)) w.1) m

/-- A loop of `do_execve` that loads the pages of one segment. -/
def loadSegment (selector : Word) (sCode : Bool) (size : Nat) (words : Nat → Word) :
    List Nat → Mm → Except Fault Mm
  | [], m => pure m
  | pageno :: rest, m => do
      let targetPage ← m.getFreePage
      let m ← m.markPage targetPage 1
      let m := m.writeTable 0 14 false targetPage
      let m := m.writeTable selector (BitVec.ofNat 16 pageno) sCode targetPage
      let readNow := min (size - pageno * pageSize) pageSize
      loadSegment selector sCode size words rest
        (m.readToWindow ((List.range readNow).map fun j => words (pageno * pageSize + j)))

/-- The loop of `do_execve` that allocates the rest of the data segment. -/
def allocData (selector : Word) : List Nat → Mm → Except Fault Mm
  | [], m => pure m
  | pageno :: rest, m => do
      let targetPage ← m.getFreePage
      let m ← m.markPage targetPage 1
      allocData selector rest (m.writeTable selector (BitVec.ofNat 16 pageno) false targetPage)

/-- The number of pages of a segment. -/
def pagesOf (size : Nat) : Nat := (size + pageSize - 1) / pageSize

/-- The memory of `do_execve`, once the file is open. -/
def execPages (selector : Word) (exe : Executable) (m : Mm) : Except Fault Mm := do
  let m ← freeProcessPages selector m
  let m ← loadSegment selector true exe.sizeText exe.text (List.range (pagesOf exe.sizeText)) m
  let m ← loadSegment selector false exe.sizeData exe.data (List.range (pagesOf exe.sizeData)) m
  let m ← allocData selector (List.range' (pagesOf exe.sizeData) (ndataPages - pagesOf exe.sizeData)) m
  uputs selector (BitVec.ofNat 16 exe.sizeData) false exe.argv m

/-- `do_execve` of entry `i`; without an executable it gives up before it changes anything. -/
def doExecve (i : Nat) (exe : Option Executable) (k : KernelState δ) : Except Fault (KernelState δ) :=
  match exe with
  | none => pure (k.setState i .construct)
  | some exe => do
      let p := k.procs i
      let mm ← execPages p.mmuSelector exe k.mm
      let placement := BitVec.ofNat 16 exe.sizeData
      let frame : InterruptFrame :=
        ⟨swUser ||| (p.mmuSelector &&& 0xff), placement + BitVec.ofNat 16 exe.argv.length, 0, placement,
          placement, 0, 0⟩
      pure { k.setProc i { p with state := .new, intFrame := frame } with mm := mm }

/-! ### Kernel tasks -/

/-- `ugets` of a structure at the arguments of a task, for entry `i`. -/
def getArgs (k : KernelState δ) (i : Nat) (args : Word) (size : Nat) :
    Except Fault (List Word × KernelState δ) := do
  let (s, mm) ← ugets (k.procs i).mmuSelector args size false k.mm
  pure (s, { k with mm := mm })

/-- `uputs` to the memory of entry `i`. -/
def putArgs (k : KernelState δ) (i : Nat) (addr : Word) (s : List Word) :
    Except Fault (KernelState δ) := do
  let mm ← uputs (k.procs i).mmuSelector addr false s k.mm
  pure { k with mm := mm }

/-- The pid of entry `j` is returned to the caller of `fork`, entry `i`. -/
def replyFork (i j : Nat) (args : Word) (k : KernelState δ) : Except Fault (KernelState δ) :=
  if args = 0 then pure k
  else do
    let (s, k) ← getArgs k i args 2
    putArgs k i args (s.set 1 (k.procs j).pid)

/-- `do_kernel_task_fork`. A fork that failed is taken for a process at address 0. -/
def taskFork (enableCopyOnWrite : Bool) (q : Fin maxQueueSize) (k : KernelState δ) :
    Except Fault (KernelState δ) :=
  let task := k.kernelTaskQueue q
  match k.findProcByPid task.callerPid with
  | none => pure k
  | some i => do
      match ← doFork enableCopyOnWrite i false k with
      | none =>
          if task.args = 0 ∧ (k.procs i).pid = 0 then pure ((k.endTask q).setState i .run)
          else throw .wild
      | some (j, k) =>
          let k ← replyFork i j task.args k
          let k := (k.endTask q).setState i .run
          pure (if (k.procs i).pid ≠ 0 then k.setState j .new else k)

/-- The pid of entry `j` is returned to the caller of `clone`, entry `i`; the arguments of the call. -/
def replyClone (i j : Nat) (args : Word) (k : KernelState δ) :
    Except Fault (List Word × KernelState δ) :=
  if args = 0 then pure ([], k)
  else do
    let (s, k) ← getArgs k i args 5
    let k ← putArgs k i args (s.set 4 (k.procs j).pid)
    pure (s, k)

/-- `do_kernel_task_clone` -/
def taskClone (enableCopyOnWrite : Bool) (q : Fin maxQueueSize) (k : KernelState δ) :
    Except Fault (KernelState δ) :=
  let task := k.kernelTaskQueue q
  match k.findProcByPid task.callerPid with
  | none => pure k
  | some i => do
      match ← doFork enableCopyOnWrite i true k with
      | none => throw .wild
      | some (j, k) =>
          let (s, k) ← replyClone i j task.args k
          let stack := s.getD 2 0
          let k ← putArgs k j stack [s.getD 3 0]
          let selector := (k.procs j).mmuSelector
          let frame : InterruptFrame :=
            ⟨swUser ||| (selector &&& 0xff), stack + 1, s.getD 1 0, stack + 1, stack, 0, 0⟩
          let k := k.setProc j { k.procs j with intFrame := frame, isThread := true }
          pure (((k.endTask q).setState j .run).setState i .run)

/-- `do_kernel_task_execve` -/
def taskExecve (exe : Option Executable) (q : Fin maxQueueSize) (k : KernelState δ) :
    Except Fault (KernelState δ) :=
  let task := k.kernelTaskQueue q
  match k.findProcByPid task.callerPid with
  | none => pure k
  | some i => do
      let (_, k) ← getArgs k i task.args 4
      let k ← doExecve i exe k
      pure ((k.endTask q).setState i .new)

/-- `WNOHANG` -/
abbrev wnohang : Word := 1

/-- `do_kernel_task_waitpid` -/
def taskWaitpid (q : Fin maxQueueSize) (k : KernelState δ) : Except Fault (KernelState δ) :=
  let task := k.kernelTaskQueue q
  match k.findProcByPid task.callerPid with
  | none => pure k
  | some i => do
      let (s, k) ← getArgs k i task.args 4
      let pid := s.getD 1 0
      let child := if 0 < pid.toInt then k.findProcByPid pid else k.findProcByParent i
      match child.filter fun c => (k.procs c).state = .zombie with
      | none =>
          if s.getD 3 0 = wnohang then
            putArgs ((k.setState i .run).endTask q) i task.args (s.set 1 0)
          else pure k
      | some c => do
          let k := (k.setState c .none).setState i .run
          let k ← putArgs k i (s.getD 2 0) [(k.procs c).retval]
          let k ← putArgs k i task.args (s.set 1 (k.procs c).pid)
          pure (k.endTask q)

/-- The loop of `do_kernel_task_exit` over the open files. -/
def closeFiles (i : Nat) : List (Fin maxFilesPerProc) → KernelState δ → Except Fault (KernelState δ)
  | [], k => pure k
  | fd :: rest, k =>
      match (k.procs i).openFiles fd with
      | none => closeFiles i rest k
      | some fp => do
          let (_, fs) ← kClose fp k.fs
          let p := k.procs i
          closeFiles i rest
            ({ k with fs := fs }.setProc i { p with openFiles := Function.update p.openFiles fd none })

/-- `do_kernel_task_exit` -/
def taskExit (q : Fin maxQueueSize) (k : KernelState δ) : Except Fault (KernelState δ) :=
  let task := k.kernelTaskQueue q
  match k.findProcByPid task.callerPid with
  | none => pure (k.endTask q)
  | some i => do
      let (s, k) ← getArgs k i task.args 2
      let k := k.setProc i { k.procs i with retval := s.getD 1 0, state := .zombie }
      let k := k.endTask q
      if (k.procs i).isThread then pure k
      else
        let k ← closeFiles i (List.finRange maxFilesPerProc) k
        let mm ← freeProcessPages (k.procs i).mmuSelector k.mm
        let mm ← mm.markSelector (k.procs i).mmuSelector 0
        pure { k with mm := mm }

/-- The body of the worker's loop for entry `q` of the queue; `exe` is what a task to execute finds. -/
def workerTask (enableCopyOnWrite : Bool) (exe : Option Executable) (q : Fin maxQueueSize)
    (k : KernelState δ) : Except Fault (KernelState δ) :=
  match (k.kernelTaskQueue q).type with
  | .none => pure k
  | .fork => taskFork enableCopyOnWrite q k
  | .execve => taskExecve exe q k
  | .exit => taskExit q k
  | .waitpid => taskWaitpid q k
  | .clone => taskClone enableCopyOnWrite q k

/-! ### System calls -/

/-- `sys_fork`, `sys_clone`, `sys_execve`, `sys_waitpid` and `sys_exit`, up to their call of `resched`. -/
def sysTask (task : TaskType) (args : Word) (k : KernelState δ) : KernelState δ :=
  (k.addKernelTask task (k.procs k.currentTask).pid args).setState k.currentTask .kworker

end RlCpu.Kernel
