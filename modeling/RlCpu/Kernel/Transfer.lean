/-
**Read and write system calls (`rlfs3.c`, `sys_fs.c`, `kernel_worker.c`, `waitq.c`).**

Words go between a process and a `FILE` through `iobuf`, which has 1024. `try_k_read` and `try_k_write`
serve a system call, and again the calls that were blocked, from the wait queue; a `WaitqEntry` is a
transfer that one of them is asked for. `CallM` notes each use that a system call makes of a descriptor.

* `Io.tryKRead_frame`, `Io.tryKWrite_frame`: what a transfer leaves of the memory of the process.
* `Io.tryTransfer_overrun`: when a transfer leaves `iobuf`.
* `Io.transferRun_safe`: every system call and every retry of a run.
-/

import RlCpu.Kernel.Drivers
import RlCpu.Kernel.UserMem
import RlCpu.Lib.Abort

namespace RlCpu.Kernel

open RlCpu.Lib

variable {δ : Type}

/-- The number of words of `iobuf`. -/
abbrev iobufSize : Nat := 1024

/-- The words of `struct readSyscall` and of `struct writeSyscall`: `id`, `fd`, `size`, `buf`. -/
abbrev readSyscallSize : Nat := 4

namespace Io

/-! ### Processes -/

/-- The memory is changed. -/
def withMm (s : Io δ) (m : Mm) : Io δ := { s with kernel := { s.kernel with mm := m } }

/-- The kernel's tables are changed. -/
def withKernel (s : Io δ) (k : KernelState δ) : Io δ := { s with kernel := k }

/-- `findProcByPid`, where the pointer is used whatever it returns. -/
def procOf (pid : Word) : IoM δ Nat := fun s =>
  match s.kernel.findProcByPid pid with
  | some p => .ok (p, s)
  | none => .error (.kernel .wild)

/-- `ugets` from process `p`. -/
def userGets (p : Nat) (addr : Word) (length : Nat) : IoM δ (List Word) := fun s =>
  match ugets (s.kernel.procs p).mmuSelector addr length false s.kernel.mm with
  | .ok (words, m) => .ok (words, s.withMm m)
  | .error e => .error (.kernel e)

/-- `uputs` to process `p`. -/
def userPuts (p : Nat) (addr : Word) (words : List Word) : IoM δ Unit := fun s =>
  match uputs (s.kernel.procs p).mmuSelector addr false words s.kernel.mm with
  | .ok m => .ok ((), s.withMm m)
  | .error e => .error (.kernel e)

/-- `waitqAddEntry` -/
def waitqAddEntry (e : WaitqEntry) : IoM δ Unit := fun s =>
  match (List.finRange waitqLength).find? fun i => (s.waitq i).isNone with
  | some i => .ok ((), { s with waitq := Function.update s.waitq i (some e) })
  | none => .error (.kernel .panic)

/-- `resched(system_interrupt_stack)`, in at most `fuel` steps. -/
def reschedule (fuel : Nat) : IoM δ Unit := fun s =>
  match resched fuel s.systemInterruptStack s.kernel with
  | some (.ok (frame, k, _)) => .ok ((), { s.withKernel k with systemInterruptStack := frame })
  | some (.error e) => .error (.kernel e)
  | none => .error (.kernel .hang)

/-- `p->state = PROC_STATE_BLOCKED`, and another process goes on if this one was running. -/
def block (fuel p : Nat) (caller : Word) : IoM δ Unit := do
  modify fun s => s.withKernel (s.kernel.setState p .blocked)
  let s ← get
  if (s.kernel.procs s.kernel.currentTask).pid = caller then reschedule fuel

/-- The result of a system call is written to its structure. -/
def putSize (p : Nat) (scall retval : Word) : IoM δ Unit := do
  let s ← userGets p scall readSyscallSize
  userPuts p scall (s.set 2 retval)

/-! ### Transfers -/

section Transfers

variable (drv : BlkDriver δ) (behind : BlockPtr → Nat → Word) (env : FsEnv) (fuel : Nat)

/-- The end of `try_k_read`, with the words read in `iobuf`. -/
def finishRead (p : Nat) (fd : FilePtr) (buf size caller scall : Word) (words : List Word) : IoM δ Nat := do
  modify fun s => { s with iobuf := fun i => words.getD i (s.iobuf i) }
  userPuts p buf words
  let s ← get
  (if words = [] ∧ s.blockRequest ≠ 0 then do
    setBlockRequest 0
    waitqAddEntry ⟨(s.file fd).node.idx, caller, scall, fd, buf, size, false⟩
    block fuel p caller
  else pure ())
  putSize p scall (BitVec.ofNat 16 words.length)
  pure words.length

/-- `try_k_read` -/
def tryKRead (fd : FilePtr) (buf size caller scall : Word) : IoM δ Nat := do
  let p ← procOf caller
  let words ← kRead drv behind env fd size.toNat
  if iobufSize < words.length then throw .overrun
  else finishRead fuel p fd buf size caller scall words

/-- The end of `try_k_write`, with what `k_write` returned. -/
def finishWrite (p : Nat) (fd : FilePtr) (buf size caller scall : Word) (retval : Nat) : IoM δ Nat := do
  let s ← get
  (if retval = 0 ∧ s.blockRequest ≠ 0 then do
    (if s.blockRequest = 1 then do
      setBlockRequest 0
      waitqAddEntry ⟨(s.file fd).node.idx, caller, scall, fd, buf, size, true⟩
    else if s.blockRequest = 2 then
      modify fun s => s.withKernel (s.kernel.sendSig caller (BitVec.ofNat 16 sigPipe))
    else pure ())
    block fuel p caller
  else pure ())
  putSize p scall (BitVec.ofNat 16 retval)
  pure retval

/-- `try_k_write` -/
def tryKWrite (fd : FilePtr) (buf size caller scall : Word) : IoM δ Nat := do
  let p ← procOf caller
  if iobufSize < size.toNat then throw .overrun
  else do
    let words ← userGets p buf size.toNat
    modify fun s => { s with iobuf := fun i => words.getD i (s.iobuf i) }
    let retval ← kWrite drv env fd (← get).iobuf size.toNat
    finishWrite fuel p fd buf size caller scall retval

/-- The transfer of a request. -/
def tryTransfer (e : WaitqEntry) : IoM δ Nat :=
  if e.isWrite then tryKWrite drv env fuel e.fd e.buf e.size e.pid e.scallStruct
  else tryKRead drv behind env fuel e.fd e.buf e.size e.pid e.scallStruct

/-- The request that `processWaitQEntry` makes of an entry of `WAITQ_TYPE_FILE`: its process is ready
again. -/
def wakeRequest (e : WaitqEntry) : IoM δ WaitqEntry := fun s =>
  match s.kernel.findProcByPid e.pid with
  | none => .error (.kernel .panic)
  | some p => .ok ({ e with pid := (s.kernel.procs p).pid }, s.withKernel (s.kernel.setState p .run))

/-- `processWaitQEntry` -/
def processWaitQEntry (e : WaitqEntry) : IoM δ Nat := wakeRequest e >>= tryTransfer drv behind env fuel

end Transfers

/-! ### System calls on a descriptor -/

/-- A use that a system call makes of the table of open files. -/
inductive Use
  /-- The `FILE` in a slot is used; it is open or not. -/
  | file (fd : Word) (fp : FilePtr) (isOpen : Bool)
  /-- A null pointer in a slot is used. -/
  | null (fd : Word)
  /-- A slot outside the table is read. -/
  | outside (fd : Word)
  deriving DecidableEq

/-- System calls. The uses of the table of open files are noted, also those of a call that stops. -/
abbrev CallM (δ : Type) := Abort IoFault (Io δ × List Use)

/-- Code that uses no descriptor. -/
def onIo {α : Type} (p : IoM δ α) : CallM δ α := ExceptT.mk fun s =>
  match p s.1 with
  | .ok (x, t) => (.ok x, (t, s.2))
  | .error e => (.error e, s)

/-- A use is noted. -/
def noteUse (use : Use) : CallM δ Unit := modify fun s => (s.1, s.2 ++ [use])

/-- `cProc->openFiles[fd]` -/
def openFiles (fd : Word) : CallM δ (Option FilePtr) := do
  let s := (← get).1
  if low : fd.toNat < maxFilesPerProc then
    pure ((s.kernel.procs s.kernel.currentTask).openFiles ⟨fd.toNat, low⟩)
  else do
    noteUse (.outside fd)
    throw (.kernel .wild)

/-- The pointer read from a slot is followed. -/
def useFile (fd : Word) (fp : Option FilePtr) : CallM δ FilePtr := do
  let s := (← get).1
  match fp with
  | some fp => do
      noteUse (.file fd fp (s.kernel.fs.openFiles.used fp))
      pure fp
  | none => do
      noteUse (.null fd)
      throw (.kernel .wild)

/-- The request of a `read` or `write` system call. -/
def readRequest (isWrite : Bool) (scall : Word) : CallM δ WaitqEntry := do
  let cProc := (← get).1.kernel.currentTask
  let words ← onIo (userGets cProc scall readSyscallSize)
  let fd := words.getD 1 0
  let fp ← useFile fd (← openFiles fd)
  let pid := ((← get).1.kernel.procs cProc).pid
  pure ⟨0, pid, scall, fp, words.getD 3 0, words.getD 2 0, isWrite⟩

section Calls

variable (drv : BlkDriver δ) (behind : BlockPtr → Nat → Word) (env : FsEnv) (fuel : Nat)

/-- A `read` or `write` system call. The result is what `try_k_read` or `try_k_write` returned; the source
returns 0. -/
def sysTransfer (isWrite : Bool) (scall : Word) : CallM δ Nat := do
  let request ← readRequest isWrite scall
  onIo (tryTransfer drv behind env fuel request)

/-- `sys_read` -/
def sysRead (scall : Word) : CallM δ Nat := sysTransfer drv behind env fuel false scall

/-- `sys_write` -/
def sysWrite (scall : Word) : CallM δ Nat := sysTransfer drv behind env fuel true scall

end Calls

/-! ### What a call leaves of the kernel -/

/-- In the kernel only the filesystem has changed, and the wait queue is the same. -/
def Filed (s t : Io δ) : Prop := (∃ fs, t.kernel = { s.kernel with fs := fs }) ∧ t.waitq = s.waitq

theorem Filed.refl (s : Io δ) : Filed s s := ⟨⟨s.kernel.fs, rfl⟩, rfl⟩

theorem Filed.trans (a b c : Io δ) (first : Filed a b) (second : Filed b c) : Filed a c := by
  obtain ⟨⟨fs, made⟩, queue⟩ := first
  obtain ⟨⟨fs', made'⟩, queue'⟩ := second
  refine ⟨⟨fs', ?_⟩, queue'.trans queue⟩
  rw [made', made]

theorem onFs_filed {α : Type} {p : FsM δ α} : Along (onFs p) Filed := by
  intro s x t ran
  obtain ⟨fs, -, rfl⟩ := onFs_ok ran
  exact ⟨⟨_, rfl⟩, rfl⟩

theorem notifyOpened_filed (openedAs : Option FilePtr) : Along (notifyOpened openedAs : IoM δ Unit) Filed := by
  cases openedAs with
  | none => exact Along.of_throw
  | some fd =>
    refine Along.of_bind Filed.trans onFs_filed fun f s x t ran => ?_
    unfold waitqNotify at ran
    split at ran
    · obtain ⟨-, rfl⟩ := Prod.mk.inj (Except.ok.inj ran)
      exact ⟨⟨_, rfl⟩, rfl⟩
    · cases ran

theorem setBlockRequest_filed (request : Word) : Along (setBlockRequest request : IoM δ Unit) Filed :=
  Along.of_modify fun _ => ⟨⟨_, rfl⟩, rfl⟩

theorem ttyRead_filed (minor : Word) (n : Nat) : Along (ttyRead minor n : IoM δ (List Word)) Filed := by
  intro s words t ran
  unfold ttyRead at ran
  have ran := run_next ran rfl
  dsimp only at ran
  have ran := run_next ran rfl
  refine Filed.trans s _ t ?_ (Along.of_bind Filed.trans ?_ (fun _ => Along.of_pure Filed.refl) _ _ _ ran)
  · exact ⟨⟨_, rfl⟩, rfl⟩
  · split
    · exact setBlockRequest_filed 1
    · exact Along.of_pure Filed.refl

theorem piperRead_filed (p : Word) (n : Nat) : Along (piperRead p n : IoM δ (List Word)) Filed := by
  refine Along.of_bind Filed.trans (Along.of_get Filed.refl) fun s => Along.of_bind Filed.trans ?_ fun _ => ?_
  · split
    · exact Along.of_bind Filed.trans (Along.of_get Filed.refl) fun s => notifyOpened_filed _
    · exact Along.of_pure Filed.refl
  · intro s words t ran
    have ran := run_next ran rfl
    dsimp only at ran
    have ran := run_next ran rfl
    refine Filed.trans s _ t ?_ (Along.of_bind Filed.trans ?_ (fun _ => Along.of_pure Filed.refl) _ _ _ ran)
    · exact ⟨⟨_, rfl⟩, rfl⟩
    · split
      · exact setBlockRequest_filed 1
      · exact Along.of_pure Filed.refl

theorem readHandler_filed (minor : Word) (n : Nat) (h : BootHandler) :
    Along (readHandler minor n h : IoM δ (List Word)) Filed := by
  cases h with
  | ttyRead => exact ttyRead_filed minor n
  | piperRead => exact piperRead_filed minor n
  | procFileRead => exact Along.of_bind Filed.trans (Along.of_get Filed.refl) fun _ => Along.of_pure Filed.refl
  | schedFileRead | nullFileRead | zeroFileRead => exact Along.of_pure Filed.refl
  | _ => exact Along.of_throw

/-- `k_read` leaves the tables and the memory. -/
theorem kRead_filed {drv : BlkDriver δ} {behind : BlockPtr → Nat → Word} {env : FsEnv} {fd : FilePtr} {size : Nat} :
    Along (kRead drv behind env fd size) Filed := by
  refine Along.of_bind Filed.trans onFs_filed fun f => ?_
  split
  · exact readHandler_filed _ _ _
  · exact onFs_filed
  · exact onFs_filed
  · exact Along.of_pure Filed.refl
  · exact Along.of_throw
  · exact Along.of_throw
  · exact Along.of_throw

theorem piperWrite_filed (p : Word) (buf : Nat → Word) (n : Nat) : Along (piperWrite p buf n : IoM δ Nat) Filed := by
  refine Along.of_bind Filed.trans (Along.of_get Filed.refl) fun s => ?_
  show Along (if (s.pipes p).readClosed = true then _ else _) Filed
  split
  · exact Along.of_bind Filed.trans (setBlockRequest_filed 2) fun _ => Along.of_pure Filed.refl
  · refine Along.of_bind Filed.trans ?_ fun _ => ?_
    · split
      · exact Along.of_bind Filed.trans (Along.of_get Filed.refl) fun s => notifyOpened_filed _
      · exact Along.of_pure Filed.refl
    · intro s' words t ran
      have ran := run_next ran rfl
      dsimp only at ran
      have ran := run_next ran rfl
      refine Filed.trans s' _ t ?_ (Along.of_bind Filed.trans ?_ (fun _ => Along.of_pure Filed.refl) _ _ _ ran)
      · exact ⟨⟨_, rfl⟩, rfl⟩
      · split
        · exact setBlockRequest_filed 1
        · exact Along.of_pure Filed.refl

/-- `k_write` leaves the tables and the memory. -/
theorem kWrite_filed {drv : BlkDriver δ} {env : FsEnv} {fd : FilePtr} {buf : Nat → Word} {size : Nat} :
    Along (kWrite drv env fd buf size) Filed := by
  refine Along.of_bind Filed.trans onFs_filed fun f => ?_
  split
  case h_1 h _ =>
    cases h with
    | piperWrite => exact piperWrite_filed _ _ _
    | schedFileWrite =>
      exact Along.of_bind Filed.trans (Along.of_modify fun _ => ⟨⟨_, rfl⟩, rfl⟩) fun _ => Along.of_pure Filed.refl
    | ttyWrite | nullFileWrite | zeroFileWrite | procFileWrite => exact Along.of_pure Filed.refl
    | _ => exact Along.of_throw
  · exact onFs_filed
  · exact onFs_filed
  · exact Along.of_pure Filed.refl
  · exact Along.of_throw
  · exact Along.of_throw
  · exact Along.of_throw

/-- The memory and the selectors are the same. -/
def Calm (s t : Io δ) : Prop :=
  t.kernel.mm = s.kernel.mm ∧ ∀ i, (t.kernel.procs i).mmuSelector = (s.kernel.procs i).mmuSelector

theorem Calm.refl (s : Io δ) : Calm s s := ⟨rfl, fun _ => rfl⟩

theorem Calm.trans (a b c : Io δ) (first : Calm a b) (second : Calm b c) : Calm a c :=
  ⟨second.1.trans first.1, fun i => (second.2 i).trans (first.2 i)⟩

theorem Filed.calm {s t : Io δ} (filed : Filed s t) : Calm s t := by
  obtain ⟨⟨fs, made⟩, -⟩ := filed
  unfold Calm
  rw [made]
  exact ⟨rfl, fun _ => rfl⟩

theorem setBlockRequest_calm (request : Word) : Along (setBlockRequest request : IoM δ Unit) Calm :=
  fun _ _ _ ran => (setBlockRequest_filed request _ _ _ ran).calm

/-- A change of the tables that keeps the memory and the selectors. -/
def CalmKernel (k l : KernelState δ) : Prop :=
  l.mm = k.mm ∧ ∀ i, (l.procs i).mmuSelector = (k.procs i).mmuSelector

theorem CalmKernel.trans {a b c : KernelState δ} (first : CalmKernel a b) (second : CalmKernel b c) :
    CalmKernel a c := ⟨second.1.trans first.1, fun i => (second.2 i).trans (first.2 i)⟩

theorem setProc_calm {k : KernelState δ} {i : Nat} {p : Process}
    (same : p.mmuSelector = (k.procs i).mmuSelector) : CalmKernel k (k.setProc i p) := by
  refine ⟨rfl, fun j => ?_⟩
  by_cases here : j = i
  · rw [here, KernelState.setProc_self, same]
  · rw [KernelState.setProc_ne k p here]

theorem kill_calm (k : KernelState δ) (i : Nat) : CalmKernel k (k.kill i) := by
  have task : CalmKernel k (k.addKernelTask .exit (k.procs i).pid 0) := by
    refine ⟨?_, fun j => by rw [KernelState.addKernelTask_procs]⟩
    unfold KernelState.addKernelTask
    split <;> rfl
  exact task.trans (setProc_calm rfl)

/-- The scan of `resched`, by induction on its steps. -/
theorem rescanTable_calm : ∀ (fuel : Nat) {k k' : KernelState δ} {n next : Nat} {seen seen' : List Nat},
    rescanTable fuel k n seen = some (.ok (next, k', seen')) → CalmKernel k k' := by
  intro fuel
  induction fuel with
  | zero => exact fun result => by cases result
  | succ fuel ih =>
    intro k k' n next seen seen' result
    obtain ⟨m, -, -, -, step⟩ := rescanTable_step fuel k n seen
    rw [step] at result
    split at result
    · split at result
      · cases result
      · split at result
        · exact (kill_calm k m).trans (ih result)
        · obtain ⟨-, same⟩ := Prod.mk.inj (Except.ok.inj (Option.some.inj result))
          obtain ⟨rfl, -⟩ := Prod.mk.inj same
          exact ⟨rfl, fun _ => rfl⟩
    · exact ih result

theorem resched_calm {fuel : Nat} {tStack frame : InterruptFrame} {k k' : KernelState δ} {seen : List Nat}
    (result : resched fuel tStack k = some (.ok (frame, k', seen))) : CalmKernel k k' := by
  unfold resched at result
  split at result
  · cases result
  · cases result
  case h_3 next s seen' scan =>
    obtain ⟨-, same⟩ := Prod.mk.inj (Except.ok.inj (Option.some.inj result))
    obtain ⟨rfl, -⟩ := Prod.mk.inj same
    have saved : CalmKernel k (k.saveFrame tStack) := by
      unfold KernelState.saveFrame
      split
      · exact setProc_calm rfl
      · exact ⟨rfl, fun _ => rfl⟩
    have resumed : CalmKernel s (s.resume next) := by
      unfold KernelState.resume
      split
      · exact (setProc_calm rfl : CalmKernel s (s.setState next .run))
      · exact ⟨rfl, fun _ => rfl⟩
    exact (saved.trans (rescanTable_calm fuel scan)).trans resumed

theorem block_calm (fuel p : Nat) (caller : Word) : Along (block fuel p caller : IoM δ Unit) Calm := by
  refine Along.of_bind Calm.trans (Along.of_modify fun s => setProc_calm rfl) fun _ => ?_
  refine Along.of_bind Calm.trans (Along.of_get Calm.refl) fun s => ?_
  split
  · intro s x t ran
    unfold reschedule at ran
    split at ran
    case h_1 frame k seen result =>
      obtain ⟨-, rfl⟩ := Prod.mk.inj (Except.ok.inj ran)
      exact resched_calm result
    case h_2 => cases ran
    case h_3 => cases ran
  · exact Along.of_pure Calm.refl

theorem waitqAddEntry_calm (e : WaitqEntry) : Along (waitqAddEntry e : IoM δ Unit) Calm := by
  intro s x t ran
  unfold waitqAddEntry at ran
  split at ran
  · obtain ⟨-, rfl⟩ := Prod.mk.inj (Except.ok.inj ran)
    exact Calm.refl _
  · cases ran

/-! ### What changes the memory only -/

section Memory

variable {a b : Io δ}

theorem userGets_mm {reader : Nat} {addr : Word} {length : Nat} {words : List Word}
    (got : userGets reader addr length a = .ok (words, b)) : ∃ mm, b = a.withMm mm := by
  unfold userGets at got
  split at got
  case h_1 result => exact ⟨_, (Prod.mk.inj (Except.ok.inj got)).2.symm⟩
  case h_2 => cases got

theorem userPuts_mm {writer : Nat} {addr : Word} {words : List Word}
    (put : userPuts writer addr words a = .ok ((), b)) : ∃ mm, b = a.withMm mm := by
  unfold userPuts at put
  split at put
  case h_1 result => exact ⟨_, (Prod.mk.inj (Except.ok.inj put)).2.symm⟩
  case h_2 => cases put

theorem putSize_mm {p : Nat} {scall retval : Word} (put : putSize p scall retval a = .ok ((), b)) :
    ∃ mm, b = a.withMm mm := by
  unfold putSize at put
  obtain ⟨words, s, got, put⟩ := run_ok put
  obtain ⟨mm, rfl⟩ := userGets_mm got
  obtain ⟨mm', rfl⟩ := userPuts_mm put
  exact ⟨mm', rfl⟩

end Memory

/-! ### What a process sees -/

/-- Process `p` keeps its selector, and, if its pages are its own, it sees the same at the addresses of
`seen`. -/
def Sees (p : Nat) (seen : Word → Prop) (s t : Io δ) : Prop :=
  (t.kernel.procs p).mmuSelector = (s.kernel.procs p).mmuSelector ∧
    (s.kernel.mm.Private (s.kernel.procs p).mmuSelector →
      s.kernel.mm.Keeps t.kernel.mm (s.kernel.procs p).mmuSelector seen)

section Sees

variable {p : Nat} {seen : Word → Prop} {a b c : Io δ}

theorem Sees.trans (first : Sees p seen a b) (second : Sees p seen b c) : Sees p seen a c := by
  refine ⟨second.1.trans first.1, fun own => ?_⟩
  have before := first.2 own
  have after := second.2
  rw [first.1] at after
  exact before.trans (after before.own)

theorem Sees.mono {more : Word → Prop} (sees : Sees p more a b) (weak : ∀ x, seen x → more x) : Sees p seen a b :=
  ⟨sees.1, fun own => (sees.2 own).mono weak⟩

theorem Calm.sees (calm : Calm a b) : Sees p seen a b := by
  refine ⟨calm.2 p, fun own => ?_⟩
  rw [calm.1]
  exact Mm.Keeps.refl own

theorem userGets_sees {reader : Nat} {addr : Word} {length : Nat} {words : List Word}
    (got : userGets reader addr length a = .ok (words, b)) : Sees p seen a b ∧ words.length = length := by
  unfold userGets at got
  split at got
  case h_1 result =>
    obtain ⟨rfl, rfl⟩ := Prod.mk.inj (Except.ok.inj got)
    exact ⟨⟨rfl, fun own => ugets_frame own result⟩, ugetsLoop_length length result⟩
  case h_2 => cases got

theorem userPuts_sees {addr : Word} {words : List Word} (put : userPuts p addr words a = .ok ((), b)) :
    Sees p (fun x => ¬ InRange addr words.length x) a b := by
  unfold userPuts at put
  split at put
  case h_1 result =>
    obtain ⟨-, rfl⟩ := Prod.mk.inj (Except.ok.inj put)
    exact ⟨rfl, fun own => uputs_frame own result⟩
  case h_2 => cases put

/-- A longer range has the addresses of a shorter. -/
theorem not_inRange_mono {addr x : Word} {n k : Nat} (le : n ≤ k) (out : ¬ InRange addr k x) :
    ¬ InRange addr n x := fun inside => out (Nat.lt_of_lt_of_le inside le)

theorem putSize_sees {scall retval : Word} (put : putSize p scall retval a = .ok ((), b)) :
    Sees p (fun x => ¬ InRange scall readSyscallSize x) a b := by
  unfold putSize at put
  obtain ⟨words, s, got, put⟩ := run_ok put
  obtain ⟨first, short⟩ := userGets_sees got
  refine first.trans ((userPuts_sees put).mono fun x => not_inRange_mono ?_)
  rw [List.length_set]
  exact short.le

end Sees

/-! ### The frame of a transfer -/

section Frames

variable {drv : BlkDriver δ} {behind : BlockPtr → Nat → Word} {env : FsEnv} {fuel : Nat} {fd : FilePtr}
  {buf size caller scall : Word} {s t : Io δ} {n : Nat}

theorem procOf_ok {p : Nat} {pid : Word} (found : procOf pid s = .ok (p, t)) :
    s.kernel.findProcByPid pid = some p ∧ t = s := by
  unfold procOf at found
  split at found
  case h_1 here =>
    obtain ⟨rfl, rfl⟩ := Prod.mk.inj (Except.ok.inj found)
    exact ⟨here, rfl⟩
  case h_2 => cases found

/-- **A read changes the words it reports**, and those of the structure of the call. -/
theorem tryKRead_frame (read : tryKRead drv behind env fuel fd buf size caller scall s = .ok (n, t)) :
    ∃ p, s.kernel.findProcByPid caller = some p ∧
      Sees p (fun x => ¬ InRange buf n x ∧ ¬ InRange scall readSyscallSize x) s t := by
  unfold tryKRead at read
  obtain ⟨p, s₁, found, rest⟩ := run_ok read
  obtain ⟨found, rfl⟩ := procOf_ok found
  obtain ⟨words, s₂, fetched, rest⟩ := run_ok rest
  split at rest
  case isTrue => cases rest
  case isFalse =>
    unfold finishRead at rest
    obtain ⟨_, s₃, stored, rest⟩ := run_ok rest
    obtain ⟨_, s₄, put, rest⟩ := run_ok rest
    obtain ⟨s₅, s₅', got, rest⟩ := run_ok rest
    obtain ⟨_, s₆, blocked, rest⟩ := run_ok rest
    obtain ⟨_, s₇, sized, rest⟩ := run_ok rest
    obtain ⟨rfl, rfl⟩ := Prod.mk.inj (Except.ok.inj rest)
    have toBuffer : Calm s₁ s₃ := Calm.trans _ _ _ (kRead_filed _ _ _ fetched).calm
      (Along.of_modify (fun _ => ⟨rfl, fun _ => rfl⟩) _ _ _ stored)
    have waiting : Calm s₄ s₆ := by
      refine Calm.trans _ _ _ (Along.of_get Calm.refl _ _ _ got) ?_
      split at blocked
      · exact Along.of_bind Calm.trans (setBlockRequest_calm 0) (fun _ =>
          Along.of_bind Calm.trans (waitqAddEntry_calm _) fun _ => block_calm fuel p caller) _ _ _ blocked
      · exact Along.of_pure Calm.refl _ _ _ blocked
    refine ⟨p, found, toBuffer.sees.trans (Sees.trans ((userPuts_sees put).mono fun x out => out.1) ?_)⟩
    exact waiting.sees.trans ((putSize_sees sized).mono fun x out => out.2)

/-- **A write changes the structure of the call only.** -/
theorem tryKWrite_frame (written : tryKWrite drv env fuel fd buf size caller scall s = .ok (n, t)) :
    ∃ p, s.kernel.findProcByPid caller = some p ∧
      Sees p (fun x => ¬ InRange scall readSyscallSize x) s t := by
  unfold tryKWrite at written
  obtain ⟨p, s₁, found, rest⟩ := run_ok written
  obtain ⟨found, rfl⟩ := procOf_ok found
  split at rest
  case isTrue => cases rest
  case isFalse =>
    obtain ⟨words, s₂, fetched, rest⟩ := run_ok rest
    obtain ⟨_, s₃, stored, rest⟩ := run_ok rest
    obtain ⟨s₄, s₄', got, rest⟩ := run_ok rest
    obtain ⟨retval, s₅, moved, rest⟩ := run_ok rest
    unfold finishWrite at rest
    obtain ⟨s₆, s₆', got', rest⟩ := run_ok rest
    obtain ⟨_, s₇, blocked, rest⟩ := run_ok rest
    obtain ⟨_, s₈, sized, rest⟩ := run_ok rest
    obtain ⟨-, rfl⟩ := Prod.mk.inj (Except.ok.inj rest)
    have toFile : Calm s₂ s₅ := Calm.trans _ _ _ (Along.of_modify (fun _ => ⟨rfl, fun _ => rfl⟩) _ _ _ stored)
      (Calm.trans _ _ _ (Along.of_get Calm.refl _ _ _ got) (kWrite_filed _ _ _ moved).calm)
    have waiting : Calm s₅ s₇ := by
      refine Calm.trans _ _ _ (Along.of_get Calm.refl _ _ _ got') ?_
      split at blocked
      · refine Along.of_bind Calm.trans ?_ (fun _ => block_calm fuel p caller) _ _ _ blocked
        split
        · exact Along.of_bind Calm.trans (setBlockRequest_calm 0) fun _ => waitqAddEntry_calm _
        · split
          · refine Along.of_modify fun s => ?_
            show CalmKernel s.kernel _
            unfold KernelState.sendSig
            split
            · exact setProc_calm rfl
            · exact ⟨rfl, fun _ => rfl⟩
          · exact Along.of_pure Calm.refl
      · exact Along.of_pure Calm.refl _ _ _ blocked
    exact ⟨p, found, (userGets_sees fetched).1.trans (toFile.sees.trans (waiting.sees.trans (putSize_sees sized)))⟩

end Frames

/-! ### Faults of a transfer -/

section Faults

variable {drv : BlkDriver δ} {behind : BlockPtr → Nat → Word} {env : FsEnv} {fuel : Nat} {s : Io δ}

/-- The fault is not an access outside `iobuf`. -/
def NoOverrun (e : IoFault) : Prop := e ≠ .overrun

theorem Below.noOverrun {e : IoFault} (below : e.Below) : NoOverrun e := by
  obtain ⟨f, rfl⟩ := below
  exact fun clash => by cases clash

theorem userPuts_raises {p : Nat} {addr : Word} {words : List Word} :
    Raises (userPuts p addr words : IoM δ Unit) NoOverrun := by
  intro s e faults
  unfold userPuts at faults
  split at faults
  · cases faults
  · obtain rfl := Except.error.inj faults
    exact fun clash => by cases clash

theorem userGets_raises {p : Nat} {addr : Word} {length : Nat} :
    Raises (userGets p addr length : IoM δ (List Word)) NoOverrun := by
  intro s e faults
  unfold userGets at faults
  split at faults
  · cases faults
  · obtain rfl := Except.error.inj faults
    exact fun clash => by cases clash

theorem putSize_raises {p : Nat} {scall retval : Word} : Raises (putSize p scall retval : IoM δ Unit) NoOverrun :=
  Raises.of_bind userGets_raises fun _ => userPuts_raises

theorem waitqAddEntry_raises {e : WaitqEntry} : Raises (waitqAddEntry e : IoM δ Unit) NoOverrun := by
  intro s e faults
  unfold waitqAddEntry at faults
  split at faults
  · cases faults
  · obtain rfl := Except.error.inj faults
    exact fun clash => by cases clash

theorem block_raises {p : Nat} {caller : Word} : Raises (block fuel p caller : IoM δ Unit) NoOverrun := by
  refine Raises.of_bind (fun _ _ faults => by cases faults) fun _ =>
    Raises.of_bind (fun _ _ faults => by cases faults) fun s => ?_
  split
  · intro s e faults
    unfold reschedule at faults
    split at faults
    · cases faults
    all_goals
      obtain rfl := Except.error.inj faults
      exact fun clash => by cases clash
  · exact Raises.of_pure

theorem setBlockRequest_raises {request : Word} : Raises (setBlockRequest request : IoM δ Unit) NoOverrun :=
  fun _ _ faults => by cases faults

theorem finishRead_raises {p : Nat} {words : List Word} {fd : FilePtr} {buf size caller scall : Word} :
    Raises (finishRead fuel p fd buf size caller scall words : IoM δ Nat) NoOverrun := by
  refine Raises.of_bind (fun _ _ faults => by cases faults) fun _ => Raises.of_bind userPuts_raises fun _ =>
    Raises.of_bind (fun _ _ faults => by cases faults) fun s => Raises.of_bind ?_ fun _ =>
    Raises.of_bind putSize_raises fun _ => Raises.of_pure
  split
  · exact Raises.of_bind setBlockRequest_raises fun _ => Raises.of_bind waitqAddEntry_raises fun _ => block_raises
  · exact Raises.of_pure

theorem finishWrite_raises {p retval : Nat} {fd : FilePtr} {buf size caller scall : Word} :
    Raises (finishWrite fuel p fd buf size caller scall retval : IoM δ Nat) NoOverrun := by
  refine Raises.of_bind (fun _ _ faults => by cases faults) fun s => Raises.of_bind ?_ fun _ =>
    Raises.of_bind putSize_raises fun _ => Raises.of_pure
  split
  · refine Raises.of_bind ?_ fun _ => block_raises
    split
    · exact Raises.of_bind setBlockRequest_raises fun _ => waitqAddEntry_raises
    · split
      · exact fun _ _ faults => by cases faults
      · exact Raises.of_pure
  · exact Raises.of_pure

theorem piperWrite_raises {p : Word} {buf : Nat → Word} {n : Nat} :
    Raises (piperWrite p buf n : IoM δ Nat) NoOverrun := by
  refine Raises.of_bind (fun _ _ faults => by cases faults) fun s => ?_
  show Raises (if (s.pipes p).readClosed = true then _ else _) NoOverrun
  split
  · exact Raises.of_bind setBlockRequest_raises fun _ => Raises.of_pure
  · refine Raises.of_bind ?_ fun _ => ?_
    · split
      · exact Raises.of_bind (fun _ _ faults => by cases faults) fun s s' e faults =>
          Below.noOverrun (notifyOpened_raises _ s' e faults)
      · exact Raises.of_pure
    · refine Raises.of_bind (fun _ _ faults => by cases faults) fun s => ?_
      refine Raises.of_bind (fun _ _ faults => by cases faults) fun _ => Raises.of_bind ?_ fun _ => Raises.of_pure
      split
      · exact setBlockRequest_raises
      · exact Raises.of_pure

theorem kWrite_noOverrun {fd : FilePtr} {buf : Nat → Word} {size : Nat} :
    Raises (kWrite drv env fd buf size) NoOverrun := by
  have below : ∀ {α : Type} {p : FsM δ α}, Raises (onFs p) NoOverrun := fun s e faults =>
    Below.noOverrun (onFs_raises s e faults)
  refine Raises.of_bind below fun f => ?_
  split
  case h_1 h _ =>
    cases h with
    | piperWrite => exact piperWrite_raises
    | schedFileWrite => exact Raises.of_bind (fun _ _ faults => by cases faults) fun _ => Raises.of_pure
    | ttyWrite | nullFileWrite | zeroFileWrite | procFileWrite => exact Raises.of_pure
    | _ => exact Raises.of_throw fun clash => by cases clash
  · exact below
  · exact below
  · exact Raises.of_pure
  all_goals exact Raises.of_throw fun clash => by cases clash

/-! ### The bound of `iobuf` -/

/-- **When a transfer stays in `iobuf`.** -/
def TransferFits (drv : BlkDriver δ) (s : Io δ) (e : WaitqEntry) : Prop :=
  if e.isWrite then e.size.toNat ≤ iobufSize else s.readLength drv e.fd e.size.toNat ≤ iobufSize

/-- **What is asked of a transfer**: it stays in `iobuf`, and the process sees the same but for the words
the call reports as read, and the structure of the call. -/
def TransferSafe (s : Io δ) (e : WaitqEntry) : Except IoFault (Nat × Io δ) → Prop
  | .ok (n, t) => ∃ p, s.kernel.findProcByPid e.pid = some p ∧
      Sees p (fun x => ¬ InRange e.buf (if e.isWrite then 0 else n) x ∧
        ¬ InRange e.scallStruct readSyscallSize x) s t
  | .error fault => fault ≠ .overrun

/-- The process of a transfer that comes to an end is there. -/
theorem procOf_ends {α : Type} {pid : Word} {f : Nat → IoM δ α} {r : Except IoFault (α × Io δ)}
    (run : (procOf pid >>= f) s = r) (ends : ∀ e, r ≠ .error (.kernel e)) :
    ∃ p, s.kernel.findProcByPid pid = some p ∧ f p s = r := by
  cases found : s.kernel.findProcByPid pid with
  | none =>
    have fails : (procOf pid >>= f) s = .error (.kernel .wild) := by
      show Except.bind (procOf pid s) _ = _
      unfold procOf
      rw [found]
      rfl
    exact absurd (run.symm.trans fails) (ends .wild)
  | some p =>
    have here : procOf pid s = .ok (p, s) := by
      unfold procOf
      rw [found]
    exact ⟨p, rfl, (bind_run here).symm.trans run⟩

theorem tryKWrite_ends {fd : FilePtr} {buf size caller scall : Word} {r : Except IoFault (Nat × Io δ)}
    (run : tryKWrite drv env fuel fd buf size caller scall s = r) (ends : ∀ e, r ≠ .error (.kernel e)) :
    r = .error .overrun ↔ iobufSize < size.toNat := by
  obtain ⟨p, -, run⟩ := procOf_ends run ends
  by_cases large : iobufSize < size.toNat
  · rw [if_pos large] at run
    exact iff_of_true run.symm large
  · rw [if_neg large] at run
    refine iff_of_false (fun overrun => ?_) large
    rw [overrun] at run
    exact Raises.of_bind userGets_raises (fun _ => Raises.of_bind (fun _ _ faults => by cases faults) fun _ =>
      Raises.of_bind (fun _ _ faults => by cases faults) fun _ => Raises.of_bind kWrite_noOverrun fun _ =>
      finishWrite_raises) _ _ run rfl

theorem tryKRead_ends {fd : FilePtr} {buf size caller scall : Word} {r : Except IoFault (Nat × Io δ)}
    (run : tryKRead drv behind env fuel fd buf size caller scall s = r) (ends : ∀ e, r ≠ .error (.kernel e)) :
    r = .error .overrun ↔ iobufSize < s.readLength drv fd size.toNat := by
  obtain ⟨p, -, run⟩ := procOf_ends run ends
  cases fetched : kRead drv behind env fd size.toNat s with
  | error e =>
    have stops : r = .error e := by
      rw [← run]
      show Except.bind (kRead drv behind env fd size.toNat s) _ = _
      rw [fetched]
      rfl
    rcases kRead_raises fetched with ⟨f, rfl⟩ | ⟨rfl, null⟩
    · exact absurd stops (ends f)
    · have none : s.readLength drv fd size.toNat = 0 := by
        unfold readLength
        rw [null]
      rw [stops, none]
      exact iff_of_false (fun clash => by cases clash) (Nat.not_lt_zero _)
  | ok v =>
    obtain ⟨words, s'⟩ := v
    rw [bind_run fetched] at run
    rw [← kRead_length fetched]
    by_cases large : iobufSize < words.length
    · rw [if_pos large] at run
      exact iff_of_true run.symm large
    · rw [if_neg large] at run
      refine iff_of_false (fun overrun => ?_) large
      rw [overrun] at run
      exact finishRead_raises _ _ run rfl

/-- A transfer that comes to an end leaves `iobuf` just where it does not fit. -/
theorem tryTransfer_overrun {e : WaitqEntry} {r : Except IoFault (Nat × Io δ)}
    (run : tryTransfer drv behind env fuel e s = r) (ends : ∀ f, r ≠ .error (.kernel f)) :
    r = .error .overrun ↔ ¬ TransferFits drv s e := by
  unfold tryTransfer at run
  unfold TransferFits
  split at run
  case isTrue write =>
    rw [if_pos write, Nat.not_le]
    exact tryKWrite_ends run ends
  case isFalse read =>
    rw [if_neg read, Nat.not_le]
    exact tryKRead_ends run ends

/-- **The frame of a transfer.** -/
theorem tryTransfer_safe {e : WaitqEntry} {n : Nat} {t : Io δ}
    (run : tryTransfer drv behind env fuel e s = .ok (n, t)) : TransferSafe s e (.ok (n, t)) := by
  unfold tryTransfer at run
  split at run
  case isTrue write =>
    obtain ⟨p, found, sees⟩ := tryKWrite_frame run
    exact ⟨p, found, sees.mono fun x out => out.2⟩
  case isFalse read =>
    obtain ⟨p, found, sees⟩ := tryKRead_frame run
    refine ⟨p, found, ?_⟩
    rw [if_neg read]
    exact sees

end Faults

/-! ### System calls and retries -/

section Events

variable {drv : BlkDriver δ} {behind : BlockPtr → Nat → Word} {env : FsEnv} {fuel : Nat} {s t : Io δ}

/-- How a system call ended, without the uses of descriptors. -/
def outcome {α : Type} (x : Except IoFault α × Io δ × List Use) : Except IoFault (α × Io δ) :=
  x.1.map fun v => (v, x.2.1)

theorem exec_onIo_returns {α : Type} {p : IoM δ α} {x : α} {log uses : List Use}
    (ran : Abort.exec (onIo p) (s, log) = (.ok x, (t, uses))) : p s = .ok (x, t) ∧ uses = log := by
  change (match p s with
    | .ok (x, t) => ((.ok x, (t, log)) : Except IoFault α × Io δ × List Use)
    | .error e => (.error e, (s, log))) = _ at ran
  split at ran
  case h_1 y u here =>
    obtain ⟨same, rest⟩ := Prod.mk.inj ran
    obtain ⟨rfl, rfl⟩ := Prod.mk.inj rest
    obtain rfl := Except.ok.inj same
    exact ⟨here, rfl⟩
  case h_2 => cases (Prod.mk.inj ran).1

theorem outcome_onIo {α : Type} (p : IoM δ α) (log : List Use) : outcome (Abort.exec (onIo p) (s, log)) = p s := by
  show outcome (match p s with
    | .ok (x, t) => ((.ok x, (t, log)) : Except IoFault α × Io δ × List Use)
    | .error e => (.error e, (s, log))) = _
  cases p s <;> rfl

/-- The slot `fd` of the running process; `none` is outside the table. -/
def slot (s : Io δ) (fd : Word) : Option (Option FilePtr) :=
  if low : fd.toNat < maxFilesPerProc then
    some ((s.kernel.procs s.kernel.currentTask).openFiles ⟨fd.toNat, low⟩)
  else none

theorem exec_openFiles (fd : Word) (log : List Use) : Abort.exec (openFiles fd) (s, log) =
    match s.slot fd with
    | some fp => (.ok fp, (s, log))
    | none => (.error (.kernel .wild), (s, log ++ [.outside fd])) := by
  unfold openFiles slot
  rw [Abort.exec_bind_ok (Abort.exec_get _)]
  by_cases low : fd.toNat < maxFilesPerProc
  · rw [dif_pos low, dif_pos low]
    rfl
  · rw [dif_neg low, dif_neg low]
    rfl

theorem exec_useFile (fd : Word) (fp : Option FilePtr) (log : List Use) : Abort.exec (useFile fd fp) (s, log) =
    match fp with
    | some fp => (.ok fp, (s, log ++ [.file fd fp (s.kernel.fs.openFiles.used fp)]))
    | none => (.error (.kernel .wild), (s, log ++ [.null fd])) := by
  cases fp <;> rfl

/-- A `FILE` pointer from a slot. -/
theorem openFiles_useFile {fd : Word} {log uses : List Use} {fp : FilePtr}
    (ran : Abort.exec (openFiles fd >>= useFile fd) (s, log) = (.ok fp, (t, uses))) :
    t = s ∧ s.slot fd = some (some fp) ∧ uses = log ++ [.file fd fp (s.kernel.fs.openFiles.used fp)] := by
  obtain ⟨found, ⟨s₁, log₁⟩, read, used⟩ := Abort.exec_bind_returns ran
  rw [exec_openFiles] at read
  cases here : s.slot fd with
  | none =>
    rw [here] at read
    cases (Prod.mk.inj read).1
  | some x =>
    rw [here] at read
    obtain ⟨same, rest⟩ := Prod.mk.inj read
    obtain ⟨rfl, rfl⟩ := Prod.mk.inj rest
    obtain rfl := Except.ok.inj same
    rw [exec_useFile] at used
    cases x with
    | none => cases (Prod.mk.inj used).1
    | some y =>
      obtain ⟨same, rest⟩ := Prod.mk.inj used
      obtain ⟨rfl, rfl⟩ := Prod.mk.inj rest
      obtain rfl := Except.ok.inj same
      exact ⟨rfl, rfl, rfl⟩

/-- **What the request of a system call is.** -/
theorem readRequest_ok {isWrite : Bool} {scall : Word} {log uses : List Use} {q : WaitqEntry}
    (read : Abort.exec (readRequest isWrite scall) (s, log) = (.ok q, (t, uses))) :
    ∃ words, userGets s.kernel.currentTask scall readSyscallSize s = .ok (words, t) ∧
      t.slot (words.getD 1 0) = some (some q.fd) ∧
      uses = log ++ [.file (words.getD 1 0) q.fd (t.kernel.fs.openFiles.used q.fd)] ∧
      q = ⟨0, (t.kernel.procs s.kernel.currentTask).pid, scall, q.fd, words.getD 3 0, words.getD 2 0, isWrite⟩ := by
  unfold readRequest at read
  rw [Abort.exec_bind_ok (Abort.exec_get _)] at read
  obtain ⟨words, ⟨s₁, log₁⟩, got, rest⟩ := Abort.exec_bind_returns read
  obtain ⟨got, rfl⟩ := exec_onIo_returns got
  have rest : Abort.exec ((openFiles (words.getD 1 0) >>= useFile (words.getD 1 0)) >>= fun fp => do
      let pid := ((← get).1.kernel.procs s.kernel.currentTask).pid
      pure ⟨0, pid, scall, fp, words.getD 3 0, words.getD 2 0, isWrite⟩) (s₁, log₁) = (.ok q, (t, uses)) := by
    rw [bind_assoc]
    exact rest
  obtain ⟨fp, ⟨s₂, log₂⟩, used, last⟩ := Abort.exec_bind_returns rest
  obtain ⟨rfl, here, rfl⟩ := openFiles_useFile used
  rw [Abort.exec_bind_ok (Abort.exec_get _)] at last
  obtain ⟨same, rest⟩ := Prod.mk.inj last
  obtain ⟨rfl, rfl⟩ := Prod.mk.inj rest
  obtain rfl := Except.ok.inj same
  exact ⟨words, got, here, rfl, rfl⟩

/-! ### Runs -/

/-- A step of the kernel, with the state it began in and how it ended: a `read` or `write` system call, a
retry of a blocked one, or anything else. -/
inductive TransferEvent (δ : Type)
  | sysCall (before : Io δ) (isWrite : Bool) (scall : Word) (r : Except IoFault (Nat × Io δ))
  | retry (before : Io δ) (e : WaitqEntry) (r : Except IoFault (Nat × Io δ))
  | other

/-- The state after a step; nothing is known of it where the step stopped. -/
def Ended (r : Except IoFault (Nat × Io δ)) (t : Io δ) : Prop :=
  (∀ f, r ≠ .error (.kernel f)) ∧ ∀ v, r = .ok v → t = v.2

theorem Ended.of_ok (n : Nat) (t : Io δ) : Ended (.ok (n, t)) t :=
  ⟨fun _ clash => (by cases clash), fun _ same => congrArg Prod.snd (Except.ok.inj same)⟩

/-- The steps of the kernel that come to an end. -/
inductive TransferStep (drv : BlkDriver δ) (behind : BlockPtr → Nat → Word) (env : FsEnv) (fuel : Nat) :
    Io δ → TransferEvent δ → Io δ → Prop
  | sysCall {s t : Io δ} {isWrite : Bool} {scall : Word} {r : Except IoFault (Nat × Io δ)}
      (run : outcome (Abort.exec (sysTransfer drv behind env fuel isWrite scall) (s, [])) = r)
      (ended : Ended r t) : TransferStep drv behind env fuel s (.sysCall s isWrite scall r) t
  | retry {s t : Io δ} {e : WaitqEntry} {r : Except IoFault (Nat × Io δ)}
      (run : processWaitQEntry drv behind env fuel e s = r) (ended : Ended r t) :
      TransferStep drv behind env fuel s (.retry s e r) t
  | other {s t : Io δ} : TransferStep drv behind env fuel s .other t

namespace TransferEvent

/-- What is asked of a step. -/
def Safe : TransferEvent δ → Prop
  | sysCall s isWrite scall r => ∀ q s₁ uses,
      Abort.exec (readRequest isWrite scall) (s, []) = (.ok q, (s₁, uses)) → TransferSafe s q r
  | retry s e r => TransferSafe s e r
  | other => True

/-- When it holds. -/
def Fits (drv : BlkDriver δ) : TransferEvent δ → Prop
  | sysCall s isWrite scall _ => ∀ q s₁ uses,
      Abort.exec (readRequest isWrite scall) (s, []) = (.ok q, (s₁, uses)) → TransferFits drv s q
  | retry s e _ => TransferFits drv s e
  | other => True

end TransferEvent

theorem liveProcs_le (s : Io δ) : s.liveProcs ≤ 15 :=
  (List.length_filter_le _ _).trans_eq List.length_range

/-- The state of a process does not matter to a transfer. -/
theorem transferFits_withProcs {k : KernelState δ} {e q : WaitqEntry} (fs : k.fs = s.kernel.fs)
    (same : q = { e with pid := q.pid }) : TransferFits drv (s.withKernel k) q ↔ TransferFits drv s e := by
  have length : (s.withKernel k).readLength drv e.fd e.size.toNat ≤ iobufSize ↔
      s.readLength drv e.fd e.size.toNat ≤ iobufSize := by
    have file : (s.withKernel k).file e.fd = s.file e.fd := congrArg (fun f => f.openFiles.el e.fd) fs
    have kind : (s.withKernel k).readKind e.fd = s.readKind e.fd := by
      unfold readKind
      rw [file]
    have disk : nodeSize drv (s.withKernel k).kernel.fs = nodeSize drv s.kernel.fs := congrArg (nodeSize drv) fs
    unfold readLength
    rw [file, kind, disk]
    cases s.readKind e.fd with
    | calls h =>
      cases h with
      | procFileRead =>
        have before := liveProcs_le s
        have after := liveProcs_le (s.withKernel k)
        refine iff_of_true ?_ ?_ <;> (show 34 * _ + 1 ≤ 1024; omega)
      | _ => exact Iff.rfl
    | _ => exact Iff.rfl
  unfold TransferFits
  rw [same]
  split
  · exact Iff.rfl
  · exact length

theorem findProcByPid_setState {k : KernelState δ} {pid : Word} {p : Nat} (found : k.findProcByPid pid = some p) :
    (k.setState p .run).findProcByPid (k.procs p).pid = some p := by
  obtain ⟨-, pid', here⟩ := KernelState.findProcByPid_some found
  have same : ∀ i, decide (((k.setState p .run).procs i).pid = pid ∧ ((k.setState p .run).procs i).state ≠ .none) =
      decide ((k.procs i).pid = pid ∧ (k.procs i).state ≠ .none) := by
    intro i
    by_cases ready : i = p
    · subst ready
      rw [KernelState.setState_self]
      simp [pid', here]
    · rw [KernelState.setState_ne k _ ready]
  unfold KernelState.findProcByPid
  rw [pid', funext same]
  exact found

/-- **A transfer from its request on.** -/
theorem safe_iff_fits {s₁ : Io δ} {e q : WaitqEntry} {r : Except IoFault (Nat × Io δ)}
    (run : tryTransfer drv behind env fuel q s₁ = r) (ends : ∀ f, r ≠ .error (.kernel f))
    (same : q = { e with pid := q.pid })
    (found : ∀ p, s₁.kernel.findProcByPid q.pid = some p → s.kernel.findProcByPid e.pid = some p)
    (sees : ∀ p seen, Sees p seen s s₁) (fits : TransferFits drv s₁ q ↔ TransferFits drv s e) :
    TransferSafe s e r ↔ TransferFits drv s e := by
  have bound := tryTransfer_overrun run ends
  rw [fits] at bound
  cases r with
  | error fault =>
    refine Iff.trans ?_ (not_iff_comm.mp bound.symm)
    exact ⟨fun safe clash => safe (Except.error.inj clash), fun ne clash => ne (congrArg _ clash)⟩
  | ok v =>
    have fits : TransferFits drv s e := by
      by_contra large
      cases bound.mpr large
    obtain ⟨p, here, rest⟩ := tryTransfer_safe run
    rw [same] at rest
    exact iff_of_true ⟨p, found p here, (sees p _).trans rest⟩ fits

theorem TransferStep.exact {event : TransferEvent δ} (step : TransferStep drv behind env fuel s event t) :
    event.Safe ↔ event.Fits drv := by
  cases step with
  | other => exact Iff.rfl
  | @retry _ e r run ended =>
    obtain ⟨q, s₁, woken, run⟩ : ∃ q s₁, wakeRequest e s = .ok (q, s₁) ∧
        tryTransfer drv behind env fuel q s₁ = r := by
      cases woken : wakeRequest e s with
      | error fault =>
        have stops : r = .error fault := by
          rw [← run]
          show Except.bind (wakeRequest e s) _ = _
          rw [woken]
          rfl
        unfold wakeRequest at woken
        split at woken
        · obtain rfl := Except.error.inj woken
          exact absurd stops (ended.1 _)
        · cases woken
      | ok v => exact ⟨v.1, v.2, rfl, (bind_run woken).symm.trans run⟩
    unfold wakeRequest at woken
    split at woken
    case h_1 => cases woken
    case h_2 p found =>
      obtain ⟨rfl, rfl⟩ := Prod.mk.inj (Except.ok.inj woken)
      have wakes : Calm s (s.withKernel (s.kernel.setState p .run)) := setProc_calm rfl
      refine safe_iff_fits run ended.1 rfl (fun p' here => ?_) (fun p' seen => wakes.sees)
        (transferFits_withProcs rfl rfl)
      have again : _ = some p := findProcByPid_setState found
      exact found.trans (again.symm.trans here)
  | @sysCall _ isWrite scall r run ended =>
    have exact : ∀ q s₁ uses, Abort.exec (readRequest isWrite scall) (s, []) = (.ok q, (s₁, uses)) →
        (TransferSafe s q r ↔ TransferFits drv s q) := by
      intro q s₁ uses read
      obtain ⟨words, got, -, -, -⟩ := readRequest_ok read
      have ran : tryTransfer drv behind env fuel q s₁ = r := by
        rw [← run]
        unfold sysTransfer
        rw [Abort.exec_bind_ok read]
        exact (outcome_onIo _ uses).symm
      obtain ⟨m, rfl⟩ := userGets_mm got
      exact safe_iff_fits ran ended.1 rfl (fun p here => here) (fun p seen => (userGets_sees got).1) Iff.rfl
    exact forall_congr' fun q => forall_congr' fun s₁ => forall_congr' fun uses => forall_congr' (exact q s₁ uses)

/-- **Transfers over runs**: every `read` and `write` system call and every retry of a blocked one that comes
to an end is safe just where it fits, whatever the kernel does between them. -/
theorem transferRun_safe {events : List (TransferEvent δ)}
    (run : Run (TransferStep drv behind env fuel) s events t) : ∀ event ∈ events, event.Safe ↔ event.Fits drv :=
  run.labels (fun _ => True) (fun _ _ _ _ step => ⟨trivial, step.exact⟩) trivial

end Events

/-! ### A process with one open device -/

/-- A process that has a `FILE` of a character device as all of its descriptors, and at address 0 the
structure of a call for `size` words. -/
def callIo (major : BitVec 8) (size : Word) : Io (BlockKey → BlockData) :=
  (devIo major).withKernel
    { (devIo major).kernel with
      procs := fun i => { (bootKernel [1]).procs i with mmuSelector := 1, openFiles := fun _ => some 0 }
      mm := { (bootKernel [1]).mm with ram := fun _ offset => if offset = 2 then size else 0 } }

/-- **2000 words written to `/dev/null`** leave `iobuf`. -/
theorem sysWrite_overrun :
    TransferStep ramDriver (fun _ _ => 0) ramEnv 0 (callIo 5 2000)
      (.sysCall (callIo 5 2000) true 0 (.error .overrun)) (callIo 5 2000) ∧
      ¬ TransferEvent.Safe (.sysCall (callIo 5 2000) true 0 (.error .overrun)) := by
  have read : ∃ s₁, Abort.exec (readRequest true 0) (callIo 5 2000, []) =
      (.ok ⟨0, 1, 0, 0, 0, 2000, true⟩, (s₁, [.file 0 0 true])) := ⟨_, rfl⟩
  obtain ⟨s₁, read⟩ := read
  exact ⟨.sysCall rfl ⟨fun _ clash => (by cases clash), fun _ clash => by cases clash⟩, fun safe =>
    safe _ _ _ read rfl⟩

/-- A process with a terminal at which two characters have arrived, and at address 0 the structure of a call for four
words, to address 16. -/
def lineIo : Io (BlockKey → BlockData) :=
  { (callIo 1 4).withMm
      { (callIo 1 4).kernel.mm with ram := fun _ offset => if offset = 2 then 4 else if offset = 3 then 16 else 0 } with
    uartBuffer := arrivedTwo }

/-- The call, as a `read`. -/
def lineRead : Except IoFault (Nat × Io (BlockKey → BlockData)) :=
  outcome (Abort.exec (sysTransfer ramDriver (fun _ _ => 0) ramEnv 0 false 0) (lineIo, []))

/-- The two characters are read to address 16. -/
theorem transferRun_safe_line : ∃ t : Io (BlockKey → BlockData),
    (ugets 1 16 3 false t.kernel.mm).toOption.map Prod.fst = some [104, 105, 0] ∧
    Run (TransferStep ramDriver (fun _ _ => 0) ramEnv 0) lineIo [.sysCall lineIo false 0 (.ok (2, t))] t ∧
    ∀ event ∈ [TransferEvent.sysCall lineIo false 0 (.ok (2, t))], event.Safe ↔ event.Fits ramDriver := by
  have read : lineRead.toOption.map (fun r => (r.1, (ugets 1 16 3 false r.2.kernel.mm).toOption.map Prod.fst)) =
      some (2, some [104, 105, 0]) := by decide +kernel
  cases ran : lineRead with
  | error e =>
    rw [ran] at read
    cases read
  | ok v =>
    obtain ⟨n, t⟩ := v
    rw [ran] at read
    obtain ⟨rfl, words⟩ := Prod.mk.inj (Option.some.inj read)
    have run : Run (TransferStep ramDriver (fun _ _ => 0) ramEnv 0) lineIo
        [.sysCall lineIo false 0 (.ok (2, t))] t := .single (.sysCall ran (.of_ok 2 t))
    exact ⟨t, words, run, transferRun_safe run⟩

end Io

end RlCpu.Kernel
