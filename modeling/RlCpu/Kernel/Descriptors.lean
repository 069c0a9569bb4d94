/-
**Descriptors from user programs (`sys_fs.c`).**

Seven system calls take a number from the program and follow `cProc->openFiles[fd]`. Each makes its own
check of the number, or none. `DescCall.run` is such a call, with the uses it makes of the table.

* `DescCall.respects_iff`: when a call uses only open files, or rejects the number.
-/

import RlCpu.Kernel.Transfer

namespace RlCpu.Kernel

open RlCpu.Lib

variable {δ : Type}

namespace Io

/-! ### The calls -/

/-- A system call on a structure of the program: the body is given its words, and gives what is written over
them. -/
def viaStruct (structSize : Nat) (scall : Word) (body : List Word → CallM δ (List Word)) : CallM δ Unit := do
  let cProc := (← get).1.kernel.currentTask
  let words ← onIo (userGets cProc scall structSize)
  let words ← body words
  onIo (userPuts cProc scall words)

/-- `cProc->openFiles[fd] = fp` -/
def setOpenFile (fd : Word) (fp : Option FilePtr) : IoM δ Unit := fun s =>
  let p := s.kernel.procs s.kernel.currentTask
  if low : fd.toNat < maxFilesPerProc then
    .ok ((), s.withKernel (s.kernel.setProc s.kernel.currentTask
      { p with openFiles := Function.update p.openFiles ⟨fd.toNat, low⟩ fp }))
  else .error (.kernel .wild)

/-- `fd->refcnt++` -/
def incRefcnt (fp : FilePtr) : IoM δ Unit := onFs do
  let f ← getFile fp
  setFile fp { f with refcnt := f.refcnt + 1 }

/-- The words of `struct stat`. -/
def statWords (s : Stat) : List Word :=
  [s.stDev, s.stIno, s.stMode, 0, 0, 0, s.stRdev, BitVec.ofNat 16 s.stSize,
    BitVec.ofNat 16 (s.stSize / 2 ^ 16), 0, 0, 0]

section Calls

variable (drv : BlkDriver δ) (env : FsEnv)

/-- The body of `sys_fstat`, on `id`, `fd`, `buf`. -/
def fstatBody (words : List Word) : CallM δ (List Word) := do
  let fd := words.getD 1 0
  let fp ← useFile fd (← openFiles fd)
  let s ← get
  let st ← onIo (onFs (onBlk (fsStat drv (s.1.file fp).node)))
  onIo (userPuts s.1.kernel.currentTask (words.getD 2 0) (statWords st))
  pure words

/-- The body of `sys_ioctl`, on `id`, `fd`, `req`, `retval`, `p`. -/
def ioctlBody (left : Word) (words : List Word) : CallM δ (List Word) := do
  let buf ← onIo (userGets (← get).1.kernel.currentTask (words.getD 4 0) 1024)
  let fd := words.getD 1 0
  let fp ← useFile fd (← openFiles fd)
  let retval ← onIo (kIoctl drv env left fp (words.getD 2 0) buf)
  pure (words.set 3 retval)

/-- The body of `sys_close`, on `id`, `fd`. -/
def closeBody (words : List Word) : CallM δ (List Word) :=
  let fd := words.getD 1 0
  if 0 ≤ fd.toInt ∧ fd.toInt < maxFilesPerProc then do
    match ← openFiles fd with
    | some fp => do
        let fp ← useFile fd (some fp)
        onIo (kClose fp)
        onIo (setOpenFile fd none)
        pure (words.set 1 0)
    | none => pure (words.set 1 0xffff)
  else pure (words.set 1 0xffff)

/-- The first empty slot of the running process. -/
def freeSlot (s : Io δ) : Option Word :=
  ((List.finRange maxFilesPerProc).find? fun i =>
    ((s.kernel.procs s.kernel.currentTask).openFiles i).isNone).map fun i : Fin maxFilesPerProc =>
    BitVec.ofNat 16 i.val

/-- The body of `sys_dup`, on `id`, `oldfd`, `retval`. -/
def dupBody (words : List Word) : CallM δ (List Word) := do
  let oldfd := words.getD 1 0
  match ← openFiles oldfd with
  | none => pure (words.set 2 0xffff)
  | some fp =>
      match (← get).1.freeSlot with
      | some fd => do
          onIo (setOpenFile fd (some fp))
          let fp ← useFile oldfd (some fp)
          onIo (incRefcnt fp)
          pure (words.set 2 fd)
      | none => pure (words.set 2 0xffff)

/-- The part of `sys_dup2` that closes `newfd`. -/
def closeNew (newfd : Word) : CallM δ Unit := do
  match ← openFiles newfd with
  | some new => do
      let new ← useFile newfd (some new)
      onIo (kClose new)
  | none => pure ()

/-- The body of `sys_dup2`, on `id`, `oldfd`, `newfd`, `retval`. The variable whose value is returned is
never assigned. -/
def dup2Body (left : Word) (words : List Word) : CallM δ (List Word) := do
  let oldfd := words.getD 1 0
  let newfd := words.getD 2 0
  match ← openFiles oldfd with
  | none => pure (words.set 3 0xffff)
  | some fp =>
      if newfd.toInt < 0 ∨ (maxFilesPerProc : Int) < newfd.toInt then pure (words.set 3 0xffff)
      else if oldfd = newfd then pure (words.set 3 newfd)
      else do
        closeNew newfd
        let fp ← useFile oldfd (some fp)
        onIo (incRefcnt fp)
        pure (words.set 3 left)

/-- `sys_fstat` -/
def sysFstat (scall : Word) : CallM δ Unit := viaStruct 3 scall (fstatBody drv)

/-- `sys_ioctl` -/
def sysIoctl (left : Word) (scall : Word) : CallM δ Unit := viaStruct 5 scall (ioctlBody drv env left)

/-- `sys_close` -/
def sysClose (scall : Word) : CallM δ Unit := viaStruct 2 scall closeBody

/-- `sys_dup` -/
def sysDup (scall : Word) : CallM δ Unit := viaStruct 3 scall dupBody

/-- `sys_dup2` -/
def sysDup2 (left : Word) (scall : Word) : CallM δ Unit := viaStruct 4 scall (dup2Body left)

end Calls

/-! ### Uses -/

/-- What following `cProc->openFiles[fd]` uses. -/
def use (s : Io δ) (fd : Word) : Use :=
  match s.slot fd with
  | some (some fp) => .file fd fp (s.kernel.fs.openFiles.used fp)
  | some none => .null fd
  | none => .outside fd

/-- The program uses no descriptor. -/
def Silent {α : Type} (p : CallM δ α) : Prop := ∀ s log, (Abort.exec p (s, log)).2.2 = log

section Silent

variable {α β : Type} {s t : Io δ} {log : List Use}

/-- What comes before returned. -/
theorem exec_onIo_ok {p : IoM δ α} {x : α} (ran : p s = .ok (x, t)) :
    Abort.exec (onIo p) (s, log) = (.ok x, (t, log)) := by
  unfold onIo Abort.exec
  simp only [ExceptT.run_mk, StateT.run, ran]

theorem exec_onIo_error {p : IoM δ α} {e : IoFault} (ran : p s = .error e) :
    Abort.exec (onIo p) (s, log) = (.error e, (s, log)) := by
  unfold onIo Abort.exec
  simp only [ExceptT.run_mk, StateT.run, ran]

theorem silent_onIo (p : IoM δ α) : Silent (onIo p) := by
  intro s log
  cases ran : p s with
  | ok r => rw [exec_onIo_ok (x := r.1) (t := r.2) ran]
  | error e => rw [exec_onIo_error ran]

theorem silent_pure (x : α) : Silent (pure x : CallM δ α) := fun _ _ => rfl

/-- What comes after adds nothing. -/
theorem uses_bind_silent {p : CallM δ α} {f : α → CallM δ β} (silent : ∀ x, Silent (f x)) :
    (Abort.exec (p >>= f) (s, log)).2.2 = (Abort.exec p (s, log)).2.2 := by
  rw [Abort.exec_bind]
  split
  case h_1 x u first => rw [first, silent x u.1 u.2]
  case h_2 e u first => rw [first]

theorem silent_bind {p : CallM δ α} {f : α → CallM δ β} (first : Silent p) (second : ∀ x, Silent (f x)) :
    Silent (p >>= f) := fun s log => (uses_bind_silent second).trans (first s log)

theorem silent_get {f : Io δ × List Use → CallM δ β} (second : ∀ x, Silent (f x)) : Silent (get >>= f) :=
  silent_bind (fun _ _ => rfl) second

/-- A descriptor that is followed is used once. -/
theorem uses_target {fd : Word} {f : FilePtr → CallM δ β} (silent : ∀ x, Silent (f x)) :
    (Abort.exec (openFiles fd >>= fun fp => useFile fd fp >>= f) (s, log)).2.2 = log ++ [s.use fd] := by
  unfold use
  cases here : s.slot fd with
  | none =>
    rw [Abort.exec_bind_error (by rw [exec_openFiles, here])]
  | some fp =>
    rw [Abort.exec_bind_ok (by rw [exec_openFiles, here]), uses_bind_silent silent, exec_useFile]
    cases fp <;> rfl

theorem userGets_returns (s : Io δ) (p : Nat) (addr : Word) (length : Nat) :
    ∃ words m, userGets p addr length s = .ok (words, s.withMm m) := by
  obtain ⟨v, got⟩ := ugetsLoop_returns (s.kernel.procs p).mmuSelector false length addr 0xffff s.kernel.mm
  refine ⟨v.1, v.2, ?_⟩
  unfold userGets ugets
  rw [got]

/-- A slot of the table that is read. -/
theorem exec_slot {f : Option FilePtr → CallM δ β} {fd : Word} {fp : Option FilePtr} (here : s.slot fd = some fp) :
    Abort.exec (openFiles fd >>= f) (s, log) = Abort.exec (f fp) (s, log) :=
  Abort.exec_bind_ok (by rw [exec_openFiles, here])

theorem uses_outside {f : Option FilePtr → CallM δ β} {fd : Word} (here : s.slot fd = none) :
    (Abort.exec (openFiles fd >>= f) (s, log)).2.2 = log ++ [.outside fd] := by
  rw [Abort.exec_bind_error (by rw [exec_openFiles, here])]

/-- A file that is followed. -/
theorem exec_file {f : FilePtr → CallM δ β} {fd : Word} (fp : FilePtr) :
    Abort.exec (useFile fd (some fp) >>= f) (s, log) =
      Abort.exec (f fp) (s, log ++ [.file fd fp (s.kernel.fs.openFiles.used fp)]) :=
  Abort.exec_bind_ok (exec_useFile fd (some fp) log)

/-- The uses of a system call are those of its body. -/
theorem uses_viaStruct {structSize : Nat} {scall : Word} {body : List Word → CallM δ (List Word)}
    {words : List Word} (got : userGets s.kernel.currentTask scall structSize s = .ok (words, t)) :
    (Abort.exec (viaStruct structSize scall body) (s, log)).2.2 = (Abort.exec (body words) (t, log)).2.2 := by
  unfold viaStruct
  rw [Abort.exec_bind_ok (Abort.exec_get _), Abort.exec_bind_ok (exec_onIo_ok got)]
  exact uses_bind_silent fun _ => silent_onIo _

/-- The signed check of `sys_close`. -/
theorem slot_signed (s : Io δ) (fd : Word) :
    (0 ≤ fd.toInt ∧ fd.toInt < maxFilesPerProc) ↔ s.slot fd ≠ none := by
  have signed : (0 ≤ fd.toInt ∧ fd.toInt < 15) ↔ fd.toNat < 15 := by
    rw [BitVec.toInt_eq_toNat_cond]
    have := fd.isLt
    split <;> omega
  unfold slot
  by_cases low : fd.toNat < maxFilesPerProc
  · rw [dif_pos low]
    exact iff_of_true (signed.mpr low) fun clash => by cases clash
  · rw [dif_neg low]
    exact iff_of_false (fun inside => low (signed.mp inside)) fun some => some rfl

end Silent

/-- The descriptor names an open file of the running process. -/
def Live (s : Io δ) (fd : Word) : Prop :=
  ∃ fp, s.slot fd = some (some fp) ∧ s.kernel.fs.openFiles.used fp = true

/-- The descriptor does not name a file that is not open any more. -/
def NotStale (s : Io δ) (fd : Word) : Prop :=
  ∀ fp, s.slot fd = some (some fp) → s.kernel.fs.openFiles.used fp = true

end Io

open Io

/-! ### The system calls on descriptors -/

/-- A system call that takes a descriptor. -/
inductive DescCall
  | read
  | write
  | fstat
  | ioctl
  | dup
  | dup2
  | close
  deriving DecidableEq, Repr

namespace DescCall

/-- The size of the structure of the call. -/
def structSize : DescCall → Nat
  | read | write => readSyscallSize
  | fstat | dup => 3
  | ioctl => 5
  | dup2 => 4
  | close => 2

/-- The word of the structure that reports a failure as -1. -/
def result : DescCall → Nat
  | close => 1
  | read | write | fstat | dup => 2
  | ioctl | dup2 => 3

/-- The descriptors in the structure. -/
def given (words : List Word) : DescCall → List Word
  | dup2 => [words.getD 1 0, words.getD 2 0]
  | _ => [words.getD 1 0]

/-- The uses of a call are of open files that the program named. -/
def UsesOpen (s : Io δ) (given : List Word) (uses : List Use) : Prop :=
  ∀ u ∈ uses, ∃ fd fp, u = .file fd fp true ∧ fd ∈ given ∧ s.slot fd = some (some fp)

section Run

variable (drv : BlkDriver δ) (behind : BlockPtr → Nat → Word) (env : FsEnv) (fuel : Nat) (left : Word)

/-- The call on the structure at `scall`. -/
def run (scall : Word) : DescCall → CallM δ Unit
  | read => sysRead drv behind env fuel scall >>= fun _ => pure ()
  | write => sysWrite drv behind env fuel scall >>= fun _ => pure ()
  | fstat => sysFstat drv scall
  | ioctl => sysIoctl drv env left scall
  | dup => sysDup scall
  | dup2 => sysDup2 left scall
  | close => sysClose scall

/-- The body of the call; `sys_read` and `sys_write` write to their structures themselves, and never a
failure. -/
def body : DescCall → Option (List Word → CallM δ (List Word))
  | read | write => none
  | fstat => some (fstatBody drv)
  | ioctl => some (ioctlBody drv env left)
  | dup => some dupBody
  | dup2 => some (dup2Body left)
  | close => some closeBody

/-- The uses that the call makes of the table, from a state. -/
def uses (s : Io δ) (scall : Word) (c : DescCall) : List Use :=
  (Abort.exec (c.run drv behind env fuel left scall) (s, [])).2.2

/-- **The call rejects its descriptor**: it writes -1 to its structure, and changes nothing. -/
def Rejects (s : Io δ) (words : List Word) (c : DescCall) : Prop :=
  ∃ p, c.body drv env left = some p ∧
    Abort.exec (p words) (s, []) = (.ok (words.set c.result 0xffff), (s, []))

/-- **What is asked of a call**: every file it uses is an open one, in a slot the program named, and it names
an open file or is rejected. -/
def Respects (s : Io δ) (scall : Word) (c : DescCall) : Prop :=
  ∃ words s₁, userGets s.kernel.currentTask scall c.structSize s = .ok (words, s₁) ∧
    UsesOpen s (c.given words) (c.uses drv behind env fuel left s scall) ∧
    (s.Live (words.getD 1 0) ∨ c.Rejects drv env left s₁ words)

end Run

/-- **When `sys_dup2` respects the table**, after its check that `oldfd` is not empty. -/
def Dup2Admits (s : Io δ) (fp : FilePtr) (oldfd newfd : Word) : Prop :=
  newfd.toInt < 0 ∨ (maxFilesPerProc : Int) < newfd.toInt ∨
    (oldfd = newfd ∧ s.kernel.fs.openFiles.used fp = true) ∨
    (oldfd ≠ newfd ∧ s.slot newfd = some none ∧ s.kernel.fs.openFiles.used fp = true) ∨
    (oldfd ≠ newfd ∧ ∃ new, s.slot newfd = some (some new) ∧ s.kernel.fs.openFiles.used new = true ∧
      s.kernel.fs.openFiles.used fp = true ∧ ¬ (fp = new ∧ (s.file new).refcnt - 1 = 0))

/-- **When a call respects the table.** -/
def Admits (s : Io δ) (words : List Word) : DescCall → Prop
  | read | write | fstat | ioctl => s.Live (words.getD 1 0)
  | close => s.NotStale (words.getD 1 0)
  | dup => s.slot (words.getD 1 0) ≠ none ∧ (s.NotStale (words.getD 1 0) ∨ s.freeSlot = none)
  | dup2 => s.slot (words.getD 1 0) ≠ none ∧
      ∀ fp, s.slot (words.getD 1 0) = some (some fp) → Dup2Admits s fp (words.getD 1 0) (words.getD 2 0)

section Exact

variable {drv : BlkDriver δ} {behind : BlockPtr → Nat → Word} {env : FsEnv} {fuel : Nat} {left : Word}
  {s : Io δ} {scall : Word} {words : List Word} {m : Mm}

/-- The calls that follow their descriptor without a check. -/
theorem uses_unchecked {c : DescCall} (unchecked : c = read ∨ c = write ∨ c = fstat ∨ c = ioctl)
    (got : userGets s.kernel.currentTask scall c.structSize s = .ok (words, s.withMm m)) :
    c.uses drv behind env fuel left s scall = [s.use (words.getD 1 0)] := by
  have transfer : ∀ isWrite, userGets s.kernel.currentTask scall readSyscallSize s = .ok (words, s.withMm m) →
      (Abort.exec (sysTransfer drv behind env fuel isWrite scall >>= fun _ => pure ()) (s, [])).2.2 =
        [s.use (words.getD 1 0)] := by
    intro isWrite got
    rw [uses_bind_silent fun _ => silent_pure ()]
    unfold sysTransfer
    rw [uses_bind_silent fun _ => silent_onIo _]
    unfold readRequest
    rw [Abort.exec_bind_ok (Abort.exec_get _), Abort.exec_bind_ok (exec_onIo_ok got)]
    exact uses_target fun fp => silent_get fun _ => silent_pure _
  rcases unchecked with rfl | rfl | rfl | rfl
  · exact transfer false got
  · exact transfer true got
  · refine (uses_viaStruct got).trans (uses_target fun fp => ?_)
    exact silent_get fun _ => silent_bind (silent_onIo _) fun _ => silent_bind (silent_onIo _) fun _ => silent_pure _
  · refine (uses_viaStruct got).trans ?_
    obtain ⟨buf, m', more⟩ := userGets_returns (s.withMm m) (s.withMm m).kernel.currentTask
      (words.getD 4 0) 1024
    unfold ioctlBody
    rw [Abort.exec_bind_ok (Abort.exec_get _)]
    dsimp only
    rw [Abort.exec_bind_ok (exec_onIo_ok more)]
    exact uses_target fun fp => silent_bind (silent_onIo _) fun _ => silent_pure _

theorem usesOpen_nil {given : List Word} : UsesOpen s given [] := fun _ mem => absurd mem List.not_mem_nil

theorem usesOpen_append {given : List Word} {first second : List Use} :
    UsesOpen s given (first ++ second) ↔ UsesOpen s given first ∧ UsesOpen s given second :=
  List.forall_mem_append

/-- One use of a file. -/
theorem usesOpen_file {given : List Word} {fd : Word} {fp : FilePtr} {isOpen : Bool} (named : fd ∈ given)
    (here : s.slot fd = some (some fp)) : UsesOpen s given [.file fd fp isOpen] ↔ isOpen = true := by
  constructor
  · intro all
    obtain ⟨fd', fp', same, -, -⟩ := all _ List.mem_cons_self
    exact (Use.file.inj same).2.2
  · rintro rfl u mem
    obtain rfl := List.mem_singleton.mp mem
    exact ⟨fd, fp, rfl, named, here⟩

theorem not_usesOpen_outside {given : List Word} {fd : Word} : ¬ UsesOpen s given [.outside fd] := by
  intro all
  obtain ⟨fd', fp', same, -, -⟩ := all _ List.mem_cons_self
  cases same

/-- A descriptor that is followed unchecked is respected if it is live. -/
theorem usesOpen_use {given : List Word} {fd : Word} (named : fd ∈ given) :
    UsesOpen s given [s.use fd] ↔ s.Live fd := by
  unfold use Live
  cases here : s.slot fd with
  | none => exact iff_of_false not_usesOpen_outside fun ⟨_, clash, _⟩ => by cases clash
  | some x =>
    cases x with
    | none =>
      refine iff_of_false (fun all => ?_) fun ⟨_, clash, _⟩ => by cases clash
      obtain ⟨fd', fp', same, -, -⟩ := all _ List.mem_cons_self
      cases same
    | some fp =>
      refine (usesOpen_file named here).trans ⟨fun isOpen => ⟨fp, rfl, isOpen⟩, ?_⟩
      rintro ⟨fp', same, isOpen⟩
      obtain rfl := Option.some.inj (Option.some.inj same)
      exact isOpen

/-- What is asked of a body. -/
def BodyRespects (s : Io δ) (given words : List Word) (failed : List Word)
    (p : List Word → CallM δ (List Word)) : Prop :=
  UsesOpen s given (Abort.exec (p words) (s, [])).2.2 ∧
    (s.Live (words.getD 1 0) ∨ Abort.exec (p words) (s, []) = (.ok failed, (s, [])))

/-- A body that rejects its descriptor. -/
theorem BodyRespects.rejected {given failed : List Word} {p : List Word → CallM δ (List Word)}
    (rejects : Abort.exec (p words) (s, []) = (.ok failed, (s, []))) : BodyRespects s given words failed p := by
  refine ⟨?_, Or.inr rejects⟩
  rw [rejects]
  exact usesOpen_nil

/-- A body that leaves the table. -/
theorem not_bodyRespects_outside {given failed : List Word} {p : List Word → CallM δ (List Word)} {fd : Word}
    (uses : (Abort.exec (p words) (s, [])).2.2 = [.outside fd]) : ¬ BodyRespects s given words failed p := by
  rintro ⟨all, -⟩
  rw [uses] at all
  exact not_usesOpen_outside all

/-- A body that uses the file of its descriptor. -/
theorem bodyRespects_file {given failed : List Word} {p : List Word → CallM δ (List Word)} {fp : FilePtr}
    (named : words.getD 1 0 ∈ given) (here : s.slot (words.getD 1 0) = some (some fp))
    (uses : (Abort.exec (p words) (s, [])).2.2 =
      [.file (words.getD 1 0) fp (s.kernel.fs.openFiles.used fp)]) :
    BodyRespects s given words failed p ↔ s.kernel.fs.openFiles.used fp = true := by
  unfold BodyRespects
  rw [uses, usesOpen_file named here]
  exact ⟨fun both => both.1, fun isOpen => ⟨isOpen, Or.inl ⟨fp, here, isOpen⟩⟩⟩

theorem notStale_iff {fd : Word} {fp : FilePtr} (here : s.slot fd = some (some fp)) :
    s.NotStale fd ↔ s.kernel.fs.openFiles.used fp = true := by
  refine ⟨fun fresh => fresh fp here, fun isOpen fp' here' => ?_⟩
  obtain rfl := Option.some.inj (Option.some.inj (here.symm.trans here'))
  exact isOpen

/-- `sys_close` -/
theorem closeBody_exact : BodyRespects s [words.getD 1 0] words (words.set 1 0xffff) closeBody ↔
    s.NotStale (words.getD 1 0) := by
  have signed := slot_signed s (words.getD 1 0)
  cases here : s.slot (words.getD 1 0) with
  | none =>
    refine iff_of_true (BodyRespects.rejected ?_) fun fp clash => by rw [here] at clash; cases clash
    unfold closeBody
    rw [if_neg (fun inside => signed.mp inside here)]
    rfl
  | some x =>
    have inside := signed.mpr (by rw [here]; exact fun clash => by cases clash)
    cases x with
    | none =>
      refine iff_of_true (BodyRespects.rejected ?_) fun fp clash => by rw [here] at clash; cases clash
      unfold closeBody
      rw [if_pos inside, exec_slot here]
      rfl
    | some fp =>
      rw [notStale_iff here]
      refine bodyRespects_file List.mem_cons_self here ?_
      unfold closeBody
      rw [if_pos inside, exec_slot here]
      dsimp only
      rw [exec_file]
      exact silent_bind (silent_onIo _) (fun _ => silent_bind (silent_onIo _) fun _ => silent_pure _) _ _

/-- The first empty slot can be filled. -/
theorem setOpenFile_ok {fd : Word} (free : s.freeSlot = some fd) (fp : Option FilePtr) :
    ∃ t, setOpenFile fd fp s = .ok ((), t) ∧ t.kernel.fs = s.kernel.fs := by
  obtain ⟨i, -, rfl⟩ := Option.map_eq_some_iff.mp free
  have low : (BitVec.ofNat 16 i.val).toNat < maxFilesPerProc := by
    have bound : i.val < 15 := i.isLt
    rw [BitVec.toNat_ofNat, Nat.mod_eq_of_lt (by omega)]
    exact bound
  unfold setOpenFile
  dsimp only
  rw [dif_pos low]
  exact ⟨_, rfl, rfl⟩

/-- `sys_dup` -/
theorem dupBody_exact : BodyRespects s [words.getD 1 0] words (words.set 2 0xffff) dupBody ↔
    s.slot (words.getD 1 0) ≠ none ∧ (s.NotStale (words.getD 1 0) ∨ s.freeSlot = none) := by
  cases here : s.slot (words.getD 1 0) with
  | none => exact iff_of_false (not_bodyRespects_outside (uses_outside here)) fun both => both.1 rfl
  | some x =>
    cases x with
    | none =>
      refine iff_of_true (BodyRespects.rejected ?_) ⟨Option.some_ne_none _, Or.inl fun fp clash => ?_⟩
      · unfold dupBody
        rw [exec_slot here]
        rfl
      · rw [here] at clash
        cases Option.some.inj clash
    | some fp =>
      rw [notStale_iff here]
      cases free : s.freeSlot with
      | none =>
        refine iff_of_true (BodyRespects.rejected ?_) ⟨Option.some_ne_none _, Or.inr rfl⟩
        unfold dupBody
        rw [exec_slot here]
        dsimp only
        rw [Abort.exec_bind_ok (Abort.exec_get _), free]
        rfl
      | some fd =>
        have exact : BodyRespects s [words.getD 1 0] words (words.set 2 0xffff) dupBody ↔
            s.kernel.fs.openFiles.used fp = true := by
          refine bodyRespects_file List.mem_cons_self here ?_
          unfold dupBody
          rw [exec_slot here]
          dsimp only
          rw [Abort.exec_bind_ok (Abort.exec_get _), free]
          dsimp only
          obtain ⟨t, filled, files⟩ := setOpenFile_ok free (some fp)
          rw [Abort.exec_bind_ok (exec_onIo_ok filled), exec_file, files]
          exact silent_bind (silent_onIo _) (fun _ => silent_pure _) _ _
        rw [exact]
        exact ⟨fun isOpen => ⟨Option.some_ne_none _, Or.inl isOpen⟩, fun both =>
          both.2.elim id fun clash => absurd clash (Option.some_ne_none _)⟩

/-- `k_close` closes the file with the last reference, and no other. -/
theorem kClose_closes (s : Io δ) (fp : FilePtr) : ∃ t, Io.kClose fp s = .ok ((), t) ∧
    ∀ other, t.kernel.fs.openFiles.used other = true ↔
      s.kernel.fs.openFiles.used other = true ∧ ¬ (other = fp ∧ (s.file fp).refcnt - 1 = 0) := by
  have below : ∃ fs, Kernel.kClose fp s.kernel.fs = .ok ((), fs) ∧ ∀ other, fs.openFiles.used other = true ↔
      s.kernel.fs.openFiles.used other = true ∧ ¬ (other = fp ∧ (s.file fp).refcnt - 1 = 0) := by
    unfold Kernel.kClose
    rw [bind_run (show getFile fp s.kernel.fs = .ok (s.file fp, s.kernel.fs) from rfl)]
    by_cases last : (s.file fp).refcnt - 1 = 0
    · rw [if_pos last]
      refine ⟨_, rfl, fun other => ?_⟩
      show Function.update s.kernel.fs.openFiles.used fp false other = true ↔ _
      by_cases same : other = fp
      · rw [same, Function.update_self]
        exact iff_of_false Bool.false_ne_true fun both => both.2 ⟨rfl, last⟩
      · rw [Function.update_of_ne same]
        exact ⟨fun isOpen => ⟨isOpen, fun both => same both.1⟩, fun both => both.1⟩
    · rw [if_neg last]
      exact ⟨_, rfl, fun other => ⟨fun isOpen => ⟨isOpen, fun both => last both.2⟩, fun both => both.1⟩⟩
  obtain ⟨fs, below, used⟩ := below
  unfold Io.kClose
  rw [bind_run (show onFs (getFile fp) s = .ok (s.file fp, s) from rfl)]
  have closed : onFs (Kernel.kClose fp) s = .ok ((), { s with kernel := { s.kernel with fs := fs } }) := by
    unfold onFs
    rw [below]
  rw [bind_run closed]
  split
  · cases DevOp.closeOutcome bootTables (s.file fp).flags (s.file fp).device with
    | calls h => cases h <;> exact ⟨_, rfl, used⟩
    | _ => exact ⟨_, rfl, used⟩
  · exact ⟨_, rfl, used⟩

/-- The end of `sys_dup2`, where both slots are files. -/
theorem usesOpen_pair {given : List Word} {oldfd newfd : Word} {fp new : FilePtr} {a b : Bool}
    (named : oldfd ∈ given) (named' : newfd ∈ given) (old : s.slot oldfd = some (some fp))
    (here : s.slot newfd = some (some new)) :
    UsesOpen s given [.file newfd new a, .file oldfd fp b] ↔ a = true ∧ b = true := by
  have both : UsesOpen s given ([.file newfd new a] ++ [.file oldfd fp b]) ↔ _ := usesOpen_append
  exact both.trans (and_congr (usesOpen_file named' here) (usesOpen_file named old))

/-- `sys_dup2`, on a slot that is not empty. -/
theorem dup2Body_file {fp : FilePtr} (old : s.slot (words.getD 1 0) = some (some fp)) (long : 3 < words.length) :
    BodyRespects s [words.getD 1 0, words.getD 2 0] words (words.set 3 0xffff) (dup2Body left) ↔
      Dup2Admits s fp (words.getD 1 0) (words.getD 2 0) := by
  have live : s.Live (words.getD 1 0) ↔ s.kernel.fs.openFiles.used fp = true := by
    refine ⟨fun ⟨fp', here, isOpen⟩ => ?_, fun isOpen => ⟨fp, old, isOpen⟩⟩
    obtain rfl := Option.some.inj (Option.some.inj (old.symm.trans here))
    exact isOpen
  have named : words.getD 1 0 ∈ [words.getD 1 0, words.getD 2 0] := List.mem_cons_self
  have named' : words.getD 2 0 ∈ [words.getD 1 0, words.getD 2 0] := List.mem_cons_of_mem _ List.mem_cons_self
  by_cases bad : (words.getD 2 0).toInt < 0 ∨ (maxFilesPerProc : Int) < (words.getD 2 0).toInt
  · refine iff_of_true (BodyRespects.rejected ?_) (bad.elim Or.inl fun high => Or.inr (Or.inl high))
    unfold dup2Body
    rw [exec_slot old]
    dsimp only
    rw [if_pos bad]
    rfl
  by_cases same : words.getD 1 0 = words.getD 2 0
  · have run : Abort.exec (dup2Body left words) (s, []) = (.ok (words.set 3 (words.getD 2 0)), (s, [])) := by
      unfold dup2Body
      rw [exec_slot old]
      dsimp only
      rw [if_neg bad, if_pos same]
      rfl
    have differ : words.set 3 (words.getD 2 0) ≠ words.set 3 0xffff := by
      intro equal
      have result : (words.set 3 (words.getD 2 0))[3]? = (words.set 3 0xffff)[3]? := by rw [equal]
      rw [List.getElem?_set_self long, List.getElem?_set_self long] at result
      rw [same, Option.some.inj result] at old
      cases old
    unfold BodyRespects Dup2Admits
    rw [run, live]
    constructor
    · rintro ⟨-, isOpen | rejects⟩
      · exact Or.inr (Or.inr (Or.inl ⟨same, isOpen⟩))
      · exact absurd (Except.ok.inj (Prod.mk.inj rejects).1) differ
    · rintro (low | high | ⟨-, isOpen⟩ | ⟨ne, -⟩ | ⟨ne, -⟩)
      · exact absurd (Or.inl low) bad
      · exact absurd (Or.inr high) bad
      · exact ⟨usesOpen_nil, Or.inl isOpen⟩
      · exact absurd same ne
      · exact absurd same ne
  have run : Abort.exec (dup2Body left words) (s, []) = Abort.exec (do
      closeNew (words.getD 2 0)
      let fp ← useFile (words.getD 1 0) (some fp)
      onIo (incRefcnt fp)
      pure (words.set 3 left)) (s, []) := by
    unfold dup2Body
    rw [exec_slot old]
    dsimp only
    rw [if_neg bad, if_neg same]
  unfold closeNew at run
  rw [bind_assoc] at run
  unfold Dup2Admits
  cases here : s.slot (words.getD 2 0) with
  | none =>
    have uses : (Abort.exec (dup2Body left words) (s, [])).2.2 = [.outside (words.getD 2 0)] := by
      rw [run]
      exact uses_outside here
    refine iff_of_false (not_bodyRespects_outside uses) ?_
    · rintro (low | high | ⟨equal, -⟩ | ⟨-, clash, -⟩ | ⟨-, new, clash, -⟩)
      · exact bad (Or.inl low)
      · exact bad (Or.inr high)
      · exact same equal
      · cases clash
      · cases clash
  | some x =>
    cases x with
    | none =>
      have uses : (Abort.exec (dup2Body left words) (s, [])).2.2 =
          [.file (words.getD 1 0) fp (s.kernel.fs.openFiles.used fp)] := by
        rw [run, exec_slot here]
        dsimp only
        rw [pure_bind, exec_file]
        exact silent_bind (silent_onIo _) (fun _ => silent_pure _) _ _
      rw [bodyRespects_file named old uses]
      constructor
      · exact fun isOpen => Or.inr (Or.inr (Or.inr (Or.inl ⟨same, rfl, isOpen⟩)))
      · rintro (low | high | ⟨equal, -⟩ | ⟨-, -, isOpen⟩ | ⟨-, new, clash, -⟩)
        · exact absurd (Or.inl low) bad
        · exact absurd (Or.inr high) bad
        · exact absurd equal same
        · exact isOpen
        · cases clash
    | some new =>
      have uses : BodyRespects s [words.getD 1 0, words.getD 2 0] words (words.set 3 0xffff) (dup2Body left) ↔
          s.kernel.fs.openFiles.used new = true ∧ s.kernel.fs.openFiles.used fp = true ∧
            ¬ (fp = new ∧ (s.file new).refcnt - 1 = 0) := by
        unfold BodyRespects
        rw [run, exec_slot here]
        dsimp only
        rw [bind_assoc, exec_file]
        obtain ⟨t, closed, used⟩ := kClose_closes s new
        rw [Abort.exec_bind_ok (exec_onIo_ok closed), exec_file,
          silent_bind (silent_onIo _) (fun _ => silent_pure _), live, List.nil_append]
        show UsesOpen s _ [_, _] ∧ _ ↔ _
        rw [usesOpen_pair named named' old here, used]
        exact ⟨fun both => both.1, fun all => ⟨all, Or.inl all.2.1⟩⟩
      rw [uses]
      constructor
      · exact fun all => Or.inr (Or.inr (Or.inr (Or.inr ⟨same, new, rfl, all⟩)))
      · rintro (low | high | ⟨equal, -⟩ | ⟨-, clash, -⟩ | ⟨-, new', here', all⟩)
        · exact absurd (Or.inl low) bad
        · exact absurd (Or.inr high) bad
        · exact absurd equal same
        · cases clash
        · obtain rfl := Option.some.inj (Option.some.inj here')
          exact all

/-- `sys_dup2` -/
theorem dup2Body_exact (long : 3 < words.length) :
    BodyRespects s [words.getD 1 0, words.getD 2 0] words (words.set 3 0xffff) (dup2Body left) ↔
      s.slot (words.getD 1 0) ≠ none ∧ ∀ fp, s.slot (words.getD 1 0) = some (some fp) →
        Dup2Admits s fp (words.getD 1 0) (words.getD 2 0) := by
  cases here : s.slot (words.getD 1 0) with
  | none => exact iff_of_false (not_bodyRespects_outside (uses_outside here)) fun both => both.1 rfl
  | some x =>
    cases x with
    | none =>
      refine iff_of_true (BodyRespects.rejected ?_) ⟨Option.some_ne_none _, fun fp clash => ?_⟩
      · unfold dup2Body
        rw [exec_slot here]
        rfl
      · cases Option.some.inj clash
    | some fp =>
      rw [dup2Body_file here long]
      refine ⟨fun admits => ⟨Option.some_ne_none _, fun fp' same => ?_⟩, fun all => all.2 fp rfl⟩
      obtain rfl := Option.some.inj (Option.some.inj same)
      exact admits

theorem userGets_length {reader : Nat} {addr : Word} {length : Nat} {t : Io δ}
    (got : userGets reader addr length s = .ok (words, t)) : words.length = length := by
  have sees : Sees 0 (fun _ => True) s t ∧ words.length = length := Io.userGets_sees got
  exact sees.2

/-- A call through its body. -/
theorem respects_body {c : DescCall} {p : List Word → CallM δ (List Word)} (body : c.body drv env left = some p)
    (uses : c.uses drv behind env fuel left s scall = (Abort.exec (p words) (s.withMm m, [])).2.2) :
    (UsesOpen s (c.given words) (c.uses drv behind env fuel left s scall) ∧
      (s.Live (words.getD 1 0) ∨ c.Rejects drv env left (s.withMm m) words)) ↔
      BodyRespects (s.withMm m) (c.given words) words (words.set c.result 0xffff) p := by
  rw [uses]
  refine and_congr Iff.rfl (or_congr Iff.rfl ?_)
  unfold Rejects
  rw [body]
  exact ⟨fun ⟨_, same, rejects⟩ => Option.some.inj same ▸ rejects, fun rejects => ⟨p, rfl, rejects⟩⟩

/-- **A call respects the table just where it admits the descriptor.** -/
theorem admits_of_got {c : DescCall}
    (got : userGets s.kernel.currentTask scall c.structSize s = .ok (words, s.withMm m)) :
    (UsesOpen s (c.given words) (c.uses drv behind env fuel left s scall) ∧
      (s.Live (words.getD 1 0) ∨ c.Rejects drv env left (s.withMm m) words)) ↔ Admits s words c := by
  have unchecked : ∀ d : DescCall, (d = read ∨ d = write ∨ d = fstat ∨ d = ioctl) → c = d →
      ((UsesOpen s (c.given words) (c.uses drv behind env fuel left s scall) ∧
        (s.Live (words.getD 1 0) ∨ c.Rejects drv env left (s.withMm m) words)) ↔ s.Live (words.getD 1 0)) := by
    rintro d one rfl
    have named : words.getD 1 0 ∈ c.given words := by
      rcases one with rfl | rfl | rfl | rfl <;> exact List.mem_cons_self
    rw [uses_unchecked one got, usesOpen_use named]
    exact ⟨fun both => both.1, fun live => ⟨live, Or.inl live⟩⟩
  cases c with
  | read => exact unchecked read (Or.inl rfl) rfl
  | write => exact unchecked write (Or.inr (Or.inl rfl)) rfl
  | fstat => exact unchecked fstat (Or.inr (Or.inr (Or.inl rfl))) rfl
  | ioctl => exact unchecked ioctl (Or.inr (Or.inr (Or.inr rfl))) rfl
  | close =>
    have uses : close.uses drv behind env fuel left s scall =
        (Abort.exec (closeBody words) (s.withMm m, [])).2.2 := uses_viaStruct got
    exact (respects_body (c := close) rfl uses).trans closeBody_exact
  | dup =>
    have uses : dup.uses drv behind env fuel left s scall =
        (Abort.exec (dupBody words) (s.withMm m, [])).2.2 := uses_viaStruct got
    exact (respects_body (c := dup) rfl uses).trans dupBody_exact
  | dup2 =>
    have uses : dup2.uses drv behind env fuel left s scall =
        (Abort.exec (dup2Body left words) (s.withMm m, [])).2.2 := uses_viaStruct got
    have length : words.length = 4 := userGets_length got
    exact (respects_body (c := dup2) rfl uses).trans (dup2Body_exact (by rw [length]; decide))

/-- **Descriptors from user programs**: in every state and for every structure, a call uses only open files
in slots that the program named, and names an open file or is rejected, just where it admits the
descriptor. -/
theorem respects_iff (c : DescCall) (s : Io δ) (scall : Word) :
    c.Respects drv behind env fuel left s scall ↔
      ∃ words s₁, userGets s.kernel.currentTask scall c.structSize s = .ok (words, s₁) ∧ Admits s words c := by
  obtain ⟨words, m, got⟩ := userGets_returns s s.kernel.currentTask scall c.structSize
  constructor
  · rintro ⟨words', s₁, got', respects⟩
    obtain ⟨rfl, rfl⟩ := Prod.mk.inj (Except.ok.inj (got.symm.trans got'))
    exact ⟨words, _, got, (admits_of_got got).mp respects⟩
  · rintro ⟨words', s₁, got', admits⟩
    obtain ⟨rfl, rfl⟩ := Prod.mk.inj (Except.ok.inj (got.symm.trans got'))
    exact ⟨words, _, got, (admits_of_got got).mpr admits⟩

end Exact

end DescCall

/-- A process without open files, and at address 0 the structure of a call on descriptor `fd`. -/
def emptyTableIo (fd : Word) : Io (BlockKey → BlockData) :=
  (devIo 5).withKernel
    { (devIo 5).kernel with
      mm := { (bootKernel [1]).mm with ram := fun _ offset => if offset = 1 then fd else 0 } }

/-- **`sys_read` on an empty slot** follows a null pointer. -/
theorem sysRead_null : ¬ DescCall.read.Respects ramDriver (fun _ _ => 0) ramEnv 0 0 (emptyTableIo 3) 0 := by
  rintro ⟨words, s₁, -, all, -⟩
  have uses : DescCall.read.uses ramDriver (fun _ _ => 0) ramEnv 0 0 (emptyTableIo 3) 0 = [.null 3] := rfl
  rw [uses] at all
  obtain ⟨fd, fp, clash, -, -⟩ := all _ List.mem_cons_self
  cases clash

end RlCpu.Kernel
