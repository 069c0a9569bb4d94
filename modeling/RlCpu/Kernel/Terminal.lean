/-
**Waking the readers of a terminal (`tty.c`, `rlfs3.c`).**

A read that finds no characters waits under the `idx` of the node of its own `FILE`. The interrupt handler of the
minor number notifies under the node of the `FILE` of the last open, a slot of `openFiles` that can be closed and
given to another file.

* `uartInterrupt_notifies`: what the handler notifies.
* `TtyStep.exact`: what one step does to the agreement of the two, and to the `FILE` of the handler.
* `ttyRun_keyed`: runs of opens, duplications, closes, reads and interrupts.
-/

import RlCpu.Kernel.Descriptors

namespace RlCpu.Kernel

open RlCpu.Lib

variable {δ : Type} {drv : BlkDriver δ} {behind : BlockPtr → Nat → Word} {env : FsEnv} {fuel : Nat}

/-! ### The `FILE`s that a call leaves -/

/-- A `FILE` keeps its node and its device. -/
def File.Same (f g : File) : Prop := g.node = f.node ∧ g.flags = f.flags ∧ g.device = f.device

theorem File.Same.refl (f : File) : f.Same f := ⟨rfl, rfl, rfl⟩

theorem File.Same.trans {f g h : File} (first : f.Same g) (second : g.Same h) : f.Same h :=
  ⟨second.1.trans first.1, second.2.1.trans first.2.1, second.2.2.trans first.2.2⟩

/-- The same `FILE`s are open. -/
def SameFiles (s t : FsState δ) : Prop :=
  ∀ fp, t.openFiles.used fp = s.openFiles.used fp ∧ (s.openFiles.el fp).Same (t.openFiles.el fp)

namespace SameFiles

theorem refl (s : FsState δ) : SameFiles s s := fun _ => ⟨rfl, .refl _⟩

theorem trans (a b c : FsState δ) (first : SameFiles a b) (second : SameFiles b c) : SameFiles a c :=
  fun fp => ⟨(second fp).1.trans (first fp).1, (first fp).2.trans (second fp).2⟩

theorem onBlk {α : Type} (p : BlkM δ α) : Along (Kernel.onBlk p) SameFiles := by
  intro s x t ran
  obtain ⟨blk, -, rfl⟩ := Io.onBlk_ok ran
  exact fun _ => ⟨rfl, .refl _⟩

theorem getFile (fd : FilePtr) : Along (Kernel.getFile fd : FsM δ File) SameFiles := by
  intro s x t ran
  obtain ⟨-, rfl⟩ := Prod.mk.inj (Except.ok.inj ran)
  exact refl s

/-- An assignment that keeps the node and the device. -/
theorem assign {s : FsState δ} {fd : FilePtr} {f : File} (same : (s.openFiles.el fd).Same f) :
    SameFiles s { s with openFiles := s.openFiles.assign fd f } := by
  refine fun fp => ⟨rfl, ?_⟩
  show (s.openFiles.el fp).Same (Function.update s.openFiles.el fd f fp)
  by_cases here : fp = fd
  · subst here
    rw [Function.update_self]
    exact same
  · rw [Function.update_of_ne here]
    exact .refl _

/-- `fd` was read before, and its position is written. -/
theorem seek {s s' t : FsState δ} {fd : FilePtr} {pos : Nat} (before : SameFiles s s')
    (put : setFile fd { s.openFiles.el fd with pos := pos } s' = .ok ((), t)) : SameFiles s t := by
  obtain ⟨-, rfl⟩ := Prod.mk.inj (Except.ok.inj put)
  refine trans _ _ _ before (assign ?_)
  obtain ⟨node, flags, device⟩ := (before fd).2
  exact ⟨node.symm, flags.symm, device.symm⟩

end SameFiles

theorem blkdevRead_same {fd : FilePtr} {size : Nat} : Along (Io.blkdevRead drv behind fd size) SameFiles := by
  intro s x t ran
  unfold Io.blkdevRead at ran
  rw [bind_run (show getFile fd s = .ok (s.openFiles.el fd, s) from rfl)] at ran
  obtain ⟨b, s₁, first, ran⟩ := run_ok ran
  obtain ⟨data, s₂, second, ran⟩ := run_ok ran
  obtain ⟨_, s₃, third, ran⟩ := run_ok ran
  obtain ⟨_, s₄, put, ran⟩ := run_ok ran
  obtain ⟨-, rfl⟩ := Prod.mk.inj (Except.ok.inj ran)
  have cached := (SameFiles.onBlk _ _ _ _ first).trans _ _ _ (SameFiles.onBlk _ _ _ _ second)
  exact (cached.trans _ _ _ (SameFiles.onBlk _ _ _ _ third)).seek put

theorem blkdevRead_whole {fd : FilePtr} {size : Nat} : Along (Kernel.blkdevRead drv fd size) SameFiles := by
  intro s x t ran
  unfold Kernel.blkdevRead at ran
  rw [bind_run (show getFile fd s = .ok (s.openFiles.el fd, s) from rfl)] at ran
  obtain ⟨b, s₁, first, ran⟩ := run_ok ran
  split at ran
  · cases ran
  obtain ⟨data, s₂, second, ran⟩ := run_ok ran
  obtain ⟨_, s₃, third, ran⟩ := run_ok ran
  obtain ⟨_, s₄, put, ran⟩ := run_ok ran
  obtain ⟨-, rfl⟩ := Prod.mk.inj (Except.ok.inj ran)
  have cached := (SameFiles.onBlk _ _ _ _ first).trans _ _ _ (SameFiles.onBlk _ _ _ _ second)
  exact (cached.trans _ _ _ (SameFiles.onBlk _ _ _ _ third)).seek put

theorem kRead_same {fd : FilePtr} {size : Nat} : Along (Kernel.kRead drv env fd size) SameFiles := by
  intro s x t ran
  unfold Kernel.kRead at ran
  rw [bind_run (show getFile fd s = .ok (s.openFiles.el fd, s) from rfl)] at ran
  split at ran
  · exact blkdevRead_whole _ _ _ ran
  split at ran
  · have here : ∀ words : List Word, Along (pure words : FsM δ (List Word)) SameFiles :=
      fun _ => Along.of_pure SameFiles.refl
    split at ran
    · exact here _ _ _ _ ran
    split at ran
    · exact here _ _ _ _ ran
    · exact here _ _ _ _ ran
  · dsimp only at ran
    obtain ⟨words, s₁, fetched, ran⟩ := run_ok ran
    obtain ⟨_, s₂, put, ran⟩ := run_ok ran
    obtain ⟨-, rfl⟩ := Prod.mk.inj (Except.ok.inj ran)
    exact (SameFiles.onBlk _ _ _ _ fetched).seek put

/-- The same `FILE`s are open, the handlers remember the same ones, and the same calls wait. -/
structure Steady (s t : Io δ) : Prop where
  files : SameFiles s.kernel.fs t.kernel.fs
  opened : t.ttyOpenedAs = s.ttyOpenedAs
  waitq : t.waitq = s.waitq

namespace Steady

theorem refl (s : Io δ) : Steady s s := ⟨.refl _, rfl, rfl⟩

theorem trans (a b c : Io δ) (first : Steady a b) (second : Steady b c) : Steady a c :=
  ⟨first.files.trans _ _ _ second.files, second.opened.trans first.opened, second.waitq.trans first.waitq⟩

theorem of_onFs {α : Type} {p : FsM δ α} (same : Along p SameFiles) : Along (onFs p) Steady := by
  intro s x t ran
  obtain ⟨fs, below, rfl⟩ := Io.onFs_ok ran
  exact ⟨same _ _ _ below, rfl, rfl⟩

theorem notifyOpened (openedAs : Option FilePtr) : Along (Io.notifyOpened openedAs : IoM δ Unit) Steady := by
  cases openedAs with
  | none => exact Along.of_throw
  | some fd =>
    refine Along.of_bind trans (of_onFs (SameFiles.getFile fd)) fun f s x t ran => ?_
    unfold Io.waitqNotify at ran
    split at ran
    · obtain ⟨-, rfl⟩ := Prod.mk.inj (Except.ok.inj ran)
      exact ⟨.refl _, rfl, rfl⟩
    · cases ran

theorem setBlockRequest (request : Word) : Along (Io.setBlockRequest request : IoM δ Unit) Steady :=
  Along.of_modify fun _ => ⟨.refl _, rfl, rfl⟩

theorem ttyRead (minor : Word) (n : Nat) : Along (Io.ttyRead minor n : IoM δ (List Word)) Steady := by
  intro s words t ran
  unfold Io.ttyRead at ran
  have ran := run_next ran rfl
  dsimp only at ran
  have ran := run_next ran rfl
  refine trans s _ t ?_ (Along.of_bind trans ?_ (fun _ => Along.of_pure refl) _ _ _ ran)
  · exact ⟨.refl _, rfl, rfl⟩
  · split
    · exact setBlockRequest 1
    · exact Along.of_pure refl

theorem piperRead (p : Word) (n : Nat) : Along (Io.piperRead p n : IoM δ (List Word)) Steady := by
  refine Along.of_bind trans (Along.of_get refl) fun s => Along.of_bind trans ?_ fun _ => ?_
  · split
    · exact Along.of_bind trans (Along.of_get refl) fun s => notifyOpened _
    · exact Along.of_pure refl
  · intro s words t ran
    have ran := run_next ran rfl
    dsimp only at ran
    have ran := run_next ran rfl
    refine trans s _ t ?_ (Along.of_bind trans ?_ (fun _ => Along.of_pure refl) _ _ _ ran)
    · exact ⟨.refl _, rfl, rfl⟩
    · split
      · exact setBlockRequest 1
      · exact Along.of_pure refl

theorem readHandler (minor : Word) (n : Nat) (h : BootHandler) :
    Along (Io.readHandler minor n h : IoM δ (List Word)) Steady := by
  cases h with
  | ttyRead => exact ttyRead minor n
  | piperRead => exact piperRead minor n
  | procFileRead => exact Along.of_bind trans (Along.of_get refl) fun _ => Along.of_pure refl
  | schedFileRead | nullFileRead | zeroFileRead => exact Along.of_pure refl
  | _ => exact Along.of_throw

/-- `k_read` moves a position at most. -/
theorem kRead {fd : FilePtr} {size : Nat} : Along (Io.kRead drv behind env fd size) Steady := by
  refine Along.of_bind trans (of_onFs (SameFiles.getFile fd)) fun f => ?_
  split
  · exact readHandler _ _ _
  · exact of_onFs blkdevRead_same
  · exact of_onFs kRead_same
  · exact Along.of_pure refl
  · exact Along.of_throw
  · exact Along.of_throw
  · exact Along.of_throw

theorem of_kernel {s : Io δ} {k : KernelState δ} (same : k.fs = s.kernel.fs) : Steady s (s.withKernel k) := by
  refine ⟨?_, rfl, rfl⟩
  show SameFiles s.kernel.fs k.fs
  rw [same]
  exact .refl _

theorem userPuts {p : Nat} {addr : Word} {words : List Word} :
    Along (Io.userPuts p addr words : IoM δ Unit) Steady := by
  intro s x t put
  unfold Io.userPuts at put
  split at put
  case h_1 =>
    obtain ⟨-, rfl⟩ := Prod.mk.inj (Except.ok.inj put)
    exact ⟨.refl _, rfl, rfl⟩
  case h_2 => cases put

theorem userGets {p : Nat} {addr : Word} {length : Nat} :
    Along (Io.userGets p addr length : IoM δ (List Word)) Steady := by
  intro s x t got
  unfold Io.userGets at got
  split at got
  case h_1 =>
    obtain ⟨-, rfl⟩ := Prod.mk.inj (Except.ok.inj got)
    exact ⟨.refl _, rfl, rfl⟩
  case h_2 => cases got

theorem putSize {p : Nat} {scall retval : Word} : Along (Io.putSize p scall retval : IoM δ Unit) Steady :=
  Along.of_bind trans userGets fun _ => userPuts

end Steady

/-! ### A process that blocks -/

theorem kill_fs (k : KernelState δ) (i : Nat) : (k.kill i).fs = k.fs := by
  have task : (k.addKernelTask .exit (k.procs i).pid 0).fs = k.fs := by
    unfold KernelState.addKernelTask
    split <;> rfl
  exact task

/-- The scan of `resched`, by induction on its steps. -/
theorem rescanTable_fs : ∀ (fuel : Nat) {k k' : KernelState δ} {n next : Nat} {seen seen' : List Nat},
    rescanTable fuel k n seen = some (.ok (next, k', seen')) → k'.fs = k.fs := by
  intro fuel
  induction fuel with
  | zero => exact fun result => by cases result
  | succ fuel ih =>
    intro k k' n next seen seen' result
    obtain ⟨m, -, -, -, step⟩ := rescanTable_step fuel k n seen
    rw [step] at result
    split at result
    · split at result
      · cases result
      · split at result
        · exact (ih result).trans (kill_fs k m)
        · obtain ⟨-, same⟩ := Prod.mk.inj (Except.ok.inj (Option.some.inj result))
          obtain ⟨rfl, -⟩ := Prod.mk.inj same
          rfl
    · exact ih result

theorem resched_fs {tStack frame : InterruptFrame} {k k' : KernelState δ} {seen : List Nat}
    (result : resched fuel tStack k = some (.ok (frame, k', seen))) : k'.fs = k.fs := by
  unfold resched at result
  split at result
  · cases result
  · cases result
  case h_3 next s seen' scan =>
    obtain ⟨-, same⟩ := Prod.mk.inj (Except.ok.inj (Option.some.inj result))
    obtain ⟨rfl, -⟩ := Prod.mk.inj same
    have saved : (k.saveFrame tStack).fs = k.fs := by
      unfold KernelState.saveFrame
      split <;> rfl
    have resumed : (s.resume next).fs = s.fs := by
      unfold KernelState.resume
      split <;> rfl
    exact (resumed.trans (rescanTable_fs fuel scan)).trans saved

theorem block_steady (p : Nat) (caller : Word) : Along (Io.block fuel p caller : IoM δ Unit) Steady := by
  refine Along.of_bind Steady.trans (Along.of_modify fun s => .of_kernel rfl) fun _ => ?_
  refine Along.of_bind Steady.trans (Along.of_get Steady.refl) fun s => ?_
  split
  · intro s x t ran
    unfold Io.reschedule at ran
    split at ran
    case h_1 frame k seen result =>
      obtain ⟨-, rfl⟩ := Prod.mk.inj (Except.ok.inj ran)
      exact ⟨(Steady.of_kernel (s := s) (resched_fs result)).files, rfl, rfl⟩
    case h_2 => cases ran
    case h_3 => cases ran
  · exact Along.of_pure Steady.refl

/-! ### The ttys -/

/-- A read of the `FILE` is one of tty `m`. -/
def File.IsTty (f : File) (m : Word) : Prop :=
  DevOp.readOutcome bootTables f.flags f.device = .calls .ttyRead ∧ f.device &&& 0xff = m

/-- The open of the `FILE` calls `tty_open` for minor `m`. -/
def File.OpensTty (f : File) (m : Word) : Prop :=
  DevOp.openOutcome bootTables f.flags f.device = .calls .ttyOpen ∧ f.device &&& 0xff = m

instance (f : File) (m : Word) : Decidable (f.IsTty m) := instDecidableAnd
instance (f : File) (m : Word) : Decidable (f.OpensTty m) := instDecidableAnd

/-- The tty that a read of the `FILE` reads. -/
def File.tty (f : File) : Option Word :=
  if DevOp.readOutcome bootTables f.flags f.device = .calls .ttyRead then some (f.device &&& 0xff) else none

theorem File.tty_iff {f : File} {m : Word} : f.tty = some m ↔ f.IsTty m := by
  unfold File.tty File.IsTty
  split
  case isTrue reads =>
    rw [Option.some.injEq]
    exact ⟨fun minor => ⟨reads, minor⟩, fun both => both.2⟩
  case isFalse other => exact iff_of_false (Option.some_ne_none m).symm fun both => other both.1

/-- The entry that has `tty_read` has `tty_open`. -/
theorem bootTables_tty : ∀ i, (bootTables.devList i).read = some .ttyRead →
    (bootTables.devList i).open = some .ttyOpen := by decide

theorem File.IsTty.opens {f : File} {m : Word} (tty : f.IsTty m) : f.OpensTty m := by
  obtain ⟨reads, minor⟩ := tty
  refine ⟨?_, minor⟩
  unfold DevOp.readOutcome at reads
  unfold DevOp.openOutcome
  split at reads
  · unfold DevOp.blkdev at reads
    split at reads <;> cases reads
  split at reads
  case isFalse => cases reads
  case isTrue char =>
    rw [char, Bool.true_or, if_pos rfl]
    split at reads
    · split at reads
      · split at reads <;> cases reads
      · cases reads
    split at reads
    case isFalse => cases reads
    case isTrue low =>
      have here : bootTables.entry (DevOp.major f.device) = some (bootTables.devList ⟨_, low⟩) := dif_pos low
      unfold DevOp.index at reads ⊢
      rw [here] at reads ⊢
      dsimp only at reads ⊢
      split at reads
      case isFalse => cases reads
      case isTrue =>
        unfold DevOp.callOr at reads
        split at reads
        case h_1 handler found =>
          obtain rfl := Outcome.calls.inj reads
          rw [bootTables_tty _ found]
          rfl
        case h_2 => cases reads

theorem File.Same.isTty {f g : File} (same : f.Same g) {m : Word} : g.IsTty m ↔ f.IsTty m := by
  unfold File.IsTty
  rw [same.2.1, same.2.2]

/-- The value that the interrupt handler of minor `m` passes to `waitqNotify`, once a `FILE` is remembered. -/
def Io.handlerKey (s : Io δ) (m : Word) : Option Word := (s.ttyOpenedAs m).map fun fp => (s.file fp).node.idx

/-- The characters that have arrived are stored. -/
def Io.received (s : Io δ) (m : Word) (arrived : List Word) : Io δ :=
  { s with uartBuffer := Function.update s.uartBuffer m (arrived.foldl .push (s.uartBuffer m)) }

/-- **What the handler notifies.** -/
theorem uartInterrupt_notifies {s : Io δ} {m idx : Word} {arrived : List Word} (some : arrived ≠ [])
    (key : s.handlerKey m = Option.some idx) :
    Io.uartInterrupt m arrived s = Io.waitqNotify idx (s.received m arrived) := by
  unfold Io.handlerKey at key
  cases remembered : s.ttyOpenedAs m with
  | none =>
    rw [remembered] at key
    cases key
  | some fp =>
    rw [remembered] at key
    obtain rfl := Option.some.inj key
    unfold Io.uartInterrupt
    rw [bind_run (t := s.received m arrived) rfl, if_pos some, bind_run (t := s.received m arrived) rfl]
    show Io.notifyOpened (s.ttyOpenedAs m) (s.received m arrived) = _
    rw [remembered]
    rfl

/-- A read of `size` words from tty `m` finds nothing. -/
def Io.NothingFor (s : Io δ) (m : Word) (size : Nat) : Prop := size = 0 ∨ (s.uartBuffer m).size = 0

theorem popWhile_nil {n : Nat} {cb : CircularBuffer} : (cb.popWhile n).1 = [] ↔ n = 0 ∨ cb.size = 0 := by
  cases n with
  | zero => exact ⟨fun _ => Or.inl rfl, fun _ => rfl⟩
  | succ n =>
    unfold CircularBuffer.popWhile
    split
    case isTrue empty => exact ⟨fun _ => Or.inr empty, fun _ => rfl⟩
    case isFalse some =>
      refine ⟨fun nil => absurd nil (List.cons_ne_nil _ _), fun either => ?_⟩
      rcases either with zero | empty
      · cases zero
      · exact absurd empty some

theorem ttyRead_nothing {s t : Io δ} {m : Word} {n : Nat} {words : List Word}
    (read : Io.ttyRead m n s = .ok (words, t)) :
    (words = [] ↔ s.NothingFor m n) ∧ (words = [] → t.blockRequest = 1) := by
  unfold Io.ttyRead at read
  have read := run_next read rfl
  dsimp only at read
  have read := run_next read rfl
  obtain ⟨_, s₄, asked, read⟩ := run_ok read
  obtain ⟨rfl, rfl⟩ := Prod.mk.inj (Except.ok.inj read)
  refine ⟨popWhile_nil, fun nothing => ?_⟩
  rw [if_pos nothing] at asked
  obtain ⟨-, rfl⟩ := Prod.mk.inj (Except.ok.inj asked)
  rfl

/-- `k_read` of a tty. -/
theorem kRead_tty {s : Io δ} {fd : FilePtr} {m : Word} {size : Nat} (tty : (s.file fd).IsTty m) :
    Io.kRead drv behind env fd size s = Io.ttyRead m size s := by
  obtain ⟨reads, minor⟩ := tty
  rw [Io.kRead_eq, show s.readKind fd = .calls .ttyRead from reads, minor]
  rfl

/-- The entry of a read that waits. -/
def waitingRead (s : Io δ) (fd : FilePtr) (buf size caller scall : Word) : WaitqEntry :=
  ⟨(s.file fd).node.idx, caller, scall, fd, buf, size, false⟩

/-- **A read waits or it does not.** One from a tty does if it finds nothing. -/
theorem tryKRead_waits {s t : Io δ} {fd : FilePtr} {buf size caller scall : Word} {n : Nat}
    (read : Io.tryKRead drv behind env fuel fd buf size caller scall s = .ok (n, t)) :
    SameFiles s.kernel.fs t.kernel.fs ∧ t.ttyOpenedAs = s.ttyOpenedAs ∧
      ((t.waitq = s.waitq ∧ ∀ m, (s.file fd).IsTty m → ¬ s.NothingFor m size.toNat) ∨
        ((∀ m, (s.file fd).IsTty m → s.NothingFor m size.toNat) ∧ ∃ i, s.waitq i = none ∧
          t.waitq = Function.update s.waitq i (some (waitingRead s fd buf size caller scall)))) := by
  unfold Io.tryKRead at read
  obtain ⟨p, s₁, found, rest⟩ := run_ok read
  obtain ⟨-, rfl⟩ := Io.procOf_ok found
  obtain ⟨words, s₂, fetched, rest⟩ := run_ok rest
  split at rest
  case isTrue => cases rest
  case isFalse =>
    unfold Io.finishRead at rest
    obtain ⟨_, s₃, stored, rest⟩ := run_ok rest
    obtain ⟨_, s₄, put, rest⟩ := run_ok rest
    have rest := run_next rest rfl
    obtain ⟨_, s₆, blocked, rest⟩ := run_ok rest
    obtain ⟨_, s₇, sized, rest⟩ := run_ok rest
    obtain ⟨rfl, rfl⟩ := Prod.mk.inj (Except.ok.inj rest)
    obtain ⟨-, rfl⟩ := Prod.mk.inj (Except.ok.inj stored)
    have served : Steady s₁ s₂ := Steady.kRead _ _ _ fetched
    have copied := Steady.userPuts _ _ _ put
    have before : Steady s₁ s₄ := served.trans _ _ _ ⟨copied.files, copied.opened, copied.waitq⟩
    have after : Steady s₆ s₇ := Steady.putSize _ _ _ sized
    have request : s₄.blockRequest = s₂.blockRequest := by
      unfold Io.userPuts at put
      split at put
      case h_1 =>
        obtain ⟨-, rfl⟩ := Prod.mk.inj (Except.ok.inj put)
        rfl
      case h_2 => cases put
    have nothing : ∀ m, (s₁.file fd).IsTty m →
        (words = [] ↔ s₁.NothingFor m size.toNat) ∧ (words = [] → s₄.blockRequest = 1) := fun m tty => by
      rw [kRead_tty tty] at fetched
      rw [request]
      exact ttyRead_nothing fetched
    split at blocked
    case isTrue waits =>
      have blocked := run_next blocked rfl
      obtain ⟨_, s₉, added, blocked⟩ := run_ok blocked
      have blocks : Steady s₉ s₆ := block_steady _ _ _ _ _ blocked
      unfold Io.waitqAddEntry at added
      split at added
      case h_2 => cases added
      case h_1 i free =>
        obtain ⟨-, rfl⟩ := Prod.mk.inj (Except.ok.inj added)
        have last := blocks.trans _ _ _ after
        refine ⟨before.files.trans _ _ _ last.files, last.opened.trans before.opened,
          Or.inr ⟨fun m tty => (nothing m tty).1.mp waits.1, i, ?_, ?_⟩⟩
        · have empty := List.find?_some free
          have same : s₄.waitq i = none := by simpa using empty
          rw [before.waitq] at same
          exact same
        · rw [last.waitq]
          show Function.update s₄.waitq i _ = _
          rw [before.waitq]
          have node : (s₄.file fd).node = (s₁.file fd).node := (before.files fd).2.1
          rw [node]
          rfl
    case isFalse goes =>
      obtain ⟨-, rfl⟩ := Prod.mk.inj (Except.ok.inj blocked)
      have last := before.trans _ _ _ after
      refine ⟨last.files, last.opened, Or.inl ⟨last.waitq, fun m tty none => goes ?_⟩⟩
      have empty := (nothing m tty).1.mpr none
      refine ⟨empty, ?_⟩
      rw [(nothing m tty).2 empty]
      decide

/-! ### `fs_open` and `k_close` -/

/-- `fs_open`, with the handler it calls. -/
def Io.fsOpen (drv : BlkDriver δ) (node : FsNode) (mode : Word) : IoM δ FilePtr := do
  let fp ← onFs (Kernel.fsOpen drv node mode)
  let f ← onFs (getFile fp)
  match DevOp.openOutcome bootTables f.flags f.device with
  | .calls h => Io.openHandler (f.device &&& 0xff) fp h
  | _ => pure ()
  pure fp

/-- **`k_open` opens the node it finds or makes.** -/
theorem kOpen_opens {s t : Io δ} {name : CString} {mode : Word} {fp : FilePtr}
    (opened : Io.kOpen drv env name mode s = .ok (some fp, t)) :
    ∃ node u, Steady s u ∧ Io.fsOpen drv node mode u = .ok (fp, t) := by
  unfold Io.kOpen at opened
  obtain ⟨found, s₁, below, rest⟩ := run_ok opened
  obtain ⟨fs, looked, rfl⟩ := Io.onFs_ok below
  clear below
  cases found with
  | none => cases rest
  | some fp' =>
    have through : ∀ (node : FsNode) (blk : BlkState δ),
        Kernel.fsOpen drv node mode { s.kernel.fs with blk := blk } = .ok (fp', fs) →
        ∃ node u, Steady s u ∧ Io.fsOpen drv node mode u = .ok (fp, t) := by
      intro node blk ran
      refine ⟨node, { s with kernel := { s.kernel with fs := { s.kernel.fs with blk := blk } } },
        ⟨fun _ => ⟨rfl, .refl _⟩, rfl, rfl⟩, ?_⟩
      unfold Io.fsOpen
      have first : onFs (Kernel.fsOpen drv node mode)
          { s with kernel := { s.kernel with fs := { s.kernel.fs with blk := blk } } } =
          .ok (fp', { s with kernel := { s.kernel with fs := fs } }) := by
        unfold onFs
        rw [ran]
      rw [bind_run first]
      dsimp only at rest
      obtain ⟨f, s₂, got, rest⟩ := run_ok rest
      rw [bind_run got]
      cases handler : DevOp.openOutcome bootTables f.flags f.device with
      | calls h =>
        rw [handler] at rest
        dsimp only at rest ⊢
        obtain ⟨_, s₃, handled, rest⟩ := run_ok rest
        obtain ⟨same, rfl⟩ := Prod.mk.inj (Except.ok.inj rest)
        obtain rfl := Option.some.inj same
        rw [bind_run handled]
        rfl
      | _ =>
        rw [handler] at rest
        obtain ⟨same, rfl⟩ := Prod.mk.inj (Except.ok.inj rest)
        obtain rfl := Option.some.inj same
        rfl
    unfold Kernel.kOpen at looked
    obtain ⟨_, s₄, lookup, below⟩ := run_ok looked
    obtain ⟨blk, -, rfl⟩ := Io.onBlk_ok lookup
    have mapped : ∀ (node : FsNode) (v : FsState δ),
        (some <$> Kernel.fsOpen drv node mode : FsM δ (Option FilePtr)) v = .ok (some fp', fs) →
        Kernel.fsOpen drv node mode v = .ok (fp', fs) := by
      intro node v ran
      obtain ⟨made, s₅, opens, ran⟩ := run_ok (f := fun fp => pure (some fp)) ran
      obtain ⟨same, rfl⟩ := Prod.mk.inj (Except.ok.inj ran)
      obtain rfl := Option.some.inj same
      exact opens
    split at below
    · cases below
    · exact through _ _ (mapped _ _ below)
    · split at below
      · obtain ⟨created, s₆, create, below⟩ := run_ok below
        obtain ⟨blk', -, rfl⟩ := Io.onBlk_ok create
        exact through _ _ (mapped _ _ below)
      · cases below

/-- The node's `stat` before the open. -/
def Stats (drv : BlkDriver δ) (s : Io δ) (node : FsNode) (st : Stat) : Prop :=
  ∃ blk, fsStat drv node s.kernel.fs.blk = .ok (st, blk)

theorem Stats.unique {s : Io δ} {node : FsNode} {st st' : Stat} (stats : Stats drv s node st)
    (stats' : Stats drv s node st') : st = st' := by
  obtain ⟨blk, found⟩ := stats
  obtain ⟨blk', found'⟩ := stats'
  exact (Prod.mk.inj (Except.ok.inj (found.symm.trans found'))).1

/-- **`fs_open`**: the `FILE` goes into the first slot that is free. -/
theorem fsOpen_ok {s t : Io δ} {node : FsNode} {mode : Word} {fp : FilePtr}
    (opened : Io.fsOpen drv node mode s = .ok (fp, t)) :
    ∃ st, Stats drv s node st ∧ s.kernel.fs.openFiles.firstFree = some fp ∧
      t.kernel.fs.openFiles.used = Function.update s.kernel.fs.openFiles.used fp true ∧
      t.kernel.fs.openFiles.el = Function.update s.kernel.fs.openFiles.el fp (openedFile node mode st) ∧
      t.waitq = s.waitq ∧
      ∀ m, t.ttyOpenedAs m = if (openedFile node mode st).OpensTty m then some fp else s.ttyOpenedAs m := by
  unfold Io.fsOpen at opened
  obtain ⟨fp', s₁, below, rest⟩ := run_ok opened
  obtain ⟨fs, made, rfl⟩ := Io.onFs_ok below
  unfold Kernel.fsOpen at made
  obtain ⟨st, s₂, looked, made⟩ := run_ok made
  obtain ⟨blk, stat, rfl⟩ := Io.onBlk_ok looked
  obtain ⟨_, s₃, cleared, made⟩ := run_ok made
  have kept : s₃.openFiles = s.kernel.fs.openFiles := by
    split at cleared
    · obtain ⟨blk', -, rfl⟩ := Io.onBlk_ok cleared
      rfl
    · obtain ⟨-, rfl⟩ := Prod.mk.inj (Except.ok.inj cleared)
      rfl
  obtain ⟨fp'', s₄, inserted, made⟩ := run_ok made
  have final : fp'' = fp' ∧ s₄ = fs := by
    split at made
    · cases made
    · exact Prod.mk.inj (Except.ok.inj made)
  obtain ⟨rfl, rfl⟩ := final
  unfold insertFile at inserted
  split at inserted
  case h_2 => cases inserted
  case h_1 slot files put =>
    obtain ⟨rfl, rfl⟩ := Prod.mk.inj (Except.ok.inj inserted)
    rw [kept] at put
    have free := KSet.insert_firstFree put
    obtain ⟨-, -, rfl⟩ := KSet.insert_ok put
    have rest := run_next rest rfl
    dsimp only at rest
    rw [Function.update_self] at rest
    refine ⟨st, ⟨blk, stat⟩, ?_⟩
    cases handler : DevOp.openOutcome bootTables (openedFile node mode st).flags (openedFile node mode st).device with
    | calls h =>
      rw [handler] at rest
      dsimp only at rest
      obtain ⟨_, s₆, handled, rest⟩ := run_ok rest
      obtain ⟨rfl, rfl⟩ := Prod.mk.inj (Except.ok.inj rest)
      cases h with
      | ttyOpen =>
        obtain ⟨-, rfl⟩ := Prod.mk.inj (Except.ok.inj handled)
        refine ⟨free, rfl, rfl, rfl, fun m => ?_⟩
        show Function.update s.ttyOpenedAs ((openedFile node mode st).device &&& 0xff) (some slot) m = _
        by_cases here : m = (openedFile node mode st).device &&& 0xff
        · subst here
          rw [Function.update_self, if_pos (show File.OpensTty _ _ from ⟨handler, rfl⟩)]
        · rw [Function.update_of_ne here, if_neg fun tty => here tty.2.symm]
      | piperOpen =>
        obtain ⟨-, rfl⟩ := Prod.mk.inj (Except.ok.inj handled)
        exact ⟨free, rfl, rfl, rfl, fun m => (if_neg fun tty => by simp [File.OpensTty, handler] at tty).symm⟩
      | _ =>
        obtain ⟨-, rfl⟩ := Prod.mk.inj (Except.ok.inj handled)
        exact ⟨free, rfl, rfl, rfl, fun m => (if_neg fun tty => by simp [File.OpensTty, handler] at tty).symm⟩
    | _ =>
      rw [handler] at rest
      obtain ⟨rfl, rfl⟩ := Prod.mk.inj (Except.ok.inj rest)
      exact ⟨free, rfl, rfl, rfl, fun m => (if_neg fun tty => by simp [File.OpensTty, handler] at tty).symm⟩

/-- **`k_close`**: a `FILE` goes with its last reference. -/
theorem kClose_ok {s t : Io δ} {fp : FilePtr} (closed : Io.kClose fp s = .ok ((), t)) :
    (∀ g, (s.file g).Same (t.file g)) ∧ t.ttyOpenedAs = s.ttyOpenedAs ∧ t.waitq = s.waitq ∧
      ∀ g, t.kernel.fs.openFiles.used g = true ↔
        s.kernel.fs.openFiles.used g = true ∧ ¬ (g = fp ∧ (s.file fp).refcnt - 1 = 0) := by
  unfold Io.kClose at closed
  have rest := run_next closed rfl
  obtain ⟨_, s₂, below, rest⟩ := run_ok rest
  obtain ⟨fs, ran, rfl⟩ := Io.onFs_ok below
  have later : ∃ pipes, t = { s with kernel := { s.kernel with fs := fs }, pipes := pipes } := by
    split at rest
    case isTrue =>
      cases handler : DevOp.closeOutcome bootTables (s.kernel.fs.openFiles.el fp).flags
          (s.kernel.fs.openFiles.el fp).device with
      | calls h =>
        rw [handler] at rest
        cases h <;> exact ⟨_, (Prod.mk.inj (Except.ok.inj rest)).2.symm⟩
      | _ =>
        rw [handler] at rest
        exact ⟨_, (Prod.mk.inj (Except.ok.inj rest)).2.symm⟩
    case isFalse => exact ⟨_, (Prod.mk.inj (Except.ok.inj rest)).2.symm⟩
  obtain ⟨pipes, rfl⟩ := later
  unfold Kernel.kClose at ran
  rw [bind_run (show getFile fp s.kernel.fs = .ok (s.kernel.fs.openFiles.el fp, s.kernel.fs) from rfl)] at ran
  have ran := run_next ran rfl
  have less := @SameFiles.assign _ s.kernel.fs fp
    { s.kernel.fs.openFiles.el fp with refcnt := (s.kernel.fs.openFiles.el fp).refcnt - 1 } ⟨rfl, rfl, rfl⟩
  split at ran
  case isTrue last =>
    obtain ⟨-, rfl⟩ := Prod.mk.inj (Except.ok.inj ran)
    refine ⟨fun g => (less g).2, rfl, rfl, fun g => ?_⟩
    show Function.update s.kernel.fs.openFiles.used fp false g = true ↔ _
    by_cases here : g = fp
    · subst here
      rw [Function.update_self]
      exact ⟨nofun, fun keeps => absurd ⟨rfl, last⟩ keeps.2⟩
    · rw [Function.update_of_ne here]
      exact ⟨fun used => ⟨used, fun goes => here goes.1⟩, fun keeps => keeps.1⟩
  case isFalse more =>
    obtain ⟨-, rfl⟩ := Prod.mk.inj (Except.ok.inj ran)
    exact ⟨fun g => (less g).2, rfl, rfl, fun g => ⟨fun used => ⟨used, fun goes => more goes.2⟩, fun keeps => keeps.1⟩⟩

/-! ### Steps -/

/-- The `FILE` that the handler of minor `m` uses is open, and on that tty. -/
def Io.Attends (s : Io δ) (m : Word) : Prop :=
  ∃ fp, s.ttyOpenedAs m = some fp ∧ s.kernel.fs.openFiles.used fp = true ∧ (s.file fp).IsTty m

/-- The kernel; the ttys whose last open made a character `FILE` that was not closed since; and the ttys of the reads
in the queue, each as it was when the read began to wait. The slot of its `FILE` may be another file's since. -/
structure TtyState (δ : Type) where
  io : Io δ
  attended : Word → Prop
  reading : Fin waitqLength → Option Word

/-- No tty is open. -/
def TtyState.start (io : Io δ) : TtyState δ := ⟨io, fun _ => False, fun _ => none⟩

/-- A read in entry `i` of the queue began to wait on tty `m`. -/
def TtyState.Waits (s : TtyState δ) (m : Word) (i : Fin waitqLength) (e : WaitqEntry) : Prop :=
  s.io.waitq i = some e ∧ e.isWrite = false ∧ s.reading i = some m

/-- **The agreement**: a read waits under the value that the handler of its tty notifies. -/
def TtyState.Keyed (s : TtyState δ) : Prop := ∀ m i e, s.Waits m i e → s.io.handlerKey m = some e.trigger

/-- A read that begins to wait takes an entry that is free. -/
def TtyState.readingFrom (s : TtyState δ) (fd : FilePtr) : Fin waitqLength → Option Word := fun i =>
  if s.io.waitq i = none then (s.io.file fd).tty else s.reading i

/-- What happens to the ttys. -/
inductive TtyOp
  /-- `fs_open` of a node, from `k_open`. -/
  | «open» (node : FsNode) (mode : Word)
  /-- One more reference to a `FILE`: `dup`, `dup2`, `fork`. -/
  | dup (fp : FilePtr)
  /-- `k_close` -/
  | close (fp : FilePtr)
  /-- `try_k_read` -/
  | read (fd : FilePtr) (buf size caller scall : Word)
  /-- Characters arrive at a uart. -/
  | interrupt (m : Word) (arrived : List Word)
  /-- Anything that opens and closes no `FILE` and lets no read wait. -/
  | other

/-- The `FILE`s and the handlers are as before, and no read waits that did not. -/
structure TtyQuiet (s t : Io δ) : Prop where
  files : SameFiles s.kernel.fs t.kernel.fs
  opened : t.ttyOpenedAs = s.ttyOpenedAs
  waitq : ∀ i e, t.waitq i = some e → e.isWrite = true ∨ s.waitq i = some e

/-- One of them. `ttyOpenedAs` has two entries. -/
inductive TtyStep (drv : BlkDriver δ) (behind : BlockPtr → Nat → Word) (env : FsEnv) (fuel : Nat) :
    TtyState δ → TtyOp → TtyState δ → Prop
  | «open» {s : TtyState δ} {t : Io δ} {node : FsNode} {mode : Word} {fp : FilePtr}
      (opened : Io.fsOpen drv node mode s.io = .ok (fp, t)) (within : ∀ m, (t.file fp).OpensTty m → m.toNat < 2) :
      TtyStep drv behind env fuel s (.open node mode)
        ⟨t, fun m => (t.file fp).IsTty m ∨ ¬ (t.file fp).OpensTty m ∧ s.attended m, s.reading⟩
  | dup {s : TtyState δ} {t : Io δ} {fp : FilePtr} (counted : Io.incRefcnt fp s.io = .ok ((), t)) :
      TtyStep drv behind env fuel s (.dup fp) ⟨t, s.attended, s.reading⟩
  | close {s : TtyState δ} {t : Io δ} {fp : FilePtr} (closed : Io.kClose fp s.io = .ok ((), t)) :
      TtyStep drv behind env fuel s (.close fp)
        ⟨t, fun m => s.attended m ∧ ¬ (s.io.ttyOpenedAs m = some fp ∧ (s.io.file fp).refcnt - 1 = 0), s.reading⟩
  | read {s : TtyState δ} {t : Io δ} {fd : FilePtr} {buf size caller scall : Word} {n : Nat}
      (read : Io.tryKRead drv behind env fuel fd buf size caller scall s.io = .ok (n, t)) :
      TtyStep drv behind env fuel s (.read fd buf size caller scall) ⟨t, s.attended, s.readingFrom fd⟩
  | interrupt {s : TtyState δ} {t : Io δ} {m : Word} {arrived : List Word}
      (served : Io.uartInterrupt m arrived s.io = .ok ((), t)) :
      TtyStep drv behind env fuel s (.interrupt m arrived) ⟨t, s.attended, s.reading⟩
  | fault {s : TtyState δ} {m : Word} {arrived : List Word} {e : IoFault}
      (failed : Io.uartInterrupt m arrived s.io = .error e) :
      TtyStep drv behind env fuel s (.interrupt m arrived) s
  | other {s : TtyState δ} {t : Io δ} (quiet : TtyQuiet s.io t) :
      TtyStep drv behind env fuel s .other ⟨t, s.attended, s.reading⟩

/-- **What a step must do**: leave the agreement, and use a `FILE` in the handler that is open on its tty. -/
def TtyRight (s : TtyState δ) (op : TtyOp) (t : TtyState δ) : Prop :=
  t.Keyed ∧ ∀ m arrived, op = .interrupt m arrived → arrived ≠ [] → s.io.Attends m

/-- Every read that waits on a tty that will notify under the new `FILE`, because its handler remembers that one, waits
under the node of it. -/
def OpenAgrees (s : TtyState δ) (fp : FilePtr) (f : File) : Prop :=
  ∀ m i e, (f.OpensTty m ∨ s.io.ttyOpenedAs m = some fp) → s.Waits m i e → e.trigger = f.node.idx

/-- **When a step is right.** -/
def TtyOk (drv : BlkDriver δ) (s : TtyState δ) : TtyOp → Prop
  | .open node mode => ∀ fp st, s.io.kernel.fs.openFiles.firstFree = some fp → Stats drv s.io node st →
      OpenAgrees s fp (openedFile node mode st)
  | .read fd _ size _ _ => ∀ m, (s.io.file fd).IsTty m → s.io.NothingFor m size.toNat →
      s.io.handlerKey m = some (s.io.file fd).node.idx
  | .interrupt m arrived => arrived ≠ [] → s.attended m
  | .dup _ | .close _ | .other => True

/-! ### One step -/

section Steps

variable {s t : Io δ}

/-- The same handlers and the same `FILE`s: the handlers notify the same. -/
theorem handlerKey_same (same : ∀ g, (s.file g).Same (t.file g)) (opened : t.ttyOpenedAs = s.ttyOpenedAs) (m : Word) :
    t.handlerKey m = s.handlerKey m := by
  unfold Io.handlerKey
  rw [opened]
  exact Option.map_congr fun g _ => congrArg FsNode.idx (same g).1

/-- The same handlers, the same `FILE`s, and no new read: the agreement stays. -/
theorem TtyState.Keyed.mono {s t : TtyState δ} (keyed : s.Keyed) (same : ∀ g, (s.io.file g).Same (t.io.file g))
    (opened : t.io.ttyOpenedAs = s.io.ttyOpenedAs)
    (waitq : ∀ i e, t.io.waitq i = some e → e.isWrite = true ∨ s.io.waitq i = some e)
    (reading : ∀ i e, s.io.waitq i = some e → t.reading i = s.reading i) : t.Keyed := by
  rintro m i e ⟨here, isRead, tty⟩
  rcases waitq i e here with isWrite | before
  · rw [isRead] at isWrite
    cases isWrite
  rw [reading i e before] at tty
  exact (handlerKey_same same opened m).trans (keyed m i e ⟨before, isRead, tty⟩)

theorem Steady.keyed {s : TtyState δ} {t : Io δ} {attended : Word → Prop} (steady : Steady s.io t) (keyed : s.Keyed) :
    TtyState.Keyed ⟨t, attended, s.reading⟩ :=
  keyed.mono (fun g => (steady.files g).2) steady.opened (fun i _ here => Or.inr (steady.waitq ▸ here)) fun _ _ _ => rfl

/-- The same `FILE`s are open, and the handlers remember the same ones. -/
theorem attends_same (files : SameFiles s.kernel.fs t.kernel.fs) (opened : t.ttyOpenedAs = s.ttyOpenedAs) (m : Word) :
    t.Attends m ↔ s.Attends m := by
  unfold Io.Attends
  rw [opened]
  refine exists_congr fun g => and_congr_right fun _ => and_congr ?_ (files g).2.isTty
  rw [(files g).1]

theorem incRefcnt_same {fp : FilePtr} (counted : Io.incRefcnt fp s = .ok ((), t)) : Steady s t := by
  refine Steady.of_onFs (p := getFile fp >>= fun f => setFile fp { f with refcnt := f.refcnt + 1 }) ?_ _ _ _ counted
  intro u x v ran
  rw [bind_run (show getFile fp u = .ok (u.openFiles.el fp, u) from rfl)] at ran
  obtain ⟨-, rfl⟩ := Prod.mk.inj (Except.ok.inj ran)
  exact SameFiles.assign ⟨rfl, rfl, rfl⟩

theorem uartInterrupt_steady {m : Word} {arrived : List Word} (served : Io.uartInterrupt m arrived s = .ok ((), t)) :
    Steady s t := by
  unfold Io.uartInterrupt at served
  refine Along.of_bind Steady.trans ?_ (fun _ => ?_) _ _ _ served
  · exact Along.of_modify fun _ => ⟨.refl _, rfl, rfl⟩
  · split
    · exact Along.of_bind Steady.trans (Along.of_get Steady.refl) fun u => Steady.notifyOpened _
    · exact Along.of_pure Steady.refl

/-- **An open keeps the agreement just where the new `FILE` agrees with the reads it is shown to.** -/
theorem fsOpen_keyed {s : TtyState δ} {t : Io δ} {attended : Word → Prop} {node : FsNode} {mode : Word} {fp : FilePtr}
    (keyed : s.Keyed) (opened : Io.fsOpen drv node mode s.io = .ok (fp, t)) {st : Stat}
    (stats : Stats drv s.io node st) :
    TtyState.Keyed ⟨t, attended, s.reading⟩ ↔ OpenAgrees s fp (openedFile node mode st) := by
  obtain ⟨st', stats', -, -, el, waitq, remembered⟩ := fsOpen_ok opened
  obtain rfl := stats.unique stats'
  have file : ∀ g, t.file g = if g = fp then openedFile node mode st else s.io.file g := fun g => by
    show t.kernel.fs.openFiles.el g = _
    rw [el, Function.update_apply]
    rfl
  have key : ∀ m, (openedFile node mode st).OpensTty m ∨ s.io.ttyOpenedAs m = some fp →
      t.handlerKey m = some (openedFile node mode st).node.idx := fun m shown => by
    have here : t.ttyOpenedAs m = some fp := by
      rw [remembered m]
      rcases shown with opens | recycled
      · exact if_pos opens
      · rw [recycled, ite_self]
    unfold Io.handlerKey
    rw [here, Option.map_some, file fp, if_pos rfl]
  constructor
  · rintro after m i e shown ⟨entry, isRead, tty⟩
    exact (Option.some.inj ((key m shown).symm.trans (after m i e ⟨waitq ▸ entry, isRead, tty⟩))).symm
  · rintro agrees m i e ⟨entry, isRead, tty⟩
    have entry : s.io.waitq i = some e := waitq ▸ entry
    by_cases shown : (openedFile node mode st).OpensTty m ∨ s.io.ttyOpenedAs m = some fp
    · exact (key m shown).trans (congrArg some (agrees m i e shown ⟨entry, isRead, tty⟩).symm)
    · have before := keyed m i e ⟨entry, isRead, tty⟩
      show t.handlerKey m = _
      unfold Io.handlerKey at before ⊢
      rw [remembered m, if_neg fun opens => shown (Or.inl opens), ← before]
      refine Option.map_congr fun g here => ?_
      rw [file g, if_neg]
      rintro rfl
      exact shown (Or.inr here)

/-- Whose handler uses an open `FILE` after an open. -/
theorem fsOpen_attends {node : FsNode} {mode : Word} {fp : FilePtr}
    (opened : Io.fsOpen drv node mode s = .ok (fp, t)) (m : Word) :
    t.Attends m ↔ (t.file fp).IsTty m ∨ ¬ (t.file fp).OpensTty m ∧ s.Attends m := by
  obtain ⟨st, -, free, used, el, -, remembered⟩ := fsOpen_ok opened
  have new : t.file fp = openedFile node mode st := by
    show t.kernel.fs.openFiles.el fp = _
    rw [el, Function.update_self]
  have unused := KSet.firstFree_some free
  rw [new]
  by_cases opens : (openedFile node mode st).OpensTty m
  · have here := (remembered m).trans (if_pos opens)
    constructor
    · rintro ⟨g, shown, -, tty⟩
      obtain rfl := Option.some.inj (here.symm.trans shown)
      rw [new] at tty
      exact Or.inl tty
    · rintro (tty | ⟨closes, -⟩)
      · refine ⟨fp, here, ?_, new ▸ tty⟩
        rw [used, Function.update_self]
      · exact absurd opens closes
  · have here := (remembered m).trans (if_neg opens)
    have notTty : ¬ (openedFile node mode st).IsTty m := fun tty => opens tty.opens
    constructor
    · rintro ⟨g, shown, open_, tty⟩
      have apart : g ≠ fp := by
        rintro rfl
        rw [new] at tty
        exact notTty tty
      refine Or.inr ⟨opens, g, here.symm.trans shown, ?_, ?_⟩
      · rwa [used, Function.update_of_ne apart] at open_
      · unfold Io.file at tty
        rwa [el, Function.update_of_ne apart] at tty
    · rintro (tty | ⟨-, g, shown, open_, tty⟩)
      · exact absurd tty notTty
      have apart : g ≠ fp := by
        rintro rfl
        rw [unused] at open_
        cases open_
      refine ⟨g, here.trans shown, ?_, ?_⟩
      · rwa [used, Function.update_of_ne apart]
      · unfold Io.file
        rwa [el, Function.update_of_ne apart]

/-- **A read keeps the agreement just where it waits under what its handler notifies.** -/
theorem tryKRead_keyed {s : TtyState δ} {t : Io δ} {attended : Word → Prop} {fd : FilePtr}
    {buf size caller scall : Word} {n : Nat} (keyed : s.Keyed)
    (read : Io.tryKRead drv behind env fuel fd buf size caller scall s.io = .ok (n, t)) :
    TtyState.Keyed ⟨t, attended, s.readingFrom fd⟩ ↔
      ∀ m, (s.io.file fd).IsTty m → s.io.NothingFor m size.toNat →
        s.io.handlerKey m = some (s.io.file fd).node.idx := by
  have old : ∀ i e, s.io.waitq i = some e → s.readingFrom fd i = s.reading i := fun i e here => by
    unfold TtyState.readingFrom
    rw [here]
    rfl
  obtain ⟨files, opened, served | ⟨nothing, i, free, waits⟩⟩ := tryKRead_waits read
  · obtain ⟨waitq, some⟩ := served
    refine iff_of_true ?_ fun m tty none => absurd none (some m tty)
    exact keyed.mono (fun g => (files g).2) opened (fun j e here => Or.inr (waitq ▸ here)) old
  have key : ∀ m, t.handlerKey m = s.io.handlerKey m := handlerKey_same (fun g => (files g).2) opened
  have new : s.readingFrom fd i = (s.io.file fd).tty := if_pos free
  constructor
  · intro after m tty _
    have here : t.waitq i = some (waitingRead s.io fd buf size caller scall) := by
      rw [waits, Function.update_self]
    have sleeps := after m i _ ⟨here, rfl, new.trans (File.tty_iff.mpr tty)⟩
    exact (key m).symm.trans sleeps
  · rintro agrees m j e ⟨here, isRead, tty⟩
    have here : Function.update s.io.waitq i (some (waitingRead s.io fd buf size caller scall)) j = some e :=
      waits ▸ here
    refine (key m).trans ?_
    by_cases same : j = i
    · subst same
      rw [Function.update_self] at here
      obtain rfl := Option.some.inj here
      have tty := File.tty_iff.mp (new.symm.trans tty)
      exact agrees m tty (nothing m tty)
    · rw [Function.update_of_ne same] at here
      exact keyed m j e ⟨here, isRead, (old j e here).symm.trans tty⟩

end Steps

/-! ### Runs -/

section Runs

variable {s t : TtyState δ} {op : TtyOp}

/-- The invariant of the runs. -/
structure TtyInv (s : TtyState δ) : Prop where
  keyed : s.Keyed
  attended : ∀ m, s.attended m ↔ s.io.Attends m

/-- `attended` says whose handler uses an open `FILE`. -/
theorem TtyStep.attends (step : TtyStep drv behind env fuel s op t) (before : ∀ m, s.attended m ↔ s.io.Attends m)
    (m : Word) : t.attended m ↔ t.io.Attends m := by
  cases step with
  | «open» opened =>
    rw [fsOpen_attends opened m, ← before m]
  | dup counted =>
    have steady := incRefcnt_same counted
    exact (before m).trans (attends_same steady.files steady.opened m).symm
  | close closed =>
    obtain ⟨same, remembered, -, used⟩ := kClose_ok closed
    refine (and_congr_left fun _ => before m).trans ?_
    unfold Io.Attends
    rw [remembered]
    constructor
    · rintro ⟨⟨g, here, open_, tty⟩, stays⟩
      exact ⟨g, here, (used g).mpr ⟨open_, fun goes => stays ⟨goes.1 ▸ here, goes.2⟩⟩, (same g).isTty.mpr tty⟩
    · rintro ⟨g, here, open_, tty⟩
      obtain ⟨open_, stays⟩ := (used g).mp open_
      refine ⟨⟨g, here, open_, (same g).isTty.mp tty⟩, fun goes => stays ⟨?_, goes.2⟩⟩
      exact Option.some.inj (here.symm.trans goes.1)
  | read read =>
    obtain ⟨files, opened, -⟩ := tryKRead_waits read
    exact (before m).trans (attends_same files opened m).symm
  | interrupt served =>
    have steady := uartInterrupt_steady served
    exact (before m).trans (attends_same steady.files steady.opened m).symm
  | fault => exact before m
  | other quiet => exact (before m).trans (attends_same quiet.files quiet.opened m).symm

/-- **One step is right exactly where it is said to be.** -/
theorem TtyStep.exact (inv : TtyInv s) (step : TtyStep drv behind env fuel s op t) :
    TtyRight s op t ↔ TtyOk drv s op := by
  have quiet : t.Keyed → (∀ m arrived, op ≠ .interrupt m arrived) → TtyRight s op t :=
    fun keyed others => ⟨keyed, fun m arrived same => absurd same (others m arrived)⟩
  cases step with
  | @«open» _ node mode fp opened =>
    obtain ⟨st, stats, free, -⟩ := fsOpen_ok opened
    constructor
    · intro right fp' st' free' stats'
      obtain rfl := Option.some.inj (free.symm.trans free')
      exact (fsOpen_keyed inv.keyed opened stats').mp right.1
    · intro ok
      exact quiet ((fsOpen_keyed inv.keyed opened stats).mpr (ok fp st free stats)) nofun
  | dup counted => exact iff_of_true (quiet ((incRefcnt_same counted).keyed inv.keyed) nofun) trivial
  | close closed =>
    obtain ⟨same, remembered, waitq, -⟩ := kClose_ok closed
    refine iff_of_true (quiet (inv.keyed.mono same remembered ?_ fun _ _ _ => rfl) nofun) trivial
    exact fun i e here => Or.inr (waitq ▸ here)
  | read read =>
    exact ⟨fun right => (tryKRead_keyed inv.keyed read).mp right.1,
      fun ok => quiet ((tryKRead_keyed inv.keyed read).mpr ok) nofun⟩
  | @interrupt _ m arrived served =>
    have keyed : TtyState.Keyed ⟨_, s.attended, s.reading⟩ := (uartInterrupt_steady served).keyed inv.keyed
    constructor
    · exact fun right some => (inv.attended m).mpr (right.2 m arrived rfl some)
    · refine fun ok => ⟨keyed, fun m' arrived' same some => ?_⟩
      obtain ⟨rfl, rfl⟩ := TtyOp.interrupt.inj same
      exact (inv.attended m).mp (ok some)
  | @fault m arrived =>
    constructor
    · exact fun right some => (inv.attended m).mpr (right.2 m arrived rfl some)
    · refine fun ok => ⟨inv.keyed, fun m' arrived' same some => ?_⟩
      obtain ⟨rfl, rfl⟩ := TtyOp.interrupt.inj same
      exact (inv.attended m).mp (ok some)
  | other still =>
    refine iff_of_true (quiet (inv.keyed.mono ?_ still.opened still.waitq fun _ _ _ => rfl) nofun) trivial
    exact fun g => (still.files g).2

/-- A step that is said to be right. -/
def TtyOkStep (drv : BlkDriver δ) (behind : BlockPtr → Nat → Word) (env : FsEnv) (fuel : Nat) (s : TtyState δ)
    (op : TtyOp) (t : TtyState δ) : Prop :=
  TtyOk drv s op ∧ TtyStep drv behind env fuel s op t

theorem TtyInv.step (inv : TtyInv s) (step : TtyOkStep drv behind env fuel s op t) : TtyInv t :=
  ⟨((step.2.exact inv).mpr step.1).1, step.2.attends inv.attended⟩

/-- **The wakeup of the readers.** From a kernel with no tty open and no read waiting, in every order of right steps
every read waits under what the handler of its tty notifies; and the next step keeps this, with a handler that uses
an open `FILE` of its tty, exactly where it is right. -/
theorem ttyRun_keyed {io : Io δ} {ops : List TtyOp} (unopened : ∀ m, io.ttyOpenedAs m = none)
    (idle : ∀ i, io.waitq i = none) (run : Run (TtyOkStep drv behind env fuel) (.start io) ops s) :
    s.Keyed ∧ ∀ op t, TtyStep drv behind env fuel s op t → (TtyRight s op t ↔ TtyOk drv s op) := by
  have first : TtyInv (TtyState.start io) := by
    refine ⟨fun m i e waits => ?_, fun m => ⟨False.elim, fun attends => ?_⟩⟩
    · exact absurd (waits.1.symm.trans (idle i)) (Option.some_ne_none e)
    · obtain ⟨fp, here, -⟩ := attends
      exact absurd (here.symm.trans (unopened m)) (Option.some_ne_none fp)
  have inv := run.preserves (fun _ _ _ inv step => inv.step step) first
  exact ⟨inv.keyed, fun op t step => step.exact inv⟩

end Runs

/-! ### A reader that is woken, and one that is not -/

/-- Block 40 is the node of tty 0, and block 41 that of an empty file. -/
def ttyDisk (key : BlockKey) : BlockData :=
  if key = (0, 40) then (BlockData.zero.put 0 sIfchr).put 1 0x100
  else if key = (0, 41) then BlockData.zero.put 0 sIfreg
  else BlockData.zero

/-- A kernel with that disk and one process besides the worker, and no file open. -/
def ttyIo : Io (BlockKey → BlockData) :=
  (Io.devIo 1).withKernel { (Io.devIo 1).kernel with
    currentTask := 0
    fs := { ramBoot with blk := (Client.boot ramDriver ttyDisk).cache } }

/-- An open of one of two ttys. -/
theorem within_two {f : File} {d m : Word} (here : f.device = d) (opens : f.OpensTty m) (low : (d &&& 0xff).toNat < 2) :
    m.toNat < 2 := by
  rw [← opens.2, here]
  exact low

/-- Tty 0 is opened, a read finds nothing and waits, and a character arrives. The result is the slot, what it was when
the read began, and what the handler would have notified. -/
def wakeCalls : IoM (BlockKey → BlockData) (FilePtr × File × Option Word) := do
  let a ← Io.fsOpen ramDriver ⟨0, 40⟩ 0
  let u ← get
  let _ ← Io.tryKRead ramDriver (fun _ _ => 0) ramEnv 0 a 0 1 1 0
  Io.uartInterrupt 0 [65]
  pure (a, u.file a, u.handlerKey 0)

theorem wakeCalls_end : ∃ t : Io (BlockKey → BlockData),
    wakeCalls ttyIo = .ok ((0, ⟨0, ⟨0, 40⟩, 1, 0, 0x100, sIfchr, 1⟩, some 40), t) ∧
      t.waitq 0 = some ⟨40, 1, 0, 0, 0, 1, false⟩ :=
  ⟨_, rfl, rfl⟩

/-- **A reader that is woken**: when the character arrives it waits under 40, which the handler notifies, and the
handler uses a `FILE` that is open on the tty. -/
theorem ttyRun_keyed_woken : ∃ s t : TtyState (BlockKey → BlockData),
    Run (TtyOkStep ramDriver (fun _ _ => 0) ramEnv 0) (.start ttyIo) [.open ⟨0, 40⟩ 0, .read 0 0 1 1 0] s ∧
      s.Waits 0 0 ⟨40, 1, 0, 0, 0, 1, false⟩ ∧ s.io.handlerKey 0 = some 40 ∧
      TtyStep ramDriver (fun _ _ => 0) ramEnv 0 s (.interrupt 0 [65]) t ∧ TtyRight s (.interrupt 0 [65]) t := by
  obtain ⟨t, ran, entry⟩ := wakeCalls_end
  unfold wakeCalls at ran
  obtain ⟨a, s₁, opened, ran₁⟩ := run_ok ran
  have ran₂ := run_next ran₁ rfl
  obtain ⟨n, s₂, read, ran₃⟩ := run_ok ran₂
  obtain ⟨_, s₃, served, ran₄⟩ := run_ok ran₃
  obtain ⟨results, rfl⟩ := Prod.mk.inj (Except.ok.inj ran₄)
  obtain ⟨rfl, results⟩ := Prod.mk.inj results
  obtain ⟨file, key⟩ := Prod.mk.inj results
  have tty : (s₁.file 0).IsTty 0 := by
    rw [file]
    decide
  have waitq : s₁.waitq 0 = none := by
    obtain ⟨-, -, -, -, -, same, -⟩ := fsOpen_ok opened
    rw [same]
    rfl
  obtain ⟨u, here⟩ : ∃ u : TtyState (BlockKey → BlockData),
      u = ⟨s₁, fun m => (s₁.file 0).IsTty m ∨ ¬ (s₁.file 0).OpensTty m ∧ False, fun _ => none⟩ := ⟨_, rfl⟩
  have io : u.io = s₁ := congrArg TtyState.io here
  have first : TtyOkStep ramDriver (fun _ _ => 0) ramEnv 0 (.start ttyIo) (.open ⟨0, 40⟩ 0) u := by
    refine ⟨fun fp st _ _ m i e _ waits => absurd waits.1.symm (Option.some_ne_none e), ?_⟩
    rw [here]
    exact .open opened fun m opens => within_two (congrArg File.device file) opens (by decide)
  have second : TtyOkStep ramDriver (fun _ _ => 0) ramEnv 0 u (.read 0 0 1 1 0) ⟨s₂, u.attended, u.readingFrom 0⟩ := by
    refine ⟨fun m other _ => ?_, .read (io.symm ▸ read)⟩
    rw [io] at other ⊢
    obtain rfl : m = 0 := other.2.symm.trans tty.2
    rw [key, file]
  have run := Run.cons first (.single second)
  obtain ⟨keyed, exact'⟩ := ttyRun_keyed (fun _ => rfl) (fun _ => rfl) run
  have waits : TtyState.Waits ⟨s₂, u.attended, u.readingFrom 0⟩ 0 0 ⟨40, 1, 0, 0, 0, 1, false⟩ := by
    refine ⟨(uartInterrupt_steady served).waitq ▸ entry, rfl, (if_pos ?_).trans ?_⟩
    · rw [io]
      exact waitq
    · rw [io]
      exact File.tty_iff.mpr tty
  have third : TtyStep ramDriver (fun _ _ => 0) ramEnv 0 ⟨s₂, u.attended, u.readingFrom 0⟩ (.interrupt 0 [65]) _ :=
    .interrupt served
  have attended : u.attended 0 := by
    rw [here]
    exact Or.inl tty
  exact ⟨_, _, run, waits, keyed 0 0 _ waits, third, (exact' _ _ third).mpr fun _ => attended⟩

/-- Tty 0 is opened twice and the second `FILE` closed; a read waits on the first, and then the file is opened. The
result is the slots, with the devices of the two ttys, and the state in which the read began. -/
def ttyCalls : IoM (BlockKey → BlockData) (List (FilePtr × Word) × Option Word) := do
  let a ← Io.fsOpen ramDriver ⟨0, 40⟩ 0
  let f ← onFs (getFile a)
  let b ← Io.fsOpen ramDriver ⟨0, 40⟩ 0
  let g ← onFs (getFile b)
  Io.kClose b
  let u ← get
  let _ ← Io.tryKRead ramDriver (fun _ _ => 0) ramEnv 0 a 0 1 1 0
  let c ← Io.fsOpen ramDriver ⟨0, 41⟩ 0
  let h ← onFs (getFile c)
  pure ([(a, f.device), (b, g.device), (c, h.device)], (TtyState.start u).readingFrom a 0)

theorem ttyCalls_end : ∃ t : Io (BlockKey → BlockData),
    ttyCalls ttyIo = .ok (([(0, 0x100), (1, 0x100), (1, 0)], some 0), t) ∧ t.handlerKey 0 = some 41 ∧
      t.waitq 0 = some ⟨40, 1, 0, 0, 0, 1, false⟩ :=
  ⟨_, rfl, rfl, rfl⟩

/-- An entry that no read had taken. -/
theorem readingFrom_start {s : TtyState δ} {fd : FilePtr} {i : Fin waitqLength} {m : Word}
    (reads : (TtyState.start s.io).readingFrom fd i = some m) : s.readingFrom fd i = some m := by
  unfold TtyState.readingFrom TtyState.start at reads
  unfold TtyState.readingFrom
  split at reads
  case isTrue free =>
    rw [if_pos free]
    exact reads
  case isFalse => cases reads

/-- Its steps, those before the last one first. -/
theorem ttyCalls_steps : ∃ u t : TtyState (BlockKey → BlockData),
    Run (TtyStep ramDriver (fun _ _ => 0) ramEnv 0) (.start ttyIo)
      [.open ⟨0, 40⟩ 0, .open ⟨0, 40⟩ 0, .close 1, .read 0 0 1 1 0] u ∧
    TtyStep ramDriver (fun _ _ => 0) ramEnv 0 u (.open ⟨0, 41⟩ 0) t ∧ t.io.handlerKey 0 = some 41 ∧
      t.Waits 0 0 ⟨40, 1, 0, 0, 0, 1, false⟩ := by
  obtain ⟨t, ran, key, entry⟩ := ttyCalls_end
  unfold ttyCalls at ran
  obtain ⟨a, s₁, first, ran₁⟩ := run_ok ran
  have ran₂ := run_next ran₁ rfl
  obtain ⟨b, s₃, second, ran₃⟩ := run_ok ran₂
  have ran₄ := run_next ran₃ rfl
  obtain ⟨_, s₅, closed, ran₅⟩ := run_ok ran₄
  have ran₆ := run_next ran₅ rfl
  obtain ⟨n, s₆, read, ran₇⟩ := run_ok ran₆
  obtain ⟨c, s₇, third, ran₈⟩ := run_ok ran₇
  have ran₉ := run_next ran₈ rfl
  obtain ⟨results, rfl⟩ := Prod.mk.inj (Except.ok.inj ran₉)
  obtain ⟨results, reading⟩ := Prod.mk.inj results
  obtain ⟨one, results⟩ := List.cons.inj results
  obtain ⟨two, results⟩ := List.cons.inj results
  obtain ⟨three, -⟩ := List.cons.inj results
  obtain ⟨rfl, device₁⟩ := Prod.mk.inj one
  obtain ⟨rfl, device₂⟩ := Prod.mk.inj two
  obtain ⟨rfl, device₃⟩ := Prod.mk.inj three
  refine ⟨_, _, .cons (.open first fun m opens => within_two device₁ opens (by decide)) (.cons
    (.open second fun m opens => within_two device₂ opens (by decide)) (.cons (.close closed)
      (.cons (.read read) (.nil _)))),
    .open third fun m opens => within_two device₃ opens (by decide), key, entry, rfl, readingFrom_start reading⟩

/-- **A reader that is never woken**: the `FILE` of the last open of its tty is closed, and its slot is another file's
when the characters arrive. -/
theorem tty_rekeyed : ∃ t : TtyState (BlockKey → BlockData), ∃ ops,
    Run (TtyStep ramDriver (fun _ _ => 0) ramEnv 0) (.start ttyIo) ops t ∧
      (∀ m, ttyIo.ttyOpenedAs m = none) ∧ (∀ i, ttyIo.waitq i = none) ∧ ¬ t.Keyed := by
  obtain ⟨u, t, run, step, key, waits⟩ := ttyCalls_steps
  refine ⟨t, _, run.append (.single step), fun _ => rfl, fun _ => rfl, fun keyed => ?_⟩
  have same := key.symm.trans (keyed 0 0 _ waits)
  exact absurd same (by decide)

end RlCpu.Kernel
