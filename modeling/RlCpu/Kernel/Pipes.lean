/-
**Pipes (`piper.c`, `cb.c`, and the calls that reach them).**

A pipe is a channel: what `piper_write` accepts, `piper_read` delivers, in the same order. `PipeStep` is a step of the
kernel in which any process can have a part: a `read` or `write` system call, a retry of a blocked one, an open, a
close, characters that arrive, and whatever else does not touch `pipes`. What a step does to one pipe is its `Move`.

* `Io.PipeStep.describes`: a step of the kernel is a move of the channel that the pipe's buffer holds.
* `Io.pipe_delivers`: over every run, no word of a pipe is lost, doubled, moved or taken from another one.
-/

import RlCpu.Kernel.Transfer
import RlCpu.Kernel.RingBuffer
import RlCpu.Lib.Channel

namespace RlCpu.Kernel

open RlCpu.Lib

/-! ### The loops on the buffer -/

namespace CircularBuffer

variable {cb : CircularBuffer} {l : List Word}

theorem pop_capacity (cb : CircularBuffer) : cb.pop.2.capacity = cb.capacity := call_capacity cb .pop

theorem push_capacity (cb : CircularBuffer) (val : Word) : (cb.push val).capacity = cb.capacity :=
  call_capacity cb (.push val)

/-- The loop of `piper_read` takes the oldest words. By induction on how many. -/
theorem Holds.popTimes {n : Nat} (holds : cb.Holds l) (low : n ≤ l.length) :
    (popTimes n cb).1 = l.take n ∧ (popTimes n cb).2.Holds (l.drop n) ∧ (popTimes n cb).2.capacity = cb.capacity := by
  induction n generalizing cb l with
  | zero => exact ⟨rfl, holds, rfl⟩
  | succ n ih =>
    cases l with
    | nil => exact absurd low (Nat.not_succ_le_zero n)
    | cons x l =>
      obtain ⟨first, rest⟩ := holds.pop
      obtain ⟨words, later, capacity⟩ := ih rest (Nat.le_of_succ_le_succ low)
      refine ⟨?_, later, capacity.trans (pop_capacity cb)⟩
      show cb.pop.1 :: _ = x :: l.take n
      rw [words, first]
      rfl

/-- The loop of `piper_write` puts the words behind the others, while there is room. -/
theorem Holds.pushMany {n : Nat} (buf : Nat → Word) (holds : cb.Holds l) (room : l.length + n ≤ cb.capacity.toNat) :
    (pushMany n buf cb).Holds (l ++ (List.range n).map buf) ∧ (pushMany n buf cb).capacity = cb.capacity := by
  induction n generalizing cb l buf with
  | zero => exact ⟨by rwa [List.range_zero, List.map_nil, List.append_nil], rfl⟩
  | succ n ih =>
    have pushed := holds.push (buf 0)
    rw [if_pos (by omega)] at pushed
    have more : (l ++ [buf 0]).length + n ≤ (cb.push (buf 0)).capacity.toNat := by
      rw [push_capacity, List.length_append, List.length_singleton]
      omega
    obtain ⟨later, capacity⟩ := ih (fun i => buf (i + 1)) pushed more
    refine ⟨?_, capacity.trans (push_capacity cb _)⟩
    rw [List.range_succ_eq_map, List.map_cons, List.map_map, List.append_cons]
    exact later

end CircularBuffer

/-- Closing an end opened with this mode leaves none open. -/
def PipeFile.closes (pipe : PipeFile) (mode : Word) : Bool :=
  (pipe.readClosed || mode == 0) && (pipe.writeClosed || mode == oWronly)

variable {δ : Type}

namespace Io

/-! ### What leaves the pipes alone -/

/-- The pipes and `iobuf` are the same. -/
def Quiet (s t : Io δ) : Prop := t.pipes = s.pipes ∧ t.iobuf = s.iobuf

theorem Quiet.refl (s : Io δ) : Quiet s s := ⟨rfl, rfl⟩

theorem Quiet.trans (a b c : Io δ) (first : Quiet a b) (second : Quiet b c) : Quiet a c :=
  ⟨second.1.trans first.1, second.2.trans first.2⟩

theorem onFs_quiet {α : Type} {p : FsM δ α} : Along (onFs p) Quiet := by
  intro s x t ran
  obtain ⟨fs, -, rfl⟩ := onFs_ok ran
  exact ⟨rfl, rfl⟩

theorem notifyOpened_quiet (openedAs : Option FilePtr) : Along (notifyOpened openedAs : IoM δ Unit) Quiet := by
  cases openedAs with
  | none => exact Along.of_throw
  | some fd =>
    refine Along.of_bind Quiet.trans onFs_quiet fun f s x t ran => ?_
    unfold waitqNotify at ran
    split at ran
    · obtain ⟨-, rfl⟩ := Prod.mk.inj (Except.ok.inj ran)
      exact ⟨rfl, rfl⟩
    · cases ran

theorem setBlockRequest_quiet (request : Word) : Along (setBlockRequest request : IoM δ Unit) Quiet :=
  Along.of_modify fun _ => ⟨rfl, rfl⟩

theorem ttyRead_quiet (minor : Word) (n : Nat) : Along (ttyRead minor n : IoM δ (List Word)) Quiet := by
  intro s words t ran
  unfold ttyRead at ran
  have ran := run_next ran rfl
  dsimp only at ran
  have ran := run_next ran rfl
  refine Quiet.trans s _ t ?_ (Along.of_bind Quiet.trans ?_ (fun _ => Along.of_pure Quiet.refl) _ _ _ ran)
  · exact ⟨rfl, rfl⟩
  · split
    · exact setBlockRequest_quiet 1
    · exact Along.of_pure Quiet.refl

theorem userGets_quiet (p : Nat) (addr : Word) (length : Nat) :
    Along (userGets p addr length : IoM δ (List Word)) Quiet := by
  intro s words t ran
  unfold userGets at ran
  split at ran
  · obtain ⟨-, rfl⟩ := Prod.mk.inj (Except.ok.inj ran)
    exact ⟨rfl, rfl⟩
  · cases ran

theorem userPuts_quiet (p : Nat) (addr : Word) (words : List Word) :
    Along (userPuts p addr words : IoM δ Unit) Quiet := by
  intro s x t ran
  unfold userPuts at ran
  split at ran
  · obtain ⟨-, rfl⟩ := Prod.mk.inj (Except.ok.inj ran)
    exact ⟨rfl, rfl⟩
  · cases ran

theorem waitqAddEntry_quiet (e : WaitqEntry) : Along (waitqAddEntry e : IoM δ Unit) Quiet := by
  intro s x t ran
  unfold waitqAddEntry at ran
  split at ran
  · obtain ⟨-, rfl⟩ := Prod.mk.inj (Except.ok.inj ran)
    exact ⟨rfl, rfl⟩
  · cases ran

theorem block_quiet (fuel p : Nat) (caller : Word) : Along (block fuel p caller : IoM δ Unit) Quiet := by
  refine Along.of_bind Quiet.trans (Along.of_modify fun s => ⟨rfl, rfl⟩) fun _ => ?_
  refine Along.of_bind Quiet.trans (Along.of_get Quiet.refl) fun s => ?_
  split
  · intro s x t ran
    unfold reschedule at ran
    split at ran
    case h_1 =>
      obtain ⟨-, rfl⟩ := Prod.mk.inj (Except.ok.inj ran)
      exact ⟨rfl, rfl⟩
    case h_2 => cases ran
    case h_3 => cases ran
  · exact Along.of_pure Quiet.refl

theorem putSize_quiet (p : Nat) (scall retval : Word) : Along (putSize p scall retval : IoM δ Unit) Quiet :=
  Along.of_bind Quiet.trans (userGets_quiet _ _ _) fun _ => userPuts_quiet _ _ _

/-! ### The handlers of a pipe -/

section Handlers

variable {p : Word} {s t : Io δ} {n : Nat} {words : List Word}

/-- The pipes with another buffer in one. -/
def withBuffer (s : Io δ) (p : Word) (cb : CircularBuffer) : Word → PipeFile :=
  Function.update s.pipes p { s.pipes p with cb := cb }

/-- **What `piper_read` does.** -/
theorem piperRead_ok (read : piperRead p n s = .ok (words, t)) :
    words = ((s.pipes p).cb.popTimes (min n (s.pipes p).cb.size.toNat)).1 ∧
      t.pipes = s.withBuffer p ((s.pipes p).cb.popTimes (min n (s.pipes p).cb.size.toNat)).2 ∧ t.iobuf = s.iobuf := by
  unfold piperRead at read
  have read := run_next read rfl
  obtain ⟨_, s₂, notified, read⟩ := run_ok read
  have read := run_next read rfl
  dsimp only at read
  obtain ⟨_, s₄, put, read⟩ := run_ok read
  have stored := (Prod.mk.inj (Except.ok.inj put)).2
  obtain ⟨_, s₅, asked, read⟩ := run_ok read
  obtain ⟨rfl, rfl⟩ := Prod.mk.inj (Except.ok.inj read)
  have before : Quiet s s₂ := by
    split at notified
    · exact Along.of_bind Quiet.trans (Along.of_get Quiet.refl) (fun _ => notifyOpened_quiet _) _ _ _ notified
    · exact Along.of_pure Quiet.refl _ _ _ notified
  have after : Quiet s₄ s₅ := by
    split at asked
    · exact setBlockRequest_quiet 1 _ _ _ asked
    · exact Along.of_pure Quiet.refl _ _ _ asked
  refine ⟨rfl, ?_, ?_⟩
  · rw [after.1, ← stored]
    show Function.update s₂.pipes p { s₂.pipes p with cb := _ } = _
    rw [before.1]
    rfl
  · rw [after.2, ← stored]
    exact before.2

/-- **What `piper_write` does.** -/
theorem piperWrite_ok {buf : Nat → Word} {k : Nat} (wrote : piperWrite p buf n s = .ok (k, t)) :
    (if (s.pipes p).readClosed then k = 0 ∧ t.pipes = s.pipes
      else k = min n ((s.pipes p).cb.capacity - (s.pipes p).cb.size).toNat ∧
        t.pipes = s.withBuffer p ((s.pipes p).cb.pushMany k buf)) ∧ t.iobuf = s.iobuf := by
  unfold piperWrite at wrote
  have wrote := run_next wrote rfl
  dsimp only at wrote
  split at wrote
  case isTrue closed =>
    rw [if_pos closed]
    obtain ⟨_, s₂, asked, wrote⟩ := run_ok wrote
    obtain ⟨rfl, rfl⟩ := Prod.mk.inj (Except.ok.inj wrote)
    have after := setBlockRequest_quiet 2 _ _ _ asked
    exact ⟨⟨rfl, after.1⟩, after.2⟩
  case isFalse isOpen =>
    rw [if_neg isOpen]
    obtain ⟨_, s₂, notified, wrote⟩ := run_ok wrote
    have wrote := run_next wrote rfl
    obtain ⟨_, s₄, put, wrote⟩ := run_ok wrote
    have stored := (Prod.mk.inj (Except.ok.inj put)).2
    obtain ⟨_, s₅, asked, wrote⟩ := run_ok wrote
    obtain ⟨rfl, rfl⟩ := Prod.mk.inj (Except.ok.inj wrote)
    have before : Quiet s s₂ := by
      split at notified
      · exact Along.of_bind Quiet.trans (Along.of_get Quiet.refl) (fun _ => notifyOpened_quiet _) _ _ _ notified
      · exact Along.of_pure Quiet.refl _ _ _ notified
    have after : Quiet s₄ s₅ := by
      split at asked
      · exact setBlockRequest_quiet 1 _ _ _ asked
      · exact Along.of_pure Quiet.refl _ _ _ asked
    refine ⟨⟨rfl, ?_⟩, ?_⟩
    · rw [after.1, ← stored]
      show Function.update s₂.pipes p { s₂.pipes p with cb := _ } = _
      rw [before.1]
      rfl
    · rw [after.2, ← stored]
      exact before.2

end Handlers

/-! ### Reads and writes of a pipe -/

/-- `k_read` of the `FILE` reads pipe `p`. -/
def ReadsPipe (s : Io δ) (fd : FilePtr) (p : Word) : Prop :=
  s.readKind fd = .calls .piperRead ∧ (s.file fd).device &&& 0xff = p

/-- `k_write` of the `FILE` writes pipe `p`. -/
def WritesPipe (s : Io δ) (fd : FilePtr) (p : Word) : Prop :=
  DevOp.writeOutcome bootTables (s.file fd).flags (s.file fd).device = .calls .piperWrite ∧
    (s.file fd).device &&& 0xff = p

instance (s : Io δ) (fd : FilePtr) (p : Word) : Decidable (s.ReadsPipe fd p) := inferInstanceAs (Decidable (_ ∧ _))

instance (s : Io δ) (fd : FilePtr) (p : Word) : Decidable (s.WritesPipe fd p) := inferInstanceAs (Decidable (_ ∧ _))

/-- **The pipe holds the words `q`**, the oldest first. -/
structure Holding (s : Io δ) (p : Word) (q : List Word) : Prop where
  words : (s.pipes p).cb.Holds q
  capacity : (s.pipes p).cb.capacity.toNat = pipeMaxLength

section Transfers

variable {drv : BlkDriver δ} {behind : BlockPtr → Nat → Word} {env : FsEnv} {fuel : Nat} {s t : Io δ} {p : Word}
  {fd : FilePtr} {q : List Word}

theorem Holding.of_cb (holding : s.Holding p q) (same : (t.pipes p).cb = (s.pipes p).cb) : t.Holding p q :=
  ⟨by rw [same]; exact holding.words, by rw [same]; exact holding.capacity⟩

theorem Holding.of_pipes (holding : s.Holding p q) (same : t.pipes p = s.pipes p) : t.Holding p q :=
  holding.of_cb (congrArg PipeFile.cb same)

theorem Holding.of_buffer {s' : Io δ} {cb : CircularBuffer} {q' : List Word} (holding : s.Holding p q)
    (buffer : t.pipes = s'.withBuffer p cb) (holds : cb.Holds q') (capacity : cb.capacity = (s.pipes p).cb.capacity) :
    t.Holding p q' := by
  have here : (t.pipes p).cb = cb := by
    rw [buffer]
    show (Function.update s'.pipes p { s'.pipes p with cb := cb } p).cb = cb
    rw [Function.update_self]
  exact ⟨by rw [here]; exact holds, by rw [here, capacity]; exact holding.capacity⟩

/-- Handlers of other devices leave the pipes alone. -/
theorem readHandler_quiet {minor : Word} {n : Nat} {h : BootHandler} (other : h ≠ .piperRead) :
    Along (readHandler minor n h : IoM δ (List Word)) Quiet := by
  cases h with
  | piperRead => exact absurd rfl other
  | ttyRead => exact ttyRead_quiet minor n
  | procFileRead => exact Along.of_bind Quiet.trans (Along.of_get Quiet.refl) fun _ => Along.of_pure Quiet.refl
  | schedFileRead | nullFileRead | zeroFileRead => exact Along.of_pure Quiet.refl
  | _ => exact Along.of_throw

theorem writeHandler_quiet {minor : Word} {buf : Nat → Word} {n : Nat} {h : BootHandler} (other : h ≠ .piperWrite) :
    Along (writeHandler minor buf n h : IoM δ Nat) Quiet := by
  cases h with
  | piperWrite => exact absurd rfl other
  | schedFileWrite =>
    exact Along.of_bind Quiet.trans (Along.of_modify fun _ => ⟨rfl, rfl⟩) fun _ => Along.of_pure Quiet.refl
  | ttyWrite | nullFileWrite | zeroFileWrite | procFileWrite => exact Along.of_pure Quiet.refl
  | _ => exact Along.of_throw

/-- **`k_read` of a `FILE`, for pipe `p`.** -/
theorem kRead_holding {size : Nat} {words : List Word} (read : kRead drv behind env fd size s = .ok (words, t))
    (holding : s.Holding p q) :
    (if s.ReadsPipe fd p then words = q.take size ∧ t.Holding p (q.drop size) else t.Holding p q) ∧
      t.iobuf = s.iobuf := by
  rw [kRead_eq] at read
  have quiet (other : s.readKind fd ≠ .calls .piperRead) (still : Quiet s t) :
      (if s.ReadsPipe fd p then words = q.take size ∧ t.Holding p (q.drop size) else t.Holding p q) ∧
        t.iobuf = s.iobuf := by
    rw [if_neg fun reads => other reads.1]
    exact ⟨holding.of_pipes (congrFun still.1 p), still.2⟩
  cases kind : s.readKind fd with
  | calls h =>
    rw [kind] at read
    by_cases pipe : h = .piperRead
    · subst pipe
      obtain ⟨rfl, pipes, buffer⟩ := piperRead_ok read
      refine ⟨?_, buffer⟩
      by_cases here : (s.file fd).device &&& 0xff = p
      · rw [if_pos ⟨kind, here⟩]
        rw [here] at pipes ⊢
        have size_q := holding.words.size
        obtain ⟨words, holds, capacity⟩ := holding.words.popTimes
          (show min size (s.pipes p).cb.size.toNat ≤ q.length by omega)
        rw [words]
        rw [size_q] at holds ⊢
        refine ⟨?_, ?_⟩
        · rcases Nat.le_total size q.length with low | high
          · rw [Nat.min_eq_left low]
          · rw [Nat.min_eq_right high, List.take_length, List.take_of_length_le high]
        · have dropped : q.drop (min size q.length) = q.drop size := by
            rcases Nat.le_total size q.length with low | high
            · rw [Nat.min_eq_left low]
            · rw [Nat.min_eq_right high, List.drop_length, List.drop_eq_nil_of_le high]
          rw [dropped] at holds
          rw [size_q] at capacity pipes
          exact holding.of_buffer pipes holds capacity
      · rw [if_neg fun reads => here reads.2]
        refine holding.of_pipes ?_
        rw [pipes]
        exact Function.update_of_ne (Ne.symm here) _ _
    · exact quiet (fun same => pipe (Outcome.calls.inj (kind.symm.trans same))) (readHandler_quiet pipe _ _ _ read)
  | block | served =>
    rw [kind] at read
    exact quiet (by rw [kind]; exact fun clash => by cases clash) (onFs_quiet _ _ _ read)
  | failed =>
    rw [kind] at read
    exact quiet (by rw [kind]; exact fun clash => by cases clash) (Along.of_pure Quiet.refl _ _ _ read)
  | null | outside | noDriver =>
    rw [kind] at read
    cases read

/-- **`k_write` of a `FILE`, for pipe `p`.** -/
theorem kWrite_holding {size n : Nat} {buf : Nat → Word} (wrote : kWrite drv env fd buf size s = .ok (n, t))
    (holding : s.Holding p q) :
    (if s.WritesPipe fd p ∧ (s.pipes p).readClosed = false then
        n = min size (pipeMaxLength - q.length) ∧ t.Holding p (q ++ (List.range n).map buf)
      else t.Holding p q) ∧ t.iobuf = s.iobuf := by
  have quiet (other : ¬ s.WritesPipe fd p) (still : Quiet s t) :
      (if s.WritesPipe fd p ∧ (s.pipes p).readClosed = false then
          n = min size (pipeMaxLength - q.length) ∧ t.Holding p (q ++ (List.range n).map buf)
        else t.Holding p q) ∧ t.iobuf = s.iobuf := by
    rw [if_neg fun writes => other writes.1]
    exact ⟨holding.of_pipes (congrFun still.1 p), still.2⟩
  obtain ⟨f, s', got, wrote⟩ := run_ok wrote
  obtain ⟨rfl, rfl⟩ : f = s.file fd ∧ s' = s := by
    obtain ⟨fs, found, rfl⟩ := onFs_ok got
    obtain ⟨rfl, rfl⟩ := Prod.mk.inj (Except.ok.inj found)
    exact ⟨rfl, rfl⟩
  cases kind : DevOp.writeOutcome bootTables (s'.file fd).flags (s'.file fd).device with
  | calls h =>
    rw [kind] at wrote
    by_cases pipe : h = .piperWrite
    · subst pipe
      obtain ⟨result, buffer⟩ := piperWrite_ok wrote
      refine ⟨?_, buffer⟩
      by_cases here : (s'.file fd).device &&& 0xff = p
      · rw [here] at result
        cases closed : (s'.pipes p).readClosed with
        | true =>
          rw [closed, if_pos rfl] at result
          rw [if_neg fun writes => by cases writes.2]
          exact holding.of_pipes (congrFun result.2 p)
        | false =>
          rw [closed, if_neg Bool.false_ne_true] at result
          rw [if_pos ⟨⟨kind, here⟩, rfl⟩]
          obtain ⟨count, pipes⟩ := result
          have room : ((s'.pipes p).cb.capacity - (s'.pipes p).cb.size).toNat = pipeMaxLength - q.length := by
            have capacity := holding.capacity
            have size := holding.words.size
            have fits := holding.words.fits
            bv_omega
          rw [room] at count
          obtain ⟨holds, capacity⟩ := holding.words.pushMany (n := n) buf (by
            rw [holding.capacity, count]
            have fits := holding.words.fits
            rw [holding.capacity] at fits
            omega)
          exact ⟨count, holding.of_buffer pipes holds capacity⟩
      · rw [if_neg fun writes => here writes.1.2]
        refine holding.of_pipes ?_
        split at result
        · exact congrFun result.2 p
        · rw [result.2]
          exact Function.update_of_ne (Ne.symm here) _ _
    · exact quiet (fun same => pipe (Outcome.calls.inj (kind.symm.trans same.1))) (writeHandler_quiet pipe _ _ _ wrote)
  | block | served =>
    rw [kind] at wrote
    exact quiet (fun same => by cases kind.symm.trans same.1) (onFs_quiet _ _ _ wrote)
  | failed =>
    rw [kind] at wrote
    exact quiet (fun same => by cases kind.symm.trans same.1) (Along.of_pure Quiet.refl _ _ _ wrote)
  | null | outside | noDriver =>
    rw [kind] at wrote
    cases wrote

/-! ### Transfers -/

/-- What has gone through `iobuf`. -/
def moved (s : Io δ) (n : Nat) : List Word := (List.range n).map s.iobuf

theorem moved_stored (s : Io δ) (words : List Word) (old : Nat → Word)
    (stored : s.iobuf = fun i => words.getD i (old i)) : s.moved words.length = words := by
  unfold moved
  refine List.ext_getElem (by rw [List.length_map, List.length_range]) fun i _ low => ?_
  rw [List.getElem_map, List.getElem_range, stored]
  exact List.getD_eq_getElem _ _ low

/-- The waiting of a process leaves the pipes and `iobuf`. -/
theorem finishRead_quiet {P : Nat} {buf size caller scall : Word} {words : List Word} {n : Nat}
    (run : finishRead fuel P fd buf size caller scall words s = .ok (n, t)) :
    n = words.length ∧ t.pipes = s.pipes ∧ t.moved n = words := by
  unfold finishRead at run
  obtain ⟨_, s₁, stored, run⟩ := run_ok run
  obtain ⟨_, s₂, put, run⟩ := run_ok run
  obtain ⟨s₃, s₃', got, run⟩ := run_ok run
  obtain ⟨_, s₄, blocked, run⟩ := run_ok run
  obtain ⟨_, s₅, sized, run⟩ := run_ok run
  obtain ⟨rfl, rfl⟩ := Prod.mk.inj (Except.ok.inj run)
  have filled := (Prod.mk.inj (Except.ok.inj stored)).2
  have waiting : Quiet s₂ s₄ := by
    refine Quiet.trans _ _ _ (Along.of_get Quiet.refl _ _ _ got) ?_
    split at blocked
    · exact Along.of_bind Quiet.trans (setBlockRequest_quiet 0) (fun _ =>
        Along.of_bind Quiet.trans (waitqAddEntry_quiet _) fun _ => block_quiet fuel P caller) _ _ _ blocked
    · exact Along.of_pure Quiet.refl _ _ _ blocked
  have after : Quiet s₁ s₅ := Quiet.trans _ _ _ (userPuts_quiet _ _ _ _ _ _ put)
    (Quiet.trans _ _ _ waiting (putSize_quiet _ _ _ _ _ _ sized))
  refine ⟨rfl, ?_, moved_stored s₅ words s.iobuf ?_⟩
  · rw [after.1, ← filled]
  · rw [after.2, ← filled]

theorem finishWrite_quiet {P retval : Nat} {buf size caller scall : Word} {n : Nat}
    (run : finishWrite fuel P fd buf size caller scall retval s = .ok (n, t)) : n = retval ∧ Quiet s t := by
  unfold finishWrite at run
  obtain ⟨s₁, s₁', got, run⟩ := run_ok run
  obtain ⟨_, s₂, blocked, run⟩ := run_ok run
  obtain ⟨_, s₃, sized, run⟩ := run_ok run
  obtain ⟨rfl, rfl⟩ := Prod.mk.inj (Except.ok.inj run)
  refine ⟨rfl, Quiet.trans _ _ _ (Along.of_get Quiet.refl _ _ _ got) ?_⟩
  refine Quiet.trans _ _ _ ?_ (putSize_quiet _ _ _ _ _ _ sized)
  split at blocked
  · refine Along.of_bind Quiet.trans ?_ (fun _ => block_quiet fuel P caller) _ _ _ blocked
    split
    · exact Along.of_bind Quiet.trans (setBlockRequest_quiet 0) fun _ => waitqAddEntry_quiet _
    · split
      · exact Along.of_modify fun _ => ⟨rfl, rfl⟩
      · exact Along.of_pure Quiet.refl
  · exact Along.of_pure Quiet.refl _ _ _ blocked

theorem userGets_fs {P : Nat} {addr : Word} {length : Nat} {words : List Word}
    (got : userGets P addr length s = .ok (words, t)) : t.kernel.fs = s.kernel.fs ∧ words.length = length := by
  refine ⟨?_, (show Sees P (fun _ => True) s t ∧ words.length = length from userGets_sees got).2⟩
  unfold userGets at got
  split at got
  · obtain ⟨-, rfl⟩ := Prod.mk.inj (Except.ok.inj got)
    rfl
  · cases got

theorem writesPipe_congr (fs : t.kernel.fs = s.kernel.fs) : t.WritesPipe fd p ↔ s.WritesPipe fd p := by
  unfold WritesPipe file
  rw [fs]

/-- **What a transfer does to pipe `p`**, by what has gone through `iobuf`. -/
def moveOf (p : Word) (s : Io δ) (e : WaitqEntry) (n : Nat) (t : Io δ) : Move Word :=
  if e.isWrite then
    if s.WritesPipe e.fd p ∧ (s.pipes p).readClosed = false then .put (t.moved e.size.toNat) n else .stay
  else if s.ReadsPipe e.fd p then .take e.size.toNat (t.moved n) else .stay

theorem moved_take {k n : Nat} (le : n ≤ k) : (s.moved k).take n = s.moved n := by
  unfold moved
  rw [← List.map_take, List.take_range, Nat.min_eq_left le]

/-- **A transfer is a move of the channel.** -/
theorem tryTransfer_moves {e : WaitqEntry} {n : Nat} (run : tryTransfer drv behind env fuel e s = .ok (n, t))
    (holding : s.Holding p q) : ∃ q', (moveOf p s e n t).Step pipeMaxLength q q' ∧ t.Holding p q' := by
  unfold tryTransfer at run
  unfold moveOf
  split at run
  case isTrue write =>
    rw [if_pos write]
    unfold tryKWrite at run
    obtain ⟨P, s₁, found, rest⟩ := run_ok run
    obtain ⟨-, rfl⟩ := procOf_ok found
    split at rest
    case isTrue => cases rest
    case isFalse small =>
      obtain ⟨words, s₂, fetched, rest⟩ := run_ok rest
      obtain ⟨_, s₃, stored, rest⟩ := run_ok rest
      have rest := run_next rest rfl
      obtain ⟨k, s₅, wrote, rest⟩ := run_ok rest
      obtain ⟨rfl, after⟩ := finishWrite_quiet rest
      obtain ⟨fs, length⟩ := userGets_fs fetched
      have filled := (Prod.mk.inj (Except.ok.inj stored)).2
      have pipes : s₃.pipes = s₁.pipes := by
        rw [← filled]
        exact (userGets_quiet _ _ _ _ _ _ fetched).1
      have same : s₃.kernel.fs = s₁.kernel.fs := by
        rw [← filled]
        exact fs
      obtain ⟨result, buffer⟩ := kWrite_holding wrote (holding.of_pipes (congrFun pipes p))
      have asked : (s₃.WritesPipe e.fd p ∧ (s₃.pipes p).readClosed = false) ↔
          (s₁.WritesPipe e.fd p ∧ (s₁.pipes p).readClosed = false) := by
        rw [writesPipe_congr same, pipes]
      by_cases writes : s₁.WritesPipe e.fd p ∧ (s₁.pipes p).readClosed = false
      case pos =>
        rw [if_pos writes]
        rw [if_pos (asked.mpr writes)] at result
        obtain ⟨count, holds⟩ := result
        have long : (t.moved e.size.toNat).length = e.size.toNat := by
          rw [moved, List.length_map, List.length_range]
        refine ⟨q ++ t.moved n, ⟨by rw [long]; exact count, ?_⟩, ?_⟩
        · rw [moved_take (by omega)]
        · have went : t.moved n = (List.range n).map s₃.iobuf := by
            unfold moved
            rw [after.2, buffer]
          rw [went]
          exact holds.of_pipes (congrFun after.1 p)
      case neg =>
        rw [if_neg writes]
        rw [if_neg fun there => writes (asked.mp there)] at result
        exact ⟨q, rfl, result.of_pipes (congrFun after.1 p)⟩
  case isFalse read =>
    rw [if_neg read]
    unfold tryKRead at run
    obtain ⟨P, s₁, found, rest⟩ := run_ok run
    obtain ⟨-, rfl⟩ := procOf_ok found
    obtain ⟨words, s₂, fetched, rest⟩ := run_ok rest
    split at rest
    case isTrue => cases rest
    case isFalse =>
      obtain ⟨rfl, pipes, went⟩ := finishRead_quiet rest
      rw [went]
      obtain ⟨result, -⟩ := kRead_holding fetched holding
      split at result
      case isTrue reads =>
        rw [if_pos reads]
        exact ⟨_, ⟨result.1, rfl⟩, result.2.of_pipes (congrFun pipes p)⟩
      case isFalse other =>
        rw [if_neg other]
        exact ⟨q, rfl, result.of_pipes (congrFun pipes p)⟩

/-! ### Opening and closing -/

/-- Opening a `FILE` leaves the buffers alone. -/
theorem kOpen_holding {name : CString} {mode : Word} {fp : Option FilePtr}
    (run : kOpen drv env name mode s = .ok (fp, t)) (holding : s.Holding p q) : t.Holding p q := by
  obtain ⟨found, s₁, opened, rest⟩ := run_ok run
  have first := holding.of_pipes (congrFun (onFs_quiet _ _ _ opened).1 p)
  cases found with
  | none =>
    obtain ⟨-, rfl⟩ := Prod.mk.inj (Except.ok.inj rest)
    exact first
  | some fd =>
    obtain ⟨f, s₂, got, rest⟩ := run_ok rest
    have second := first.of_pipes (congrFun (onFs_quiet _ _ _ got).1 p)
    cases kind : DevOp.openOutcome bootTables f.flags f.device with
    | calls h =>
      rw [kind] at rest
      obtain ⟨_, s₃, handled, rest⟩ := run_ok rest
      obtain ⟨-, rfl⟩ := Prod.mk.inj (Except.ok.inj rest)
      refine second.of_cb ?_
      cases h with
      | piperOpen =>
        obtain ⟨-, rfl⟩ := Prod.mk.inj (Except.ok.inj handled)
        show (Function.update s₂.pipes (f.device &&& 0xff) _ p).cb = _
        by_cases here : p = f.device &&& 0xff
        · rw [here, Function.update_self]
        · rw [Function.update_of_ne here]
      | _ =>
        obtain ⟨-, rfl⟩ := Prod.mk.inj (Except.ok.inj handled)
        rfl
    | _ =>
      rw [kind] at rest
      obtain ⟨-, rfl⟩ := Prod.mk.inj (Except.ok.inj rest)
      exact second

/-- **What a close does to pipe `p`.** -/
def closeMove (p : Word) (s : Io δ) (fd : FilePtr) : Move Word :=
  let f := s.file fd
  if f.refcnt - 1 = 0 ∧ DevOp.closeOutcome bootTables f.flags f.device = .calls .piperClose ∧
      f.device &&& 0xff = p ∧ (s.pipes p).closes f.mode then .clear
  else .stay

theorem closed_cb (pipe : PipeFile) (mode : Word) :
    (pipe.closed mode).cb = if pipe.closes mode then pipe.cb.clear else pipe.cb := by
  obtain ⟨used, readClosed, writeClosed, cb, openedAs⟩ := pipe
  unfold PipeFile.closed PipeFile.closes
  by_cases reader : mode = 0
  · subst reader
    cases writeClosed <;> simp
  · by_cases writer : mode = oWronly
    · subst writer
      cases readClosed <;> simp
    · rw [if_neg reader, if_neg writer, beq_false_of_ne reader, beq_false_of_ne writer]
      cases writeClosed <;> cases readClosed <;> rfl

/-- **A close is a move of the channel.** -/
theorem kClose_moves (run : kClose fd s = .ok ((), t)) (holding : s.Holding p q) :
    ∃ q', (closeMove p s fd).Step pipeMaxLength q q' ∧ t.Holding p q' := by
  obtain ⟨f, s₁, got, rest⟩ := run_ok run
  obtain ⟨rfl, rfl⟩ : f = s.file fd ∧ s₁ = s := by
    obtain ⟨fs, found, rfl⟩ := onFs_ok got
    obtain ⟨rfl, rfl⟩ := Prod.mk.inj (Except.ok.inj found)
    exact ⟨rfl, rfl⟩
  obtain ⟨_, s₂, closed, rest⟩ := run_ok rest
  have pipes := (onFs_quiet _ _ _ closed).1
  have first := holding.of_pipes (congrFun pipes p)
  unfold closeMove
  dsimp only
  split at rest
  case isTrue last =>
    by_cases calls : DevOp.closeOutcome bootTables (s₁.file fd).flags (s₁.file fd).device = .calls .piperClose
    case pos =>
      rw [calls] at rest
      have same : t.pipes = Function.update s₁.pipes ((s₁.file fd).device &&& 0xff)
          ((s₁.pipes ((s₁.file fd).device &&& 0xff)).closed (s₁.file fd).mode) := by
        rw [← pipes]
        obtain ⟨-, rfl⟩ := Prod.mk.inj (Except.ok.inj rest)
        rfl
      by_cases here : (s₁.file fd).device &&& 0xff = p
      · rw [here] at same
        have buffer : (t.pipes p).cb = if (s₁.pipes p).closes (s₁.file fd).mode then (s₁.pipes p).cb.clear
            else (s₁.pipes p).cb := by
          rw [same, Function.update_self, closed_cb]
        by_cases both : (s₁.pipes p).closes (s₁.file fd).mode
        · rw [if_pos ⟨last, calls, here, both⟩]
          rw [if_pos both] at buffer
          exact ⟨[], rfl, ⟨by rw [buffer]; exact holding.words.clear, by rw [buffer]; exact holding.capacity⟩⟩
        · rw [if_neg fun all => both all.2.2.2]
          rw [if_neg both] at buffer
          exact ⟨q, rfl, holding.of_cb buffer⟩
      · rw [if_neg fun all => here all.2.2.1]
        refine ⟨q, rfl, holding.of_pipes ?_⟩
        rw [same, Function.update_of_ne (Ne.symm here)]
    case neg =>
      rw [if_neg fun all => calls all.2.1]
      have still : t = s₂ := by
        cases kind : DevOp.closeOutcome bootTables (s₁.file fd).flags (s₁.file fd).device with
        | calls h =>
          rw [kind] at rest
          cases h with
          | piperClose => exact absurd kind calls
          | _ => exact (Prod.mk.inj (Except.ok.inj rest)).2.symm
        | _ =>
          rw [kind] at rest
          exact (Prod.mk.inj (Except.ok.inj rest)).2.symm
      exact ⟨q, rfl, still ▸ first⟩
  case isFalse more =>
    rw [if_neg fun all => more all.1]
    obtain ⟨-, rfl⟩ := Prod.mk.inj (Except.ok.inj rest)
    exact ⟨q, rfl, first⟩

theorem uartInterrupt_quiet (minor : Word) (arrived : List Word) :
    Along (uartInterrupt minor arrived : IoM δ Unit) Quiet := by
  refine Along.of_bind Quiet.trans (Along.of_modify fun _ => ⟨rfl, rfl⟩) fun _ => ?_
  split
  · exact Along.of_bind Quiet.trans (Along.of_get Quiet.refl) fun _ => notifyOpened_quiet _
  · exact Along.of_pure Quiet.refl

end Transfers

/-! ### Runs -/

/-- A step of the kernel, as the pipes see it. -/
inductive PipeEvent (δ : Type)
  /-- A request was served: `n` words went through `iobuf`. -/
  | transfer (before : Io δ) (e : WaitqEntry) (n : Nat) (after : Io δ)
  | close (before : Io δ) (fd : FilePtr)
  | other

/-- What the step does to pipe `p`. -/
def PipeEvent.move (p : Word) : PipeEvent δ → Move Word
  | transfer s e n t => moveOf p s e n t
  | close s fd => closeMove p s fd
  | other => .stay

/-- The steps of the kernel, by any process. -/
inductive PipeStep (drv : BlkDriver δ) (behind : BlockPtr → Nat → Word) (env : FsEnv) (fuel : Nat) :
    Io δ → PipeEvent δ → Io δ → Prop
  | sysCall {s s₁ t : Io δ} {isWrite : Bool} {scall : Word} {q : WaitqEntry} {n : Nat} {uses uses' : List Use}
      (asked : Abort.exec (readRequest isWrite scall) (s, []) = (.ok q, (s₁, uses)))
      (run : Abort.exec (sysTransfer drv behind env fuel isWrite scall) (s, []) = (.ok n, (t, uses'))) :
      PipeStep drv behind env fuel s (.transfer s₁ q n t) t
  | retry {s t : Io δ} {e : WaitqEntry} {n : Nat} (run : processWaitQEntry drv behind env fuel e s = .ok (n, t)) :
      PipeStep drv behind env fuel s (.transfer s e n t) t
  | open {s t : Io δ} {name : CString} {mode : Word} {fp : Option FilePtr}
      (run : kOpen drv env name mode s = .ok (fp, t)) : PipeStep drv behind env fuel s .other t
  | close {s t : Io δ} {fd : FilePtr} (run : kClose fd s = .ok ((), t)) :
      PipeStep drv behind env fuel s (.close s fd) t
  | uart {s t : Io δ} {minor : Word} {arrived : List Word} (run : uartInterrupt minor arrived s = .ok ((), t)) :
      PipeStep drv behind env fuel s .other t
  /-- `pipes` is used in `piper.c` only: all else that runs leaves it alone. -/
  | other {s t : Io δ} (same : t.pipes = s.pipes) : PipeStep drv behind env fuel s .other t

section Runs

variable {drv : BlkDriver δ} {behind : BlockPtr → Nat → Word} {env : FsEnv} {fuel : Nat} {s t : Io δ} {p : Word}
  {q : List Word} {events : List (PipeEvent δ)}

/-- **A step of the kernel is a move of the channel.** -/
theorem PipeStep.describes {event : PipeEvent δ} (step : PipeStep drv behind env fuel s event t)
    (holding : s.Holding p q) : ∃ q', (event.move p).Step pipeMaxLength q q' ∧ t.Holding p q' := by
  cases step with
  | @sysCall s₁ _ isWrite scall e n uses uses' asked run =>
    have begun : s₁.pipes = s.pipes := by
      obtain ⟨words, got, -⟩ := readRequest_ok asked
      exact (userGets_quiet _ _ _ _ _ _ got).1
    have served : tryTransfer drv behind env fuel e s₁ = .ok (n, t) := by
      unfold sysTransfer at run
      rw [Abort.exec_bind_ok asked] at run
      exact (exec_onIo_returns run).1
    exact tryTransfer_moves served (holding.of_pipes (congrFun begun p))
  | @retry _ e n run =>
    obtain ⟨e₁, s₁, woken, served⟩ := run_ok run
    unfold wakeRequest at woken
    split at woken
    case h_1 => cases woken
    case h_2 P found =>
      obtain ⟨rfl, rfl⟩ := Prod.mk.inj (Except.ok.inj woken)
      -- the process of the request is ready again; its files and the pipes are the same
      have begun : (s.withKernel (s.kernel.setState P .run)).Holding p q := holding.of_pipes rfl
      have moves := tryTransfer_moves served begun
      exact moves
  | «open» run => exact ⟨q, rfl, kOpen_holding run holding⟩
  | close run => exact kClose_moves run holding
  | uart run => exact ⟨q, rfl, holding.of_pipes (congrFun (uartInterrupt_quiet _ _ _ _ _ run).1 p)⟩
  | other same => exact ⟨q, rfl, holding.of_pipes (congrFun same p)⟩

/-- **A pipe delivers what it has accepted**, over every run of the kernel: each step moves the channel of the pipe,
and while both ends have not been closed, what has been delivered, and then what the pipe holds, is what it held at
first, and then what it has accepted. -/
theorem pipe_delivers (run : Run (PipeStep drv behind env fuel) s events t) (holding : s.Holding p q) :
    ∃ q', Run (Move.Step pipeMaxLength) q (events.map (PipeEvent.move p)) q' ∧ t.Holding p q' ∧
      ((∀ event ∈ events, event.move p ≠ .clear) →
        q ++ events.flatMap (fun event => (event.move p).accepted) =
          events.flatMap (fun event => (event.move p).delivered) ++ q') := by
  obtain ⟨q', moves, holds⟩ := run.describes (R := fun s q => s.Holding p q)
    (fun _ _ _ _ holding step => step.describes holding) holding
  refine ⟨q', moves, holds, fun whole => ?_⟩
  have kept := Move.conserved moves fun move mem => by
    obtain ⟨event, there, rfl⟩ := List.mem_map.mp mem
    exact whole event there
  rwa [List.flatMap_map, List.flatMap_map] at kept

end Runs

/-! ### A word through a pipe -/

/-- A process with both ends of pipe 0 as its descriptors, and at address 0 the structure of a call for one word, from
where it is. -/
def pipeIo : Io (BlockKey → BlockData) :=
  { (callIo 3 1).withMm
      { (callIo 3 1).kernel.mm with ram := fun _ offset => if offset = 0 then 7 else if offset = 2 then 1 else 0 } with
    pipes := fun _ => ⟨true, false, false, .create 256, some 0⟩ }

theorem pipeIo_holding : pipeIo.Holding 0 [] :=
  ⟨CircularBuffer.createStatic_holds (by decide) _, rfl⟩

deriving instance DecidableEq for WaitqEntry

/-- A call that has returned. -/
theorem exec_returned {α σ : Type} {r : Except IoFault α × σ} {x : α} (ran : r.1.toOption = some x) :
    r = (.ok x, r.2) := by
  obtain ⟨value, t⟩ := r
  cases value with
  | error => cases ran
  | ok y => rw [Option.some.inj ran]

/-- The request of a call is read. -/
def afterRequest (isWrite : Bool) (s : Io (BlockKey → BlockData)) : Io (BlockKey → BlockData) :=
  (Abort.exec (readRequest isWrite 0) (s, [])).2.1

/-- After a write, or a read, of that word. -/
def afterTransfer (isWrite : Bool) (s : Io (BlockKey → BlockData)) : Io (BlockKey → BlockData) :=
  (Abort.exec (sysTransfer ramDriver (fun _ _ => 0) ramEnv 0 isWrite 0) (s, [])).2.1

section Seven

variable {n : Nat} {e : WaitqEntry}

theorem transferred (isWrite : Bool) (s : Io (BlockKey → BlockData))
    (ran : (Abort.exec (sysTransfer ramDriver (fun _ _ => 0) ramEnv 0 isWrite 0) (s, [])).1.toOption = some n) :
    ∃ uses, Abort.exec (sysTransfer ramDriver (fun _ _ => 0) ramEnv 0 isWrite 0) (s, []) =
      (.ok n, (afterTransfer isWrite s, uses)) :=
  ⟨_, exec_returned ran⟩

theorem requested (isWrite : Bool) (s : Io (BlockKey → BlockData))
    (ran : (Abort.exec (readRequest isWrite 0) (s, [])).1.toOption = some e) :
    ∃ uses, Abort.exec (readRequest isWrite 0) (s, []) = (.ok e, (afterRequest isWrite s, uses)) :=
  ⟨_, exec_returned ran⟩

end Seven

/-- The word that was written is read. -/
theorem pipe_delivers_seven : ∃ events t q', events.length = 2 ∧
    Run (PipeStep ramDriver (fun _ _ => 0) ramEnv 0) pipeIo events t ∧
      Run (Move.Step pipeMaxLength) [] (events.map (PipeEvent.move 0)) q' ∧ t.Holding 0 q' ∧
      events.flatMap (fun event => (event.move 0).delivered) = [7] := by
  obtain ⟨_, asked⟩ := requested true pipeIo (e := ⟨0, 1, 0, 0, 0, 1, true⟩) (by decide +kernel)
  obtain ⟨_, wrote⟩ := transferred true pipeIo (n := 1) (by decide +kernel)
  obtain ⟨_, again⟩ := requested false (afterTransfer true pipeIo) (e := ⟨0, 1, 0, 0, 0, 1, false⟩)
    (by decide +kernel)
  obtain ⟨_, read⟩ := transferred false (afterTransfer true pipeIo) (n := 1) (by decide +kernel)
  have first : PipeStep ramDriver (fun _ _ => 0) ramEnv 0 pipeIo _ (afterTransfer true pipeIo) := .sysCall asked wrote
  have second : PipeStep ramDriver (fun _ _ => 0) ramEnv 0 (afterTransfer true pipeIo) _
    (afterTransfer false (afterTransfer true pipeIo)) := .sysCall again read
  have run := Run.cons first (.single second)
  obtain ⟨q', moves, holds, -⟩ := pipe_delivers run pipeIo_holding
  exact ⟨_, _, q', rfl, run, moves, holds, by decide +kernel⟩

end Io

end RlCpu.Kernel
