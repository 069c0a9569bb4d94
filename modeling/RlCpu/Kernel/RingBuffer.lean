/-
**The circular buffer is a bounded queue (`cb.c`).**

`Holds cb l`: the words of the buffer, from the read index on and round its end, are the list `l`. A bounded queue
that is full drops its oldest word for a new one.

* `Holds.push`, `Holds.pop`, `Holds.clear`: what one call does to the list.
* `cb_refines`: every sequence of calls returns what the queue returns, and leaves the list that the queue is.
-/

import RlCpu.Kernel.Drivers

namespace RlCpu.Kernel

/-! ### The bounded queue -/

/-- A call of `cb_push`, `cb_pop` or `cb_clear`. -/
inductive CbCall
  | push (val : Word)
  | pop
  | clear
  deriving DecidableEq, Repr

/-- A queue of at most `capacity` words: what a call returns, and the words after it. -/
def queueCall (capacity : Nat) (l : List Word) : CbCall → Option Word × List Word
  | .push val => (none, if l.length < capacity then l ++ [val] else l.tail ++ [val])
  | .pop => (some (l.headD 0), l.tail)
  | .clear => (none, [])

/-- What the calls return one after the other, and the state at the end. -/
def callRun {σ : Type} (step : σ → CbCall → Option Word × σ) : σ → List CbCall → List (Option Word) × σ
  | s, [] => ([], s)
  | s, c :: cs => ((step s c).1 :: (callRun step (step s c).2 cs).1, (callRun step (step s c).2 cs).2)

namespace CircularBuffer

/-- `cb_create_static` -/
def createStatic (capacity : Word) (arena : Word → Word) : CircularBuffer := ⟨0, 0, capacity, 0, arena⟩

/-- A call. -/
def call (cb : CircularBuffer) : CbCall → Option Word × CircularBuffer
  | .push val => (none, cb.push val)
  | .pop => (some cb.pop.1, cb.pop.2)
  | .clear => (none, cb.clear)

/-- The index of the word `i` behind the oldest. -/
def slot (cb : CircularBuffer) (i : Nat) : Word := BitVec.ofNat 16 ((cb.r.toNat + i) % cb.capacity.toNat)

/-- **The buffer holds the words `l`**, the oldest first. -/
structure Holds (cb : CircularBuffer) (l : List Word) : Prop where
  size : cb.size.toNat = l.length
  fits : l.length ≤ cb.capacity.toNat
  read : cb.r.toNat < cb.capacity.toNat
  write : cb.w = cb.slot l.length
  words : ∀ i (low : i < l.length), cb.data (cb.slot i) = l[i]

variable {cb : CircularBuffer} {l : List Word} {i j : Nat}

/-! ### Indexes -/

/-- An index that goes round at most once. -/
theorem wrap {r n capacity : Nat} (read : r < capacity) (low : n ≤ capacity) :
    (r + n) % capacity = if r + n < capacity then r + n else r + n - capacity := by
  split
  case isTrue inside => exact Nat.mod_eq_of_lt inside
  case isFalse outside =>
    rw [Nat.mod_eq_sub_mod (Nat.not_lt.mp outside), Nat.mod_eq_of_lt (by omega)]

theorem slot_toNat (read : cb.r.toNat < cb.capacity.toNat) (i : Nat) :
    (cb.slot i).toNat = (cb.r.toNat + i) % cb.capacity.toNat := by
  unfold slot
  rw [BitVec.toNat_ofNat]
  have below := Nat.mod_lt (cb.r.toNat + i) (Nat.zero_lt_of_lt read)
  exact Nat.mod_eq_of_lt (lt_trans below cb.capacity.isLt)

theorem slot_lt (read : cb.r.toNat < cb.capacity.toNat) (i : Nat) : (cb.slot i).toNat < cb.capacity.toNat := by
  rw [slot_toNat read]
  exact Nat.mod_lt _ (Nat.zero_lt_of_lt read)

/-- Different words are in different places. -/
theorem slot_ne (read : cb.r.toNat < cb.capacity.toNat) (low : i < j) (high : j < cb.capacity.toNat) :
    cb.slot i ≠ cb.slot j := by
  intro same
  have same := congrArg BitVec.toNat same
  rw [slot_toNat read, slot_toNat read, wrap read (by omega), wrap read (by omega)] at same
  split at same <;> split at same <;> omega

theorem slot_zero (read : cb.r.toNat < cb.capacity.toNat) : cb.slot 0 = cb.r := by
  apply BitVec.eq_of_toNat_eq
  rw [slot_toNat read, Nat.add_zero, Nat.mod_eq_of_lt read]

/-- Behind the last place comes the first. -/
theorem slot_capacity (read : cb.r.toNat < cb.capacity.toNat) : cb.slot cb.capacity.toNat = cb.r := by
  apply BitVec.eq_of_toNat_eq
  rw [slot_toNat read, Nat.add_mod_right, Nat.mod_eq_of_lt read]

/-- An index that is moved on. -/
theorem slot_succ (read : cb.r.toNat < cb.capacity.toNat) (i : Nat) :
    (if cb.capacity ≤ cb.slot i + 1 then 0 else cb.slot i + 1) = cb.slot (i + 1) := by
  have low := slot_lt read i
  have next : (cb.slot (i + 1)).toNat = ((cb.slot i).toNat + 1) % cb.capacity.toNat := by
    rw [slot_toNat read, slot_toNat read, Nat.mod_add_mod, Nat.add_assoc]
  apply BitVec.eq_of_toNat_eq
  rw [next]
  split
  case isTrue last =>
    have equal : (cb.slot i).toNat + 1 = cb.capacity.toNat := by bv_omega
    rw [equal, Nat.mod_self]
    rfl
  case isFalse inner =>
    rw [Nat.mod_eq_of_lt (by bv_omega)]
    bv_omega

/-! ### Calls -/

theorem createStatic_holds {capacity : Word} (positive : capacity ≠ 0) (arena : Word → Word) :
    (createStatic capacity arena).Holds [] := by
  have read : (createStatic capacity arena).r.toNat < (createStatic capacity arena).capacity.toNat := by
    show 0 < capacity.toNat
    bv_omega
  refine ⟨rfl, Nat.zero_le _, read, (slot_zero read).symm, fun i low => absurd low (Nat.not_lt_zero i)⟩

theorem Holds.clear (holds : cb.Holds l) : cb.clear.Holds [] := by
  have read : cb.clear.r.toNat < cb.clear.capacity.toNat := Nat.zero_lt_of_lt holds.read
  exact ⟨rfl, Nat.zero_le _, read, (slot_zero read).symm, fun i low => absurd low (Nat.not_lt_zero i)⟩

/-- **`cb_pop`** returns the oldest word, and `0` where there is none. -/
theorem Holds.pop (holds : cb.Holds l) : cb.pop.1 = l.headD 0 ∧ cb.pop.2.Holds l.tail := by
  have size := holds.size
  unfold CircularBuffer.pop
  cases l with
  | nil =>
    rw [if_neg (not_not.mpr (BitVec.eq_of_toNat_eq size))]
    exact ⟨rfl, holds⟩
  | cons x l =>
    rw [List.length_cons] at size
    have some : cb.size ≠ 0 := by
      intro zero
      rw [zero] at size
      exact Nat.succ_ne_zero _ size.symm
    rw [if_pos some]
    have first := holds.words 0 (Nat.succ_pos _)
    rw [slot_zero holds.read] at first
    refine ⟨first, ?_⟩
    have moved := slot_succ holds.read 0
    rw [slot_zero holds.read, Nat.zero_add] at moved
    dsimp only
    rw [moved]
    have fits := holds.fits
    rw [List.length_cons] at fits
    have shift : ∀ i, ({ cb with r := cb.slot 1, size := cb.size - 1 } : CircularBuffer).slot i = cb.slot (i + 1) := by
      intro i
      unfold slot
      dsimp only
      rw [← slot, slot_toNat holds.read, Nat.mod_add_mod, Nat.add_assoc, Nat.add_comm 1 i]
    refine ⟨?_, Nat.le_of_succ_le fits, slot_lt holds.read 1, ?_, fun i low => ?_⟩
    · show (cb.size - 1).toNat = l.length
      bv_omega
    · rw [shift]
      exact holds.write
    · rw [shift]
      exact holds.words (i + 1) (Nat.succ_lt_succ low)

/-- **`cb_push`** adds a word behind the others; where the buffer is full the oldest goes. -/
theorem Holds.push (holds : cb.Holds l) (val : Word) :
    (cb.push val).Holds (if l.length < cb.capacity.toNat then l ++ [val] else l.tail ++ [val]) := by
  have size := holds.size
  have fits := holds.fits
  unfold CircularBuffer.push
  dsimp only
  rw [holds.write, slot_succ holds.read]
  by_cases room : l.length < cb.capacity.toNat
  · rw [if_pos room, if_pos (show cb.size < cb.capacity by bv_omega)]
    refine ⟨?_, ?_, holds.read, ?_, fun i low => ?_⟩
    · show (cb.size + 1).toNat = _
      rw [List.length_append, List.length_singleton]
      have small := cb.capacity.isLt
      bv_omega
    · rw [List.length_append, List.length_singleton]
      exact room
    · rw [List.length_append, List.length_singleton]
      rfl
    · rw [List.length_append, List.length_singleton] at low
      show Function.update cb.data (cb.slot l.length) val (cb.slot i) = _
      rcases Nat.lt_succ_iff_lt_or_eq.mp low with old | rfl
      · rw [Function.update_of_ne (slot_ne holds.read old room), List.getElem_append_left old]
        exact holds.words i old
      · rw [Function.update_self, List.getElem_append_right (Nat.le_refl _)]
        simp
  · have full : l.length = cb.capacity.toNat := Nat.le_antisymm fits (Nat.not_lt.mp room)
    obtain ⟨x, tail, rfl⟩ : ∃ x tail, l = x :: tail := by
      refine List.exists_cons_of_ne_nil ?_
      rintro rfl
      exact absurd full.symm (Nat.ne_of_gt (Nat.zero_lt_of_lt holds.read))
    rw [List.length_cons] at full
    rw [if_neg room, if_neg (show ¬ cb.size < cb.capacity by rw [List.length_cons] at size; bv_omega), List.tail_cons]
    have back : cb.slot (cb.capacity.toNat + 1) = cb.slot 1 := by
      unfold slot
      rw [← Nat.add_assoc, Nat.add_right_comm, Nat.add_mod_right]
    rw [List.length_cons, full, slot_capacity holds.read, back]
    have shift : ∀ i, ({ cb with data := Function.update cb.data cb.r val, w := cb.slot 1, r := cb.slot 1 } :
        CircularBuffer).slot i = cb.slot (i + 1) := by
      intro i
      unfold slot
      dsimp only
      rw [← slot, slot_toNat holds.read, Nat.mod_add_mod, Nat.add_assoc, Nat.add_comm 1 i]
    have length : (tail ++ [val]).length = cb.capacity.toNat := by
      rw [List.length_append, List.length_singleton, full]
    refine ⟨?_, Nat.le_of_eq length, slot_lt holds.read 1, ?_, fun i low => ?_⟩
    · rw [length]
      exact size.trans full
    · rw [shift, length, back]
    · rw [shift]
      show Function.update cb.data cb.r val (cb.slot (i + 1)) = _
      rw [length] at low
      by_cases last : i = tail.length
      · subst last
        rw [full, slot_capacity holds.read, Function.update_self, List.getElem_append_right (Nat.le_refl _)]
        simp
      · have old : i < tail.length := by omega
        have apart := slot_ne holds.read (Nat.succ_pos i) (show i + 1 < cb.capacity.toNat by omega)
        rw [slot_zero holds.read] at apart
        rw [Function.update_of_ne apart.symm, List.getElem_append_left old]
        exact holds.words (i + 1) (Nat.succ_lt_succ old)

theorem call_capacity (cb : CircularBuffer) (c : CbCall) : (cb.call c).2.capacity = cb.capacity := by
  cases c with
  | push val =>
    show (cb.push val).capacity = _
    unfold CircularBuffer.push
    dsimp only
    split <;> rfl
  | pop =>
    show cb.pop.2.capacity = _
    unfold CircularBuffer.pop
    split <;> rfl
  | clear => rfl

/-- **A call of the buffer is a call of the queue.** -/
theorem Holds.call (holds : cb.Holds l) (c : CbCall) :
    (cb.call c).1 = (queueCall cb.capacity.toNat l c).1 ∧
      (cb.call c).2.Holds (queueCall cb.capacity.toNat l c).2 := by
  cases c with
  | push val => exact ⟨rfl, holds.push val⟩
  | pop => exact ⟨congrArg some holds.pop.1, holds.pop.2⟩
  | clear => exact ⟨rfl, holds.clear⟩

/-- By induction on the calls. -/
theorem Holds.run : ∀ (calls : List CbCall) {cb : CircularBuffer} {l : List Word}, cb.Holds l →
    (callRun CircularBuffer.call cb calls).1 = (callRun (queueCall cb.capacity.toNat) l calls).1 ∧
      (callRun CircularBuffer.call cb calls).2.Holds (callRun (queueCall cb.capacity.toNat) l calls).2 := by
  intro calls
  induction calls with
  | nil => exact fun holds => ⟨rfl, holds⟩
  | cons c calls ih =>
    intro cb l holds
    obtain ⟨same, next⟩ := holds.call c
    have rest := ih next
    rw [call_capacity] at rest
    exact ⟨congrArg₂ List.cons same rest.1, rest.2⟩

/-- The words of a queue are at most its capacity. -/
theorem Holds.write_lt (holds : cb.Holds l) : cb.w.toNat < cb.capacity.toNat := by
  rw [holds.write]
  exact slot_lt holds.read _

/-- **The circular buffer refines the bounded queue**: after every sequence of calls it has returned what the queue
returns, it holds the words of the queue, and its indexes are below its capacity. -/
theorem cb_refines (capacity : Word) (positive : 1 ≤ capacity.toNat) (arena : Word → Word) (calls : List CbCall) :
    (callRun call (createStatic capacity arena) calls).1 = (callRun (queueCall capacity.toNat) [] calls).1 ∧
      (callRun call (createStatic capacity arena) calls).2.Holds (callRun (queueCall capacity.toNat) [] calls).2 ∧
      (callRun call (createStatic capacity arena) calls).2.r.toNat < capacity.toNat ∧
      (callRun call (createStatic capacity arena) calls).2.w.toNat < capacity.toNat := by
  have made := createStatic_holds (show capacity ≠ 0 by bv_omega) arena
  obtain ⟨same, holds⟩ := Holds.run calls made
  have kept : (callRun call (createStatic capacity arena) calls).2.capacity = capacity := by
    have each : ∀ (calls : List CbCall) (cb : CircularBuffer), (callRun call cb calls).2.capacity = cb.capacity := by
      intro calls
      induction calls with
      | nil => exact fun _ => rfl
      | cons c calls ih => exact fun cb => (ih _).trans (call_capacity cb c)
    exact each calls _
  refine ⟨same, holds, ?_, ?_⟩
  · have low := holds.read
    rwa [kept] at low
  · have low := holds.write_lt
    rwa [kept] at low

/-- A buffer of two words in which a third drops the first. -/
theorem cb_refines_full :
    (callRun call (createStatic 2 fun _ => 7) [.push 1, .push 2, .push 3, .pop, .pop, .pop]).1 =
      [none, none, none, some 2, some 3, some 0] :=
  (cb_refines 2 (by decide) (fun _ => 7) _).1

end CircularBuffer

end RlCpu.Kernel
