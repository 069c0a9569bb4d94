/-
**The search of `malloc`.**

`malloc` looks at the first free piece of the list and at no other: if that is too small, it gives up.

`Listed h m`: the marker `m` is in the list. `FirstFree h f`: it is the first free one. `Complete h sz`: `malloc` does
not give up while a free piece is large enough.

* `complete_iff`: so it is exactly where the first free piece fits, or no piece does.
* `malloc_hidden`: a small piece hides a large one.
-/

import RlCpu.Lib.Runs
import RlCpu.Libc.Malloc

namespace RlCpu.Libc

open RlCpu.Lib

/-- Where a search from `iter` on stops: at a free piece, or at the end of the list. -/
def Heap.stop (h : Heap) : Nat → Word → Option Word
  | 0, _ => none
  | fuel + 1, iter =>
      if iter = 0 ∨ (h.mem.marker iter).isFree ≠ 0 then some iter else h.stop fuel (h.mem.marker iter).next

/-- The words that a size test of `malloc` adds up. -/
theorem toNat_add_long (sz : Word) {n : BitVec 32} (small : n.toNat ≤ 8) :
    (sz.setWidth 32 + n).toNat = sz.toNat + n.toNat := by
  have bound := sz.isLt
  rw [BitVec.toNat_add, BitVec.toNat_setWidth]
  omega

theorem large_iff {sz size : Word} : Large sz size ↔ sz.toNat + 8 < size.toNat := by
  have bound := size.isLt
  unfold Large
  rw [BitVec.lt_def, toNat_add_long sz (by decide), BitVec.toNat_setWidth, Nat.mod_eq_of_lt (by omega)]
  exact Iff.rfl

theorem enough_iff {sz size : Word} : Enough sz size ↔ sz.toNat + 4 ≤ size.toNat := by
  have bound := size.isLt
  unfold Enough
  rw [BitVec.le_def, toNat_add_long sz (by decide), BitVec.toNat_setWidth, Nat.mod_eq_of_lt (by omega)]
  exact Iff.rfl

/-- The piece at `f` is large enough for `sz` words and a marker. -/
def Heap.Fits (h : Heap) (sz f : Word) : Prop := sz.toNat + 4 ≤ (h.mem.marker f).size.toNat

instance (h : Heap) (sz f : Word) : Decidable (h.Fits sz f) := by unfold Heap.Fits; infer_instance

/-- What `malloc` does where the search stops. -/
def Heap.take (h : Heap) (sz f : Word) : Word × Heap :=
  if f = 0 then (0, h)
  else if Large sz (h.mem.marker f).size then (f + markerSize, { h with mem := h.mem.split f sz })
  else if Enough sz (h.mem.marker f).size then (f + markerSize, h)
  else (0, h)

/-- The markers in the list. -/
inductive Heap.Listed (h : Heap) : Word → Prop
  | head : h.head ≠ 0 → h.Listed h.head
  | next {m : Word} : h.Listed m → (h.mem.marker m).next ≠ 0 → h.Listed (h.mem.marker m).next

/-- The first free piece. -/
def Heap.FirstFree (h : Heap) (f : Word) : Prop := ∃ fuel, h.stop fuel h.head = some f ∧ f ≠ 0

/-- **`malloc` gives up only if no free piece has `sz` words and a marker.** -/
def Heap.Complete (h : Heap) (sz : Word) : Prop :=
  ∀ fuel h', malloc fuel sz h = some (0, h') →
    ∀ m, h.Listed m → (h.mem.marker m).isFree ≠ 0 → (h.mem.marker m).size.toNat < sz.toNat + 4

section Search

variable {h h' : Heap} {sz iter f m ptr : Word} {fuel fuel' : Nat}

theorem mallocLoop_eq (sz : Word) (h : Heap) (fuel : Nat) (iter : Word) :
    mallocLoop sz h fuel iter = (h.stop fuel iter).map (h.take sz) := by
  induction fuel generalizing iter with
  | zero => rfl
  | succ fuel ih =>
    unfold mallocLoop Heap.stop Heap.take
    by_cases zero : iter = 0
    · simp only [zero, true_or, if_true, Option.map_some]
    · by_cases free : (h.mem.marker iter).isFree = 0
      · simp only [zero, free, ne_eq, not_true_eq_false, or_self, if_false]
        exact ih _
      · simp only [zero, free, ne_eq, not_false_eq_true, or_true, if_true, if_false, Option.map_some]
        split
        · rfl
        · split <;> rfl

/-- More fuel changes nothing. -/
theorem Heap.stop_mono (stops : h.stop fuel iter = some f) (more : fuel ≤ fuel') : h.stop fuel' iter = some f := by
  induction fuel generalizing iter fuel' with
  | zero => cases stops
  | succ fuel ih =>
    obtain ⟨fuel', rfl⟩ := Nat.exists_eq_add_of_lt (Nat.lt_of_lt_of_le fuel.lt_succ_self more)
    unfold Heap.stop at stops ⊢
    split at stops
    case isTrue here => rwa [if_pos here]
    case isFalse on =>
      rw [if_neg on]
      exact ih stops (Nat.le_add_right _ _)

theorem Heap.stop_unique {g : Word} (stops : h.stop fuel iter = some f) (stops' : h.stop fuel' iter = some g) :
    f = g := by
  have first := Heap.stop_mono stops (Nat.le_max_left fuel fuel')
  have second := Heap.stop_mono stops' (Nat.le_max_right fuel fuel')
  exact Option.some.inj (first.symm.trans second)

theorem Heap.Listed.ne_zero (listed : h.Listed m) : m ≠ 0 := by
  cases listed with
  | head ne => exact ne
  | next _ ne => exact ne

/-- The search from a listed marker ends where the search from the head does, unless that ends before. -/
theorem Heap.Listed.reached (listed : h.Listed m) :
    (∃ f, h.FirstFree f) ∨ ∀ fuel f, h.stop fuel m = some f → ∃ fuel', h.stop fuel' h.head = some f := by
  induction listed with
  | head _ => exact Or.inr fun fuel _ stops => ⟨fuel, stops⟩
  | @next m listed _ ih =>
    obtain found | reached := ih
    · exact Or.inl found
    · by_cases free : (h.mem.marker m).isFree ≠ 0
      · obtain ⟨fuel, stops⟩ := reached 1 m (if_pos (Or.inr free))
        exact Or.inl ⟨m, fuel, stops, listed.ne_zero⟩
      · have on : ¬ (m = 0 ∨ (h.mem.marker m).isFree ≠ 0) := not_or.mpr ⟨listed.ne_zero, free⟩
        exact Or.inr fun fuel f stops => reached (fuel + 1) f ((if_neg on).trans stops)

/-- If any piece is free, there is a first one. -/
theorem Heap.Listed.firstFree (listed : h.Listed m) (free : (h.mem.marker m).isFree ≠ 0) : ∃ f, h.FirstFree f := by
  obtain found | reached := listed.reached
  · exact found
  · obtain ⟨fuel, stops⟩ := reached 1 m (if_pos (Or.inr free))
    exact ⟨m, fuel, stops, listed.ne_zero⟩

theorem Heap.FirstFree.ne_zero (first : h.FirstFree f) : f ≠ 0 := first.choose_spec.2

/-- What `malloc` returns where there is a free piece. -/
theorem Heap.FirstFree.returns (first : h.FirstFree f) (sz : Word) : ∃ fuel, malloc fuel sz h = some (h.take sz f) := by
  obtain ⟨fuel, stops, -⟩ := first
  exact ⟨fuel, (mallocLoop_eq sz h fuel h.head).trans (by rw [stops]; rfl)⟩

theorem Heap.FirstFree.of_malloc (first : h.FirstFree f) (returns : malloc fuel sz h = some (ptr, h')) :
    (ptr, h') = h.take sz f := by
  obtain ⟨fuel', stops, -⟩ := first
  obtain ⟨g, stops', taken⟩ := Option.map_eq_some_iff.mp ((mallocLoop_eq sz h fuel h.head).symm.trans returns)
  rw [← taken, Heap.stop_unique stops stops']

/-- `malloc` gives up at the first free piece if it does not fit. -/
theorem Heap.take_fst (ne : f ≠ 0) : (h.take sz f).1 = if h.Fits sz f then f + markerSize else 0 := by
  have fits : Enough sz (h.mem.marker f).size ↔ h.Fits sz f := enough_iff
  unfold Heap.take
  rw [if_neg ne]
  by_cases large : Large sz (h.mem.marker f).size
  · have words := large_iff.mp large
    rw [if_pos large, if_pos (show h.Fits sz f by unfold Heap.Fits; omega)]
  · rw [if_neg large]
    by_cases enough : Enough sz (h.mem.marker f).size
    · rw [if_pos enough, if_pos (fits.mp enough)]
    · rw [if_neg enough, if_neg fun clash => enough (fits.mpr clash)]

/-- **`malloc` is complete exactly where no free piece is large enough, or the first one fits** (and its payload is not
at address 0). This holds of every heap, whatever is in the memory. -/
theorem complete_iff (h : Heap) (sz : Word) : h.Complete sz ↔
    (∀ m, h.Listed m → (h.mem.marker m).isFree ≠ 0 → (h.mem.marker m).size.toNat < sz.toNat + 4) ∨
    ∃ f, h.FirstFree f ∧ h.Fits sz f ∧ f + markerSize ≠ 0 := by
  constructor
  · intro complete
    by_contra bad
    obtain ⟨large, unfit⟩ := not_or.mp bad
    obtain ⟨m, listed, free, -⟩ : ∃ m, h.Listed m ∧ (h.mem.marker m).isFree ≠ 0 ∧
        ¬ (h.mem.marker m).size.toNat < sz.toNat + 4 := by
      by_contra none
      exact large fun m listed free => by_contra fun big => none ⟨m, listed, free, big⟩
    obtain ⟨f, first⟩ := listed.firstFree free
    obtain ⟨fuel, returns⟩ := first.returns sz
    have null : (h.take sz f).1 = 0 := by
      rw [Heap.take_fst first.ne_zero]
      split
      case isTrue fits => exact by_contra fun some => unfit ⟨f, first, fits, some⟩
      case isFalse => rfl
    exact large (complete fuel (h.take sz f).2 (by rw [returns, ← null]))
  · rintro (small | ⟨f, first, fits, some⟩) fuel h' returns
    · exact small
    · have null : (0 : Word) = (h.take sz f).1 := congrArg Prod.fst (first.of_malloc returns)
      rw [Heap.take_fst first.ne_zero, if_pos fits] at null
      exact absurd null.symm some

end Search

/-! ### A small piece before a large one -/

/-- After `malloc_init(0x1000, 0x2000)`, two `malloc(1)` and `free` of the first. -/
def hiddenHeap : Option Heap := do
  let (a, h) ← malloc 4 1 (mallocInit (fun _ => 0) 0x1000 0x2000)
  let (_, h) ← malloc 4 1 h
  pure (free a h)

/-- **`malloc(10)` then gives up**, with more than 4000 free words at the end of the list. -/
theorem malloc_hidden : ∃ h, hiddenHeap = some h ∧ ¬ h.Complete 10 := by
  refine ⟨_, rfl, fun complete => ?_⟩
  have small := complete 1 _ rfl 0x100a (.next (.next (.head ?_) ?_) ?_) ?_
  · revert small
    decide
  all_goals decide

end RlCpu.Libc
