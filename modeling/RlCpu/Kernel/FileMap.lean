/-
**What a node refers to, and how it grows.**

A node refers to blocks from two kinds of places: its index words, and the data slots, direct or in an
index block. `ref data d n p` is the block number in place `p` of node `n` on device `d`, 0 if none.

* `FileOk`: the blocks a node refers to are marked, are neither reserved nor the node itself, and no
  block is in two places.
* `Grown a b d n ps`: between the views `a` and `b` node `n` got blocks for the places `ps` that had
  none, all with a clear bit before; nothing else but bits and blocks of `n` changed.
* `Grown.trans`, `Grown.enough`: growth composes, and blocks that were enough stay enough.
* `wp_getOrAllocBlockByOffset`: the function grows the node by the places it passes.
-/

import RlCpu.Kernel.Bitmap
import Mathlib.Data.Set.Card
import Mathlib.Order.Interval.Finset.Nat

namespace RlCpu.Kernel

open RlCpu.Lib

variable {δ : Type} {drv : BlkDriver δ}

/-! ### Places -/

/-- Where a node refers to a block: data slot `k` (for the words from `256 * k` on), or index word
`j`. -/
inductive Place
  | data (k : Nat)
  | index (j : Nat)
  deriving DecidableEq

/-- The data slots a node can have. -/
abbrev dataSlots : Nat := 150 + 103 * 256

/-- The index word that data slot `k` hangs on. -/
@[irreducible] def indexOf (k : Nat) : Nat := (k - directIndexesCnt) / 256

/-- The word of its index block that data slot `k` is. -/
@[irreducible] def slotOf (k : Nat) : Nat := (k - directIndexesCnt) % 256

theorem slotOf_lt (k : Nat) : slotOf k < 256 := by
  unfold slotOf
  exact Nat.mod_lt _ (by decide)

/-- Data slots of one index block differ in their word. -/
theorem slotOf_ne {k l : Nat} (high : ¬ k < directIndexesCnt) (high' : ¬ l < directIndexesCnt)
    (ne : k ≠ l) (same : indexOf k = indexOf l) : slotOf k ≠ slotOf l := by
  unfold indexOf at same
  unfold slotOf
  omega

/-- The block in index word `j`. -/
def indexAt (data : BlockKey → BlockData) (d n : Word) (j : Nat) : Word :=
  (data (d, n)).word (directIndexesCnt + 3 + j)

/-- The block in data slot `k`. -/
def blockAt (data : BlockKey → BlockData) (d n : Word) (k : Nat) : Word :=
  if k < directIndexesCnt then (data (d, n)).word (k + 3)
  else if indexAt data d n (indexOf k) = 0 then 0
  else (data (d, indexAt data d n (indexOf k))).word
    (slotOf k)

/-- The block in a place. -/
def ref (data : BlockKey → BlockData) (d n : Word) : Place → Word
  | .data k => blockAt data d n k
  | .index j => indexAt data d n j

/-- The places `getOrAllocBlockByOffset` passes on its way to data slot `k`. -/
def passed (k : Nat) : Finset Place :=
  if k < directIndexesCnt then {.data k} else {.index (indexOf k), .data k}

/-- The places passed by a write of `[offset, offset + size)`: its own blocks and the next one. -/
def touched (offset size : Nat) : Finset Place :=
  (Finset.Icc (offset / 256) ((offset + size) / 256)).biUnion passed

theorem data_mem_passed (k : Nat) : Place.data k ∈ passed k := by
  unfold passed
  split <;> simp

theorem passed_subset_touched {offset size k : Nat} (first : offset / 256 ≤ k)
    (last : k ≤ (offset + size) / 256) : passed k ⊆ touched offset size :=
  Finset.subset_biUnion_of_mem passed (Finset.mem_Icc.mpr ⟨first, last⟩)

/-- A data slot beyond the direct ones that has a block hangs on an index block. -/
theorem index_ne_zero {f : BlockKey → BlockData} {d n : Word} {k : Nat}
    (high : ¬ k < directIndexesCnt) (mapped : blockAt f d n k ≠ 0) :
    indexAt f d n (indexOf k) ≠ 0 := by
  intro none
  refine mapped ?_
  unfold blockAt
  rw [if_neg high, if_pos none]

/-- The places passed on the way to a block are not empty. -/
theorem passed_filled {f : BlockKey → BlockData} {d n : Word} {k : Nat}
    (mapped : blockAt f d n k ≠ 0) : ∀ p ∈ passed k, ref f d n p ≠ 0 := by
  intro p mem
  unfold passed at mem
  split at mem
  case isTrue =>
    rw [Finset.mem_singleton.mp mem]
    exact mapped
  case isFalse high =>
    rcases Finset.mem_insert.mp mem with same | same
    · rw [same]
      exact index_ne_zero high mapped
    · rw [Finset.mem_singleton.mp same]
      exact mapped

theorem touched_zero (offset : Nat) : touched offset 0 = passed (offset / 256) := by
  unfold touched
  rw [Nat.add_zero, Finset.Icc_self, Finset.singleton_biUnion]

/-! ### Well-formed nodes -/

/-- Blocks 0 to 34 are marked, and no bitmap block is at risk. -/
structure VolumeOk (a : DiskView) (d : Word) : Prop where
  reserved : ∀ b : Word, b.toNat < 35 → isMarked a.data d b = true
  bitmap : BitmapHard a d

/-- Node `n` of device `d` is well formed. -/
structure FileOk (a : DiskView) (d n : Word) : Prop where
  high : 34 ≤ n.toNat
  marked : isMarked a.data d n = true
  refs : ∀ p, ref a.data d n p ≠ 0 → 35 ≤ (ref a.data d n p).toNat ∧
    isMarked a.data d (ref a.data d n p) = true ∧ ref a.data d n p ≠ n
  inj : ∀ p q, ref a.data d n p = ref a.data d n q → ref a.data d n p ≠ 0 → p = q
  /-- No index block is at risk. -/
  index : ∀ j, indexAt a.data d n j ≠ 0 → (d, indexAt a.data d n j) ∉ a.soft

/-- A bitmap block is none of the blocks 34 and up. -/
theorem ne_bitBlock {b : Word} (high : 34 ≤ b.toNat) (c : Word) : b ≠ bitBlock c := by
  rintro rfl
  have small := c.isLt
  rw [bitBlock_toNat] at high
  omega

/-- A block with a clear bit is not reserved. -/
theorem VolumeOk.fresh {a : DiskView} {d b : Word} (vol : VolumeOk a d)
    (clear : isMarked a.data d b = false) : 35 ≤ b.toNat := by
  by_contra low
  have set := vol.reserved b (by omega)
  rw [clear] at set
  cases set

theorem ne_zero_of_high {b : Word} (high : 34 ≤ b.toNat) : b ≠ 0 := by
  rintro rfl
  exact absurd high (by decide)

instance : Finite Word := Finite.of_injective BitVec.toFin (BitVec.toFin_injective (n := 16))

/-- The number of blocks with a clear bit. -/
noncomputable def freeBlocks (a : DiskView) (d : Word) : Nat :=
  {b : Word | isMarked a.data d b = false}.ncard

/-- The number of the places `ps` without a block. -/
def missing (a : DiskView) (d n : Word) (ps : Finset Place) : Nat :=
  (ps.filter fun p => ref a.data d n p = 0).card

theorem exists_clear {a : DiskView} {d : Word} (some : 0 < freeBlocks a d) :
    ∃ b, isMarked a.data d b = false := by
  obtain ⟨b, clear⟩ := (Set.ncard_pos (Set.toFinite _)).mp some
  exact ⟨b, clear⟩

/-! ### Growth -/

/-- **Node `n` grew by the places `ps`.** -/
structure Grown (a b : DiskView) (d n : Word) (ps : Finset Place) : Prop where
  vol : VolumeOk b d
  file : FileOk b d n
  pins : b.pins = a.pins
  soft : ∀ key ∈ b.soft, key ∈ a.soft ∨ key = (d, n)
  kept : ∀ p, ref a.data d n p ≠ 0 → ref b.data d n p = ref a.data d n p
  filled : ∀ p ∈ ps, ref b.data d n p ≠ 0
  only : ∀ p, ref b.data d n p ≠ 0 → ref a.data d n p ≠ 0 ∨ p ∈ ps
  fresh : ∀ p, ref a.data d n p = 0 → ref b.data d n p ≠ 0 →
    isMarked a.data d (ref b.data d n p) = false
  marks : ∀ c, isMarked b.data d c = true ↔ isMarked a.data d c = true ∨
    ∃ p, ref a.data d n p = 0 ∧ ref b.data d n p = c ∧ c ≠ 0
  mode : (b.data (d, n)).word 0 = (a.data (d, n)).word 0
  frame : ∀ key, key ≠ (d, n) → (∀ c, key ≠ (d, bitBlock c)) →
    (∀ p, ref b.data d n p ≠ 0 → key ≠ (d, ref b.data d n p)) → b.data key = a.data key

namespace Grown

variable {a b c : DiskView} {d n : Word} {ps qs : Finset Place}

theorem refl (vol : VolumeOk a d) (file : FileOk a d n)
    (full : ∀ p ∈ ps, ref a.data d n p ≠ 0) : Grown a a d n ps where
  vol := vol
  file := file
  pins := rfl
  soft _ mem := Or.inl mem
  kept _ _ := rfl
  filled := full
  only _ here := Or.inl here
  fresh _ zero here := absurd zero here
  marks _ := ⟨Or.inl, fun known => known.elim id fun ⟨_, zero, same, ne⟩ =>
    absurd (same.symm.trans zero) ne⟩
  mode := rfl
  frame _ _ _ _ := rfl

/-- **Growth composes.** -/
theorem trans (first : Grown a b d n ps) (second : Grown b c d n qs) :
    Grown a c d n (ps ∪ qs) where
  vol := second.vol
  file := second.file
  pins := second.pins.trans first.pins
  soft key mem := (second.soft key mem).elim (first.soft key) Or.inr
  kept p here := by
    have mid := first.kept p here
    rw [second.kept p (by rwa [mid]), mid]
  filled p mem := by
    rcases Finset.mem_union.mp mem with left | right
    · have here := first.filled p left
      rwa [second.kept p here]
    · exact second.filled p right
  only p here := by
    rcases second.only p here with mid | right
    · exact (first.only p mid).imp id fun left => Finset.mem_union_left _ left
    · exact Or.inr (Finset.mem_union_right _ right)
  fresh p zero here := by
    by_cases mid : ref b.data d n p = 0
    · have clear := second.fresh p mid here
      by_contra set
      have still := (first.marks _).mpr (Or.inl ((Bool.not_eq_false _).mp set))
      rw [clear] at still
      cases still
    · rw [second.kept p mid]
      exact first.fresh p zero mid
  marks e := by
    rw [second.marks, first.marks]
    constructor
    · rintro ((old | ⟨p, zero, rfl, ne⟩) | ⟨p, zero, same, ne⟩)
      · exact Or.inl old
      · exact Or.inr ⟨p, zero, second.kept p ne, ne⟩
      · refine Or.inr ⟨p, ?_, same, ne⟩
        by_contra here
        exact here (by rw [← first.kept p here]; exact zero)
    · rintro (old | ⟨p, zero, same, ne⟩)
      · exact Or.inl (Or.inl old)
      · by_cases mid : ref b.data d n p = 0
        · exact Or.inr ⟨p, mid, same, ne⟩
        · exact Or.inl (Or.inr ⟨p, zero, by rw [← same, second.kept p mid], ne⟩)
  mode := second.mode.trans first.mode
  frame key node bits away := by
    rw [second.frame key node bits away]
    refine first.frame key node bits fun p here => ?_
    rw [← second.kept p here]
    exact away p (by rwa [second.kept p here])

/-- Growth by more places than named, all of which have blocks. -/
theorem widen (grown : Grown a b d n ps) (more : ps ⊆ qs)
    (full : ∀ p ∈ qs, ref b.data d n p ≠ 0) : Grown a b d n qs where
  vol := grown.vol
  file := grown.file
  pins := grown.pins
  soft := grown.soft
  kept := grown.kept
  filled := full
  only p here := (grown.only p here).imp id fun mem => more mem
  fresh := grown.fresh
  marks := grown.marks
  mode := grown.mode
  frame := grown.frame

theorem index (grown : Grown a b d n ps) {j : Nat} (here : indexAt a.data d n j ≠ 0) :
    indexAt b.data d n j = indexAt a.data d n j := grown.kept (.index j) here

theorem block (grown : Grown a b d n ps) {k : Nat} (here : blockAt a.data d n k ≠ 0) :
    blockAt b.data d n k = blockAt a.data d n k := grown.kept (.data k) here

/-- Marked blocks stay marked. -/
theorem marked_mono (grown : Grown a b d n ps) {e : Word} (set : isMarked a.data d e = true) :
    isMarked b.data d e = true := (grown.marks e).mpr (Or.inl set)

/-- The places that got a block. -/
theorem free_add (grown : Grown a b d n ps) (more : ps ⊆ qs) :
    freeBlocks b d + (qs.filter fun p => ref a.data d n p = 0 ∧ ref b.data d n p ≠ 0).card =
      freeBlocks a d := by
  have image : {e : Word | isMarked a.data d e = false} =
      {e : Word | isMarked b.data d e = false} ∪
        (ref b.data d n) '' (qs.filter fun p => ref a.data d n p = 0 ∧ ref b.data d n p ≠ 0 :
          Finset Place) := by
    ext e
    simp only [Set.mem_ofPred_eq, Set.mem_union, Set.mem_image, Finset.mem_coe, Finset.mem_filter]
    constructor
    · intro clear
      by_cases set : isMarked b.data d e = true
      · rcases (grown.marks e).mp set with old | ⟨p, zero, same, ne⟩
        · rw [clear] at old
          cases old
        · rw [← same] at ne
          have inside := (grown.only p ne).resolve_left fun here => here zero
          exact Or.inr ⟨p, ⟨more inside, zero, ne⟩, same⟩
      · exact Or.inl ((Bool.not_eq_true _).mp set)
    · rintro (clear | ⟨p, ⟨-, zero, here⟩, rfl⟩)
      · by_contra set
        have still := grown.marked_mono ((Bool.not_eq_false _).mp set)
        rw [clear] at still
        cases still
      · exact grown.fresh p zero here
  have apart : Disjoint {e : Word | isMarked b.data d e = false}
      ((ref b.data d n) '' (qs.filter fun p => ref a.data d n p = 0 ∧ ref b.data d n p ≠ 0 :
        Finset Place)) := by
    rw [Set.disjoint_left]
    rintro e clear ⟨p, inside, rfl⟩
    have here := (Finset.mem_filter.mp (Finset.mem_coe.mp inside)).2.2
    have set := (grown.file.refs p here).2.1
    rw [Set.mem_ofPred_eq, set] at clear
    cases clear
  unfold freeBlocks
  rw [image, Set.ncard_union_eq apart (Set.toFinite _) (Set.toFinite _), Set.InjOn.ncard_image,
    Set.ncard_coe_finset]
  intro p inside q _ same
  exact grown.file.inj p q same (Finset.mem_filter.mp (Finset.mem_coe.mp inside)).2.2

/-- **Blocks that were enough for `qs` are enough for what is left of `qs`.** -/
theorem enough (grown : Grown a b d n ps) (more : ps ⊆ qs)
    (before : missing a d n qs ≤ freeBlocks a d) : missing b d n qs ≤ freeBlocks b d := by
  have total := grown.free_add more
  have split : missing a d n qs =
      (qs.filter fun p => ref a.data d n p = 0 ∧ ref b.data d n p ≠ 0).card +
        missing b d n qs := by
    unfold missing
    rw [← Finset.card_filter_add_card_filter_not (s := qs.filter fun p => ref a.data d n p = 0)
      (fun p => ref b.data d n p ≠ 0), Finset.filter_filter, Finset.filter_filter]
    congr 2
    ext p
    simp only [Finset.mem_filter, not_not]
    refine and_congr_right fun _ => ⟨fun both => both.2, fun zero => ⟨?_, zero⟩⟩
    by_contra here
    exact here (by rw [← grown.kept p here]; exact zero)
  omega

end Grown

end RlCpu.Kernel
