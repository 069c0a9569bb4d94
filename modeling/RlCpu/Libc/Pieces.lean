/-
**The pieces of an arena.**

The marker list in memory, seen as a list of pieces.

* `Tiles`: the pieces fill the arena, one after the other.
* `Linked`: their markers are in memory, with the links to the pieces before and after.
* `Heap.Cut`: the heap is an arena cut into these pieces.
* `Cut.split`, `Cut.absorb`: one piece becomes two, two become one.
-/

import RlCpu.Libc.Search

namespace RlCpu.Libc

/-! ### Markers that do not overlap -/

/-- The markers at `x` and `y` have no word in common. -/
def Apart (x y : Word) : Prop := 4 ≤ (x - y).toNat ∧ 4 ≤ (y - x).toNat

theorem Apart.symm {x y : Word} (apart : Apart x y) : Apart y x := ⟨apart.2, apart.1⟩

theorem apart_ofNat {a b : Nat} (before : a + 4 ≤ b) (low : b + 4 ≤ 65536) :
    Apart (BitVec.ofNat 16 a) (BitVec.ofNat 16 b) := by
  unfold Apart
  rw [BitVec.toNat_sub, BitVec.toNat_sub, BitVec.toNat_ofNat, BitVec.toNat_ofNat]
  omega

namespace Memory

variable (m : Memory) {x y : Word} (v : Word)

@[simp] theorem marker_setNext_self : (m.setNext x v).marker x = { m.marker x with next := v } := by
  unfold setNext marker
  rw [Function.update_self, Function.update_of_ne (by bv_omega), Function.update_of_ne (by bv_omega),
    Function.update_of_ne (by bv_omega)]

@[simp] theorem marker_setPrev_self : (m.setPrev x v).marker x = { m.marker x with prev := v } := by
  unfold setPrev marker
  rw [Function.update_self, Function.update_of_ne (by bv_omega), Function.update_of_ne (by bv_omega),
    Function.update_of_ne (by bv_omega)]

@[simp] theorem marker_setSize_self : (m.setSize x v).marker x = { m.marker x with size := v } := by
  unfold setSize marker
  rw [Function.update_self, Function.update_of_ne (by bv_omega), Function.update_of_ne (by bv_omega),
    Function.update_of_ne (by bv_omega)]

@[simp] theorem marker_setIsFree_self : (m.setIsFree x v).marker x = { m.marker x with isFree := v } := by
  unfold setIsFree marker
  rw [Function.update_self, Function.update_of_ne (by bv_omega), Function.update_of_ne (by bv_omega),
    Function.update_of_ne (by bv_omega)]

/-- A word that is not in a marker does not change it. -/
theorem marker_update {a : Word} (off : 4 ≤ (a - y).toNat) : Memory.marker (Function.update m a v) y = m.marker y := by
  unfold marker
  rw [Function.update_of_ne (by bv_omega), Function.update_of_ne (by bv_omega), Function.update_of_ne (by bv_omega),
    Function.update_of_ne (by bv_omega)]

theorem marker_setNext_ne (apart : Apart y x) : (m.setNext x v).marker y = m.marker y :=
  marker_update m v apart.2

theorem marker_setPrev_ne (apart : Apart y x) : (m.setPrev x v).marker y = m.marker y := by
  obtain ⟨up, down⟩ := apart
  exact marker_update m v (by bv_omega)

theorem marker_setSize_ne (apart : Apart y x) : (m.setSize x v).marker y = m.marker y := by
  obtain ⟨up, down⟩ := apart
  exact marker_update m v (by bv_omega)

theorem marker_setIsFree_ne (apart : Apart y x) : (m.setIsFree x v).marker y = m.marker y := by
  obtain ⟨up, down⟩ := apart
  exact marker_update m v (by bv_omega)

end Memory

/-! ### Pieces -/

/-- A piece of the arena, its marker included. -/
structure Piece where
  base : Nat
  size : Nat
  free : Bool

/-- The pieces fill the words from `a` to `last`. -/
def Tiles (last : Nat) : Nat → List Piece → Prop
  | a, [] => a = last
  | a, c :: cs => c.base = a ∧ 4 ≤ c.size ∧ Tiles last (a + c.size) cs

/-- Where the first of the pieces is. -/
def headBase (next : Nat) : List Piece → Nat
  | [] => next
  | c :: _ => c.base

/-- Where the last of the pieces is. -/
def lastBase : Nat → List Piece → Nat
  | prev, [] => prev
  | _, c :: cs => lastBase c.base cs

/-- The marker of a piece between those at `prev` and `next`. -/
def Piece.marker (c : Piece) (prev next : Nat) : Marker :=
  ⟨BitVec.ofNat 16 next, BitVec.ofNat 16 prev, BitVec.ofNat 16 c.size, if c.free then 1 else 0⟩

/-- Where the marker of a piece is. -/
def Piece.at (c : Piece) : Word := BitVec.ofNat 16 c.base

/-- The markers of the pieces are in memory, between `prev` and `next`. -/
def Linked (m : Memory) (next : Nat) : Nat → List Piece → Prop
  | _, [] => True
  | prev, c :: cs => m.marker c.at = c.marker prev (headBase next cs) ∧ Linked m next c.base cs

variable {m m' : Memory} {a last next prev prev' : Nat} {c d : Piece} {cs xs ys : List Piece}

theorem tiles_append : Tiles last a (xs ++ ys) ↔ ∃ mid, Tiles mid a xs ∧ Tiles last mid ys := by
  induction xs generalizing a with
  | nil => exact ⟨fun tiles => ⟨a, rfl, tiles⟩, fun ⟨mid, same, tiles⟩ => (show a = mid from same) ▸ tiles⟩
  | cons c xs ih =>
    constructor
    · rintro ⟨base, size, rest⟩
      obtain ⟨mid, first, second⟩ := ih.mp rest
      exact ⟨mid, ⟨base, size, first⟩, second⟩
    · rintro ⟨mid, ⟨base, size, first⟩, second⟩
      exact ⟨base, size, ih.mpr ⟨mid, first, second⟩⟩

theorem Tiles.le (tiles : Tiles last a cs) : a ≤ last := by
  induction cs generalizing a with
  | nil => exact Nat.le_of_eq tiles
  | cons c cs ih => exact Nat.le_trans (Nat.le_add_right a c.size) (ih tiles.2.2)

/-- A piece is in the arena, and has a marker. -/
theorem Tiles.bounds (tiles : Tiles last a cs) (here : c ∈ cs) :
    a ≤ c.base ∧ c.base + c.size ≤ last ∧ 4 ≤ c.size := by
  induction cs generalizing a with
  | nil => cases here
  | cons d cs ih =>
    obtain ⟨rfl, size, rest⟩ := tiles
    obtain rfl | later := List.mem_cons.mp here
    · exact ⟨Nat.le_refl _, rest.le, size⟩
    · obtain ⟨low, rest⟩ := ih rest later
      exact ⟨Nat.le_trans (Nat.le_add_right _ _) low, rest⟩

/-- Two pieces are the same, or one after the other. -/
theorem Tiles.apart (tiles : Tiles last a cs) (here : c ∈ cs) (there : d ∈ cs) :
    c = d ∨ c.base + c.size ≤ d.base ∨ d.base + d.size ≤ c.base := by
  induction cs generalizing a with
  | nil => cases here
  | cons e cs ih =>
    obtain ⟨rfl, size, rest⟩ := tiles
    obtain rfl | later := List.mem_cons.mp here <;> obtain rfl | later' := List.mem_cons.mp there
    · exact Or.inl rfl
    · exact Or.inr (Or.inl (rest.bounds later').1)
    · exact Or.inr (Or.inr (rest.bounds later).1)
    · exact ih rest later later'

/-- Two pieces that start together are the same. -/
theorem Tiles.same (tiles : Tiles last a cs) (here : c ∈ cs) (there : d ∈ cs) (base : c.base = d.base) : c = d := by
  obtain ⟨-, -, size⟩ := tiles.bounds here
  obtain ⟨-, -, size'⟩ := tiles.bounds there
  obtain equal | before | behind := tiles.apart here there
  · exact equal
  · omega
  · omega

theorem linked_append : Linked m next prev (xs ++ ys) ↔
    Linked m (headBase next ys) prev xs ∧ Linked m next (lastBase prev xs) ys := by
  induction xs generalizing prev with
  | nil => exact (iff_of_eq (true_and _)).symm
  | cons c xs ih =>
    have heads : headBase next (xs ++ ys) = headBase (headBase next ys) xs := by cases xs <;> rfl
    show (_ = c.marker prev (headBase next (xs ++ ys)) ∧ Linked m next c.base (xs ++ ys)) ↔ _
    rw [ih, heads]
    exact and_assoc.symm

/-- Memory that has the same markers has the same pieces. -/
theorem Linked.congr (linked : Linked m next prev cs) (same : ∀ c ∈ cs, m'.marker c.at = m.marker c.at) :
    Linked m' next prev cs := by
  induction cs generalizing prev with
  | nil => trivial
  | cons c cs ih =>
    obtain ⟨here, rest⟩ := linked
    exact ⟨(same c (List.mem_cons_self ..)).trans here, ih rest fun d there => same d (List.mem_cons_of_mem c there)⟩

/-- The piece before the first one is another. -/
theorem Linked.setPrev (linked : Linked m next prev (c :: cs))
    (here : m'.marker c.at = { m.marker c.at with prev := BitVec.ofNat 16 prev' })
    (same : ∀ d ∈ cs, m'.marker d.at = m.marker d.at) : Linked m' next prev' (c :: cs) := by
  obtain ⟨marker, rest⟩ := linked
  refine ⟨?_, rest.congr same⟩
  rw [here, marker]
  rfl

/-- **The heap is an arena cut into the pieces.** -/
structure Heap.Cut (h : Heap) (first last : Nat) (cs : List Piece) : Prop where
  start : 0 < first
  high : last < 65536
  nonempty : cs ≠ []
  tiles : Tiles last first cs
  linked : Linked h.mem 0 0 cs
  head : h.head = BitVec.ofNat 16 first

/-! ### One piece becomes two -/

theorem split_markers {m : Memory} {it sz new : Word} (here : it + sz + markerSize = new) (apart : Apart new it)
    (behind : (m.marker it).next ≠ 0 → Apart (m.marker it).next it ∧ Apart (m.marker it).next new) :
    (m.split it sz).marker it = ⟨new, (m.marker it).prev, sz + markerSize, 0⟩ ∧
    (m.split it sz).marker new = ⟨(m.marker it).next, it, (m.marker it).size - sz - markerSize, 1⟩ ∧
    ((m.marker it).next ≠ 0 →
      (m.split it sz).marker (m.marker it).next = { m.marker (m.marker it).next with prev := new }) ∧
    ∀ y, Apart y it → Apart y new → ((m.marker it).next ≠ 0 → Apart y (m.marker it).next) →
      (m.split it sz).marker y = m.marker y := by
  unfold Memory.split
  rw [here]
  by_cases zero : (m.marker it).next = 0
  · refine ⟨?_, ?_, fun ne => absurd zero ne, fun y off off' _ => ?_⟩
    · simp [zero, Memory.marker_setNext_ne, Memory.marker_setPrev_ne, Memory.marker_setSize_ne,
        Memory.marker_setIsFree_ne, apart.symm]
    · simp [zero, Memory.marker_setNext_ne, Memory.marker_setPrev_ne, Memory.marker_setSize_ne,
        Memory.marker_setIsFree_ne, apart, apart.symm]
    · simp [zero, Memory.marker_setNext_ne, Memory.marker_setPrev_ne, Memory.marker_setSize_ne,
        Memory.marker_setIsFree_ne, apart.symm, off, off']
  · obtain ⟨far, far'⟩ := behind zero
    have some : (m.marker it).next ≠ 0#16 := zero
    refine ⟨?_, ?_, fun _ => ?_, fun y off off' off'' => ?_⟩
    · simp [some, Memory.marker_setNext_ne, Memory.marker_setPrev_ne, Memory.marker_setSize_ne,
        Memory.marker_setIsFree_ne, apart.symm, far.symm]
    · simp [some, Memory.marker_setNext_ne, Memory.marker_setPrev_ne, Memory.marker_setSize_ne,
        Memory.marker_setIsFree_ne, apart, apart.symm, far.symm, far'.symm]
    · simp [some, Memory.marker_setNext_ne, Memory.marker_setPrev_ne, Memory.marker_setSize_ne,
        Memory.marker_setIsFree_ne, apart.symm, far, far', far.symm]
    · simp [some, Memory.marker_setNext_ne, Memory.marker_setPrev_ne, Memory.marker_setSize_ne,
        Memory.marker_setIsFree_ne, apart.symm, far.symm, off, off', off'' some]

theorem lastBase_append (p : Nat) (xs : List Piece) (c : Piece) (ys : List Piece) :
    lastBase p (xs ++ c :: ys) = lastBase c.base ys := by
  induction xs generalizing p with
  | nil => rfl
  | cons d xs ih => exact ih d.base

/-- **Some pieces become others**, which fill the same words. The first piece behind them gets a new link. -/
theorem Heap.Cut.replace {h : Heap} {first : Nat} {w z : Piece} (ws zs : List Piece)
    (cut : h.Cut first last (xs ++ w :: (ws ++ ys))) (base : z.base = w.base)
    (tiles : ∀ mid, Tiles mid w.base (w :: ws) → Tiles mid w.base (z :: zs))
    (before : ∀ d ∈ xs, m'.marker d.at = h.mem.marker d.at)
    (linked : Linked m' (headBase 0 ys) (lastBase 0 xs) (z :: zs))
    (behind : ∀ d ds, ys = d :: ds →
      m'.marker d.at = { h.mem.marker d.at with prev := BitVec.ofNat 16 (lastBase z.base zs) } ∧
      ∀ e ∈ ds, m'.marker e.at = h.mem.marker e.at) :
    Heap.Cut { h with mem := m' } first last (xs ++ z :: (zs ++ ys)) := by
  obtain ⟨mid, tilesBefore, tilesRest⟩ := tiles_append.mp cut.tiles
  obtain rfl : w.base = mid := tilesRest.1
  obtain ⟨mid, tilesHere, tilesAfter⟩ := tiles_append.mp (show Tiles last w.base ((w :: ws) ++ ys) from tilesRest)
  obtain ⟨linkedBefore, linkedRest⟩ := linked_append.mp cut.linked
  obtain ⟨-, linkedAfter⟩ := linked_append.mp (show Linked h.mem 0 (lastBase 0 xs) ((w :: ws) ++ ys) from linkedRest)
  refine ⟨cut.start, cut.high, by simp, ?_, ?_, cut.head⟩
  · refine tiles_append.mpr ⟨w.base, tilesBefore, ?_⟩
    show Tiles last w.base ((z :: zs) ++ ys)
    exact tiles_append.mpr ⟨mid, tiles mid tilesHere, tilesAfter⟩
  · refine linked_append.mpr ⟨?_, show Linked m' 0 (lastBase 0 xs) ((z :: zs) ++ ys) from
      linked_append.mpr ⟨linked, ?_⟩⟩
    · exact (show Linked h.mem z.base 0 xs from base ▸ linkedBefore).congr before
    · cases ys with
      | nil => trivial
      | cons d ds =>
        obtain ⟨here, same⟩ := behind d ds rfl
        exact linkedAfter.setPrev here same

/-! What an address and the one of another piece have to do with each other. -/

theorem Piece.at_toNat (low : c.base < 65536) : c.at.toNat = c.base := by
  unfold Piece.at
  rw [BitVec.toNat_ofNat, Nat.mod_eq_of_lt low]

theorem Piece.at_ne_zero (some : 0 < c.base) (low : c.base < 65536) : c.at ≠ 0 := by
  intro zero
  have same := congrArg BitVec.toNat zero
  rw [Piece.at_toNat low] at same
  exact absurd same (Nat.ne_of_gt some)

/-- The pieces before and behind. -/
theorem Heap.Cut.others {h : Heap} {first : Nat} (cut : h.Cut first last (xs ++ c :: ys)) :
    first ≤ c.base ∧ 4 ≤ c.size ∧ c.base + c.size ≤ last ∧ (∀ d ∈ xs, first ≤ d.base ∧ d.base + 4 ≤ c.base) ∧
    (headBase (c.base + c.size) ys = c.base + c.size) ∧
    ∀ d ∈ ys, c.base + c.size ≤ d.base ∧ d.base + 4 ≤ last := by
  obtain ⟨mid, before, rfl, size, after⟩ := tiles_append.mp cut.tiles
  refine ⟨before.le, size, after.le, fun d there => ?_, ?_, fun d there => ?_⟩
  · obtain ⟨low, high, size⟩ := before.bounds there
    exact ⟨low, by omega⟩
  · cases ys with
    | nil => rfl
    | cons d ys => exact after.1
  · obtain ⟨low, high, size⟩ := after.bounds there
    exact ⟨low, by omega⟩

/-- The pieces behind the one that follows. -/
theorem Heap.Cut.later {h : Heap} {first : Nat} {ds : List Piece} (cut : h.Cut first last (xs ++ c :: d :: ds)) :
    ∀ e ∈ ds, d.base + 4 ≤ e.base ∧ e.base + 4 ≤ last := fun e there => by
  have next : h.Cut first last ((xs ++ [c]) ++ d :: ds) := by rwa [List.append_assoc]
  obtain ⟨-, size, -, -, -, behind⟩ := next.others
  obtain ⟨low, high⟩ := behind e there
  exact ⟨by omega, high⟩

/-- **A free piece is split.** -/
theorem Heap.Cut.split {h : Heap} {first : Nat} {sz : Word} (cut : h.Cut first last (xs ++ c :: ys))
    (fits : sz.toNat + 8 < c.size) : Heap.Cut { h with mem := h.mem.split c.at sz } first last
      (xs ++ ⟨c.base, sz.toNat + 4, false⟩ ::
        ([⟨c.base + sz.toNat + 4, c.size - sz.toNat - 4, true⟩] ++ ys)) := by
  obtain ⟨low, size, top, before, base, behind⟩ := cut.others
  have high := cut.high
  have start := cut.start
  obtain ⟨marker, -⟩ := (linked_append.mp cut.linked).2
  have here : c.at + sz + markerSize = BitVec.ofNat 16 (c.base + sz.toNat + 4) := by
    unfold Piece.at markerSize
    bv_omega
  have apart : Apart (BitVec.ofNat 16 (c.base + sz.toNat + 4)) c.at := (apart_ofNat (by omega) (by omega)).symm
  have next : (h.mem.marker c.at).next = BitVec.ofNat 16 (headBase 0 ys) := by rw [marker]; rfl
  have far : (h.mem.marker c.at).next ≠ 0 → Apart (h.mem.marker c.at).next c.at ∧
      Apart (h.mem.marker c.at).next (BitVec.ofNat 16 (c.base + sz.toNat + 4)) := fun some => by
    rw [next] at some ⊢
    cases ys with
    | nil => exact absurd rfl some
    | cons d ds =>
      obtain ⟨above, below⟩ := behind d (List.mem_cons_self ..)
      show Apart (BitVec.ofNat 16 d.base) _ ∧ Apart (BitVec.ofNat 16 d.base) _
      exact ⟨(apart_ofNat (by omega) (by omega)).symm, (apart_ofNat (by omega) (by omega)).symm⟩
  obtain ⟨self, new, link, others⟩ := split_markers here apart far
  have low' : sz.toNat < 65536 := sz.isLt
  refine cut.replace [] [_] rfl (fun mid tiles => ?_) (fun d there => ?_) ⟨?_, ?_, trivial⟩ ?_
  · obtain ⟨-, -, end'⟩ := tiles
    refine ⟨rfl, by dsimp only; omega, rfl, by dsimp only; omega, ?_⟩
    show c.base + (sz.toNat + 4) + (c.size - sz.toNat - 4) = mid
    have sum : c.base + c.size = mid := end'
    omega
  · obtain ⟨above, below⟩ := before d there
    refine others d.at (apart_ofNat (by omega) (by omega)) (apart_ofNat (by omega) (by omega)) fun some => ?_
    rw [next] at some ⊢
    cases ys with
    | nil => exact absurd rfl some
    | cons e es =>
      obtain ⟨above', below'⟩ := behind e (List.mem_cons_self ..)
      show Apart d.at (BitVec.ofNat 16 e.base)
      exact apart_ofNat (by omega) (by omega)
  · show (h.mem.split c.at sz).marker c.at = _
    have size' : sz + markerSize = BitVec.ofNat 16 (sz.toNat + 4) := by
      unfold markerSize
      bv_omega
    rw [self, marker, size']
    rfl
  · show (h.mem.split c.at sz).marker _ = _
    have size' : BitVec.ofNat 16 c.size - sz - markerSize = BitVec.ofNat 16 (c.size - sz.toNat - 4) := by
      unfold markerSize
      bv_omega
    refine new.trans ?_
    rw [marker]
    exact congrArg (fun size => Marker.mk _ c.at size 1) size'
  · rintro d ds rfl
    obtain ⟨above, below⟩ := behind d (List.mem_cons_self ..)
    have at' : (h.mem.marker c.at).next = d.at := next
    rw [at'] at link others
    have some : d.at ≠ 0 := Piece.at_ne_zero (by omega) (by omega)
    refine ⟨link some, fun e there => ?_⟩
    obtain ⟨above', below'⟩ := cut.later e there
    exact others e.at (apart_ofNat (by omega) (by omega)).symm (apart_ofNat (by omega) (by omega)).symm
      fun _ => (apart_ofNat (by omega) (by omega)).symm

/-! ### Two pieces become one -/

/-- The piece at `it` takes the words of the one at `q`, which follows. -/
def Memory.absorb (m : Memory) (it q : Word) : Memory :=
  let m := m.setSize it ((m.marker it).size + (m.marker q).size)
  let m := m.setNext it (m.marker q).next
  if (m.marker it).next ≠ 0 then m.setPrev (m.marker it).next it else m

/-- `free` merges with the next piece. -/
theorem mergeForward_eq (m : Memory) {it q : Word} (next : (m.marker it).next = q) (some : q ≠ 0) :
    m.mergeForward it = if (m.marker q).isFree ≠ 0 then m.absorb it q else m := by
  unfold Memory.mergeForward Memory.absorb
  simp only [next, Memory.marker_setSize_self, ne_eq, some, not_false_eq_true, true_and]

/-- And with the one before. -/
theorem mergeBackward_eq (m : Memory) {it p : Word} (prev : (m.marker it).prev = p) (some : p ≠ 0)
    (apart : Apart it p) : m.mergeBackward it = if (m.marker p).isFree ≠ 0 then m.absorb p it else m := by
  unfold Memory.mergeBackward Memory.absorb
  simp only [prev, ne_eq, some, not_false_eq_true, true_and, Memory.marker_setSize_ne _ _ apart,
    Memory.marker_setNext_ne _ _ apart, Memory.marker_setNext_self]

theorem absorb_markers {m : Memory} {it q : Word} (apart : Apart q it)
    (behind : (m.marker q).next ≠ 0 → Apart (m.marker q).next it) :
    (m.absorb it q).marker it =
      ⟨(m.marker q).next, (m.marker it).prev, (m.marker it).size + (m.marker q).size, (m.marker it).isFree⟩ ∧
    ((m.marker q).next ≠ 0 →
      (m.absorb it q).marker (m.marker q).next = { m.marker (m.marker q).next with prev := it }) ∧
    ∀ y, Apart y it → ((m.marker q).next ≠ 0 → Apart y (m.marker q).next) →
      (m.absorb it q).marker y = m.marker y := by
  unfold Memory.absorb
  simp only [Memory.marker_setSize_ne _ _ apart, Memory.marker_setNext_self, Memory.marker_setSize_self]
  by_cases zero : (m.marker q).next = 0
  · rw [if_neg (not_not.mpr zero)]
    refine ⟨?_, fun ne => absurd zero ne, fun y off _ => ?_⟩
    · rw [Memory.marker_setNext_self, Memory.marker_setSize_self]
    · rw [Memory.marker_setNext_ne _ _ off, Memory.marker_setSize_ne _ _ off]
  · have far := behind zero
    rw [if_pos zero]
    refine ⟨?_, fun _ => ?_, fun y off off' => ?_⟩
    · rw [Memory.marker_setPrev_ne _ _ far.symm, Memory.marker_setNext_self, Memory.marker_setSize_self]
    · rw [Memory.marker_setPrev_self, Memory.marker_setNext_ne _ _ far, Memory.marker_setSize_ne _ _ far]
    · rw [Memory.marker_setPrev_ne _ _ (off' zero), Memory.marker_setNext_ne _ _ off, Memory.marker_setSize_ne _ _ off]

/-- **A piece takes in the next.** -/
theorem Heap.Cut.absorb {h : Heap} {first : Nat} (cut : h.Cut first last (xs ++ c :: d :: ys)) :
    Heap.Cut { h with mem := h.mem.absorb c.at d.at } first last (xs ++ ⟨c.base, c.size + d.size, c.free⟩ :: ys) := by
  obtain ⟨low, size, top, before, base, behind⟩ := cut.others
  obtain ⟨above, below⟩ := behind d (List.mem_cons_self ..)
  have base : d.base = c.base + c.size := base
  have high := cut.high
  have start := cut.start
  have second : h.Cut first last ((xs ++ [c]) ++ d :: ys) := by rw [List.append_assoc]; exact cut
  obtain ⟨-, size', top', -, base', behind'⟩ := second.others
  obtain ⟨marker, marker', -⟩ := (linked_append.mp cut.linked).2
  have apart : Apart d.at c.at := (apart_ofNat (by omega) (by omega)).symm
  have next : (h.mem.marker d.at).next = BitVec.ofNat 16 (headBase 0 ys) := by rw [marker']; rfl
  have far : (h.mem.marker d.at).next ≠ 0 → Apart (h.mem.marker d.at).next c.at := fun some => by
    rw [next] at some ⊢
    cases ys with
    | nil => exact absurd rfl some
    | cons e es =>
      obtain ⟨above', below'⟩ := behind' e (List.mem_cons_self ..)
      show Apart (BitVec.ofNat 16 e.base) _
      exact (apart_ofNat (by omega) (by omega)).symm
  obtain ⟨self, link, others⟩ := absorb_markers apart far
  refine cut.replace (z := ⟨c.base, c.size + d.size, c.free⟩) [d] [] rfl (fun mid tiles => ?_)
    (fun e there => ?_) ⟨?_, trivial⟩ ?_
  · obtain ⟨-, -, -, -, end'⟩ := tiles
    refine ⟨rfl, Nat.le_add_right_of_le size, ?_⟩
    exact (Nat.add_assoc ..).symm.trans end'
  · obtain ⟨above', below'⟩ := before e there
    refine others e.at (apart_ofNat (by omega) (by omega)) fun some => ?_
    rw [next] at some ⊢
    cases ys with
    | nil => exact absurd rfl some
    | cons f fs =>
      obtain ⟨above'', below''⟩ := behind' f (List.mem_cons_self ..)
      show Apart e.at (BitVec.ofNat 16 f.base)
      exact apart_ofNat (by omega) (by omega)
  · refine self.trans ?_
    rw [marker, marker']
    exact congrArg (fun size => Marker.mk _ _ size _) (BitVec.ofNat_add c.size d.size).symm
  · rintro e es rfl
    obtain ⟨above', below'⟩ := behind' e (List.mem_cons_self ..)
    have at' : (h.mem.marker d.at).next = e.at := next
    rw [at'] at link others
    have some : e.at ≠ 0 := Piece.at_ne_zero (by omega) (by omega)
    refine ⟨link some, fun f there => ?_⟩
    obtain ⟨above'', below''⟩ := second.later f there
    exact others f.at (apart_ofNat (by omega) (by omega)).symm fun _ => (apart_ofNat (by omega) (by omega)).symm

end RlCpu.Libc
