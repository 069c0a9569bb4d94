/-
**Heap safety (`malloc_init`, `malloc`, `free`).**

`NoTwoFree cs`: no two free pieces follow one another. `HeapSafe`: the live blocks are in the arena, apart and large
enough, and the markers tile the arena. `HeapInv` is what the steps keep; the last piece is free, so a block is never
at the end.

* `Cut.free`: a piece in use becomes free, and is merged with its neighbours.
* `heap_safe`: safety over runs in which no `malloc` takes a free piece without a split.
* `heap_unsafe`: such a `malloc` hands out a block twice.
-/

import Mathlib.Data.List.Chain
import RlCpu.Libc.Pieces

namespace RlCpu.Libc

open RlCpu.Lib

variable {m m' : Memory} {first last : Nat} {h : Heap} {c d : Piece} {cs xs ys : List Piece}

/-! ### `free` -/

/-- No two free pieces follow one another. -/
def NoTwoFree (cs : List Piece) : Prop := List.IsChain (fun c d => ¬ (c.free = true ∧ d.free = true)) cs

/-- The last piece is free. -/
def LastFree (cs : List Piece) : Prop := ∀ c ∈ cs.getLast?, c.free = true

/-- The piece is marked as free. -/
theorem Heap.Cut.markFree (cut : h.Cut first last (xs ++ c :: ys)) :
    Heap.Cut { h with mem := h.mem.setIsFree c.at 1 } first last (xs ++ { c with free := true } :: ys) := by
  obtain ⟨low, size, top, before, base, behind⟩ := cut.others
  have high := cut.high
  obtain ⟨marker, after⟩ := (linked_append.mp cut.linked).2
  refine cut.replace [] [] rfl (fun mid tiles => tiles) (fun d there => ?_) ⟨?_, trivial⟩ ?_
  · obtain ⟨above, below⟩ := before d there
    exact Memory.marker_setIsFree_ne _ _ (apart_ofNat (by omega) (by omega))
  · refine (Memory.marker_setIsFree_self _ _).trans ?_
    rw [marker]
    rfl
  · rintro d ds rfl
    have same : ∀ e ∈ d :: ds, (h.mem.setIsFree c.at 1).marker e.at = h.mem.marker e.at := fun e there => by
      obtain ⟨above, below⟩ := behind e there
      exact Memory.marker_setIsFree_ne _ _ (apart_ofNat (by omega) (by omega)).symm
    refine ⟨?_, fun e there => same e (List.mem_cons_of_mem d there)⟩
    rw [same d (List.mem_cons_self ..), after.1]
    rfl

/-- **The first half of `free`.** -/
theorem Heap.Cut.mergeForward (cut : h.Cut first last (xs ++ c :: ys)) (free : c.free = true) (chain : NoTwoFree ys) :
    ∃ c' ys', Heap.Cut { h with mem := h.mem.mergeForward c.at } first last (xs ++ c' :: ys') ∧ c'.base = c.base ∧
      c'.free = true ∧ NoTwoFree (c' :: ys') ∧ (LastFree ys → LastFree ys') ∧
      ∀ d, d.free = false → (d ∈ ys' ↔ d ∈ ys) := by
  obtain ⟨marker, after⟩ := (linked_append.mp cut.linked).2
  cases ys with
  | nil =>
    have next : (h.mem.marker c.at).next = 0 := by rw [marker]; rfl
    have same : h.mem.mergeForward c.at = h.mem := if_neg fun both => both.1 next
    rw [same]
    exact ⟨c, [], cut, rfl, free, .singleton _, id, fun _ _ => Iff.rfl⟩
  | cons d ds =>
    have next : (h.mem.marker c.at).next = d.at := by rw [marker]; rfl
    obtain ⟨low, -, -, -, -, behind⟩ := cut.others
    obtain ⟨above, below⟩ := behind d (List.mem_cons_self ..)
    have high := cut.high
    have start := cut.start
    rw [mergeForward_eq _ next (Piece.at_ne_zero (by omega) (by omega)), after.1]
    obtain ⟨head, chain'⟩ := List.isChain_cons.mp chain
    cases used : d.free with
    | false =>
      have zero : (d.marker c.base (headBase 0 ds)).isFree = 0 := by simp [Piece.marker, used]
      rw [if_neg (not_not.mpr zero)]
      refine ⟨c, d :: ds, cut, rfl, free, List.isChain_cons.mpr ⟨?_, chain⟩, id, fun _ _ => Iff.rfl⟩
      rintro e ⟨⟩ ⟨-, clash⟩
      exact Bool.noConfusion (used.symm.trans clash)
    | true =>
      have one : (d.marker c.base (headBase 0 ds)).isFree ≠ 0 := by simp [Piece.marker, used]
      rw [if_pos one]
      refine ⟨_, ds, cut.absorb, rfl, free, List.isChain_cons.mpr ⟨fun e there both => ?_, chain'⟩,
        fun lastFree e there => ?_,
        fun e used' => ⟨List.mem_cons_of_mem d, fun there => ?_⟩⟩
      · exact head e there ⟨used, both.2⟩
      · refine lastFree e ?_
        cases ds with
        | nil => cases there
        | cons f fs => exact there
      · obtain rfl | there := List.mem_cons.mp there
        · exact Bool.noConfusion (used'.symm.trans used)
        · exact there

/-- **The second half.** -/
theorem Heap.Cut.mergeBackward (cut : h.Cut first last (xs ++ c :: ys)) (free : c.free = true) (chain : NoTwoFree xs) :
    ∃ c' xs', Heap.Cut { h with mem := h.mem.mergeBackward c.at } first last (xs' ++ c' :: ys) ∧ c'.free = true ∧
      NoTwoFree xs' ∧ (∀ d ∈ xs'.getLast?, d.free = false) ∧ ∀ d, d.free = false → (d ∈ xs' ↔ d ∈ xs) := by
  obtain ⟨marker, after⟩ := (linked_append.mp cut.linked).2
  obtain rfl | ⟨ds, d, rfl⟩ := xs.eq_nil_or_concat'
  · have prev : (h.mem.marker c.at).prev = 0 := by rw [marker]; rfl
    have same : h.mem.mergeBackward c.at = h.mem := if_neg fun both => both.1 prev
    rw [same]
    exact ⟨c, [], cut, free, .nil, by simp, fun _ _ => Iff.rfl⟩
  · have prev : (h.mem.marker c.at).prev = d.at := by
      rw [marker, lastBase_append]
      rfl
    obtain ⟨low, size, top, before, -, -⟩ := cut.others
    obtain ⟨above, below⟩ := before d (by simp)
    have high := cut.high
    have start := cut.start
    have apart : Apart c.at d.at := (apart_ofNat (by omega) (by omega)).symm
    have cut' : h.Cut first last (ds ++ d :: c :: ys) := by
      rw [List.append_assoc] at cut
      exact cut
    obtain ⟨marker', -⟩ := (linked_append.mp cut'.linked).2
    rw [mergeBackward_eq _ prev (Piece.at_ne_zero (by omega) (by omega)) apart, marker']
    obtain ⟨chain', -, join⟩ := List.isChain_append.mp chain
    cases used : d.free with
    | false =>
      have zero : (d.marker (lastBase 0 ds) (headBase 0 (c :: ys))).isFree = 0 := by simp [Piece.marker, used]
      rw [if_neg (not_not.mpr zero)]
      exact ⟨c, ds ++ [d], cut, free, chain, by simp [used], fun _ _ => Iff.rfl⟩
    | true =>
      have one : (d.marker (lastBase 0 ds) (headBase 0 (c :: ys))).isFree ≠ 0 := by simp [Piece.marker, used]
      rw [if_pos one]
      refine ⟨_, ds, cut'.absorb, used, chain', fun e there => ?_, fun e used' => ?_⟩
      · have both := join e there d rfl
        exact Bool.eq_false_iff.mpr fun free' => both ⟨free', used⟩
      · have ne : e ≠ d := fun same => Bool.noConfusion (used'.symm.trans (same ▸ used))
        simp [ne]

theorem lastFree_cons : LastFree (c :: ys) ↔ (ys = [] → c.free = true) ∧ LastFree ys := by
  unfold LastFree
  cases ys with
  | nil => simp
  | cons d ds => simp

theorem lastFree_append : LastFree (xs ++ c :: ys) ↔ (ys = [] → c.free = true) ∧ LastFree ys := by
  unfold LastFree
  cases ys with
  | nil => simp
  | cons d ds => simp

/-- The pieces of a list but one, as those that are not that one. -/
theorem Heap.Cut.mem_iff (cut : h.Cut first last (xs ++ c :: ys)) : d ∈ xs ∨ d ∈ ys ↔ d ∈ xs ++ c :: ys ∧ d ≠ c := by
  obtain ⟨low, size, top, before, -, behind⟩ := cut.others
  constructor
  · rintro (there | there)
    · obtain ⟨above, below⟩ := before d there
      refine ⟨by simp [there], fun same => ?_⟩
      rw [same] at below
      omega
    · obtain ⟨above, below⟩ := behind d there
      refine ⟨by simp [there], fun same => ?_⟩
      rw [same] at above
      omega
  · rintro ⟨there, ne⟩
    simpa [ne] using there

/-- **`free`**: of the pieces in use, this one is gone. -/
theorem Heap.Cut.free (cut : h.Cut first last (xs ++ c :: ys)) (chain : NoTwoFree (xs ++ c :: ys))
    (lastFree : LastFree (xs ++ c :: ys)) {ptr : Word} (there : ptr - markerSize = c.at) :
    ∃ cs, (free ptr h).Cut first last cs ∧ NoTwoFree cs ∧ LastFree cs ∧
      ∀ d, d.free = false → (d ∈ cs ↔ d ∈ xs ++ c :: ys ∧ d ≠ c) := by
  obtain ⟨chainBefore, chainRest, -⟩ := List.isChain_append.mp chain
  obtain ⟨-, chainAfter⟩ := List.isChain_cons.mp chainRest
  obtain ⟨c₁, ys', forward, base, free₁, chain₁, last₁, used₁⟩ := cut.markFree.mergeForward rfl chainAfter
  obtain ⟨c₂, xs', backward, free₂, chain₂, join, used₂⟩ := forward.mergeBackward free₁ chainBefore
  have at₁ : c₁.at = c.at := congrArg (BitVec.ofNat 16) base
  rw [at₁] at backward
  obtain ⟨-, chainAfter'⟩ := List.isChain_cons.mp chain₁
  refine ⟨xs' ++ c₂ :: ys', ?_, ?_, ?_, fun d used => ?_⟩
  · unfold Libc.free
    rw [there]
    exact backward
  · refine List.isChain_append.mpr ⟨chain₂, List.isChain_cons.mpr ⟨fun e there both => ?_, chainAfter'⟩, ?_⟩
    · exact (List.isChain_cons.mp chain₁).1 e there ⟨free₁, both.2⟩
    · rintro e there f - ⟨clash, -⟩
      exact Bool.noConfusion ((join e there).symm.trans clash)
  · exact lastFree_append.mpr ⟨fun _ => free₂, last₁ (lastFree_append.mp lastFree).2⟩
  · rw [← cut.mem_iff, ← used₂ d used, ← used₁ d used]
    have ne : d ≠ c₂ := fun same => Bool.noConfusion (used.symm.trans (same ▸ free₂))
    simp [ne]

/-! ### `malloc` -/

/-- Where a search stops, in the list of pieces. -/
theorem Linked.stop {prev : Nat} (linked : Linked h.mem 0 prev cs) (bounds : ∀ c ∈ cs, 0 < c.base ∧ c.base < 65536) :
    h.stop (cs.length + 1) (BitVec.ofNat 16 (headBase 0 cs)) = some 0 ∨
    ∃ xs c ys, cs = xs ++ c :: ys ∧ c.free = true ∧
      h.stop (cs.length + 1) (BitVec.ofNat 16 (headBase 0 cs)) = some c.at := by
  induction cs generalizing prev with
  | nil => exact Or.inl rfl
  | cons c cs ih =>
    obtain ⟨marker, after⟩ := linked
    obtain ⟨some', low⟩ := bounds c (List.mem_cons_self ..)
    have ne : c.at ≠ 0 := Piece.at_ne_zero some' low
    have step : h.stop (cs.length + 1 + 1) c.at = if c.at = 0 ∨ (h.mem.marker c.at).isFree ≠ 0 then some c.at else
      h.stop (cs.length + 1) (h.mem.marker c.at).next := rfl
    rw [marker] at step
    cases free : c.free with
    | true =>
      have here : (c.marker prev (headBase 0 cs)).isFree ≠ 0 := by simp [Piece.marker, free]
      exact Or.inr ⟨[], c, cs, rfl, free, step.trans (if_pos (Or.inr here))⟩
    | false =>
      have on : ¬ (c.at = 0 ∨ (c.marker prev (headBase 0 cs)).isFree ≠ 0) :=
        not_or.mpr ⟨ne, by simp [Piece.marker, free]⟩
      have step := step.trans (if_neg on)
      obtain stop | ⟨xs, d, ys, rfl, free', stop⟩ := ih after fun d there => bounds d (List.mem_cons_of_mem c there)
      · exact Or.inl (step.trans stop)
      · exact Or.inr ⟨c :: xs, d, ys, rfl, free', step.trans stop⟩

/-- Where the search of `malloc` stops. -/
theorem Heap.Cut.stop (cut : h.Cut first last cs) : ∃ fuel, h.stop fuel h.head = some 0 ∨
    ∃ xs c ys, cs = xs ++ c :: ys ∧ c.free = true ∧ h.stop fuel h.head = some c.at := by
  have bounds : ∀ c ∈ cs, 0 < c.base ∧ c.base < 65536 := fun c there => by
    obtain ⟨low, top, size⟩ := cut.tiles.bounds there
    exact ⟨Nat.lt_of_lt_of_le cut.start low, by have := cut.high; omega⟩
  have head : headBase 0 cs = first := by
    cases cs with
    | nil => exact absurd rfl cut.nonempty
    | cons c cs => exact cut.tiles.1
  refine ⟨cs.length + 1, ?_⟩
  rw [cut.head, ← head]
  exact cut.linked.stop bounds

/-- **`malloc` returns.** -/
theorem Heap.Cut.malloc_returns (cut : h.Cut first last cs) (sz : Word) : ∃ fuel v, malloc fuel sz h = some v := by
  obtain ⟨fuel, stop | ⟨_, _, _, -, -, stop⟩⟩ := cut.stop
  · exact ⟨fuel, _, (mallocLoop_eq sz h fuel h.head).trans (congrArg _ stop)⟩
  · exact ⟨fuel, _, (mallocLoop_eq sz h fuel h.head).trans (congrArg _ stop)⟩

/-- The first free piece. -/
theorem Heap.Cut.firstFree (cut : h.Cut first last cs) {f : Word} (found : h.FirstFree f) :
    ∃ xs c ys, cs = xs ++ c :: ys ∧ c.free = true ∧ f = c.at := by
  obtain ⟨fuel, stop, ne⟩ := found
  obtain ⟨fuel', stop' | ⟨xs, c, ys, same, free, stop'⟩⟩ := cut.stop
  · exact absurd (Heap.stop_unique stop stop') ne
  · exact ⟨xs, c, ys, same, free, Heap.stop_unique stop stop'⟩

/-- What `malloc` did. -/
theorem malloc_cases {fuel : Nat} {sz ptr : Word} {h' : Heap} (returns : malloc fuel sz h = some (ptr, h')) :
    (ptr = 0 ∧ h' = h) ∨ ∃ f, h.FirstFree f ∧ (ptr, h') = h.take sz f := by
  obtain ⟨f, stop, taken⟩ := Option.map_eq_some_iff.mp ((mallocLoop_eq sz h fuel h.head).symm.trans returns)
  by_cases zero : f = 0
  · have null : h.take sz f = (0, h) := if_pos zero
    rw [null] at taken
    exact Or.inl ⟨(congrArg Prod.fst taken).symm, (congrArg Prod.snd taken).symm⟩
  · exact Or.inr ⟨f, ⟨fuel, stop, zero⟩, taken.symm⟩

theorem Heap.take_unfit {sz f : Word} (unfit : ¬ h.Fits sz f) : h.take sz f = (0, h) := by
  have large : ¬ Large sz (h.mem.marker f).size := fun clash => by
    have words := large_iff.mp clash
    exact unfit (by unfold Heap.Fits; omega)
  unfold Heap.take
  by_cases zero : f = 0
  · rw [if_pos zero]
  · rw [if_neg zero, if_neg large, if_neg fun enough => unfit (enough_iff.mp enough)]

/-- A piece with words left over is split. -/
theorem Heap.take_large {sz f : Word} (ne : f ≠ 0) (large : sz.toNat + 8 < (h.mem.marker f).size.toNat) :
    h.take sz f = (f + markerSize, { h with mem := h.mem.split f sz }) := by
  unfold Heap.take
  rw [if_neg ne, if_pos (large_iff.mpr large)]

/-- The size in the marker of a piece. -/
theorem Heap.Cut.size_toNat (cut : h.Cut first last cs) (here : c ∈ cs) :
    (h.mem.marker c.at).size.toNat = c.size := by
  obtain ⟨xs, ys, rfl⟩ := List.append_of_mem here
  obtain ⟨low, size, top, -⟩ := cut.others
  obtain ⟨marker, -⟩ := (linked_append.mp cut.linked).2
  have high := cut.high
  rw [marker]
  exact Nat.mod_eq_of_lt (show c.size < 65536 by omega)

/-- The payload of a piece. -/
theorem Heap.Cut.payload (cut : h.Cut first last cs) (here : c ∈ cs) : (c.at + markerSize).toNat = c.base + 4 := by
  obtain ⟨low, top, size⟩ := cut.tiles.bounds here
  have high := cut.high
  rw [BitVec.toNat_add, Piece.at_toNat (by omega)]
  exact Nat.mod_eq_of_lt (show c.base + 4 < 65536 by omega)

/-- **A free piece is split for `sz` words**: there is one more piece in use. -/
theorem Heap.Cut.splitFree (cut : h.Cut first last (xs ++ c :: ys)) (chain : NoTwoFree (xs ++ c :: ys))
    (lastFree : LastFree (xs ++ c :: ys)) (free : c.free = true) {sz : Word} (large : sz.toNat + 8 < c.size) :
    ∃ cs, Heap.Cut { h with mem := h.mem.split c.at sz } first last cs ∧ NoTwoFree cs ∧ LastFree cs ∧
      ∀ d, d.free = false → (d ∈ cs ↔ d ∈ xs ++ c :: ys ∨ d = ⟨c.base, sz.toNat + 4, false⟩) := by
  refine ⟨_, cut.split large, ?_, ?_, fun d used => ?_⟩
  · obtain ⟨chainBefore, chainRest, join⟩ := List.isChain_append.mp chain
    obtain ⟨head, chainAfter⟩ := List.isChain_cons.mp chainRest
    refine List.isChain_append.mpr ⟨chainBefore, List.isChain_cons.mpr ⟨?_, List.isChain_cons.mpr ⟨?_, chainAfter⟩⟩, ?_⟩
    · exact fun d _ both => Bool.noConfusion both.1
    · exact fun d there both => head d there ⟨free, both.2⟩
    · rintro d - e ⟨⟩ ⟨-, clash⟩
      cases clash
  · refine lastFree_append.mpr ⟨fun none => absurd none (List.cons_ne_nil _ _), ?_⟩
    exact lastFree_cons.mpr ⟨fun _ => rfl, (lastFree_append.mp lastFree).2⟩
  · have ne : d ≠ c := fun same => Bool.noConfusion (used.symm.trans (same ▸ free))
    have ne' : d ≠ ⟨c.base + sz.toNat + 4, c.size - sz.toNat - 4, true⟩ := fun same =>
      Bool.noConfusion (used.symm.trans (congrArg Piece.free same))
    simp only [List.mem_append, List.mem_cons, List.not_mem_nil, or_false, ne, ne', false_or]
    tauto

/-- **A write to the payload of a piece, or outside the arena.** -/
theorem Heap.Cut.write (cut : h.Cut first last cs) {a : Word} (v : Word)
    (allowed : (∃ c ∈ cs, c.base + 4 ≤ a.toNat ∧ a.toNat < c.base + c.size) ∨ a.toNat < first ∨ last ≤ a.toNat) :
    Heap.Cut { h with mem := Function.update h.mem a v } first last cs := by
  refine ⟨cut.start, cut.high, cut.nonempty, cut.tiles, cut.linked.congr fun c there => ?_, cut.head⟩
  refine Memory.marker_update _ _ ?_
  have high := cut.high
  obtain ⟨low, top, size⟩ := cut.tiles.bounds there
  have at' := Piece.at_toNat (c := c) (by omega)
  have bound := a.isLt
  rw [BitVec.toNat_sub, at']
  obtain ⟨d, there', above, below⟩ | outside := allowed
  · obtain rfl | before | behind := cut.tiles.apart there there'
    · omega
    · omega
    · omega
  · omega

/-! ### Runs -/

/-- A block that `malloc` returned: its payload. -/
structure Block where
  ptr : Word
  size : Word
deriving DecidableEq

/-- The heap, and the blocks that were returned and not freed. -/
structure HeapState where
  heap : Heap
  live : List Block

/-- The word at `a` is in the block. -/
def Block.Has (b : Block) (a : Word) : Prop := b.ptr.toNat ≤ a.toNat ∧ a.toNat < b.ptr.toNat + b.size.toNat

/-- What a program does with its heap. -/
inductive HeapOp
  | malloc (sz : Word)
  | free (b : Block)
  | write (a v : Word)

/-- The step `op` leads from `s` to `t`. The program frees what is live, and writes to its blocks and outside the
arena. -/
def HeapStep (first last : Word) (s : HeapState) (op : HeapOp) (t : HeapState) : Prop :=
  match op with
  | .malloc sz => ∃ fuel ptr h, malloc fuel sz s.heap = some (ptr, h) ∧
      t = ⟨h, if ptr = 0 then s.live else ⟨ptr, sz⟩ :: s.live⟩
  | .free b => b ∈ s.live ∧ t = ⟨free b.ptr s.heap, s.live.erase b⟩
  | .write a v => ((∃ b ∈ s.live, b.Has a) ∨ a.toNat < first.toNat ∨ last.toNat ≤ a.toNat) ∧
      t = ⟨{ s.heap with mem := Function.update s.heap.mem a v }, s.live⟩

/-- **The first free piece is split, or is found too small.** -/
def HeapOp.Safe (s : HeapState) : HeapOp → Prop
  | .malloc sz => ∀ f, s.heap.FirstFree f → sz.toNat + 8 < (s.heap.mem.marker f).size.toNat ∨ ¬ s.heap.Fits sz f
  | .free _ => True
  | .write _ _ => True

/-- A safe step. -/
def SafeStep (first last : Word) (s : HeapState) (op : HeapOp) (t : HeapState) : Prop :=
  HeapStep first last s op t ∧ op.Safe s

/-- The piece is in use, and the block is its payload. -/
def Piece.Holds (c : Piece) (b : Block) : Prop :=
  c.free = false ∧ b.ptr.toNat = c.base + 4 ∧ b.size.toNat + 4 ≤ c.size

/-- **Heap safety.** -/
structure HeapSafe (first last : Nat) (s : HeapState) : Prop where
  tiled : ∃ cs, s.heap.Cut first last cs ∧ NoTwoFree cs ∧ ∀ b ∈ s.live, ∃ c ∈ cs, c.Holds b
  inside : ∀ b ∈ s.live, first ≤ b.ptr.toNat ∧ b.ptr.toNat + b.size.toNat ≤ last
  disjoint : s.live.Pairwise fun b d => ∀ a, b.Has a → ¬ d.Has a

/-- What the safe steps keep. -/
structure HeapInv (first last : Nat) (s : HeapState) : Prop where
  cut : ∃ cs, s.heap.Cut first last cs ∧ NoTwoFree cs ∧ LastFree cs ∧ ∀ b ∈ s.live, ∃ c ∈ cs, c.Holds b
  nodup : (s.live.map Block.ptr).Nodup

section Runs

variable {s t : HeapState} {b b' : Block} {op : HeapOp} {ops : List HeapOp}

/-- A block in a piece of the arena has its words in the arena. -/
theorem HeapInv.inside (inv : HeapInv first last s) (here : b ∈ s.live) :
    first ≤ b.ptr.toNat ∧ b.ptr.toNat + b.size.toNat ≤ last := by
  obtain ⟨cs, cut, -, -, holds⟩ := inv.cut
  obtain ⟨c, there, -, base, size⟩ := holds b here
  obtain ⟨low, top, -⟩ := cut.tiles.bounds there
  omega

/-- Blocks of one piece start together. -/
theorem HeapInv.apart (inv : HeapInv first last s) (here : b ∈ s.live) (here' : b' ∈ s.live) (ne : b.ptr ≠ b'.ptr)
    (a : Word) (has : b.Has a) : ¬ b'.Has a := by
  rintro ⟨above', below'⟩
  obtain ⟨above, below⟩ := has
  obtain ⟨cs, cut, -, -, holds⟩ := inv.cut
  obtain ⟨c, there, -, base, size⟩ := holds b here
  obtain ⟨d, there', -, base', size'⟩ := holds b' here'
  obtain rfl | before | behind := cut.tiles.apart there there'
  · exact ne (BitVec.eq_of_toNat_eq (base.trans base'.symm))
  · omega
  · omega

theorem HeapInv.safe (inv : HeapInv first last s) : HeapSafe first last s := by
  refine ⟨?_, fun b here => inv.inside here, ?_⟩
  · obtain ⟨cs, cut, chain, -, holds⟩ := inv.cut
    exact ⟨cs, cut, chain, holds⟩
  · refine (List.pairwise_map.mp inv.nodup).imp_of_mem fun here here' ne => ?_
    exact inv.apart here here' ne

/-- `malloc_init` -/
theorem mallocInit_inv (mem : Memory) {first last : Word} (start : first ≠ 0) (room : first.toNat + 4 ≤ last.toNat) :
    HeapInv first.toNat last.toNat ⟨mallocInit mem first last, []⟩ := by
  have low : last.toNat < 65536 := last.isLt
  have some : 0 < first.toNat := Nat.pos_of_ne_zero fun zero => start (BitVec.eq_of_toNat_eq zero)
  have here : BitVec.ofNat 16 first.toNat = first :=
    (BitVec.ofNat_toNat 16 first).trans (BitVec.setWidth_eq first)
  refine ⟨⟨[⟨first.toNat, last.toNat - first.toNat, true⟩], ⟨some, low, by simp, ?_, ⟨?_, trivial⟩, ?_⟩, .singleton _,
    ?_, ?_⟩, .nil⟩
  · exact ⟨rfl, by dsimp only; omega, Nat.add_sub_cancel' (by omega)⟩
  · have size : last - first = BitVec.ofNat 16 (last.toNat - first.toNat) := by bv_omega
    show (mallocInit mem first last).mem.marker (BitVec.ofNat 16 first.toNat) = _
    rw [here]
    unfold mallocInit
    rw [Memory.marker_setIsFree_self, Memory.marker_setSize_self, Memory.marker_setPrev_self,
      Memory.marker_setNext_self, size]
    rfl
  · exact here.symm
  · rintro c ⟨⟩
    rfl
  · rintro b ⟨⟩

/-- **A safe `malloc`.** -/
theorem HeapInv.malloc (inv : HeapInv first last s) {sz ptr : Word} {fuel : Nat} {h : Heap}
    (returns : malloc fuel sz s.heap = some (ptr, h)) (safe : (HeapOp.malloc sz).Safe s) :
    HeapInv first last ⟨h, if ptr = 0 then s.live else ⟨ptr, sz⟩ :: s.live⟩ := by
  obtain ⟨rfl, rfl⟩ | ⟨f, found, taken⟩ := malloc_cases returns
  · exact ⟨inv.cut, inv.nodup⟩
  · obtain large | unfit := safe f found
    · obtain ⟨cs, cut, chain, lastFree, holds⟩ := inv.cut
      obtain ⟨xs, c, ys, rfl, free, rfl⟩ := cut.firstFree found
      obtain ⟨low, size, top, -⟩ := cut.others
      have high := cut.high
      rw [Heap.take_large found.ne_zero large] at taken
      obtain ⟨rfl, rfl⟩ := Prod.mk.inj taken
      rw [cut.size_toNat (by simp)] at large
      have ptr := cut.payload (c := c) (by simp)
      have some : c.at + markerSize ≠ 0 := fun zero => by
        rw [zero] at ptr
        exact absurd ptr (by simp)
      rw [if_neg some]
      obtain ⟨cs', cut', chain', lastFree', used'⟩ := cut.splitFree chain lastFree free large
      refine ⟨⟨cs', cut', chain', lastFree', fun b here => ?_⟩, ?_⟩
      · obtain rfl | here := List.mem_cons.mp here
        · exact ⟨_, (used' _ rfl).mpr (Or.inr rfl), rfl, ptr, Nat.le_refl _⟩
        · obtain ⟨d, there, held⟩ := holds b here
          exact ⟨d, (used' d held.1).mpr (Or.inl there), held⟩
      · refine List.nodup_cons.mpr ⟨fun there => ?_, inv.nodup⟩
        obtain ⟨b, here, same⟩ := List.mem_map.mp there
        obtain ⟨d, there, used, base, size'⟩ := holds b here
        have same : b.ptr.toNat = c.base + 4 := same ▸ ptr
        have equal := cut.tiles.same there (c := d) (d := c) (by simp) (by omega)
        exact Bool.noConfusion (used.symm.trans (equal ▸ free))
    · rw [Heap.take_unfit unfit] at taken
      obtain ⟨rfl, rfl⟩ := Prod.mk.inj taken
      exact ⟨inv.cut, inv.nodup⟩

/-- **`free` of a live block.** -/
theorem HeapInv.free (inv : HeapInv first last s) (here : b ∈ s.live) :
    HeapInv first last ⟨free b.ptr s.heap, s.live.erase b⟩ := by
  obtain ⟨cs, cut, chain, lastFree, holds⟩ := inv.cut
  obtain ⟨c, there, used, base, size⟩ := holds b here
  obtain ⟨xs, ys, rfl⟩ := List.append_of_mem there
  have at' : b.ptr - markerSize = c.at := by
    unfold Piece.at markerSize
    bv_omega
  obtain ⟨cs, cut', chain', lastFree', used'⟩ := cut.free chain lastFree at'
  have nodup : s.live.Nodup := inv.nodup.of_map
  refine ⟨⟨cs, cut', chain', lastFree', fun b' here' => ?_⟩, inv.nodup.sublist (List.erase_sublist.map _)⟩
  obtain ⟨ne, here'⟩ := nodup.mem_erase_iff.mp here'
  obtain ⟨d, there', held⟩ := holds b' here'
  refine ⟨d, (used' d held.1).mpr ⟨there', fun same => ne ?_⟩, held⟩
  have ptr : b'.ptr = b.ptr := BitVec.eq_of_toNat_eq (held.2.1.trans (same ▸ base.symm))
  exact List.inj_on_of_nodup_map inv.nodup here' here ptr

/-- **A write to a block, or outside the arena.** -/
theorem HeapInv.write (inv : HeapInv first last s) {a : Word} (v : Word)
    (allowed : (∃ b ∈ s.live, b.Has a) ∨ a.toNat < first ∨ last ≤ a.toNat) :
    HeapInv first last ⟨{ s.heap with mem := Function.update s.heap.mem a v }, s.live⟩ := by
  obtain ⟨cs, cut, chain, lastFree, holds⟩ := inv.cut
  refine ⟨⟨cs, cut.write v (allowed.imp_left ?_), chain, lastFree, holds⟩, inv.nodup⟩
  rintro ⟨b, here, above, below⟩
  obtain ⟨d, there, used, base, size⟩ := holds b here
  exact ⟨d, there, by omega, by omega⟩

theorem HeapInv.step {first last : Word} (inv : HeapInv first.toNat last.toNat s) (step : SafeStep first last s op t) :
    HeapInv first.toNat last.toNat t := by
  obtain ⟨step, safe⟩ := step
  cases op with
  | malloc sz =>
    obtain ⟨fuel, ptr, h, returns, rfl⟩ := step
    exact inv.malloc returns safe
  | free b =>
    obtain ⟨here, rfl⟩ := step
    exact inv.free here
  | write a v =>
    obtain ⟨allowed, rfl⟩ := step
    exact inv.write v allowed

theorem heapRun_inv {first last : Word} (mem : Memory) (start : first ≠ 0) (room : first.toNat + 4 ≤ last.toNat)
    (run : Run (SafeStep first last) ⟨mallocInit mem first last, []⟩ ops t) : HeapInv first.toNat last.toNat t :=
  run.preserves (fun _ _ _ inv step => inv.step step) (mallocInit_inv mem start room)

/-- **Heap safety over runs**: in every state that safe steps lead to, the blocks are in the arena, apart and large
enough, the markers tile the arena, and `malloc` returns. -/
theorem heap_safe {first last : Word} (mem : Memory) (start : first ≠ 0) (room : first.toNat + 4 ≤ last.toNat)
    (run : Run (SafeStep first last) ⟨mallocInit mem first last, []⟩ ops t) :
    HeapSafe first.toNat last.toNat t ∧ ∀ sz, ∃ fuel v, malloc fuel sz t.heap = some v := by
  have inv := heapRun_inv mem start room run
  obtain ⟨cs, cut, -⟩ := inv.cut
  exact ⟨inv.safe, cut.malloc_returns⟩

/-- **After `malloc_init(0x1000, 0x2000)`, `malloc(1)` and `free`.** -/
theorem heap_safe_freed : ∃ t, Run (SafeStep 0x1000 0x2000) ⟨mallocInit (fun _ => 0) 0x1000 0x2000, []⟩
    [.malloc 1, .free ⟨0x1004, 1⟩] t ∧ HeapSafe 0x1000 0x2000 t := by
  have large : (HeapOp.malloc 1).Safe ⟨mallocInit (fun _ => 0) 0x1000 0x2000, []⟩ := by
    rintro f ⟨fuel, stop, -⟩
    have here : (mallocInit (fun _ => 0) 0x1000 0x2000).stop 1 0x1000 = some 0x1000 := rfl
    obtain rfl := Heap.stop_unique stop here
    exact Or.inl (by decide)
  have run : Run (SafeStep 0x1000 0x2000) ⟨mallocInit (fun _ => 0) 0x1000 0x2000, []⟩
      [.malloc 1, .free ⟨0x1004, 1⟩] _ :=
    .cons ⟨⟨1, 0x1004, _, rfl, rfl⟩, large⟩ (.single ⟨⟨List.mem_cons_self .., rfl⟩, trivial⟩)
  exact ⟨_, run, (heap_safe _ (by decide) (by decide) run).1⟩

end Runs

/-! ### A block given out twice -/

/-- **An arena of 13 words**: `malloc(5)` takes all of it and leaves it free, and the second `malloc(5)` does the
same. -/
theorem heap_unsafe : ∃ ops t, Run (HeapStep 0x1000 0x100d) ⟨mallocInit (fun _ => 0) 0x1000 0x100d, []⟩ ops t ∧
    ¬ HeapSafe 0x1000 0x100d t := by
  have returns : malloc 1 5 (mallocInit (fun _ => 0) 0x1000 0x100d) =
      some (0x1004, mallocInit (fun _ => 0) 0x1000 0x100d) := rfl
  have twice : Run (HeapStep 0x1000 0x100d) ⟨mallocInit (fun _ => 0) 0x1000 0x100d, []⟩ [.malloc 5, .malloc 5]
      ⟨mallocInit (fun _ => 0) 0x1000 0x100d, [⟨0x1004, 5⟩, ⟨0x1004, 5⟩]⟩ :=
    .cons ⟨1, _, _, returns, rfl⟩ (.single ⟨1, _, _, returns, rfl⟩)
  refine ⟨_, _, twice, fun safe => ?_⟩
  have apart := (List.pairwise_cons.mp safe.disjoint).1 _ (List.mem_cons_self ..) 0x1004
  have has : Block.Has ⟨0x1004, 5⟩ 0x1004 := ⟨by decide, by decide⟩
  exact apart has has

end RlCpu.Libc
