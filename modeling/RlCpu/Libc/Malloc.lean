/-
**The heap of the C library (`malloc.c`, `memcpy.s`).**

The arena is cut into pieces. A piece starts with a `Marker` of four words, and the payload follows: the address that
`malloc` returns. An address is 16 bits wide, and an addition past the end of memory starts at address 0 again. `sizeof`
is an `unsigned long`: the sums in the size tests of `malloc` are of 32 bits, and do not wrap.

* `malloc`: the first free piece is split, taken as it is, or found too small.
* `free`: the piece is merged with the next and with the one before.
* `realloc`: a new piece of the size *of the old one*, whatever size was asked for.
-/

import Mathlib.Data.BitVec
import Mathlib.Logic.Function.Basic

namespace RlCpu.Libc

/-- A 16-bit machine word. -/
abbrev Word := BitVec 16

/-- The memory of a process. -/
abbrev Memory := Word → Word

/-- `struct Marker` -/
@[ext] structure Marker where
  next : Word
  prev : Word
  size : Word
  isFree : Word
deriving DecidableEq

/-- `sizeof(Marker_t)` -/
def sizeofMarker : BitVec 32 := 4

/-- `(size_t)sizeof(Marker_t)` -/
def markerSize : Word := 4

namespace Memory

/-- The marker at `it`. -/
def marker (m : Memory) (it : Word) : Marker := ⟨m it, m (it + 1), m (it + 2), m (it + 3)⟩

/-- `it->next = v` -/
def setNext (m : Memory) (it v : Word) : Memory := Function.update m it v

/-- `it->prev = v` -/
def setPrev (m : Memory) (it v : Word) : Memory := Function.update m (it + 1) v

/-- `it->size = v` -/
def setSize (m : Memory) (it v : Word) : Memory := Function.update m (it + 2) v

/-- `it->isFree = v` -/
def setIsFree (m : Memory) (it v : Word) : Memory := Function.update m (it + 3) v

end Memory

/-- The memory, and `malloc_head`. -/
structure Heap where
  mem : Memory
  head : Word

/-- `malloc_init` -/
def mallocInit (mem : Memory) (first last : Word) : Heap where
  mem := (((mem.setNext first 0).setPrev first 0).setSize first (last - first)).setIsFree first 1
  head := first

/-! ### `malloc` -/

/-- The piece at `iter` is split: `sz` words for the caller, and a free piece with the rest. -/
def Memory.split (m : Memory) (iter sz : Word) : Memory :=
  let newEntry := iter + sz + markerSize
  let m := m.setPrev newEntry iter
  let m := m.setNext newEntry (m.marker iter).next
  let m := if (m.marker newEntry).next ≠ 0 then m.setPrev (m.marker newEntry).next newEntry else m
  let m := m.setSize newEntry ((m.marker iter).size - sz - markerSize)
  let m := m.setIsFree newEntry 1
  let m := m.setNext iter newEntry
  let m := m.setSize iter (sz + markerSize)
  m.setIsFree iter 0

/-- The first size test of `malloc`: there are words left over for one more piece. -/
def Large (sz size : Word) : Prop := sz.setWidth 32 + 2 * sizeofMarker < size.setWidth 32

/-- The second size test: `sz` words and a marker. -/
def Enough (sz size : Word) : Prop := sz.setWidth 32 + sizeofMarker ≤ size.setWidth 32

instance (sz size : Word) : Decidable (Large sz size) := by unfold Large; infer_instance

instance (sz size : Word) : Decidable (Enough sz size) := by unfold Enough; infer_instance

/-- The loop of `malloc` from `iter` on; `none` where the fuel does not do. -/
def mallocLoop (sz : Word) (h : Heap) : Nat → Word → Option (Word × Heap)
  | 0, _ => none
  | fuel + 1, iter =>
      if iter = 0 then some (0, h)
      else if (h.mem.marker iter).isFree ≠ 0 then
        if Large sz (h.mem.marker iter).size then
          some (iter + markerSize, { h with mem := h.mem.split iter sz })
        else if Enough sz (h.mem.marker iter).size then some (iter + markerSize, h)
        else some (0, h)
      else mallocLoop sz h fuel (h.mem.marker iter).next

/-- `malloc`. Where the list has an end, there is fuel enough. -/
def malloc (fuel : Nat) (sz : Word) (h : Heap) : Option (Word × Heap) := mallocLoop sz h fuel h.head

/-! ### `free` -/

/-- The first half of `free`: the next piece, if it is free, becomes a part of the one at `it`. -/
def Memory.mergeForward (m : Memory) (it : Word) : Memory :=
  if (m.marker it).next ≠ 0 ∧ (m.marker (m.marker it).next).isFree ≠ 0 then
    let m := m.setSize it ((m.marker it).size + (m.marker (m.marker it).next).size)
    let m := m.setNext it (m.marker (m.marker it).next).next
    if (m.marker it).next ≠ 0 then m.setPrev (m.marker it).next it else m
  else m

/-- The second half: the piece at `it` becomes a part of the one before, if that is free. -/
def Memory.mergeBackward (m : Memory) (it : Word) : Memory :=
  if (m.marker it).prev ≠ 0 ∧ (m.marker (m.marker it).prev).isFree ≠ 0 then
    let m := m.setSize (m.marker it).prev ((m.marker (m.marker it).prev).size + (m.marker it).size)
    let m := m.setNext (m.marker it).prev (m.marker it).next
    if (m.marker it).next ≠ 0 then m.setPrev (m.marker it).next (m.marker it).prev else m
  else m

/-- `free` -/
def free (ptr : Word) (h : Heap) : Heap :=
  let it := ptr - markerSize
  { h with mem := ((h.mem.setIsFree it 1).mergeForward it).mergeBackward it }

/-! ### `realloc` -/

/-- `memcpy`: the words of the source and where they go, in order. -/
def memcpyMoves (dst src n : Word) : List (Word × Word) :=
  (List.range n.toNat).map fun i => (src + BitVec.ofNat 16 i, dst + BitVec.ofNat 16 i)

/-- The moves, one after the other. -/
def runMoves (m : Memory) (moves : List (Word × Word)) : Memory :=
  moves.foldl (fun m move => Function.update m move.2 (m move.1)) m

/-- `memcpy` -/
def memcpy (dst src n : Word) (h : Heap) : Heap := { h with mem := runMoves h.mem (memcpyMoves dst src n) }

end RlCpu.Libc
