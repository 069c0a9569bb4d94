/-
**Machine words and disk blocks.**

The target's `int`, `unsigned int`, `size_t`, `blk_t` and pointers are 16 bits wide (`types.h`, the
compiler's metrics); a disk block is 256 of them. `off_t` is 32 bits and is kept as a `Nat`, with the
reduction modulo `2 ^ 32` written where the source can reach it.
-/

import Mathlib.Data.BitVec
import Mathlib.Logic.Function.Basic

namespace RlCpu.Kernel

/-- A 16-bit machine word. -/
abbrev Word := BitVec 16

/-- The `data` array of a block: 256 words. -/
def BlockData : Type := Fin 256 → Word

namespace BlockData

/-- `data[i]`. Callers keep `i` below 256. -/
def word (b : BlockData) (i : Nat) : Word :=
  if h : i < 256 then b ⟨i, h⟩ else 0

/-- `data[i] = v`. -/
def put (b : BlockData) (i : Nat) (v : Word) : BlockData :=
  fun j => if j.val = i then v else b j

/-- A block given by a function of the index. -/
def ofFn (f : Nat → Word) : BlockData := fun j => f j.val

instance : Inhabited BlockData := ⟨fun _ => 0⟩

theorem ext_word {a b : BlockData} (same : ∀ i < 256, a.word i = b.word i) : a = b := by
  funext j
  have here := same j.val j.isLt
  simpa [word, j.isLt] using here

theorem word_put (b : BlockData) (i j : Nat) (v : Word) (small : i < 256) :
    (b.put i v).word j = if j = i then v else b.word j := by
  unfold word put
  by_cases same : j = i
  · subst same
    simp [small]
  · by_cases low : j < 256 <;> simp [low, same]

@[simp] theorem word_put_self (b : BlockData) {i : Nat} (v : Word) (small : i < 256) :
    (b.put i v).word i = v := by
  rw [word_put b i i v small, if_pos rfl]

theorem word_put_ne (b : BlockData) {i j : Nat} (v : Word) (ne : j ≠ i) :
    (b.put i v).word j = b.word j := by
  unfold word put
  by_cases low : j < 256 <;> simp [low, ne]

theorem word_ofFn (f : Nat → Word) {i : Nat} (small : i < 256) : (ofFn f).word i = f i := by
  simp [word, ofFn, small]

end BlockData

/-- `DEV_MINOR` -/
def devMinor (device : Word) : Word := device &&& 0xff

/-- A device number and a block number on it. -/
abbrev BlockKey := Word × Word

/-- The address after `n + 1` words. -/
theorem add_ofNat_succ (addr : Word) (n : Nat) : addr + BitVec.ofNat 16 (n + 1) = addr + 1 + BitVec.ofNat 16 n := by
  rw [BitVec.add_assoc, Nat.add_comm n 1, BitVec.ofNat_add]
  rfl

end RlCpu.Kernel
