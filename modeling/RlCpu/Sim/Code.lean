/-
**Words of code.**

The low byte of a word of code is the number of its operation, the high byte may be an operand. What the
processor takes for them: `Op.decode_wordB` and `irHigh_wordB`.
-/

import RlCpu.Sim.Cpu
import RlCpu.Sim.StatusWord

namespace RlCpu.Sim

open RlCpu.Kernel

/-- The word of an operation, with nothing in its high byte. -/
def Op.word (op : Op) : Word := BitVec.ofNat 16 op.code

/-- The word of an operation with a byte for its operand. -/
def Op.wordB (op : Op) (arg : Word) : Word := (arg <<< 8) ||| op.word

theorem Op.code_lt (op : Op) : op.code < 256 := by
  cases op <;> decide

theorem Op.word_toNat (op : Op) : op.word.toNat = op.code := by
  unfold Op.word
  rw [BitVec.toNat_ofNat]
  exact Nat.mod_eq_of_lt (lt_trans op.code_lt (by decide))

theorem Op.word_low (op : Op) : op.word &&& (0xff : Word) = op.word :=
  byte_eq_self (by rw [op.word_toNat]; exact op.code_lt)

theorem Op.decode_word (op : Op) : Op.decode (op.word &&& (0xff : Word)).toNat = some op := by
  rw [op.word_low, op.word_toNat, Op.decode_code]

/-- An operand does not touch the low byte. -/
theorem shifted_low (arg : Word) : (arg <<< 8) &&& (0xff : Word) = 0#16 := by
  apply BitVec.eq_of_getLsbD_eq
  intro i low
  rw [show (0xff : Word) = BitVec.ofNat 16 (2 ^ 8 - 1) from rfl, BitVec.getLsbD_and,
    BitVec.getLsbD_ofNat, Nat.testBit_two_pow_sub_one, BitVec.getLsbD_shiftLeft]
  by_cases small : i < 8
  · simp [small]
  · simp [small]

/-- An operation does not touch the high byte. -/
theorem Op.word_high (op : Op) : op.word >>> 8 = 0#16 := by
  apply BitVec.eq_of_toNat_eq
  rw [BitVec.toNat_ushiftRight, op.word_toNat, Nat.shiftRight_eq_div_pow]
  exact Nat.div_eq_of_lt op.code_lt

theorem Op.decode_wordB (op : Op) (arg : Word) :
    Op.decode (op.wordB arg &&& (0xff : Word)).toNat = some op := by
  have low : op.wordB arg &&& (0xff : Word) = op.word := by
    unfold Op.wordB
    rw [BitVec.and_comm, BitVec.and_or_distrib_left, BitVec.and_comm, shifted_low, BitVec.and_comm,
      op.word_low, BitVec.zero_or]
  rw [low, op.word_toNat, Op.decode_code]

/-- The operand in the high byte. -/
theorem Op.wordB_high (op : Op) (arg : Word) :
    (op.wordB arg >>> 8) &&& (0xff : Word) = arg &&& (0xff : Word) := by
  unfold Op.wordB
  rw [BitVec.ushiftRight_or_distrib, op.word_high, BitVec.or_zero]
  apply BitVec.eq_of_getLsbD_eq
  intro i low
  rw [show (0xff : Word) = BitVec.ofNat 16 (2 ^ 8 - 1) from rfl, low_getLsbD _ _ low,
    low_getLsbD _ _ low, BitVec.getLsbD_ushiftRight, BitVec.getLsbD_shiftLeft]
  by_cases small : i < 8
  · have inside : 8 + i < 16 := by omega
    simp [small, inside]
  · simp [small]

/-- The number of a byte with its sign. -/
def byteValue (arg : Word) : Word :=
  let t := arg &&& (0xff : Word)
  if t &&& (0x80 : Word) ≠ 0 then t ||| (0xff00 : Word) else t

/-- **The operand of an instruction with a byte.** -/
theorem irHigh_wordB {μ : Type} (k : Cpu μ) (op : Op) (arg : Word) (ir : k.ir = op.wordB arg) :
    k.irHigh = byteValue arg := by
  unfold Cpu.irHigh byteValue
  rw [ir, op.wordB_high]

-- The number of an operation is a search in `Op.all`; a comparison of two states is not to start it.
attribute [irreducible] Op.word Op.wordB

end RlCpu.Sim
