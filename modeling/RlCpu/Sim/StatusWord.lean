/-
**The program counter and the status word.**

`PC` is a block number and a position within its block of 8 words; the status word holds the position,
the selector of the MMU and three flags. `Cpu.setSW_sw` and `Cpu.pc_restored` put the parts together
again.
-/

import RlCpu.Sim.Cpu
import Mathlib.Data.Nat.Bitwise

namespace RlCpu.Sim

open RlCpu.Kernel

/-! ### The program counter -/

theorem and_low (n : Nat) : n &&& 7 = n % 8 := Nat.and_two_pow_sub_one_eq_mod n 3

/-- The mask of the block number, bit by bit. -/
theorem and_high (n : Nat) : n &&& 0x7fff8 = n % 0x80000 / 8 * 8 := by
  have mask : 0x7fff8 = (2 ^ 16 - 1) * 2 ^ 3 := rfl
  have size : 0x80000 = 2 ^ 19 := rfl
  have block : 8 = 2 ^ 3 := rfl
  apply Nat.eq_of_testBit_eq
  intro i
  rw [mask, size, block, Nat.testBit_and, Nat.testBit_mul_two_pow, Nat.testBit_two_pow_sub_one,
    Nat.testBit_mul_two_pow, Nat.testBit_div_two_pow, Nat.testBit_mod_two_pow]
  by_cases low : 3 ≤ i
  · have inside : (i - 3 < 16) ↔ (i < 19) := by omega
    simp [low, inside, Bool.and_comm]
  · simp [low]

/-- A block and a position in it share no bits. -/
theorem or_low (n : Nat) {v : Nat} (small : v < 8) : n * 8 ||| v = n * 8 + v := by
  rw [show n * 8 = n <<< 3 from (Nat.shiftLeft_eq n 3).symm]
  exact (Nat.shiftLeft_add_eq_or_of_lt (show v < 2 ^ 3 from small) n).symm

namespace Cpu

variable {μ : Type} (k : Cpu μ)

theorem setMPC_pc (val : Word) : (k.setMPC val).pc = k.pc % 0x80000 / 8 * 8 + val.toNat % 8 := by
  unfold setMPC
  show (k.pc &&& 0x7fff8) ||| (val.toNat &&& 7) = _
  rw [and_high, and_low, or_low _ (Nat.mod_lt _ (by decide))]

theorem setHighPC_pc (val : Word) : (k.setHighPC val).pc = val.toNat * 8 + k.pc % 8 := by
  unfold setHighPC
  show (k.pc &&& 7) ||| (val.toNat * 8) = _
  rw [and_low, Nat.or_comm, or_low _ (Nat.mod_lt _ (by decide))]

/-- A jump leads to the start of a block. -/
theorem jump_pc (target : Word) : (k.jump target).pc = target.toNat * 8 := by
  have low : target.toNat < 65536 := target.isLt
  show (k.setHighPC target).pc &&& 0x7fff8 = _
  rw [and_high, setHighPC_pc]
  omega

theorem mPC_toNat : k.mPC.toNat = k.pc % 8 := by
  unfold mPC
  rw [and_low, BitVec.toNat_ofNat]
  omega

theorem highPC_toNat (low : k.pc < 0x80000) : k.highPC.toNat = k.pc / 8 := by
  unfold highPC
  rw [BitVec.toNat_ofNat]
  omega

/-! ### The status word -/

theorem mPC_getLsbD {j : Nat} (high : 3 ≤ j) : k.mPC.getLsbD j = false := by
  unfold mPC
  rw [BitVec.getLsbD_ofNat, show k.pc &&& 7 = k.pc &&& 2 ^ 3 - 1 from rfl, Nat.testBit_and,
    Nat.testBit_two_pow_sub_one]
  have above : ¬ j < 3 := by omega
  simp [above]

end Cpu

theorem flag_getLsbD (b : Bool) {n j : Nat} (low : j < 16) :
    ((if b then 1 else 0 : Word) <<< n).getLsbD j = (b && decide (j = n)) := by
  cases b
  · simp
  · rw [if_pos rfl, show (1 : Word) = 1#16 from rfl, BitVec.getLsbD_shiftLeft, BitVec.getLsbD_one]
    by_cases same : j = n
    · simp [same]
      omega
    · simp [same, low]
      omega

theorem low_getLsbD (m : Word) (n : Nat) {j : Nat} (low : j < 16) :
    (m &&& BitVec.ofNat 16 (2 ^ n - 1)).getLsbD j = (decide (j < n) && m.getLsbD j) := by
  rw [BitVec.getLsbD_and, BitVec.getLsbD_ofNat, Nat.testBit_two_pow_sub_one]
  simp [low, Bool.and_comm]

/-- The test of one bit. -/
theorem flag_and (m : Word) {n : Nat} (low : n < 16) :
    (m &&& ((1 : Word) <<< n) != 0) = m.getLsbD n := by
  have bit : m &&& ((1 : Word) <<< n) = if m.getLsbD n then BitVec.twoPow 16 n else 0#16 := by
    rw [← BitVec.and_twoPow, BitVec.twoPow_eq]
    rfl
  rw [bit]
  cases m.getLsbD n
  · rfl
  · rw [if_pos rfl, bne_iff_ne]
    intro zero
    have one := congrArg (fun v => BitVec.getLsbD v n) zero
    simp [low] at one

/-- A word with nothing above its low byte. -/
theorem byte_eq_self {m : Word} (small : m.toNat < 256) : m &&& (0xff : Word) = m := by
  apply BitVec.eq_of_toNat_eq
  rw [BitVec.toNat_and, show (0xff : Word).toNat = 2 ^ 8 - 1 from rfl, Nat.and_two_pow_sub_one_eq_mod]
  exact Nat.mod_eq_of_lt small

namespace Cpu

variable {μ : Type} (k : Cpu μ)

/-- **The bits of the status word.** -/
theorem sw_getLsbD {j : Nat} (low : j < 16) : k.sw.getLsbD j =
    (decide (j < 8) && k.mmuEntrySelector.getLsbD j || decide (8 ≤ j) && k.mPC.getLsbD (j - 8) ||
      k.intEnabled && decide (j = 12) || k.userMode && decide (j = 13) ||
      k.commitEnabled && decide (j = 14)) := by
  unfold sw
  rw [show (0xff : Word) = BitVec.ofNat 16 (2 ^ 8 - 1) from rfl, BitVec.getLsbD_or, BitVec.getLsbD_or,
    BitVec.getLsbD_or, BitVec.getLsbD_or, low_getLsbD _ _ low, flag_getLsbD _ low, flag_getLsbD _ low,
    flag_getLsbD _ low, BitVec.getLsbD_shiftLeft]
  by_cases small : j < 8
  · have below : ¬ 8 ≤ j := by omega
    simp [small, below]
  · have above : 8 ≤ j := by omega
    simp [small, above, low]

theorem sw_selector : k.sw &&& (0xff : Word) = k.mmuEntrySelector &&& (0xff : Word) := by
  rw [show (0xff : Word) = BitVec.ofNat 16 (2 ^ 8 - 1) from rfl]
  apply BitVec.eq_of_getLsbD_eq
  intro j low
  rw [low_getLsbD _ _ low, low_getLsbD _ _ low, k.sw_getLsbD low]
  by_cases small : j < 8
  · have apart : ¬ 8 ≤ j ∧ j ≠ 12 ∧ j ≠ 13 ∧ j ≠ 14 := by omega
    simp [small, apart]
  · simp [small]

theorem sw_mPC : (k.sw &&& ((7 : Word) <<< 8)) >>> 8 = k.mPC := by
  apply BitVec.eq_of_getLsbD_eq
  intro j low
  rw [BitVec.getLsbD_ushiftRight, BitVec.getLsbD_and,
    show (7 : Word) = BitVec.ofNat 16 (2 ^ 3 - 1) from rfl, BitVec.getLsbD_shiftLeft,
    BitVec.getLsbD_ofNat, Nat.testBit_two_pow_sub_one]
  by_cases inside : j < 3
  · have apart : ¬ 8 + j < 8 ∧ 8 + j ≠ 12 ∧ 8 + j ≠ 13 ∧ 8 + j ≠ 14 ∧ 8 + j < 16 := by omega
    rw [k.sw_getLsbD apart.2.2.2.2]
    simp [apart, inside, low]
  · rw [k.mPC_getLsbD (by omega)]
    simp [inside]

theorem sw_flags : k.sw.getLsbD 12 = k.intEnabled ∧ k.sw.getLsbD 13 = k.userMode ∧
    k.sw.getLsbD 14 = k.commitEnabled := by
  have bit : ∀ j, 3 ≤ j → k.mPC.getLsbD j = false := fun j high => k.mPC_getLsbD high
  refine ⟨?_, ?_, ?_⟩
  all_goals
    rw [k.sw_getLsbD (by decide), bit _ (by decide)]
    simp

variable {k}

/-- **What `set_SW` restores from a status word.** -/
theorem setSW_sw (t : Cpu μ) (selector : k.mmuEntrySelector.toNat < 256) :
    t.setSW k.sw = ((((t.withCommitEnabled k.commitEnabled).withUserMode k.userMode).withIntEnabled
      k.intEnabled).withPC (t.pc % 0x80000 / 8 * 8 + k.pc % 8)).withMMUEntrySelector k.mmuEntrySelector := by
  have pc := t.setMPC_pc k.mPC
  rw [k.mPC_toNat, Nat.mod_mod] at pc
  obtain ⟨int, user, commit⟩ := k.sw_flags
  unfold setSW
  rw [sw_mPC, sw_selector, byte_eq_self selector, flag_and _ (by decide), flag_and _ (by decide),
    flag_and _ (by decide), int, user, commit, ← pc]
  rfl

/-- The block and the position put the program counter together. -/
theorem pc_restored (low : k.pc < 0x80000) (t : Cpu μ) :
    (t.setHighPC k.highPC).pc % 0x80000 / 8 * 8 + k.pc % 8 = k.pc := by
  rw [setHighPC_pc, k.highPC_toNat low]
  omega

end Cpu

end RlCpu.Sim
