/-
**Signed division (`__builtin_DIVI1`, `__builtin_MODI1`, `__builtin_DIVI2` and `__builtin_MODI2` of `math.s`).**

The signed names are labels of the unsigned routines, so a negative operand counts as a number from the upper half on.
The compiler folds the same division of constants with its sign.

* `sdiv_eq_udiv`: where both quotients are one.
* `first1_sdiv_iff`, `first2_sdiv_iff`: where the routines' answers are the signed quotient.
* `divi_right`: where all four routines do what C and `simplify` do.
-/

import RlCpu.Binutils.DivideLong
import RlCpu.Lcc.Quotient
import Mathlib.Data.Nat.Log

namespace RlCpu.Binutils

open RlCpu.Kernel RlCpu.Lib RlCpu.Lcc RlCpu.Sim Relation

variable {ι : Type} {D : Devices ι} {w : Nat}

/-! ### Quotients towards zero -/

/-- **`q` and `r` are quotient and remainder as in C**: the quotient is truncated towards zero, and the remainder has
the sign of the dividend. -/
structure Truncates (a b q r : BitVec w) : Prop where
  quotient : q.toInt = a.toInt.tdiv b.toInt
  whole : q.toInt * b.toInt + r.toInt = a.toInt
  sign : 0 ≤ r.toInt * a.toInt

section Truncates

variable {a b q r : BitVec w}

theorem truncates_iff (fits : a ≠ BitVec.intMin w ∨ b ≠ -1) : Truncates a b q r ↔ q = a.sdiv b ∧ r = a.srem b := by
  have quotient := BitVec.toInt_sdiv_of_ne_or_ne a b fits
  have remainder := BitVec.toInt_srem a b
  have split := Int.tdiv_mul_add_tmod a.toInt b.toInt
  constructor
  · intro truncates
    have same := truncates.quotient
    have whole := truncates.whole
    rw [same] at whole
    exact ⟨BitVec.eq_of_toInt_eq (by omega), BitVec.eq_of_toInt_eq (by omega)⟩
  · rintro ⟨rfl, rfl⟩
    refine ⟨quotient, by rw [quotient, remainder, split], ?_⟩
    rw [remainder]
    rcases le_total 0 a.toInt with positive | negative
    · exact mul_nonneg (Int.tmod_nonneg _ positive) positive
    · refine mul_nonneg_of_nonpos_of_nonpos ?_ negative
      have rest := Int.tmod_nonneg b.toInt (Int.neg_nonneg_of_nonpos negative)
      rw [Int.neg_tmod] at rest
      omega

theorem udiv_eq_zero (less : a.toNat < b.toNat) : a / b = 0 := by
  apply BitVec.eq_of_toNat_eq
  rw [BitVec.toNat_udiv, Nat.div_eq_of_lt less]
  exact BitVec.toNat_zero.symm

/-- The number in a word without its sign. -/
theorem toInt_pos (sign : a.msb = false) : a.toInt = a.toNat ∧ 2 * a.toNat < 2 ^ w := by
  rw [BitVec.toInt_eq_msb_cond, sign]
  exact ⟨rfl, BitVec.msb_eq_false_iff_two_mul_lt.mp sign⟩

theorem toInt_neg (sign : a.msb = true) : a.toInt + (-a).toNat = 0 ∧ a.toNat + (-a).toNat = 2 ^ w ∧
    2 ^ w ≤ 2 * a.toNat := by
  have upper := BitVec.msb_eq_true_iff_two_mul_ge.mp sign
  have high := a.isLt
  have whole : a.toNat + (-a).toNat = 2 ^ w := by
    rw [BitVec.toNat_neg, Nat.mod_eq_of_lt (by omega)]
    omega
  rw [BitVec.toInt_eq_msb_cond, sign, if_pos rfl]
  omega

/-- A quotient that is right without the signs. -/
theorem sdiv_eq_udiv (positive : 0 ≤ a.toInt) (range : 0 < b.toInt ∨ a.toInt < -b.toInt) : a.sdiv b = a / b := by
  have signA : a.msb = false := by rw [BitVec.msb_eq_toInt, decide_eq_false (by omega)]
  obtain ⟨wordA, lowA⟩ := toInt_pos signA
  rw [BitVec.sdiv_eq, signA]
  cases signB : b.msb with
  | false => rfl
  | true =>
    obtain ⟨wordB, whole, highB⟩ := toInt_neg signB
    show -(a / -b) = a / b
    rw [udiv_eq_zero (show a.toNat < (-b).toNat by omega), udiv_eq_zero (show a.toNat < b.toNat by omega), neg_zero]

end Truncates

/-! ### Words -/

section Words

variable {a b : Word} {k : Nat}

/-- A negative dividend by a positive divisor: the sums turn around before they come to the quotient, but for the
divisor 1. -/
theorem first1_neg_pos {A B k : Nat} (highA : 32768 ≤ A) (lowA : A < 65536) (posB : 0 < B) (lowB : B < 32768)
    (first : FirstAbove (fun j => B * j % 65536) A k) (count : k - 1 = (65536 - (65536 - A) / B) % 65536) :
    B = 1 ∧ A < 65535 := by
  have beyond : A < B * k % 65536 := first.2
  have multiple := Nat.div_mul_le_self (65536 - A) B
  have few : (65536 - A) / B ≤ 65536 - A := Nat.div_le_self _ _
  rcases Nat.eq_zero_or_pos ((65536 - A) / B) with none | some
  · rw [none] at count
    have one : k = 1 := by
      rcases Nat.eq_zero_or_pos k with zero | positive
      · rw [zero, Nat.mul_zero, Nat.zero_mod] at beyond
        exact absurd beyond (Nat.not_lt_zero _)
      · omega
    rw [one, Nat.mul_one] at beyond
    omega
  · have turns : k + (65536 - A) / B = 65537 := by omega
    have sum : B * k + B * ((65536 - A) / B) = B * 65537 := by rw [← Nat.mul_add, turns]
    rw [Nat.mul_comm] at multiple
    rcases Nat.lt_or_ge 1 B with more | one
    · -- the last sum before the second turn is beyond the dividend already
      have next := Nat.div_add_mod 65536 B
      have rest := Nat.mod_lt 65536 posB
      have early : (65536 - A) / B ≤ 65536 / B := Nat.div_le_div_right (Nat.sub_le _ _)
      have half : 65536 / B ≤ 65536 / 2 := Nat.div_le_div_left more (by decide)
      have before : B * (65535 - 65536 / B) + B * (65536 / B) = B * 65535 := by
        rw [← Nat.mul_add]
        congr 1
        omega
      have low : B * (65535 - 65536 / B) % 65536 ≤ A := first.1 _ (by omega)
      have twice : B * ((65536 - A) / B) = B ∨ 2 * B ≤ B * ((65536 - A) / B) := by
        rcases Nat.lt_or_ge 1 ((65536 - A) / B) with two | once
        · exact Or.inr (by rw [Nat.mul_comm 2]; exact Nat.mul_le_mul_left B two)
        · exact Or.inl (by rw [show (65536 - A) / B = 1 by omega, Nat.mul_one])
      omega
    · obtain rfl : B = 1 := by omega
      omega

/-- What two negative operands leave. -/
theorem first1_neg_neg {A B k : Nat} (highA : 32768 ≤ A) (lowA : A < 65536) (highB : 32768 ≤ B) (lowB : B < 65536)
    (first : FirstAbove (fun j => B * j % 65536) A k) : k - 1 ≠ (65536 - A) / (65536 - B) := by
  have beyond : A < B * k % 65536 := first.2
  have positive : 0 < k := Nat.pos_of_ne_zero fun zero => by
    rw [zero, Nat.mul_zero, Nat.zero_mod] at beyond
    exact Nat.not_lt_zero _ beyond
  intro count
  rcases Nat.lt_trichotomy A B with less | same | more
  · have one : k ≤ 1 := Nat.le_of_not_lt fun late => by
      have low : B * 1 % 65536 ≤ A := first.1 1 late
      omega
    have quotient : 1 ≤ (65536 - A) / (65536 - B) := (Nat.le_div_iff_mul_le (by omega)).mpr (by omega)
    omega
  · subst same
    rw [Nat.div_self (by omega)] at count
    obtain rfl : k = 2 := by omega
    omega
  · rw [Nat.div_eq_of_lt (by omega)] at count
    obtain rfl : k = 1 := by omega
    omega

/-- The count of the sums is the signed quotient. -/
theorem First1.signed (first : First1 a b k) (nonzero : b ≠ 0) (right : BitVec.ofNat 16 k - 1 = a.sdiv b) :
    0 ≤ a.toInt ∧ (0 < b.toInt ∨ a.toInt < -b.toInt) ∨ b = 1 ∧ a.toInt < -1 := by
  have count := congrArg BitVec.toNat right
  have positive : 0 < b.toNat := Nat.pos_of_ne_zero fun zero => nonzero (BitVec.eq_of_toNat_eq zero)
  rw [first.count, BitVec.sdiv_eq] at count
  cases signA : a.msb with
  | false =>
    obtain ⟨wordA, lowA⟩ := toInt_pos signA
    refine Or.inl ⟨by omega, ?_⟩
    cases signB : b.msb with
    | false =>
      obtain ⟨wordB, -⟩ := toInt_pos signB
      exact Or.inl (by omega)
    | true =>
      obtain ⟨wordB, wholeB, highB⟩ := toInt_neg signB
      have one : k ≤ 1 := Nat.le_of_not_lt fun late => by
        have low : b.toNat * 1 % 65536 ≤ a.toNat := first.1 1 late
        omega
      have range := first.range
      rw [signA, signB] at count
      have none : k - 1 = (2 ^ 16 - a.toNat / (-b).toNat) % 2 ^ 16 := by
        rw [← BitVec.toNat_udiv, ← BitVec.toNat_neg]
        exact count
      have zero : a.toNat / (-b).toNat = 0 := by
        have few := Nat.div_le_self a.toNat (-b).toNat
        generalize a.toNat / (-b).toNat = n at none few
        omega
      rcases Nat.div_eq_zero_iff.mp zero with gone | less
      · omega
      · exact Or.inr (by omega)
  | true =>
    obtain ⟨wordA, wholeA, highA⟩ := toInt_neg signA
    cases signB : b.msb with
    | false =>
      obtain ⟨wordB, lowB⟩ := toInt_pos signB
      rw [signA, signB] at count
      have back : k - 1 = (65536 - (65536 - a.toNat) / b.toNat) % 65536 := by
        rw [show 65536 - a.toNat = (-a).toNat by omega, ← BitVec.toNat_udiv]
        exact count.trans (BitVec.toNat_neg _)
      obtain ⟨one, low⟩ := first1_neg_pos (by omega) a.isLt positive (by omega) first back
      exact Or.inr ⟨BitVec.eq_of_toNat_eq one, by omega⟩
    | true =>
      obtain ⟨wordB, wholeB, highB⟩ := toInt_neg signB
      rw [signA, signB] at count
      refine absurd ?_ (first1_neg_neg (by omega) a.isLt (by omega) b.isLt first)
      rw [show 65536 - a.toNat = (-a).toNat by omega, show 65536 - b.toNat = (-b).toNat by omega, ← BitVec.toNat_udiv]
      exact count

/-- Where the signed quotient is the unsigned one, and the next multiple a word. -/
theorem sdiv_fits (nonzero : b ≠ 0)
    (range : 0 ≤ a.toInt ∧ (0 < b.toInt ∨ a.toInt < -b.toInt) ∨ b = 1 ∧ a.toInt < -1) :
    a.sdiv b = a / b ∧ (a.toNat / b.toNat + 1) * b.toNat < 65536 := by
  have positive : 0 < b.toNat := Nat.pos_of_ne_zero fun zero => nonzero (BitVec.eq_of_toNat_eq zero)
  have wordA := BitVec.toInt_eq_toNat_cond a
  have wordB := BitVec.toInt_eq_toNat_cond b
  have wholeA := a.isLt
  have wholeB := b.isLt
  rcases range with ⟨signA, range⟩ | ⟨rfl, low⟩
  · refine ⟨sdiv_eq_udiv signA range, ?_⟩
    rw [Nat.add_mul, Nat.one_mul]
    have multiple := Nat.div_mul_le_self a.toNat b.toNat
    rcases range with signB | less
    · omega
    · rw [Nat.div_eq_of_lt (show a.toNat < b.toNat by omega), Nat.zero_mul]
      omega
  · refine ⟨BitVec.sdiv_one.trans BitVec.udiv_one.symm, ?_⟩
    rw [show (1 : Word).toNat = 1 from rfl, Nat.div_one]
    omega

/-- **Where the count of the sums is the signed quotient.** -/
theorem first1_sdiv_iff (nonzero : b ≠ 0) :
    (∃ k, First1 a b k ∧ BitVec.ofNat 16 k - 1 = a.sdiv b) ↔
      0 ≤ a.toInt ∧ (0 < b.toInt ∨ a.toInt < -b.toInt) ∨ b = 1 ∧ a.toInt < -1 := by
  constructor
  · rintro ⟨k, first, right⟩
    exact First1.signed first nonzero right
  · intro range
    obtain ⟨same, fits⟩ := sdiv_fits nonzero range
    have first := first_quotient nonzero fits
    rw [same]
    exact ⟨_, first, (first.quotient_iff nonzero).mpr fits⟩

end Words

/-! ### Double words -/

section Doubles

variable {a b : BitVec 32} {k : Nat}

/-- The answer is 0 only where the dividend is less than the divisor. -/
theorem First2.answer (first : First2 a b k) :
    a.toNat < b.toNat ∧ a.toNat / (rest2 b k).toNat = 0 ∨
      b.toNat ≤ a.toNat ∧ 0 < a.toNat / (rest2 b k).toNat ∧ a.toNat / (rest2 b k).toNat < 2 ^ 31 := by
  rcases Nat.lt_or_ge a.toNat b.toNat with less | more
  · have none : k = 0 := Nat.eq_zero_of_not_pos fun positive => by
      have low : (b <<< 0).toNat ≤ a.toNat := first.1 0 positive
      rw [BitVec.shiftLeft_zero] at low
      omega
    subst none
    exact Or.inl ⟨less, Nat.div_eq_of_lt (by simpa [rest2] using less)⟩
  · cases k with
    | zero =>
      have beyond := first.beyond
      rw [BitVec.shiftLeft_zero] at beyond
      omega
    | succ k =>
      obtain ⟨low, high⟩ := first.quotient_range
      have bits := first.lt
      refine Or.inr ⟨more, (Nat.two_pow_pos k).trans_le low, high.trans_le ?_⟩
      exact Nat.pow_le_pow_right (by decide) (by omega)

/-- The answer is the signed quotient. -/
theorem First2.signed (first : First2 a b k) (nonzero : b ≠ 0) (differ : a ≠ b) (right : a / rest2 b k = a.sdiv b) :
    0 ≤ a.toInt ∧ (0 < b.toInt ∨ a.toInt < -b.toInt) := by
  have quotient := congrArg BitVec.toNat right
  have positive : 0 < b.toNat := Nat.pos_of_ne_zero fun zero => nonzero (BitVec.eq_of_toNat_eq zero)
  have apart : a.toNat ≠ b.toNat := fun same => differ (BitVec.eq_of_toNat_eq same)
  have answer := first.answer
  rw [BitVec.toNat_udiv, BitVec.sdiv_eq] at quotient
  cases signA : a.msb with
  | false =>
    obtain ⟨wordA, lowA⟩ := toInt_pos signA
    refine ⟨by omega, ?_⟩
    cases signB : b.msb with
    | false =>
      obtain ⟨wordB, -⟩ := toInt_pos signB
      exact Or.inl (by omega)
    | true =>
      obtain ⟨wordB, wholeB, highB⟩ := toInt_neg signB
      rw [signA, signB] at quotient
      have none : a.toNat / (rest2 b k).toNat = (2 ^ 32 - a.toNat / (-b).toNat) % 2 ^ 32 := by
        refine quotient.trans ((BitVec.toNat_neg _).trans ?_)
        show (2 ^ 32 - (a / -b).toNat) % 2 ^ 32 = _
        rw [BitVec.toNat_udiv]
      have zero : a.toNat / (-b).toNat = 0 := by
        have few := Nat.div_le_self a.toNat (-b).toNat
        generalize a.toNat / (-b).toNat = n at none few
        omega
      rcases Nat.div_eq_zero_iff.mp zero with gone | less
      · omega
      · exact Or.inr (by omega)
  | true =>
    obtain ⟨wordA, wholeA, highA⟩ := toInt_neg signA
    exfalso
    cases signB : b.msb with
    | false =>
      obtain ⟨wordB, lowB⟩ := toInt_pos signB
      rw [signA, signB] at quotient
      have back : a.toNat / (rest2 b k).toNat = (2 ^ 32 - (-a).toNat / b.toNat) % 2 ^ 32 := by
        refine quotient.trans ((BitVec.toNat_neg _).trans ?_)
        show (2 ^ 32 - (-a / b).toNat) % 2 ^ 32 = _
        rw [BitVec.toNat_udiv]
      have few := Nat.div_le_self (-a).toNat b.toNat
      generalize (-a).toNat / b.toNat = n at back few
      omega
    | true =>
      obtain ⟨wordB, wholeB, highB⟩ := toInt_neg signB
      rw [signA, signB] at quotient
      have both : a.toNat / (rest2 b k).toNat = (-a).toNat / (-b).toNat := quotient
      rcases Nat.lt_or_gt_of_ne apart with less | more
      · have once : 1 ≤ (-a).toNat / (-b).toNat := (Nat.le_div_iff_mul_le (by omega)).mpr (by omega)
        omega
      · rw [Nat.div_eq_of_lt (show (-a).toNat < (-b).toNat by omega)] at both
        omega

/-- A dividend below half of the double words keeps the divisor's bits. -/
theorem exists_doubles (nonzero : b ≠ 0) (positive : 0 ≤ a.toInt) : ∃ k, Doubles a b k := by
  have least : 0 < b.toNat := Nat.pos_of_ne_zero fun zero => nonzero (BitVec.eq_of_toNat_eq zero)
  have signA : a.msb = false := by rw [BitVec.msb_eq_toInt, decide_eq_false (by omega)]
  obtain ⟨wordA, lowA⟩ := toInt_pos signA
  have wholeB := b.isLt
  rcases Nat.lt_or_ge a.toNat b.toNat with less | more
  · exact ⟨0, by simpa using less, by simpa using wholeB⟩
  · -- the dividend in between two doubled divisors
    have quotient : a.toNat / b.toNat ≠ 0 := (Nat.div_pos more least).ne'
    refine ⟨Nat.log 2 (a.toNat / b.toNat) + 1, ?_, ?_⟩
    · have beyond := Nat.lt_pow_succ_log_self (show 1 < 2 by decide) (a.toNat / b.toNat)
      rw [Nat.mul_comm]
      exact (Nat.div_lt_iff_lt_mul least).mp beyond
    · have under := (Nat.le_div_iff_mul_le least).mp (Nat.pow_log_le_self 2 quotient)
      rw [pow_succ, Nat.mul_comm b.toNat, Nat.mul_right_comm]
      omega

/-- **Where the answer is the signed quotient.** -/
theorem first2_sdiv_iff (nonzero : b ≠ 0) :
    (a = b ∧ 1 = a.sdiv b ∨ a ≠ b ∧ ∃ k, First2 a b k ∧ a / rest2 b k = a.sdiv b) ↔
      0 ≤ a.toInt ∧ (0 < b.toInt ∨ a.toInt < -b.toInt) ∨ a = b := by
  by_cases equal : a = b
  · subst equal
    have one : a.sdiv a = 1 := by
      rw [BitVec.sdiv_self, if_neg (by simpa using nonzero)]
      rfl
    exact iff_of_true (Or.inl ⟨rfl, one.symm⟩) (Or.inr rfl)
  rw [or_iff_right (fun both => equal both.1), and_iff_right equal, or_iff_left equal]
  constructor
  · rintro ⟨k, first, right⟩
    exact First2.signed first nonzero equal right
  · rintro ⟨positive, range⟩
    rw [sdiv_eq_udiv positive range, exists_first2_iff fun k first => First2.quotient_iff first nonzero]
    exact exists_doubles nonzero positive

end Doubles

/-! ### Calls -/

/-- `simplify` makes the words `q` and `r` of the division of the constants `a` and `b`. -/
structure Folds (ty : IntType) (a b q r : BitVec ty.bits) : Prop where
  div : ∀ needconst, simplifyDivI needconst ty (wordConstant ty a) (wordConstant ty b) = .tree (wordConstant ty q)
  mod : ∀ needconst, simplifyModI needconst ty (wordConstant ty a) (wordConstant ty b) = .tree (wordConstant ty r)

theorem folds_words (ty : IntType) (int : ty.op = .int) {a b : BitVec ty.bits} (nonzero : b ≠ 0)
    (fits : a ≠ BitVec.intMin ty.bits ∨ b ≠ -1) : Folds ty a b (a.sdiv b) (a.srem b) :=
  ⟨simplifyDivI_words int nonzero fits, simplifyModI_words int nonzero fits⟩

theorem divi1_leads {a b x : Word} {site : CallSite ι .DIVI1 [b, a] []} :
    site.Leads D site.next [.any, .word x] ↔ ∃ k, First1 a b k ∧ BitVec.ofNat 16 k - 1 = x :=
  word_leads (by decide) (fun _ first => (divu1_serves first.1 first.2).alias rfl) fun none => (divu1_hangs none).alias rfl

theorem modi1_leads {a b x : Word} {site : CallSite ι .MODI1 [b, a] []} :
    site.Leads D site.next [.any, .word x] ↔ ∃ k, First1 a b k ∧ a - b * (BitVec.ofNat 16 k - 1) = x :=
  word_leads (by decide) (fun _ first => (modu1_serves (divu1_serves first.1 first.2)).alias rfl)
    fun none => (modu1_hangs (divu1_hangs none)).alias rfl

theorem divi2_leads {a b x : BitVec 32} {site : CallSite ι .DIVI2 (double b ++ double a) []} :
    site.Leads D site.next [.any, .any, .word (high x), .word (low x)] ↔
      a = b ∧ 1 = x ∨ a ≠ b ∧ ∃ k, First2 a b k ∧ a / rest2 b k = x :=
  double_leads id (by decide) (fun _ serves => serves.alias rfl) fun hangs => hangs.alias rfl

theorem modi2_leads {a b x : BitVec 32} {site : CallSite ι .MODI2 (double b ++ double a) []} :
    site.Leads D site.next [.any, .any, .word (high x), .word (low x)] ↔
      a = b ∧ a - 1 * b = x ∨ a ≠ b ∧ ∃ k, First2 a b k ∧ a - a / rest2 b k * b = x :=
  double_leads (fun n => a - n * b) (by decide) (fun _ serves => (modu2_serves serves).alias rfl)
    fun hangs => (modu2_hangs hangs).alias rfl

/-- A right quotient has the right remainder. -/
theorem sub_mul_sdiv {a b : BitVec w} (fits : a ≠ BitVec.intMin w ∨ b ≠ -1) : a - b * a.sdiv b = a.srem b := by
  have whole := ((truncates_iff fits).mpr ⟨rfl, rfl⟩ : Truncates a b (a.sdiv b) (a.srem b)).whole
  rw [sub_eq_iff_eq_add]
  apply BitVec.eq_of_toInt_eq
  rw [BitVec.toInt_add, BitVec.toInt_mul, Int.add_bmod_bmod, add_comm, mul_comm, whole, BitVec.toInt_bmod_cancel]

/-- **Signed division**: the routines leave the quotient truncated towards zero and the remainder with the sign of the
dividend, as `simplify` does, exactly for a dividend that is not negative and a divisor that is positive or greater
than it without its sign; and, among words, for the divisor 1 and a dividend below -1, among double words for equal
operands. -/
theorem divi_right (a b : Word) (a' b' : BitVec 32) (nonzero : b ≠ 0) (nonzero' : b' ≠ 0)
    (fits : a ≠ BitVec.intMin 16 ∨ b ≠ -1) (fits' : a' ≠ BitVec.intMin 32 ∨ b' ≠ -1)
    (div : CallSite ι .DIVI1 [b, a] []) (mod : CallSite ι .MODI1 [b, a] [])
    (div' : CallSite ι .DIVI2 (double b' ++ double a') []) (mod' : CallSite ι .MODI2 (double b' ++ double a') []) :
    ((∃ q r, Truncates a b q r ∧ Folds inttype a b q r ∧ div.Leads D div.next [.any, .word q] ∧
        mod.Leads D mod.next [.any, .word r]) ↔
      0 ≤ a.toInt ∧ (0 < b.toInt ∨ a.toInt < -b.toInt) ∨ b = 1 ∧ a.toInt < -1) ∧
    ((∃ q r, Truncates a' b' q r ∧ Folds longtype a' b' q r ∧
        div'.Leads D div'.next [.any, .any, .word (high q), .word (low q)] ∧
        mod'.Leads D mod'.next [.any, .any, .word (high r), .word (low r)]) ↔
      0 ≤ a'.toInt ∧ (0 < b'.toInt ∨ a'.toInt < -b'.toInt) ∨ a' = b') := by
  constructor
  · rw [← first1_sdiv_iff nonzero]
    constructor
    · rintro ⟨q, r, truncates, -, divides, -⟩
      obtain ⟨rfl, -⟩ := (truncates_iff fits).mp truncates
      exact divi1_leads.mp divides
    · rintro ⟨k, first, right⟩
      refine ⟨_, _, (truncates_iff fits).mpr ⟨rfl, rfl⟩, folds_words inttype rfl nonzero fits,
        divi1_leads.mpr ⟨k, first, right⟩, modi1_leads.mpr ⟨k, first, ?_⟩⟩
      rw [right, sub_mul_sdiv fits]
  · rw [← first2_sdiv_iff nonzero']
    constructor
    · rintro ⟨q, r, truncates, -, divides, -⟩
      obtain ⟨rfl, -⟩ := (truncates_iff fits').mp truncates
      exact divi2_leads.mp divides
    · intro right
      refine ⟨_, _, (truncates_iff fits').mpr ⟨rfl, rfl⟩, folds_words longtype rfl nonzero' fits',
        divi2_leads.mpr right, modi2_leads.mpr ?_⟩
      rcases right with ⟨same, one⟩ | ⟨differ, k, first, right⟩
      · exact Or.inl ⟨same, by rw [one, mul_comm, sub_mul_sdiv fits']⟩
      · exact Or.inr ⟨differ, k, first, by rw [right, mul_comm, sub_mul_sdiv fits']⟩

/-- `7 / 2` and `7 % 2`. -/
theorem divi_right_seven :
    ((∃ q r, Truncates (7 : Word) 2 q r ∧ Folds inttype (7 : Word) (2 : Word) q r ∧
        (callSite .DIVI1 [2, 7] [] (by decide) (by decide)).Leads noDevice 0x102 [.any, .word q] ∧
        (callSite .MODI1 [2, 7] [] (by decide) (by decide)).Leads noDevice 0x102 [.any, .word r]) ↔
      0 ≤ (7 : Word).toInt ∧ (0 < (2 : Word).toInt ∨ (7 : Word).toInt < -(2 : Word).toInt) ∨ (2 : Word) = 1 ∧
        (7 : Word).toInt < -1) ∧
    ((∃ q r, Truncates (7 : BitVec 32) 2 q r ∧ Folds longtype (7 : BitVec 32) (2 : BitVec 32) q r ∧
        (callSite .DIVI2 (double 2 ++ double 7) [] (by decide) (by decide)).Leads noDevice 0x102
          [.any, .any, .word (high q), .word (low q)] ∧
        (callSite .MODI2 (double 2 ++ double 7) [] (by decide) (by decide)).Leads noDevice 0x102
          [.any, .any, .word (high r), .word (low r)]) ↔
      0 ≤ (7 : BitVec 32).toInt ∧ (0 < (2 : BitVec 32).toInt ∨ (7 : BitVec 32).toInt < -(2 : BitVec 32).toInt) ∨
        (7 : BitVec 32) = 2) :=
  divi_right 7 2 7 2 (by decide) (by decide) (Or.inl (by decide)) (Or.inl (by decide))
    (callSite _ _ _ (by decide) (by decide)) (callSite _ _ _ (by decide) (by decide))
    (callSite _ _ _ (by decide) (by decide)) (callSite _ _ _ (by decide) (by decide))

/-- `-7 / 2` is not -3. -/
theorem divi1_minus_seven :
    ¬ (callSite .DIVI1 [2, -7] [] (by decide) (by decide)).Leads noDevice 0x102
      [.any, .word (-3)] := by
  intro leads
  obtain ⟨k, first, right⟩ := divi1_leads.mp leads
  have range := First1.signed first (by decide) (right.trans (show (-3 : Word) = BitVec.sdiv (-7) 2 by decide))
  exact absurd range (by decide)

end RlCpu.Binutils
