/-
**Constant folding of signed division (`simplify` in `simp.c`, the cases `DIV+I` and `MOD+I`).**

`simplify` divides constants as the machine does that the compiler runs on: the quotient is truncated towards zero,
and the remainder has the sign of the dividend.

* `simplifyDivI_words`, `simplifyModI_words`: the constants that it makes of two constants of a type.
-/

import RlCpu.Lcc.Simplify

namespace RlCpu.Lcc

/-- What `simplify` makes of an operation: another tree, a tree whose value is dropped before a constant, or the
operation itself. -/
inductive Simplified
  | tree (t : Tree)
  | right (l r : Tree)
  | kept

/-- A constant of a signed type with the value `v`. -/
def isInt (t : Tree) (v : Long) : Bool :=
  match t.cnst? .int with
  | some (_, x) => x == v
  | none => false

/-- `divi` -/
def divi (x y min _max : Long) (needconst : Bool) : Bool :=
  let cond := y != 0 && !(x == min && y == -1)
  cond || needconst

/-- Where the cases of `DIV+I` and `MOD+I` are left without folding. -/
def leavesQuotient (ty : IntType) (l r : Tree) : Bool := isInt r 0 || (isInt l ty.minI && isInt r (-1))

/-- `longtype` -/
def longtype : IntType := ⟨.int, 2, Or.inr rfl⟩

/-- `simplify`, for `DIV+I`. -/
def simplifyDivI (needconst : Bool) (ty : IntType) (l r : Tree) : Simplified :=
  if isInt r 1 then .tree l
  else if leavesQuotient ty l r then .kept
  else
    match l.cnst? .int, r.cnst? .int with
    | some (_, x), some (_, y) =>
      if divi x y ty.minI ty.maxI needconst then .tree (cnsttree ty (BitVec.sdiv x y)) else .kept
    | _, _ => .kept

/-- `simplify`, for `MOD+I`. -/
def simplifyModI (needconst : Bool) (ty : IntType) (l r : Tree) : Simplified :=
  let rest := if isInt r 1 then .right l (cnsttree ty 0) else .kept
  if leavesQuotient ty l r then .kept
  else
    match l.cnst? .int, r.cnst? .int with
    | some (_, x), some (_, y) =>
      if divi x y ty.minI ty.maxI needconst then .tree (cnsttree ty (BitVec.srem x y)) else rest
    | _, _ => rest

/-! ### Constants of a type -/

/-- The constant for a word of the target. -/
def wordConstant (ty : IntType) (a : BitVec ty.bits) : Tree := .cnst ty (a.signExtend 64)

section Constants

variable {ty : IntType} {a b : BitVec ty.bits}

theorem toInt_extended (ty : IntType) (a : BitVec ty.bits) : (a.signExtend 64).toInt = a.toInt :=
  BitVec.toInt_signExtend_of_le ty.half.2.2.le

theorem isInt_wordConstant (int : ty.op = .int) (a : BitVec ty.bits) (v : Long) :
    isInt (wordConstant ty a) v = decide (a.signExtend 64 = v) := by
  simp only [isInt, wordConstant, Tree.cnst?, int, if_true]
  exact Bool.beq_eq_decide_eq _ _

/-- Where the quotient is a word of the type, the constants can be divided. -/
theorem divide_extended (nonzero : b ≠ 0) (fits : a ≠ BitVec.intMin ty.bits ∨ b ≠ -1) :
    b.signExtend 64 ≠ 0 ∧ ¬ (a.signExtend 64 = ty.minI ∧ b.signExtend 64 = -1) := by
  have positive : 0 < ty.bits := by
    have half := ty.half
    omega
  have minusOne : (-1 : Long).toInt = (-1 : BitVec ty.bits).toInt := by
    unfold IntType.bits
    rcases ty.small with size | size <;> rw [size] <;> decide
  rw [Ne, ← BitVec.toInt_inj, ← BitVec.toInt_inj, ← BitVec.toInt_inj, toInt_extended, toInt_extended,
    minusOne, (limits ty).1,
    ← BitVec.toInt_intMin_of_pos positive, show (0 : Long).toInt = (0 : BitVec ty.bits).toInt from BitVec.toInt_zero.symm,
    BitVec.toInt_inj, BitVec.toInt_inj, BitVec.toInt_inj]
  exact ⟨nonzero, not_and_or.mpr fits⟩

theorem not_leavesQuotient (int : ty.op = .int) (nonzero : b ≠ 0) (fits : a ≠ BitVec.intMin ty.bits ∨ b ≠ -1) :
    leavesQuotient ty (wordConstant ty a) (wordConstant ty b) = false := by
  obtain ⟨nonzero, fits⟩ := divide_extended nonzero fits
  unfold leavesQuotient
  rw [isInt_wordConstant int, isInt_wordConstant int, isInt_wordConstant int, decide_eq_false nonzero, Bool.false_or,
    ← Bool.decide_and, decide_eq_false fits]

theorem divi_extended (nonzero : b ≠ 0) (fits : a ≠ BitVec.intMin ty.bits ∨ b ≠ -1) (needconst : Bool) :
    divi (a.signExtend 64) (b.signExtend 64) ty.minI ty.maxI needconst = true := by
  obtain ⟨nonzero, fits⟩ := divide_extended nonzero fits
  unfold divi
  rw [Bool.beq_eq_decide_eq, Bool.beq_eq_decide_eq, ← Bool.decide_and, decide_eq_false fits, bne_iff_ne.mpr nonzero]
  rfl

/-- A word of the type is not the least `long`, so its quotient is one. -/
theorem sdiv_extended (fits : a ≠ BitVec.intMin ty.bits ∨ b ≠ -1) :
    BitVec.sdiv (a.signExtend 64) (b.signExtend 64) = (a.sdiv b).signExtend 64 := by
  have inside : a.signExtend 64 ≠ BitVec.intMin 64 := by
    intro same
    have low := congrArg BitVec.toInt same
    have least := BitVec.le_two_mul_toInt (x := a)
    have narrow : (2 : Int) ^ ty.bits < 2 ^ 64 := by
      have fewer : 2 ^ ty.bits < 2 ^ 64 := Nat.pow_lt_pow_right (by decide) ty.half.2.2
      exact_mod_cast fewer
    rw [toInt_extended, BitVec.toInt_intMin_of_pos (by decide)] at low
    omega
  apply BitVec.eq_of_toInt_eq
  rw [BitVec.toInt_sdiv_of_ne_or_ne _ _ (Or.inl inside), toInt_extended, toInt_extended, toInt_extended,
    BitVec.toInt_sdiv_of_ne_or_ne _ _ fits]

theorem srem_extended (a b : BitVec ty.bits) :
    BitVec.srem (a.signExtend 64) (b.signExtend 64) = (a.srem b).signExtend 64 := by
  apply BitVec.eq_of_toInt_eq
  rw [BitVec.toInt_srem, toInt_extended, toInt_extended, toInt_extended, BitVec.toInt_srem]

/-- A division by one. -/
theorem sdiv_one_extended (one : b.signExtend 64 = 1) : a.sdiv b = a := by
  have same : (1 : Long).toInt = (1 : BitVec ty.bits).toInt := by
    unfold IntType.bits
    rcases ty.small with size | size <;> rw [size] <;> decide
  have word : b = 1 := by
    rw [← BitVec.toInt_inj, ← toInt_extended, one, same]
  rw [word]
  exact BitVec.sdiv_one

/-- **`DIV+I` of two constants**: the constant for their quotient. -/
theorem simplifyDivI_words (int : ty.op = .int) (nonzero : b ≠ 0) (fits : a ≠ BitVec.intMin ty.bits ∨ b ≠ -1)
    (needconst : Bool) :
    simplifyDivI needconst ty (wordConstant ty a) (wordConstant ty b) = .tree (wordConstant ty (a.sdiv b)) := by
  unfold simplifyDivI
  rw [not_leavesQuotient int nonzero fits, isInt_wordConstant int]
  by_cases one : b.signExtend 64 = 1
  · rw [if_pos (decide_eq_true one), sdiv_one_extended one]
  · have folds := divi_extended nonzero fits needconst
    simp only [wordConstant, Tree.cnst?, int, one, folds, cnsttree, sdiv_extended fits, if_true, decide_false,
      Bool.false_eq_true, if_false]

/-- **`MOD+I` of two constants**: the constant for their remainder. -/
theorem simplifyModI_words (int : ty.op = .int) (nonzero : b ≠ 0) (fits : a ≠ BitVec.intMin ty.bits ∨ b ≠ -1)
    (needconst : Bool) :
    simplifyModI needconst ty (wordConstant ty a) (wordConstant ty b) = .tree (wordConstant ty (a.srem b)) := by
  unfold simplifyModI
  have folds := divi_extended nonzero fits needconst
  rw [not_leavesQuotient int nonzero fits]
  simp only [wordConstant, Tree.cnst?, int, folds, cnsttree, srem_extended, if_true, Bool.false_eq_true, if_false]

end Constants

end RlCpu.Lcc
