/-
**Constant folding of conversions, complements and shifts (`simplify` in `simp.c`).**

The compiler holds the value of a constant in a `long` of the machine it runs on; the target computes on
words of 16 bits, one or two to a value. `Tree.eval` is what a tree evaluates to on the target.

The limits of the types and the masks count 16 bits to a size unit. `extend`, the guards of the shifts
and the fill of `RSH+I` still count 8.

* `toInt_extend`: `extend` takes the sign from bit 7 of the one unit of an `int`, from bit 15 of a `long`.
* `simplify_eval_iff`: exactly where the folded constant is what the target computes.
-/

import Mathlib.Tactic.Common
import Mathlib.Tactic.Ring
import Mathlib.Tactic.Positivity
import Mathlib.Data.Int.Lemmas

namespace RlCpu.Lcc

/-! ### Types and trees -/

/-- `long` and `unsigned long` of the machine the compiler runs on. -/
abbrev Long := BitVec 64

/-- `ones(n)` -/
def ones (n : Nat) : Long := if 64 ≤ n then BitVec.allOnes 64 else ~~~(BitVec.allOnes 64 <<< n)

/-- `INT` and `UNSIGNED`, the suffixes `I` and `U` of the operators. -/
inductive TypeOp
  | int
  | unsigned
  deriving DecidableEq, Repr

/-- An integer type of the target, of one word or of two. -/
structure IntType where
  op : TypeOp
  size : Nat
  small : size = 1 ∨ size = 2
  deriving DecidableEq

/-- `inttype` -/
def inttype : IntType := ⟨.int, 1, Or.inl rfl⟩

namespace IntType

variable (ty : IntType)

/-- The width in bits. -/
abbrev bits : Nat := 16 * ty.size

/-- `u.limits.max.i` of an `INT`. -/
def maxI : Long := ones (16 * ty.size) >>> 1

/-- `u.limits.min.i` of an `INT`. -/
def minI : Long := -ty.maxI - 1

/-- `u.limits.max.u` of an `UNSIGNED`. -/
def maxU : Long := ones (16 * ty.size)

/-- The words of a number. -/
def word (x : Int) : BitVec ty.bits := BitVec.ofInt ty.bits x

/-- The number in words of the type. -/
def value (w : BitVec ty.bits) : Int :=
  match ty.op with
  | .int => w.toInt
  | .unsigned => w.toNat

/-- The number that a constant of the type stands for. -/
def constant (v : Long) : Int :=
  match ty.op with
  | .int => v.toInt
  | .unsigned => v.toNat

end IntType

/-- `CVI`, `CVU`, `BCOM`, `LSH` and `RSH`. -/
inductive Op
  | cvi
  | cvu
  | bcom
  | lsh
  | rsh
  deriving DecidableEq, Repr

/-- An expression. `leaf` is one that is no constant and none of these operations. -/
inductive Tree
  | null
  | leaf (ty : IntType) (name : Nat)
  | cnst (ty : IntType) (v : Long)
  | tree (op : Op) (ty : IntType) (l r : Tree)

namespace Tree

/-- `type` -/
def type : Tree → Option IntType
  | null => none
  | leaf ty _ => some ty
  | cnst ty _ => some ty
  | tree _ ty _ _ => some ty

/-- A constant with the suffix `op`: its type and its value. -/
def cnst? (op : TypeOp) : Tree → Option (IntType × Long)
  | cnst ty v => if ty.op = op then some (ty, v) else none
  | _ => none

end Tree

/-- The operation on words of the target, for operands with the numbers `x` and `y`. -/
def Op.compute (op : Op) (ty : IntType) (x y : Int) : Int :=
  match op with
  | cvi | cvu => ty.value (ty.word x)
  | bcom => ty.value (~~~ ty.word x)
  | lsh => ty.value (ty.word x <<< y.toNat)
  | rsh =>
    match ty.op with
    | .int => ty.value ((ty.word x).sshiftRight y.toNat)
    | .unsigned => ty.value (ty.word x >>> y.toNat)

/-- What a tree evaluates to on the target, where the leaves are `env`. -/
def Tree.eval (env : Nat → Int) : Tree → Int
  | null => 0
  | leaf ty name => ty.value (ty.word (env name))
  | cnst ty v => ty.constant v
  | tree op ty l r => op.compute ty (l.eval env) (r.eval env)

/-! ### The function -/

/-- `cnsttree` -/
def cnsttree (ty : IntType) (v : Long) : Tree :=
  match ty.op with
  | .int => .cnst ty v
  | .unsigned => .cnst ty (v &&& ones (16 * ty.size))

/-- `extend` -/
def extend (x : Long) (ty : IntType) : Long :=
  if x &&& ((1 : Long) <<< (8 * ty.size - 1)) ≠ 0 then x ||| (BitVec.allOnes 64 <<< (8 * ty.size - 1))
  else x &&& ones (8 * ty.size)

/-- `muli` -/
def muli (x y min max : Long) (needconst : Bool) : Bool :=
  let cond := (BitVec.slt (-1) x && BitVec.sle x 1) || (BitVec.slt (-1) y && BitVec.sle y 1)
    || (BitVec.slt x 0 && BitVec.slt y 0 && BitVec.sle (-x) (BitVec.sdiv max (-y)))
    || (BitVec.slt x 0 && BitVec.slt 0 y && BitVec.sle (BitVec.sdiv min y) x)
    || (BitVec.slt 0 x && BitVec.slt y 0 && BitVec.sle (BitVec.sdiv min x) y)
    || (BitVec.slt 0 x && BitVec.slt 0 y && BitVec.sle x (BitVec.sdiv max y))
  cond || needconst

/-- The test of `sfoldcnst` and of the signed shifts: the count is below 8 bits for each size unit. -/
def foldsCount (l : IntType) (count : Long) : Bool :=
  BitVec.sle 0 count && BitVec.slt count (BitVec.ofNat 64 (8 * l.size))

/-- `identity(r, l, I, i, 0)` -/
def isZero (r : Tree) : Bool :=
  match r.cnst? .int with
  | some (_, v) => v == 0
  | none => false

/-- `simplify`, for these operations. -/
def simplify (needconst : Bool) (op : Op) (ty : IntType) (l r : Tree) : Tree :=
  match op, ty.op with
  | .cvi, .int =>
    match l.cnst? .int with
    | some (_, v) =>
      if needconst || !(BitVec.slt v ty.minI || BitVec.slt ty.maxI v) then cnsttree ty (extend v ty)
      else .tree op ty l r
    | none => .tree op ty l r
  | .cvu, .int =>
    match l.cnst? .unsigned with
    | some (_, v) =>
      if needconst || !BitVec.ult ty.maxI v then cnsttree ty (extend v ty) else .tree op ty l r
    | none => .tree op ty l r
  | .cvi, .unsigned =>
    match l.cnst? .int with
    | some (_, v) =>
      if needconst || !(BitVec.ult v 0 || BitVec.ult ty.maxU v) then cnsttree ty (v &&& ones (16 * ty.size))
      else .tree op ty l r
    | none => .tree op ty l r
  | .cvu, .unsigned =>
    match l.cnst? .unsigned with
    | some (_, v) =>
      if needconst || !(BitVec.ult v 0 || BitVec.ult ty.maxU v) then cnsttree ty (v &&& ones (16 * ty.size))
      else .tree op ty l r
    | none => .tree op ty l r
  | .bcom, .int =>
    match l with
    | .cnst ⟨.int, _, _⟩ v => cnsttree ty (extend (~~~v &&& ones (16 * ty.size)) ty)
    | .tree .bcom ⟨.unsigned, _, _⟩ kid _ => kid
    | _ => .tree op ty l r
  | .bcom, .unsigned =>
    match l with
    | .cnst ⟨.unsigned, _, _⟩ v => cnsttree ty (~~~v &&& ones (16 * ty.size))
    | .tree .bcom ⟨.unsigned, _, _⟩ kid _ => kid
    | _ => .tree op ty l r
  | .lsh, .int =>
    if isZero r then l
    else
      match l.cnst? .int, r.cnst? .int with
      | some (lty, v), some (_, count) =>
        if foldsCount lty count && muli v ((1 : Long) <<< count.toNat) ty.minI ty.maxI needconst then
          cnsttree ty (v <<< count.toNat)
        else .tree op ty l r
      | _, _ => .tree op ty l r
  | .lsh, .unsigned =>
    if isZero r then l
    else
      match l.cnst? .unsigned, r.cnst? .int with
      | some (lty, v), some (_, count) =>
        if foldsCount lty count then cnsttree ty (v <<< count.toNat) else .tree op ty l r
      | _, _ => .tree op ty l r
  | .rsh, .int =>
    if isZero r then l
    else
      match l.cnst? .int, r.cnst? .int with
      | some (lty, v), some (_, count) =>
        if foldsCount lty count then
          let n := v.sshiftRight count.toNat
          cnsttree ty (if BitVec.slt v 0 then n ||| (BitVec.allOnes 64 <<< (8 * lty.size - count.toNat)) else n)
        else .tree op ty l r
      | _, _ => .tree op ty l r
  | .rsh, .unsigned =>
    if isZero r then l
    else
      match l.cnst? .unsigned, r.cnst? .int with
      | some (lty, v), some (_, count) =>
        if foldsCount lty count then cnsttree ty (v >>> count.toNat) else .tree op ty l r
      | _, _ => .tree op ty l r

/-! ### Masks and sign extension -/

theorem ones_getLsbD (n i : Nat) : (ones n).getLsbD i = (decide (i < 64) && decide (i < n)) := by
  unfold ones
  split
  case isTrue big =>
    rw [BitVec.getLsbD_allOnes]
    by_cases low : i < 64
    · simp [low, show i < n by omega]
    · simp [low]
  case isFalse =>
    rw [BitVec.getLsbD_not, BitVec.getLsbD_shiftLeft, BitVec.getLsbD_allOnes]
    by_cases low : i < 64
    · by_cases inside : i < n
      · simp [low, inside]
      · have rest : i - n < 64 := by omega
        simp [low, inside, rest]
    · simp [low]

/-- A mask takes the low bits. -/
theorem and_ones (x : Long) (n : Nat) : x &&& ones n = (x.setWidth n).setWidth 64 := by
  refine BitVec.eq_of_getLsbD_eq fun i low => ?_
  rw [BitVec.getLsbD_and, ones_getLsbD, BitVec.getLsbD_setWidth, BitVec.getLsbD_setWidth]
  simp [low, Bool.and_comm]

theorem toNat_and_ones (x : Long) {n : Nat} (low : n ≤ 64) : (x &&& ones n).toNat = x.toNat % 2 ^ n := by
  rw [and_ones, BitVec.toNat_setWidth, BitVec.toNat_setWidth]
  refine Nat.mod_eq_of_lt ((Nat.mod_lt _ (Nat.two_pow_pos n)).trans_le ?_)
  exact Nat.pow_le_pow_right (by decide) low

theorem and_bit (x : Long) {k : Nat} (low : k < 64) :
    x &&& ((1 : Long) <<< k) ≠ 0 ↔ x.getLsbD k = true := by
  have two : (1 : Long) <<< k = BitVec.twoPow 64 k := rfl
  rw [two, BitVec.and_twoPow]
  split
  case isTrue set =>
    refine iff_of_true (fun zero => ?_) set
    have bit := congrArg (fun y => y.getLsbD k) zero
    simp [low] at bit
  case isFalse clear => exact iff_of_false (fun ne => ne rfl) clear

/-- `extend` extends the sign of the low half of the bits. -/
theorem extend_eq (x : Long) (ty : IntType) :
    extend x ty = (x.setWidth (8 * ty.size)).signExtend 64 := by
  have size : 0 < 8 * ty.size ∧ 8 * ty.size < 64 := by
    have small := ty.small
    omega
  unfold extend
  generalize 8 * ty.size = k at size
  have msb : (x.setWidth k).msb = x.getLsbD (k - 1) := by
    rw [BitVec.msb_eq_getLsbD_last, BitVec.getLsbD_setWidth]
    simp [size.1]
  refine BitVec.eq_of_getLsbD_eq fun i low => ?_
  rw [BitVec.getLsbD_signExtend, msb, BitVec.getLsbD_setWidth]
  split
  case isTrue set =>
    have bit := (and_bit x (by omega)).mp set
    rw [bit, BitVec.getLsbD_or, BitVec.getLsbD_shiftLeft, BitVec.getLsbD_allOnes]
    by_cases inside : i < k
    · by_cases last : i = k - 1
      · subst last
        simp [low, inside, bit]
      · simp [low, inside, show i < k - 1 by omega]
    · simp [low, inside, show ¬ i < k - 1 by omega, show i - (k - 1) < 64 by omega]
  case isFalse clear =>
    have bit : x.getLsbD (k - 1) = false := by
      rw [← Bool.not_eq_true]
      exact fun set => clear ((and_bit x (by omega)).mpr set)
    rw [bit, BitVec.getLsbD_and, ones_getLsbD]
    by_cases inside : i < k
    · simp [low, inside]
    · simp [inside]

theorem toInt_bmod_toNat (x : Long) {n : Nat} (low : n ≤ 64) :
    (x.toNat : Int).bmod (2 ^ n) = x.toInt.bmod (2 ^ n) := by
  rw [BitVec.toInt_eq_toNat_bmod, Int.bmod_bmod_of_dvd (Nat.pow_dvd_pow 2 low)]

/-- **`extend`**, with 8 bits to a size unit. -/
theorem toInt_extend (x : Long) (ty : IntType) :
    (extend x ty).toInt = x.toInt.bmod (2 ^ (8 * ty.size)) := by
  have size : 8 * ty.size ≤ 64 := by
    have small := ty.small
    omega
  rw [extend_eq, BitVec.toInt_signExtend_of_le size, BitVec.toInt_setWidth, toInt_bmod_toNat x size]

/-- Ones above the low `k` bits change nothing where the number is negative and above `-2 ^ k`. -/
theorem or_fill (y : Long) {k : Nat} (negative : y.toInt < 0) :
    y ||| (BitVec.allOnes 64 <<< k) = y ↔ -2 ^ k ≤ y.toInt := by
  have flipped : (~~~y).toNat < 2 ^ k ↔ -2 ^ k ≤ y.toInt := by
    have big := y.isLt
    have cast : ((2 ^ k : Nat) : Int) = 2 ^ k := by push_cast; rfl
    rw [BitVec.toNat_not, BitVec.toInt_eq_toNat_cond] at *
    split at negative
    · omega
    · omega
  rw [← flipped]
  constructor
  · intro same
    refine Nat.lt_pow_two_of_testBit _ fun i high => ?_
    by_cases low : i < 64
    · have bit := congrArg (fun y => y.getLsbD i) same
      simp only [BitVec.getLsbD_or, BitVec.getLsbD_shiftLeft, BitVec.getLsbD_allOnes] at bit
      rw [← BitVec.getLsbD, BitVec.getLsbD_not]
      have set : y.getLsbD i = true := by
        rw [← bit]
        simp [low, show ¬ i < k by omega, show i - k < 64 by omega]
      simp [set]
    · rw [← BitVec.getLsbD, BitVec.getLsbD_of_ge _ _ (by omega)]
  · intro small
    refine BitVec.eq_of_getLsbD_eq fun i low => ?_
    rw [BitVec.getLsbD_or, BitVec.getLsbD_shiftLeft, BitVec.getLsbD_allOnes]
    by_cases inside : i < k
    · simp [inside]
    · have clear := Nat.testBit_lt_two_pow (small.trans_le (Nat.pow_le_pow_right (by decide) (Nat.not_lt.mp inside)))
      rw [← BitVec.getLsbD, BitVec.getLsbD_not] at clear
      have set : y.getLsbD i = true := by simpa [low] using clear
      simp [set]

/-! ### Words and numbers -/

/-- `x` is a signed number of `n` bits. -/
def Fits (n : Nat) (x : Int) : Prop := -2 ^ (n - 1) ≤ x ∧ x < 2 ^ (n - 1)

theorem bmod_eq_self_iff {n : Nat} (positive : 0 < n) (x : Int) : x.bmod (2 ^ n) = x ↔ Fits n x := by
  obtain ⟨m, rfl⟩ := Nat.exists_eq_succ_of_ne_zero positive.ne'
  have pow : (2 ^ (m + 1) : Nat) = 2 * 2 ^ m := by ring
  have cast : (2 : Int) ^ m = (2 ^ m : Nat) := by push_cast; rfl
  have positive := Nat.two_pow_pos m
  unfold Fits
  rw [Nat.succ_sub_one, cast, pow]
  generalize 2 ^ m = half at positive
  constructor
  · intro same
    have low := Int.le_bmod (x := x) (show 0 < 2 * half by omega)
    have high := Int.bmod_lt (x := x) (show 0 < 2 * half by omega)
    omega
  · intro fits
    exact Int.bmod_eq_of_le (by omega) (by omega)

/-- A number is the same in half as many bits where it fits them. -/
theorem bmod_half_iff {n : Nat} (positive : 0 < n) (x : Int) :
    x.bmod (2 ^ n) = x.bmod (2 ^ (2 * n)) ↔ Fits n (x.bmod (2 ^ (2 * n))) := by
  rw [← bmod_eq_self_iff positive, Int.bmod_bmod_of_dvd (Nat.pow_dvd_pow 2 (by omega))]

namespace IntType

variable {ty : IntType}

theorem value_int (int : ty.op = .int) (w : BitVec ty.bits) : ty.value w = w.toInt := by
  unfold value
  rw [int]

theorem value_unsigned (unsigned : ty.op = .unsigned) (w : BitVec ty.bits) : ty.value w = w.toNat := by
  unfold value
  rw [unsigned]

theorem toInt_word (x : Int) : (ty.word x).toInt = x.bmod (2 ^ ty.bits) := BitVec.toInt_ofInt x

theorem toNat_word (x : Int) : ((ty.word x).toNat : Int) = x % (2 ^ ty.bits : Nat) := by
  unfold word
  rw [BitVec.toNat_ofInt, Int.toNat_of_nonneg (Int.emod_nonneg _ ?_)]
  exact_mod_cast (Nat.two_pow_pos _).ne'

/-- What was computed on words is a number of the type. -/
theorem word_value (ty : IntType) (w : BitVec ty.bits) : ty.word (ty.value w) = w := by
  unfold value word
  split
  · exact BitVec.ofInt_toInt
  · rw [BitVec.ofInt_natCast, BitVec.ofNat_toNat, BitVec.setWidth_eq]

/-- The constant is one that the words of the type can hold. -/
def Holds (ty : IntType) (v : Long) : Prop :=
  match ty.op with
  | .int => Fits ty.bits v.toInt
  | .unsigned => v.toNat < 2 ^ ty.bits

theorem Holds.value_word {v : Long} (holds : ty.Holds v) :
    ty.value (ty.word (ty.constant v)) = ty.constant v := by
  have positive : 0 < ty.bits := by
    have small := ty.small
    unfold bits
    omega
  unfold Holds at holds
  unfold constant
  cases here : ty.op with
  | int =>
    rw [here] at holds
    rw [value_int here, toInt_word]
    exact (bmod_eq_self_iff positive v.toInt).mpr holds
  | unsigned =>
    rw [here] at holds
    rw [value_unsigned here, toNat_word]
    show (v.toNat : Int) % (2 ^ ty.bits : Nat) = v.toNat
    exact_mod_cast Nat.mod_eq_of_lt holds

end IntType

/-! ### What the constants are -/

section Constants

variable {ty : IntType} {v : Long}

theorem IntType.half (ty : IntType) : ty.bits = 2 * (8 * ty.size) ∧ 0 < 8 * ty.size ∧ ty.bits < 64 := by
  have small := ty.small
  unfold bits
  omega

theorem toInt_emod {n : Nat} (low : n ≤ 64) : v.toInt % (2 ^ n : Nat) = (v.toNat % 2 ^ n : Nat) := by
  have whole : v.toInt % (2 ^ 64 : Nat) = v.toNat := by
    rw [BitVec.toInt_eq_toNat_bmod, Int.bmod_emod]
    exact_mod_cast Nat.mod_eq_of_lt v.isLt
  rw [← Int.emod_emod_of_dvd v.toInt (Int.natCast_dvd_natCast.mpr (Nat.pow_dvd_pow 2 low)), whole]
  rfl

/-- The limits of a signed type. -/
theorem limits (ty : IntType) :
    ty.minI.toInt = -2 ^ (ty.bits - 1) ∧ ty.maxI.toInt = 2 ^ (ty.bits - 1) - 1 := by
  unfold IntType.minI IntType.maxI IntType.bits
  rcases ty.small with size | size <;> rw [size] <;> decide

theorem toInt_oneShift {n : Nat} (small : n < 63) : ((1 : Long) <<< n).toInt = 2 ^ n := by
  have low : 2 ^ n < 2 ^ 63 := Nat.pow_lt_pow_right (by decide) small
  have value : ((1 : Long) <<< n).toNat = 2 ^ n := by
    rw [BitVec.toNat_shiftLeft, Nat.shiftLeft_eq]
    exact (congrArg (· % 2 ^ 64) (Nat.one_mul _)).trans (Nat.mod_eq_of_lt (low.trans (by decide)))
  rw [BitVec.toInt_eq_toNat_cond, value, if_pos (by omega)]
  push_cast
  rfl

/-- **`muli`** of a number and a power of two. -/
theorem muli_shift {n : Nat} {needconst : Bool} (positive : 0 < n) (small : n < 8 * ty.size) :
    muli v ((1 : Long) <<< n) ty.minI ty.maxI needconst = true ↔
      needconst = true ∨ Fits ty.bits (v.toInt * 2 ^ n) := by
  obtain ⟨minimum, maximum⟩ := limits ty
  have shifted := toInt_oneShift (show n < 63 by have size := ty.small; omega)
  have two : (2 : Int) ≤ 2 ^ n := by
    have least : 2 ^ 1 ≤ 2 ^ n := Nat.pow_le_pow_right (by decide) positive
    exact_mod_cast least
  have below : (2 : Int) ^ n < 2 ^ (ty.bits - 1) := by
    have most : 2 ^ n < 2 ^ (ty.bits - 1) := Nat.pow_lt_pow_right (by decide) (by have half := ty.half; omega)
    exact_mod_cast most
  have plain : ((1 : Long) <<< n) ≠ -1#64 := fun same => by
    rw [same] at shifted
    have minusOne : (-1#64 : Long).toInt = -1 := by decide
    omega
  have quotient := BitVec.toInt_sdiv_of_ne_or_ne ty.maxI ((1 : Long) <<< n) (Or.inr plain)
  have quotient' := BitVec.toInt_sdiv_of_ne_or_ne ty.minI ((1 : Long) <<< n) (Or.inr plain)
  rw [maximum, shifted, Int.tdiv_eq_ediv_of_nonneg (by omega)] at quotient
  rw [minimum, shifted, Int.neg_tdiv, Int.tdiv_eq_ediv_of_nonneg (by omega)] at quotient'
  have upper : ∀ x : Int, x ≤ (2 ^ (ty.bits - 1) - 1) / 2 ^ n ↔ x * 2 ^ n ≤ 2 ^ (ty.bits - 1) - 1 := fun x =>
    Int.le_ediv_iff_mul_le (by omega)
  have lower : ∀ x : Int, -(2 ^ (ty.bits - 1) / 2 ^ n) ≤ x ↔ -2 ^ (ty.bits - 1) ≤ x * 2 ^ n := fun x => by
    have here := Int.le_ediv_iff_mul_le (a := -x) (b := 2 ^ (ty.bits - 1)) (show (0 : Int) < 2 ^ n by omega)
    rw [Int.neg_mul] at here
    omega
  have minusOne : (-1 : Long).toInt = -1 := by decide
  have zero : (0 : Long).toInt = 0 := by decide
  have one : (1 : Long).toInt = 1 := by decide
  unfold muli Fits
  simp only [BitVec.slt_eq_decide, BitVec.sle_eq_decide, quotient, quotient', shifted, minusOne, zero, one,
    Bool.or_eq_true, Bool.and_eq_true, decide_eq_true_iff, upper, lower]
  generalize v.toInt = x
  rcases lt_trichotomy x 0 with negative | rfl | above
  · have under : x * 2 ^ n < 0 := Int.mul_neg_of_neg_of_pos negative (by omega)
    constructor
    · rintro (cond | const)
      · exact Or.inr (by omega)
      · exact Or.inl const
    · rintro (const | ⟨low, -⟩)
      · exact Or.inr const
      · exact Or.inl (Or.inl (Or.inl (Or.inr ⟨⟨negative, by omega⟩, low⟩)))
  · refine iff_of_true (by simp) (Or.inr ?_)
    omega
  · have least : 1 * 2 ^ n ≤ x * 2 ^ n := Int.mul_le_mul_of_nonneg_right above (by omega)
    have unit : x = 1 → x * 2 ^ n = 2 ^ n := by
      rintro rfl
      exact Int.one_mul _
    constructor
    · rintro (cond | const)
      · exact Or.inr (by omega)
      · exact Or.inl const
    · rintro (const | ⟨-, high⟩)
      · exact Or.inr const
      · exact Or.inl (Or.inr ⟨⟨above, by omega⟩, by omega⟩)

end Constants

/-! ### Each operator of constants -/

section Folds

variable {ty : IntType} {v : Long} {env : Nat → Int}

/-- The value of a constant of a signed type. -/
theorem eval_int (int : ty.op = .int) (v : Long) : (cnsttree ty v).eval env = v.toInt := by
  unfold cnsttree
  rw [int]
  show ty.constant v = _
  unfold IntType.constant
  rw [int]

/-- The value of a constant of an unsigned type, which is cut to its words. -/
theorem eval_unsigned (unsigned : ty.op = .unsigned) (v : Long) :
    (cnsttree ty v).eval env = ((v.toNat % 2 ^ ty.bits : Nat) : Int) := by
  unfold cnsttree
  rw [unsigned]
  show ty.constant (v &&& ones ty.bits) = _
  unfold IntType.constant
  rw [unsigned, toNat_and_ones _ ty.half.2.2.le]

/-- **`CVI+U`** and **`CVU+U`**. -/
theorem fold_mask (unsigned : ty.op = .unsigned) (v : Long) {x : Int}
    (same : x % (2 ^ ty.bits : Nat) = (v.toNat % 2 ^ ty.bits : Nat)) :
    (cnsttree ty (v &&& ones (16 * ty.size))).eval env = ty.value (ty.word x) := by
  rw [eval_unsigned unsigned, IntType.value_unsigned unsigned, IntType.toNat_word, same,
    toNat_and_ones _ ty.half.2.2.le, Nat.mod_mod]

/-- **`CVI+I`** and **`CVU+I`**. -/
theorem fold_extend (int : ty.op = .int) (v : Long) {x : Int}
    (same : v.toInt.bmod (2 ^ (8 * ty.size)) = x.bmod (2 ^ (8 * ty.size))) :
    (cnsttree ty (extend v ty)).eval env = ty.value (ty.word x) ↔
      Fits (8 * ty.size) (x.bmod (2 ^ ty.bits)) := by
  obtain ⟨half, positive, -⟩ := ty.half
  rw [eval_int int, IntType.value_int int, IntType.toInt_word, toInt_extend, same, half]
  exact bmod_half_iff positive x

/-- **`BCOM+U`**. -/
theorem fold_bcom_unsigned (unsigned : ty.op = .unsigned) (v : Long) :
    (cnsttree ty (~~~v &&& ones (16 * ty.size))).eval env = ty.value (~~~ ty.word v.toNat) := by
  have low := ty.half.2.2
  have flipped : ~~~ ty.word v.toNat = (~~~v).setWidth ty.bits := by
    rw [BitVec.setWidth_not low.le]
    congr 1
    unfold IntType.word
    rw [BitVec.ofInt_natCast, BitVec.ofNat_toNat]
  rw [eval_unsigned unsigned, IntType.value_unsigned unsigned, flipped, toNat_and_ones _ low.le, Nat.mod_mod,
    BitVec.toNat_setWidth]

theorem toInt_complement {w : Nat} (positive : 0 < w) (x : BitVec w) : (~~~x).toInt = -1 - x.toInt := by
  obtain ⟨m, rfl⟩ := Nat.exists_eq_succ_of_ne_zero positive.ne'
  have pow : (2 ^ (m + 1) : Nat) = 2 * 2 ^ m := by ring
  have below := x.isLt
  rw [BitVec.toInt_eq_toNat_cond, BitVec.toInt_eq_toNat_cond, BitVec.toNat_not]
  rw [Nat.succ_eq_add_one, pow] at *
  split <;> split <;> omega

/-- **`BCOM+I`**. -/
theorem fold_bcom_int (int : ty.op = .int) (holds : Fits ty.bits v.toInt) :
    (cnsttree ty (extend (~~~v &&& ones (16 * ty.size)) ty)).eval env = ty.value (~~~ ty.word v.toInt) ↔
      Fits (8 * ty.size) v.toInt := by
  obtain ⟨half, positive, low⟩ := ty.half
  have whole := (bmod_eq_self_iff (show 0 < ty.bits by omega) v.toInt).mpr holds
  have masked : (~~~v &&& ones (16 * ty.size)).toInt.bmod (2 ^ (8 * ty.size)) =
      (-1 - v.toInt).bmod (2 ^ (8 * ty.size)) := by
    have fewer := Nat.pow_dvd_pow 2 (show 8 * ty.size ≤ ty.bits by omega)
    rw [← toInt_bmod_toNat _ (by omega), toNat_and_ones _ low.le, Int.natCast_mod, ← Int.bmod_bmod_of_dvd fewer,
      Int.emod_bmod, Int.bmod_bmod_of_dvd fewer, toInt_bmod_toNat _ (by omega), toInt_complement (by decide)]
  have flipped : (~~~ ty.word v.toInt).toInt = -1 - v.toInt := by
    rw [toInt_complement (by omega), IntType.toInt_word, whole]
  rw [eval_int int, IntType.value_int int, flipped, toInt_extend, masked, bmod_eq_self_iff positive]
  unfold Fits
  omega

/-- **`LSH+U`**. -/
theorem fold_lsh_unsigned (unsigned : ty.op = .unsigned) (v : Long) (n : Nat) :
    (cnsttree ty (v <<< n)).eval env = ty.value (ty.word v.toNat <<< n) := by
  have low := ty.half.2.2
  rw [eval_unsigned unsigned, IntType.value_unsigned unsigned, BitVec.toNat_shiftLeft, BitVec.toNat_shiftLeft,
    Nat.mod_mod_of_dvd _ (Nat.pow_dvd_pow 2 low.le), Nat.shiftLeft_eq, Nat.shiftLeft_eq]
  congr 1
  unfold IntType.word
  rw [BitVec.ofInt_natCast, BitVec.toNat_ofNat, Nat.mod_mul_mod]

/-- **`RSH+U`**. -/
theorem fold_rsh_unsigned (unsigned : ty.op = .unsigned) (holds : v.toNat < 2 ^ ty.bits) (n : Nat) :
    (cnsttree ty (v >>> n)).eval env = ty.value (ty.word v.toNat >>> n) := by
  rw [eval_unsigned unsigned, IntType.value_unsigned unsigned, BitVec.toNat_ushiftRight, BitVec.toNat_ushiftRight]
  congr 1
  unfold IntType.word
  rw [BitVec.ofInt_natCast, BitVec.toNat_ofNat, Nat.mod_eq_of_lt holds]
  exact Nat.mod_eq_of_lt ((Nat.shiftRight_le _ _).trans_lt holds)

theorem Fits.bounds {n m : Nat} {x : Int} (fits : Fits n x) (small : n ≤ m) : Fits m x := by
  have more : 2 ^ (n - 1) ≤ 2 ^ (m - 1) := Nat.pow_le_pow_right (by decide) (by omega)
  have cast : (2 : Int) ^ (n - 1) ≤ 2 ^ (m - 1) := by exact_mod_cast more
  unfold Fits at *
  omega

theorem toInt_shifted {w : Nat} (x : BitVec w) (n : Nat) : (x <<< n).toInt = (x.toInt * 2 ^ n).bmod (2 ^ w) := by
  rw [BitVec.toInt_shiftLeft, Nat.shiftLeft_eq, Int.natCast_mul, ← Int.bmod_mul_bmod, ← BitVec.toInt_eq_toNat_bmod]
  push_cast
  rfl

/-- **`LSH+I`**, where it folds. The compiler's `long` has room for the whole product. -/
theorem fold_lsh_int (int : ty.op = .int) (holds : Fits ty.bits v.toInt) {n : Nat} (small : n < 8 * ty.size) :
    (cnsttree ty (v <<< n)).eval env = ty.value (ty.word v.toInt <<< n) ↔ Fits ty.bits (v.toInt * 2 ^ n) := by
  obtain ⟨half, positive, low⟩ := ty.half
  have size := ty.small
  have word := (bmod_eq_self_iff (show 0 < ty.bits by omega) v.toInt).mpr holds
  have range : Fits 64 (v.toInt * 2 ^ n) := by
    have inside := holds.bounds (show ty.bits ≤ 32 by unfold IntType.bits; omega)
    have power : (2 : Int) ^ n ≤ 2 ^ 16 := by
      exact_mod_cast Nat.pow_le_pow_right (show 0 < 2 by decide) (show n ≤ 16 by omega)
    have positive : (0 : Int) < 2 ^ n := by exact_mod_cast Nat.two_pow_pos n
    have lower := Int.mul_le_mul_of_nonneg_right inside.1 positive.le
    have upper := Int.mul_le_mul_of_nonneg_right (Int.le_of_lt inside.2) positive.le
    unfold Fits
    omega
  rw [eval_int int, IntType.value_int int, toInt_shifted, toInt_shifted, IntType.toInt_word, word,
    (bmod_eq_self_iff (by decide) _).mpr range, eq_comm]
  exact bmod_eq_self_iff (by omega) _

/-- **`RSH+I`**, where it folds. -/
theorem fold_rsh_int (int : ty.op = .int) (holds : Fits ty.bits v.toInt) {n : Nat} (small : n < 8 * ty.size) :
    (cnsttree ty (if BitVec.slt v 0 then v.sshiftRight n ||| (BitVec.allOnes 64 <<< (8 * ty.size - n))
      else v.sshiftRight n)).eval env = ty.value ((ty.word v.toInt).sshiftRight n) ↔
        -2 ^ (8 * ty.size) ≤ v.toInt := by
  obtain ⟨half, positive, low⟩ := ty.half
  have word := (bmod_eq_self_iff (show 0 < ty.bits by omega) v.toInt).mpr holds
  have target : ((ty.word v.toInt).sshiftRight n).toInt = (v.sshiftRight n).toInt := by
    rw [BitVec.toInt_sshiftRight, BitVec.toInt_sshiftRight, IntType.toInt_word, word]
  have quotient : (v.sshiftRight n).toInt = v.toInt / 2 ^ n := by
    rw [BitVec.toInt_sshiftRight, Int.shiftRight_eq_div_pow]
    rfl
  rw [eval_int int, IntType.value_int int, target, BitVec.toInt_inj]
  split
  case isTrue negative =>
    have negative : v.toInt < 0 := by simpa [BitVec.slt_eq_decide] using negative
    rw [or_fill _ (by rw [quotient]; exact Int.ediv_lt_of_lt_mul (by positivity) (by omega)), quotient]
    rw [Int.le_ediv_iff_mul_le (by positivity)]
    rw [Int.neg_mul, ← Int.pow_add, Nat.sub_add_cancel small.le]
  case isFalse plain =>
    have plain : 0 ≤ v.toInt := by simpa [BitVec.slt_eq_decide] using plain
    refine iff_of_true rfl ?_
    have positive : (0 : Int) ≤ 2 ^ (8 * ty.size) := by positivity
    omega

end Folds

/-! ### Trees -/

/-- The operands have the types that the front end gives them: it casts the operand of `~` and the left
operand of a shift to the type of the result, and the count of a shift to `int`. -/
def Operands (op : Op) (ty : IntType) (l r : Tree) : Prop :=
  match op with
  | .cvi => ∃ src, l.type = some src ∧ src.op = .int
  | .cvu => ∃ src, l.type = some src ∧ src.op = .unsigned
  | .bcom => l.type = some ty
  | .lsh | .rsh => l.type = some ty ∧ r.type = some inttype

/-- The operands have their types and the constants fit theirs. -/
def Tree.Good : Tree → Prop
  | null => True
  | leaf _ _ => True
  | cnst ty v => ty.Holds v
  | tree op ty l r => Operands op ty l r ∧ l.Good ∧ r.Good

/-- An expression evaluates to a number of its type. -/
theorem Tree.Good.eval_word {t : Tree} {ty : IntType} {env : Nat → Int} (good : t.Good)
    (typed : t.type = some ty) : ty.value (ty.word (t.eval env)) = t.eval env := by
  cases t with
  | null => simp [Tree.type] at typed
  | leaf ty' name =>
    obtain rfl : ty' = ty := by simpa [Tree.type] using typed
    unfold Tree.eval
    rw [IntType.word_value]
  | cnst ty' v =>
    obtain rfl : ty' = ty := by simpa [Tree.type] using typed
    exact IntType.Holds.value_word good
  | tree op ty' l r =>
    obtain rfl : ty' = ty := by simpa [Tree.type] using typed
    unfold Tree.eval Op.compute
    cases op with
    | rsh => cases ty'.op <;> rw [IntType.word_value]
    | _ => simp only [IntType.word_value]

/-- Where the folded constant is right. A conversion to a signed type outside a constant expression is folded
within the limits of the type; a shift is folded below 8 bits to a size unit. -/
def FoldsRight (needconst : Bool) (op : Op) (ty : IntType) (l r : Tree) : Prop :=
  match op, ty.op, l, r with
  | .cvi, .int, .cnst _ v, _ =>
    needconst = true ∨ Fits ty.bits v.toInt → Fits (8 * ty.size) (v.toInt.bmod (2 ^ ty.bits))
  | .cvu, .int, .cnst _ v, _ =>
    needconst = true ∨ Fits ty.bits v.toNat → Fits (8 * ty.size) ((v.toNat : Int).bmod (2 ^ ty.bits))
  | .bcom, .int, .cnst _ v, _ => Fits (8 * ty.size) v.toInt
  | .lsh, .int, .cnst _ v, .cnst _ count =>
    needconst = true → 0 < count.toInt ∧ count.toInt < 8 * ty.size → Fits ty.bits (v.toInt * 2 ^ count.toNat)
  | .rsh, .int, .cnst _ v, .cnst _ count =>
    0 < count.toInt ∧ count.toInt < 8 * ty.size → -2 ^ (8 * ty.size) ≤ v.toInt
  | _, _, _, _ => True

section Simplify

variable {needconst : Bool} {ty : IntType} {l r : Tree} {env : Nat → Int}

/-- The test of `xcvtcnst` for a signed type. -/
theorem converts_int (v : Long) :
    (needconst || !(BitVec.slt v ty.minI || BitVec.slt ty.maxI v)) = true ↔
      needconst = true ∨ Fits ty.bits v.toInt := by
  obtain ⟨minimum, maximum⟩ := limits ty
  unfold Fits
  rw [Bool.or_eq_true]
  refine or_congr_right ?_
  simp only [BitVec.slt_eq_decide, Bool.not_eq_true', Bool.or_eq_false_iff, decide_eq_false_iff_not, minimum,
    maximum]
  omega

/-- The test of `CVU+I`. -/
theorem converts_unsigned (v : Long) :
    (needconst || !BitVec.ult ty.maxI v) = true ↔ needconst = true ∨ Fits ty.bits v.toNat := by
  have maximum : ty.maxI.toNat = 2 ^ (ty.bits - 1) - 1 := by
    unfold IntType.maxI IntType.bits
    rcases ty.small with size | size <;> rw [size] <;> decide
  have positive := Nat.two_pow_pos (ty.bits - 1)
  have cast : (2 : Int) ^ (ty.bits - 1) = (2 ^ (ty.bits - 1) : Nat) := by push_cast; rfl
  unfold Fits
  rw [Bool.or_eq_true]
  refine or_congr_right ?_
  simp only [BitVec.ult_eq_decide, Bool.not_eq_true', decide_eq_false_iff_not, maximum, cast]
  omega

theorem simplify_cvi (good : (Tree.tree .cvi ty l r).Good) :
    (simplify needconst .cvi ty l r).eval env = (Tree.tree .cvi ty l r).eval env ↔
      FoldsRight needconst .cvi ty l r := by
  obtain ⟨⟨src, typed, signed⟩, -, -⟩ := good
  cases l with
  | cnst lty v =>
    obtain rfl : lty = src := by simpa [Tree.type] using typed
    have value : (Tree.tree .cvi ty (.cnst lty v) r).eval env = ty.value (ty.word v.toInt) := by
      unfold Tree.eval Tree.eval Op.compute IntType.constant
      rw [signed]
    have constant : (Tree.cnst lty v).cnst? .int = some (lty, v) := if_pos signed
    unfold simplify FoldsRight
    cases here : ty.op with
    | int =>
      simp only [constant]
      split
      case isTrue folded =>
        rw [value, fold_extend here v rfl]
        exact ⟨fun right _ => right, fun right => right ((converts_int v).mp folded)⟩
      case isFalse plain => exact iff_of_true rfl fun folded => absurd ((converts_int v).mpr folded) plain
    | unsigned =>
      simp only [constant, iff_true]
      split
      · exact (fold_mask here v (toInt_emod ty.half.2.2.le)).trans value.symm
      · rfl
  | _ => cases here : ty.op <;> simp [simplify, here, Tree.cnst?, FoldsRight]

theorem simplify_cvu (good : (Tree.tree .cvu ty l r).Good) :
    (simplify needconst .cvu ty l r).eval env = (Tree.tree .cvu ty l r).eval env ↔
      FoldsRight needconst .cvu ty l r := by
  obtain ⟨⟨src, typed, unsigned⟩, -, -⟩ := good
  cases l with
  | cnst lty v =>
    obtain rfl : lty = src := by simpa [Tree.type] using typed
    have value : (Tree.tree .cvu ty (.cnst lty v) r).eval env = ty.value (ty.word v.toNat) := by
      unfold Tree.eval Tree.eval Op.compute IntType.constant
      rw [unsigned]
    have constant : (Tree.cnst lty v).cnst? .unsigned = some (lty, v) := if_pos unsigned
    unfold simplify FoldsRight
    cases here : ty.op with
    | int =>
      simp only [constant]
      split
      case isTrue folded =>
        rw [value, fold_extend here v (toInt_bmod_toNat v (by have half := ty.half; omega)).symm]
        exact ⟨fun right _ => right, fun right => right ((converts_unsigned v).mp folded)⟩
      case isFalse plain => exact iff_of_true rfl fun folded => absurd ((converts_unsigned v).mpr folded) plain
    | unsigned =>
      simp only [constant, iff_true]
      split
      · exact (fold_mask here v (Int.natCast_mod _ _).symm).trans value.symm
      · rfl
  | _ => cases here : ty.op <;> simp [simplify, here, Tree.cnst?, FoldsRight]

/-- The complement of a complement. -/
theorem bcom_bcom {kid other : Tree} (good : (Tree.tree .bcom ty kid other).Good) :
    (Tree.tree .bcom ty (.tree .bcom ty kid other) r).eval env = kid.eval env := by
  show ty.value (~~~ ty.word (ty.value (~~~ ty.word (kid.eval env)))) = kid.eval env
  rw [IntType.word_value, BitVec.not_not]
  exact good.2.1.eval_word good.1

theorem simplify_bcom (good : (Tree.tree .bcom ty l r).Good) :
    (simplify needconst .bcom ty l r).eval env = (Tree.tree .bcom ty l r).eval env ↔
      FoldsRight needconst .bcom ty l r := by
  obtain ⟨typed, operand, -⟩ := good
  cases l with
  | cnst lty v =>
    obtain rfl : lty = ty := by simpa [Operands, Tree.type] using typed
    have value : (Tree.tree .bcom lty (.cnst lty v) r).eval env = lty.value (~~~ lty.word (lty.constant v)) := rfl
    rw [value]
    unfold Tree.Good IntType.Holds at operand
    unfold simplify FoldsRight IntType.constant
    obtain ⟨op, size, small⟩ := lty
    cases op with
    | int => exact fold_bcom_int rfl operand
    | unsigned => exact iff_of_true (fold_bcom_unsigned rfl v) trivial
  | tree op lty kid other =>
    obtain rfl : lty = ty := by simpa [Operands, Tree.type] using typed
    have right : FoldsRight needconst .bcom lty (.tree op lty kid other) r := by
      unfold FoldsRight
      cases lty.op <;> trivial
    refine iff_of_true ?_ right
    obtain ⟨suffix, size, small⟩ := lty
    cases suffix with
    | int => cases op <;> rfl
    | unsigned =>
      cases op with
      | bcom => exact (bcom_bcom operand).symm
      | _ => rfl
  | _ => cases here : ty.op <;> simp [simplify, here, FoldsRight]

/-- A shift by the constant 0. -/
theorem isZero_eval (zero : isZero r = true) : r.eval env = 0 := by
  cases r with
  | cnst rty v =>
    have constant : (Tree.cnst rty v).cnst? .int = if rty.op = .int then some (rty, v) else none := rfl
    unfold isZero at zero
    rw [constant] at zero
    by_cases int : rty.op = .int
    · rw [if_pos int] at zero
      obtain rfl : v = 0 := by simpa using zero
      unfold Tree.eval IntType.constant
      rw [int]
      rfl
    · simp [int] at zero
  | _ => simp [isZero, Tree.cnst?] at zero

theorem foldsCount_iff {count : Long} :
    foldsCount ty count = true ↔ 0 ≤ count.toInt ∧ count.toInt < 8 * ty.size := by
  have zero : (0 : Long).toInt = 0 := by decide
  have limit : (BitVec.ofNat 64 (8 * ty.size)).toInt = 8 * ty.size := by
    rcases ty.small with size | size <;> rw [size] <;> decide
  unfold foldsCount
  simp only [BitVec.sle_eq_decide, BitVec.slt_eq_decide, Bool.and_eq_true, decide_eq_true_iff, zero, limit]

/-- A shift by 0. -/
theorem shift_zero {op : Op} (shift : op = .lsh ∨ op = .rsh) (good : (Tree.tree op ty l r).Good)
    (zero : isZero r = true) : l.eval env = (Tree.tree op ty l r).eval env := by
  have operand : l.type = some ty ∧ l.Good := by
    rcases shift with rfl | rfl <;> exact ⟨good.1.1, good.2.1⟩
  have same : ty.value (ty.word (l.eval env)) = l.eval env := operand.2.eval_word operand.1
  rcases shift with rfl | rfl
  · show _ = ty.value (ty.word (l.eval env) <<< (r.eval env).toNat)
    rw [isZero_eval zero, Int.toNat_zero, BitVec.shiftLeft_zero, same]
  · show _ = Op.rsh.compute ty (l.eval env) (r.eval env)
    unfold Op.compute
    rw [isZero_eval zero]
    cases ty.op
    · show _ = ty.value ((ty.word (l.eval env)).sshiftRight 0)
      rw [BitVec.sshiftRight_zero, same]
    · show _ = ty.value (ty.word (l.eval env) >>> 0)
      rw [BitVec.ushiftRight_zero, same]

/-- The count of a shift that is not the identity. -/
theorem count_nonzero {count : Long} (nonzero : ¬ isZero (.cnst inttype count) = true) : count.toInt ≠ 0 := by
  intro zero
  have zero : count = 0 := BitVec.eq_of_toInt_eq zero
  refine nonzero ?_
  rw [zero]
  rfl

theorem foldsRight_zero {op : Op} (shift : op = .lsh ∨ op = .rsh) (zero : isZero r = true) :
    FoldsRight needconst op ty l r := by
  have value : r.eval (fun _ => 0) = 0 := isZero_eval zero
  cases r with
  | cnst rty count =>
    have none : ¬ (0 < count.toInt) := by
      cases here : rty.op with
      | int =>
        have same : (Tree.cnst rty count).eval (fun _ => 0) = count.toInt := by
          unfold Tree.eval IntType.constant
          rw [here]
        omega
      | unsigned => simp [isZero, Tree.cnst?, here] at zero
    unfold FoldsRight
    rcases shift with rfl | rfl
    · cases ty.op <;> cases l <;> first | trivial | exact fun _ range => absurd range.1 none
    · cases ty.op <;> cases l <;> first | trivial | exact fun range => absurd range.1 none
  | _ => simp [isZero, Tree.cnst?] at zero

theorem count_toNat {count : Long} (nonneg : 0 ≤ count.toInt) : count.toInt = count.toNat := by
  have below := count.isLt
  rw [BitVec.toInt_eq_toNat_cond] at nonneg ⊢
  split at nonneg
  case isTrue small => exact if_pos small
  case isFalse => omega

theorem IntType.Holds.int {v : Long} (holds : ty.Holds v) (int : ty.op = .int) :
    Fits ty.bits v.toInt ∧ ty.constant v = v.toInt := by
  unfold IntType.Holds at holds
  unfold IntType.constant
  rw [int] at holds ⊢
  exact ⟨holds, rfl⟩

theorem IntType.Holds.unsigned {v : Long} (holds : ty.Holds v) (unsigned : ty.op = .unsigned) :
    v.toNat < 2 ^ ty.bits ∧ ty.constant v = v.toNat := by
  unfold IntType.Holds at holds
  unfold IntType.constant
  rw [unsigned] at holds ⊢
  exact ⟨holds, rfl⟩

section Shifts

variable {v count : Long} (holds : ty.Holds v) (nonzero : ¬ isZero (.cnst inttype count) = true)

include holds nonzero

/-- **`LSH+I`**. -/
theorem simplify_lsh_int (int : ty.op = .int) :
    (simplify needconst .lsh ty (.cnst ty v) (.cnst inttype count)).eval env =
        (Tree.tree .lsh ty (.cnst ty v) (.cnst inttype count)).eval env ↔
      FoldsRight needconst .lsh ty (.cnst ty v) (.cnst inttype count) := by
  have folds : simplify needconst .lsh ty (.cnst ty v) (.cnst inttype count) =
      if foldsCount ty count && muli v ((1 : Long) <<< count.toNat) ty.minI ty.maxI needconst then
        cnsttree ty (v <<< count.toNat)
      else .tree .lsh ty (.cnst ty v) (.cnst inttype count) := by
    unfold simplify
    rw [int]
    refine (if_neg nonzero).trans ?_
    rw [show (Tree.cnst ty v).cnst? .int = some (ty, v) from if_pos int]
    rfl
  have condition : FoldsRight needconst .lsh ty (.cnst ty v) (.cnst inttype count) ↔
      (needconst = true → 0 < count.toInt ∧ count.toInt < 8 * ty.size →
        Fits ty.bits (v.toInt * 2 ^ count.toNat)) := by
    unfold FoldsRight
    rw [int]
  have positive := count_nonzero nonzero
  obtain ⟨number, constant⟩ := holds.int int
  rw [folds, condition]
  split
  case isTrue taken =>
    obtain ⟨counted, multiplied⟩ := Bool.and_eq_true_iff.mp taken
    have range := foldsCount_iff.mp counted
    have same := count_toNat range.1
    have value : (Tree.tree .lsh ty (.cnst ty v) (.cnst inttype count)).eval env =
        ty.value (ty.word v.toInt <<< count.toNat) := by
      show ty.value (ty.word (ty.constant v) <<< count.toInt.toNat) = _
      rw [constant, same, Int.toNat_natCast]
    rw [value, fold_lsh_int int number (by omega)]
    refine ⟨fun right _ _ => right, fun right => ?_⟩
    rcases (muli_shift (by omega) (by omega)).mp multiplied with const | fits
    · exact right const (by omega)
    · exact fits
  case isFalse plain =>
    refine iff_of_true rfl fun const range => absurd ?_ plain
    refine Bool.and_eq_true_iff.mpr ⟨foldsCount_iff.mpr ⟨by omega, range.2⟩, ?_⟩
    unfold muli
    rw [const, Bool.or_true]

/-- **`RSH+I`**. -/
theorem simplify_rsh_int (int : ty.op = .int) :
    (simplify needconst .rsh ty (.cnst ty v) (.cnst inttype count)).eval env =
        (Tree.tree .rsh ty (.cnst ty v) (.cnst inttype count)).eval env ↔
      FoldsRight needconst .rsh ty (.cnst ty v) (.cnst inttype count) := by
  have folds : simplify needconst .rsh ty (.cnst ty v) (.cnst inttype count) =
      if foldsCount ty count then
        cnsttree ty (if BitVec.slt v 0 then
            v.sshiftRight count.toNat ||| (BitVec.allOnes 64 <<< (8 * ty.size - count.toNat))
          else v.sshiftRight count.toNat)
      else .tree .rsh ty (.cnst ty v) (.cnst inttype count) := by
    unfold simplify
    rw [int]
    refine (if_neg nonzero).trans ?_
    rw [show (Tree.cnst ty v).cnst? .int = some (ty, v) from if_pos int]
    rfl
  have condition : FoldsRight needconst .rsh ty (.cnst ty v) (.cnst inttype count) ↔
      (0 < count.toInt ∧ count.toInt < 8 * ty.size → -2 ^ (8 * ty.size) ≤ v.toInt) := by
    unfold FoldsRight
    rw [int]
  have positive := count_nonzero nonzero
  obtain ⟨number, constant⟩ := holds.int int
  rw [folds, condition]
  split
  case isTrue counted =>
    have range := foldsCount_iff.mp counted
    have same := count_toNat range.1
    have value : (Tree.tree .rsh ty (.cnst ty v) (.cnst inttype count)).eval env =
        ty.value ((ty.word v.toInt).sshiftRight count.toNat) := by
      show Op.rsh.compute ty (ty.constant v) count.toInt = _
      unfold Op.compute
      rw [int, constant, same, Int.toNat_natCast]
    rw [value, fold_rsh_int int number (by omega)]
    exact ⟨fun right _ => right, fun right => right (by omega)⟩
  case isFalse plain =>
    exact iff_of_true rfl fun range => absurd (foldsCount_iff.mpr ⟨by omega, range.2⟩) plain

/-- **`LSH+U`** and **`RSH+U`**. -/
theorem simplify_shift_unsigned {op : Op} (shift : op = .lsh ∨ op = .rsh) (unsigned : ty.op = .unsigned) :
    (simplify needconst op ty (.cnst ty v) (.cnst inttype count)).eval env =
      (Tree.tree op ty (.cnst ty v) (.cnst inttype count)).eval env := by
  obtain ⟨number, constant⟩ := holds.unsigned unsigned
  have folds : simplify needconst op ty (.cnst ty v) (.cnst inttype count) =
      if foldsCount ty count then cnsttree ty (if op = .lsh then v <<< count.toNat else v >>> count.toNat)
      else .tree op ty (.cnst ty v) (.cnst inttype count) := by
    unfold simplify
    rw [unsigned]
    rcases shift with rfl | rfl
    all_goals
      refine (if_neg nonzero).trans ?_
      rw [show (Tree.cnst ty v).cnst? .unsigned = some (ty, v) from if_pos unsigned]
      rfl
  rw [folds]
  split
  case isTrue counted =>
    have same := count_toNat (foldsCount_iff.mp counted).1
    have value : (Tree.tree op ty (.cnst ty v) (.cnst inttype count)).eval env =
        op.compute ty v.toNat count.toNat := by
      show op.compute ty (ty.constant v) count.toInt = _
      rw [constant, same]
    rw [value]
    rcases shift with rfl | rfl
    · exact fold_lsh_unsigned unsigned v count.toNat
    · unfold Op.compute
      rw [unsigned]
      exact fold_rsh_unsigned unsigned number count.toNat
  case isFalse => rfl

end Shifts

theorem simplify_shift {op : Op} (shift : op = .lsh ∨ op = .rsh) (good : (Tree.tree op ty l r).Good) :
    (simplify needconst op ty l r).eval env = (Tree.tree op ty l r).eval env ↔ FoldsRight needconst op ty l r := by
  have operands : l.type = some ty ∧ r.type = some inttype ∧ l.Good := by
    rcases shift with rfl | rfl <;> exact ⟨good.1.1, good.1.2, good.2.1⟩
  obtain ⟨typed, counted, operand⟩ := operands
  by_cases zero : isZero r = true
  · have same : simplify needconst op ty l r = l := by
      unfold simplify
      rcases shift with rfl | rfl <;> cases ty.op <;> exact if_pos zero
    rw [same]
    exact iff_of_true (shift_zero shift good zero) (foldsRight_zero shift zero)
  · cases l with
    | cnst lty v =>
      cases r with
      | cnst rty count =>
        obtain rfl : lty = ty := by simpa [Tree.type] using typed
        obtain rfl : rty = inttype := by simpa [Tree.type] using counted
        cases here : lty.op with
        | int =>
          rcases shift with rfl | rfl
          · exact simplify_lsh_int operand zero here
          · exact simplify_rsh_int operand zero here
        | unsigned =>
          refine iff_of_true (simplify_shift_unsigned operand zero shift here) ?_
          unfold FoldsRight
          rcases shift with rfl | rfl <;> rw [here] <;> trivial
      | _ =>
        rcases shift with rfl | rfl <;> cases here : ty.op <;>
          simp [simplify, here, zero, Tree.cnst?, FoldsRight]
    | _ =>
      rcases shift with rfl | rfl <;> cases here : ty.op <;>
        simp [simplify, here, zero, Tree.cnst?, FoldsRight]

end Simplify

/-- **Constant folding.** What `simplify` leaves evaluates to what the operation evaluates to on the target, on
whatever leaves, exactly where the condition holds of the operands. -/
theorem simplify_eval_iff {op : Op} {ty : IntType} {l r : Tree} (needconst : Bool) (env : Nat → Int)
    (good : (Tree.tree op ty l r).Good) :
    (simplify needconst op ty l r).eval env = (Tree.tree op ty l r).eval env ↔
      FoldsRight needconst op ty l r := by
  cases op with
  | cvi => exact simplify_cvi good
  | cvu => exact simplify_cvu good
  | bcom => exact simplify_bcom good
  | lsh => exact simplify_shift (Or.inl rfl) good
  | rsh => exact simplify_shift (Or.inr rfl) good

/-- `(int)100L` is `100`. -/
theorem simplify_eval_hundred :
    (simplify false .cvi inttype (.cnst ⟨.int, 2, Or.inr rfl⟩ 100) .null).eval (fun _ => 0) =
        (Tree.tree .cvi inttype (.cnst ⟨.int, 2, Or.inr rfl⟩ 100) .null).eval (fun _ => 0) ↔
      FoldsRight false .cvi inttype (.cnst ⟨.int, 2, Or.inr rfl⟩ 100) .null := by
  refine simplify_eval_iff false (fun _ => 0) ⟨⟨_, rfl, rfl⟩, ?_, trivial⟩
  show Fits 32 (100 : Long).toInt
  unfold Fits
  decide

/-- `(int)200L` is folded to `-56`. -/
theorem simplify_eval_wrong :
    ¬ ∀ (op : Op) (ty : IntType) (l r : Tree) (needconst : Bool) (env : Nat → Int), (Tree.tree op ty l r).Good →
      (simplify needconst op ty l r).eval env = (Tree.tree op ty l r).eval env := by
  intro right
  have same := right .cvi inttype (.cnst ⟨.int, 2, Or.inr rfl⟩ 200) .null false (fun _ => 0) ⟨⟨_, rfl, rfl⟩, by
    show Fits 32 (200 : Long).toInt
    unfold Fits
    decide, trivial⟩
  revert same
  decide

end RlCpu.Lcc
