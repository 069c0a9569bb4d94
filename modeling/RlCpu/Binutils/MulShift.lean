/-
**Multiplications and shifts (`math.s`).**

The routines shift by one and count down, and multiply by adding the shifted factor for each bit of the other. Each
loop is a family of stacks, one line of `exec` for one turn, and an induction on the number that falls.
-/

import RlCpu.Binutils.Compare
import Mathlib.Tactic.Ring

namespace RlCpu.Binutils

open RlCpu.Kernel RlCpu.Lib RlCpu.Sim Relation

variable {ι : Type} {D : Devices ι} {p : MathPlace}

/-! ### Words -/

theorem toInt_eq_zero (a : Word) : (a.toInt = (BitVec.ofInt 16 0).toInt) ↔ a = 0 := by
  rw [BitVec.toInt_inj]
  rfl

theorem shiftRight_one_lt {w : Nat} {a : BitVec w} (nonzero : a ≠ 0) : (a >>> 1).toNat < a.toNat := by
  have positive : 0 < a.toNat := Nat.pos_of_ne_zero fun zero => nonzero (BitVec.eq_of_toNat_eq (by simpa using zero))
  rw [BitVec.toNat_ushiftRight, Nat.shiftRight_eq_div_pow]
  omega

section Bits

variable {w : Nat}

theorem toNat_one (wide : 1 < w) : (1 : BitVec w).toNat = 1 := Nat.mod_eq_of_lt (Nat.one_lt_two_pow (by omega))

theorem toNat_and_one (wide : 1 < w) (a : BitVec w) : (a &&& 1).toNat = a.toNat % 2 := by
  rw [BitVec.toNat_and, toNat_one wide, Nat.and_one_is_mod]

/-- A number and its lowest bit. -/
theorem half_add_bit (wide : 1 < w) (a : BitVec w) : (a >>> 1) * 2 + (a &&& 1) = a := by
  have low := a.isLt
  have two : (2 : BitVec w).toNat = 2 :=
    Nat.mod_eq_of_lt (lt_of_lt_of_le (by decide : 2 < 2 ^ 2) (Nat.pow_le_pow_right (by decide) wide))
  apply BitVec.eq_of_toNat_eq
  rw [BitVec.toNat_add, BitVec.toNat_mul, toNat_and_one wide, BitVec.toNat_ushiftRight, Nat.shiftRight_eq_div_pow, two,
    Nat.mod_eq_of_lt (show a.toNat / 2 ^ 1 * 2 < 2 ^ w by omega), Nat.mod_eq_of_lt (by omega)]
  omega

theorem and_one_eq_one (wide : 1 < w) {a : BitVec w} (nonzero : a &&& 1 ≠ 0) : a &&& 1 = 1 := by
  apply BitVec.eq_of_toNat_eq
  have bit := toNat_and_one wide a
  have positive : (a &&& 1).toNat ≠ 0 := fun zero => nonzero (BitVec.eq_of_toNat_eq (zero.trans (Nat.zero_mod _).symm))
  rw [toNat_one wide]
  omega

/-- A factor taken apart at its lowest bit. -/
theorem mul_step (wide : 1 < w) (a b : BitVec w) : a * b = (a >>> 1) * (b <<< 1) + (if a &&& 1 = 0 then 0 else b) := by
  have twice : b <<< 1 = 2 * b := by
    apply BitVec.eq_of_toNat_eq
    rw [two_mul, BitVec.toNat_shiftLeft, BitVec.toNat_add, Nat.shiftLeft_eq, pow_one, mul_two]
  have low : (if a &&& 1 = 0 then 0 else b) = (a &&& 1) * b := by
    by_cases zero : a &&& 1 = 0
    · rw [if_pos zero, zero, zero_mul]
    · rw [if_neg zero, and_one_eq_one wide zero, one_mul]
  calc a * b = ((a >>> 1) * 2 + (a &&& 1)) * b := by rw [half_add_bit wide]
    _ = (a >>> 1) * (2 * b) + (a &&& 1) * b := by rw [add_mul, mul_assoc]
    _ = _ := by rw [twice, low]

end Bits

theorem toNat_pred {n : Word} (nonzero : n ≠ 0) : (n - 1).toNat + 1 = n.toNat := by
  have positive : n.toNat ≠ 0 := fun zero => nonzero (BitVec.eq_of_toNat_eq zero)
  have high := n.isLt
  rw [BitVec.toNat_sub, show (1 : Word).toNat = 1 from rfl]
  omega

/-! ### Shifts of a word -/

section Shifts

variable (n a bp ap : Word) (back : Nat)

/-- One turn of `__builtin_LSHU1`. -/
theorem lshu1_exec :
    exec 10 p.image.codeAt (· = .lshi1Loop) 20 (p.image.codeAt .lshi1Loop) (entry [n, a] bp ap back) =
      if decide (n.toInt = (BitVec.ofInt 16 0).toInt) = true then some (exit [] [n, a] bp ap back)
      else some (.run (p.image.codeAt .lshi1Loop) (entry [n - 1, a <<< 1] bp ap back)) := rfl

/-- One turn of `__builtin_RSHU1`. -/
theorem rshu1_exec :
    exec 10 p.image.codeAt (· = .rshi1Loop) 20 (p.image.codeAt .rshi1Loop) (entry [n, a] bp ap back) =
      if decide (n.toInt = (BitVec.ofInt 16 0).toInt) = true then some (exit [] [n, a] bp ap back)
      else some (.run (p.image.codeAt .rshi1Loop) (entry [n - 1, a >>> 1] bp ap back)) := rfl

end Shifts

/-- A routine that counts its upper argument down, and changes the other with it. -/
theorem shift1_serves {loop : MathLabel} {f : Word → Word}
    (turn : ∀ n a bp ap back, exec 10 p.image.codeAt (· = loop) 20 (p.image.codeAt loop) (entry [n, a] bp ap back) =
      if decide (n.toInt = (BitVec.ofInt 16 0).toInt) = true then some (exit [] [n, a] bp ap back)
      else some (.run (p.image.codeAt loop) (entry [n - 1, f a] bp ap back))) (n a : Word) :
    Serves D p.image 10 loop [n, a] [0, f^[n.toNat] a] := by
  refine .of_goes (show 6 ≤ 10 by decide) rfl fun bp ap back => ⟨[], ?_⟩
  refine goes_loop 10 (fun x : Word × Word => (p.image.codeAt loop, entry [x.1, x.2] bp ap back))
    (fun x => (exit [] [0, f^[x.1.toNat] x.2] bp ap back).config) (fun x => x.1.toNat) (fun x => ?_) (n, a)
  obtain ⟨n, a⟩ := x
  have run := turn n a bp ap back
  simp only [decide_eq_true_eq, toInt_eq_zero] at run
  by_cases zero : n = 0
  · subst zero
    exact Or.inl (exec_goes run)
  · rw [if_neg zero] at run
    refine Or.inr ⟨(n - 1, f a), ?_, exec_goes run, ?_⟩
    · have pred := toNat_pred zero
      show (n - 1).toNat < n.toNat
      omega
    · show (exit [] [0, f^[(n - 1).toNat] (f a)] bp ap back).config = (exit [] [0, f^[n.toNat] a] bp ap back).config
      rw [← toNat_pred zero, Function.iterate_succ_apply]

theorem iterate_shiftLeft {w : Nat} (n : Nat) (a : BitVec w) : (fun a : BitVec w => a <<< 1)^[n] a = a <<< n := by
  induction n generalizing a with
  | zero => exact (BitVec.shiftLeft_zero a).symm
  | succ n ih => rw [Function.iterate_succ_apply, ih, ← BitVec.shiftLeft_add, Nat.add_comm]

theorem iterate_ushiftRight {w : Nat} (n : Nat) (a : BitVec w) : (fun a : BitVec w => a >>> 1)^[n] a = a >>> n := by
  induction n generalizing a with
  | zero => exact (BitVec.ushiftRight_zero a).symm
  | succ n ih => rw [Function.iterate_succ_apply, ih, ← BitVec.shiftRight_add, Nat.add_comm]

/-- **`__builtin_LSHU1`**, which `__builtin_LSHI1` is too. -/
theorem lshu1_serves (n a : Word) : Serves D p.image 10 .LSHU1 [n, a] [0, a <<< n.toNat] := by
  rw [← iterate_shiftLeft]
  exact (shift1_serves lshu1_exec n a).alias rfl

/-- **`__builtin_RSHU1`** -/
theorem rshu1_serves (n a : Word) : Serves D p.image 10 .RSHU1 [n, a] [0, a >>> n.toNat] := by
  rw [← iterate_ushiftRight]
  exact (shift1_serves rshu1_exec n a).alias rfl

/-! ### Multiplication of words -/

/-- The stack of `__builtin_MULU1` in its loop. -/
def mul1 (a b r bp ap : Word) (back : Nat) : Mach := ⟨.any, .addr 6, .word r :: (frame bp ap back ++ [a, b].map .word)⟩

theorem mulu1_start (a b bp ap : Word) (back : Nat) :
    exec 10 p.image.codeAt (fun _ => false) 8 (p.image.codeAt .MULU1) (entry [a, b] bp ap back) =
      some (.run (p.image.codeAt .multBegin) (mul1 a b 0 bp ap back)) := rfl

theorem mulu1_exec (a b r bp ap : Word) (back : Nat) :
    exec 10 p.image.codeAt (· = .multBegin) 40 (p.image.codeAt .multBegin) (mul1 a b r bp ap back) =
      if decide (a.toInt = (BitVec.ofInt 16 0).toInt) = true then some (exit [.word r] [a, r] bp ap back)
      else if decide ((a &&& 1).toInt = (BitVec.ofInt 16 0).toInt) = true then
        some (.run (p.image.codeAt .multBegin) (mul1 (a >>> 1) (b <<< 1) r bp ap back))
      else some (.run (p.image.codeAt .multBegin) (mul1 (a >>> 1) (b <<< 1) (b + r) bp ap back)) := rfl

/-- **`__builtin_MULU1`**, which `__builtin_MULI1` is too. -/
theorem mulu1_serves (a b : Word) : Serves D p.image 10 .MULU1 [a, b] [0, a * b] := by
  refine .of_goes (show 6 ≤ 10 by decide) rfl fun bp ap back => ⟨[.word (a * b)], ?_⟩
  have loop := goes_loop (D := D) (P := p.image) 10
    (fun x : Word × Word × Word => (p.image.codeAt .multBegin, mul1 x.1 x.2.1 x.2.2 bp ap back))
    (fun x => (exit [.word (x.2.2 + x.1 * x.2.1)] [0, x.2.2 + x.1 * x.2.1] bp ap back).config) (fun x => x.1.toNat)
    (fun x => ?_) (a, b, 0)
  · rw [zero_add] at loop
    exact (exec_goes (mulu1_start a b bp ap back)).trans loop
  obtain ⟨a, b, r⟩ := x
  have run := mulu1_exec (p := p) a b r bp ap back
  simp only [decide_eq_true_eq, toInt_eq_zero] at run
  by_cases zero : a = 0
  · subst zero
    refine Or.inl ?_
    show Goes D p.image 10 _ (exit [.word (r + 0 * b)] [0, r + 0 * b] bp ap back).config
    rw [zero_mul, add_zero]
    exact exec_goes run
  · rw [if_neg zero, ← apply_ite fun r =>
      some (Exit.run (p.image.codeAt .multBegin) (mul1 (a >>> 1) (b <<< 1) r bp ap back))]
      at run
    refine Or.inr ⟨(a >>> 1, b <<< 1, if a &&& 1 = 0 then r else b + r), shiftRight_one_lt zero, exec_goes run, ?_⟩
    have sum : (if a &&& 1 = 0 then r else b + r) + (a >>> 1) * (b <<< 1) = r + a * b := by
      rw [mul_step (by decide) a b]
      split
      · rw [add_zero]
      · rw [add_comm b r, add_assoc, add_comm b]
    show (exit [.word ((if a &&& 1 = 0 then r else b + r) + (a >>> 1) * (b <<< 1))] [0, _] bp ap back).config = _
    rw [sum]

/-! ### Shifts of a double word -/

section Lshu2

variable (n ah al bp ap : Word) (back : Nat)

/-- The stack of `__builtin_LSHU2` in its loop: the addresses of the words, and the carry. -/
def lsh2 (carry : Val) : Mach :=
  ⟨.any, .addr 7, [.any, .any, .addr 1, carry, .addr 0] ++ (frame bp ap back ++ [n, ah, al].map .word)⟩

/-- The double word that is compared with 0. -/
def topBit (al : Word) : BitVec 32 := ((0 : Word) ++ (32768 : Word)) &&& ((0 : Word) ++ al)

theorem lshu2_start : exec 24 p.image.codeAt (fun _ => false) 8 (p.image.codeAt .LSHU2) (entry [n, ah, al] bp ap back) =
    some (.run (p.image.codeAt .l5) (lsh2 n ah al bp ap back .any)) := rfl

theorem lshu2_head : exec 24 p.image.codeAt (· = .l4) 10 (p.image.codeAt .l5) (lsh2 n ah al bp ap back .any) =
    if decide (n.toInt ≠ (BitVec.ofInt 16 0).toInt) = true then
      some (.run (p.image.codeAt .l4) (lsh2 n ah al bp ap back .any))
    else some (exit [.any, .any, .addr 1, .any, .addr 0] [n, ah, al] bp ap back) := rfl

theorem lshu2_bit : exec 24 p.image.codeAt (fun _ => false) 11 (p.image.codeAt .l4) (lsh2 n ah al bp ap back .any) =
    some (.run ((p.image.codeAt .l4).drop 11)
      ⟨.any, .addr 7, (double 0 ++ double (topBit al)).map .word ++ (lsh2 n ah al bp ap back (.word 0)).ws⟩) := rfl

theorem lshu2_carry (x y z : Word) (zero : Bool) :
    exec 24 p.image.codeAt (· = .l7) 9 ((p.image.codeAt .l4).drop 12)
      ⟨.any, .addr 7, [x, y, z, flag zero].map .word ++ (lsh2 n ah al bp ap back (.word 0)).ws⟩ =
    some (.run (p.image.codeAt .l7) (lsh2 n ah al bp ap back (.word (flag !zero)))) := by
  cases zero <;> rfl

theorem lshu2_shift (carry : Word) :
    exec 24 p.image.codeAt (fun _ => false) 16 (p.image.codeAt .l7) (lsh2 n ah al bp ap back (.word carry)) =
    some (.run (p.image.codeAt .l5) (lsh2 (n - 1) (carry + (ah <<< 1)) (al <<< 1) bp ap back (.word carry))) := rfl

end Lshu2

theorem toNat_zero_append (w : Word) : ((0 : Word) ++ w : BitVec 32).toNat = w.toNat := by
  rw [BitVec.toNat_append]
  exact (congrArg (· ||| w.toNat) (Nat.zero_shiftLeft 16)).trans (Nat.zero_or _)

/-- The top bit of a word is not set where it is less than 32768. -/
theorem topBit_eq_zero (al : Word) : topBit al = 0 ↔ al.toNat < 32768 := by
  have high := al.isLt
  rw [← BitVec.toNat_inj]
  unfold topBit
  rw [BitVec.toNat_and, toNat_zero_append, toNat_zero_append, show (32768 : Word).toNat = 2 ^ 15 from rfl, Nat.and_comm,
    Nat.and_two_pow, Nat.testBit_eq_decide_div_mod_eq]
  show _ = 0 ↔ _
  by_cases set : al.toNat / 2 ^ 15 % 2 = 1
  · rw [decide_eq_true set]
    simp only [Bool.toNat_true]
    omega
  · rw [decide_eq_false set]
    simp only [Bool.toNat_false]
    omega

theorem flag_toNat (holds : Bool) : (flag holds).toNat = holds.toNat := by
  cases holds <;> rfl

/-- A double word shifted to the left, word by word. -/
theorem high_shiftLeft (a : BitVec 32) :
    high (a <<< 1) = flag (!decide (topBit (low a) = 0)) + (high a <<< 1) := by
  have whole := a.isLt
  apply BitVec.eq_of_toNat_eq
  rw [toNat_high, BitVec.toNat_shiftLeft, BitVec.toNat_add, BitVec.toNat_shiftLeft, toNat_high, flag_toNat,
    Nat.shiftLeft_eq, Nat.shiftLeft_eq]
  simp only [topBit_eq_zero, toNat_low]
  by_cases bit : a.toNat % 65536 < 32768
  · rw [decide_eq_true bit]
    simp only [Bool.not_true, Bool.toNat_false]
    omega
  · rw [decide_eq_false bit]
    simp only [Bool.not_false, Bool.toNat_true]
    omega

theorem low_shiftLeft (a : BitVec 32) : low (a <<< 1) = low a <<< 1 := by
  apply BitVec.eq_of_toNat_eq
  rw [toNat_low, BitVec.toNat_shiftLeft, BitVec.toNat_shiftLeft, toNat_low, Nat.shiftLeft_eq, Nat.shiftLeft_eq]
  omega

/-- One turn of `__builtin_LSHU2`. -/
theorem lshu2_turn (n : Word) (a : BitVec 32) (bp ap : Word) (back : Nat) (nonzero : n ≠ 0) :
    Goes D p.image 24 (p.image.codeAt .l5, lsh2 n (high a) (low a) bp ap back .any)
      (p.image.codeAt .l5, lsh2 (n - 1) (high (a <<< 1)) (low (a <<< 1)) bp ap back .any) := by
  have head := lshu2_head (p := p) n (high a) (low a) bp ap back
  have go : decide (n.toInt ≠ (BitVec.ofInt 16 0).toInt) = true := decide_eq_true (mt (toInt_eq_zero n).mp nonzero)
  rw [if_pos go] at head
  have bit := exec_goes (D := D) (lshu2_bit (p := p) n (high a) (low a) bp ap back)
  have signed : Serves D p.image 12 .cmpEQI2 _ _ := (eq_serves (topBit (low a)) 0).alias rfl
  have test := signed.call 24 .any (.addr 7) (lsh2 n (high a) (low a) bp ap back (.word 0)).ws
      ((p.image.codeAt .l4).drop 12)
    (show 12 + 12 ≤ 24 by decide) (List.cons_ne_nil _ _)
  have carry := exec_goes (D := D) (lshu2_carry (p := p) n (high a) (low a) bp ap back (high 0) (low 0)
    (high (topBit (low a))) (decide (topBit (low a) = 0)))
  have shift := exec_goes (D := D) (lshu2_shift (p := p) n (high a) (low a) bp ap back
    (flag (!decide (topBit (low a) = 0))))
  rw [high_shiftLeft, low_shiftLeft]
  exact ((exec_goes head).trans (bit.trans (test.goes.trans (carry.trans shift)))).forget 3

/-- A routine that counts its uppermost argument down, and changes the double word below with it. -/
theorem shift2_serves {l : MathLabel} (loop : MathLabel) {f : BitVec 32 → BitVec 32} {top : List Val}
    (state : Word → BitVec 32 → Word → Word → Nat → Mach)
    (start : ∀ n a bp ap back, Goes D p.image 24 (p.image.codeAt l, entry (n :: double a) bp ap back)
      (p.image.codeAt loop, state n a bp ap back))
    (turn : ∀ n a bp ap back, n ≠ 0 → Goes D p.image 24 (p.image.codeAt loop, state n a bp ap back)
      (p.image.codeAt loop, state (n - 1) (f a) bp ap back))
    (last : ∀ a bp ap back, Goes D p.image 24 (p.image.codeAt loop, state 0 a bp ap back)
      (exit top (0 :: double a) bp ap back).config) (n : Word) (a : BitVec 32) :
    Serves D p.image 24 l (n :: double a) (0 :: double (f^[n.toNat] a)) := by
  refine .of_goes (show 7 ≤ 24 by decide) rfl fun bp ap back => ⟨top, (start n a bp ap back).trans ?_⟩
  refine goes_loop 24 (fun x : Word × BitVec 32 => (p.image.codeAt loop, state x.1 x.2 bp ap back))
    (fun x => (exit top (0 :: double (f^[x.1.toNat] x.2)) bp ap back).config) (fun x => x.1.toNat)
    (fun x => ?_) (n, a)
  obtain ⟨n, a⟩ := x
  by_cases zero : n = 0
  · subst zero
    exact Or.inl (last a bp ap back)
  · have pred := toNat_pred zero
    refine Or.inr ⟨(n - 1, f a), show (n - 1).toNat < n.toNat by omega, turn n a bp ap back zero, ?_⟩
    show (exit top (0 :: double (f^[(n - 1).toNat] (f a))) bp ap back).config =
      (exit top (0 :: double (f^[n.toNat] a)) bp ap back).config
    rw [← pred, Function.iterate_succ_apply]

/-- **`__builtin_LSHU2`** -/
theorem lshu2_serves (n : Word) (a : BitVec 32) :
    Serves D p.image 24 .LSHU2 (n :: double a) (0 :: double (a <<< n.toNat)) := by
  rw [← iterate_shiftLeft]
  exact shift2_serves .l5 (fun n a bp ap back => lsh2 n (high a) (low a) bp ap back .any)
    (fun n a bp ap back => exec_goes (lshu2_start n (high a) (low a) bp ap back)) lshu2_turn
    (fun a bp ap back => exec_goes (lshu2_head 0 (high a) (low a) bp ap back)) n a

section Rshu2

variable (n ah al bp ap : Word) (back : Nat)

/-- The stack of `__builtin_RSHU2` in its loop: the addresses of the words, the carry and a word that is 0. -/
def rsh2 (carry zero : Val) : Mach :=
  ⟨.any, .addr 7, [.any, .any, zero, .addr 0, carry, .addr 1] ++ (frame bp ap back ++ [n, ah, al].map .word)⟩

theorem rshu2_start : exec 24 p.image.codeAt (fun _ => false) 8 (p.image.codeAt .RSHU2) (entry [n, ah, al] bp ap back) =
    some (.run (p.image.codeAt .l12) (rsh2 n ah al bp ap back .any .any)) := rfl

theorem rshu2_head : exec 24 p.image.codeAt (· = .l11) 10 (p.image.codeAt .l12) (rsh2 n ah al bp ap back .any .any) =
    if decide (n.toInt ≠ (BitVec.ofInt 16 0).toInt) = true then
      some (.run (p.image.codeAt .l11) (rsh2 n ah al bp ap back .any .any))
    else some (exit [.any, .any, .any, .addr 0, .any, .addr 1] [n, ah, al] bp ap back) := rfl

theorem rshu2_carry : exec 24 p.image.codeAt (· = .l14) 14 (p.image.codeAt .l11) (rsh2 n ah al bp ap back .any .any) =
    if decide ((ah &&& 1).toInt = (BitVec.ofInt 16 0).toInt) = true then
      some (.run (p.image.codeAt .l14) (rsh2 n ah al bp ap back (.word 0) (.word 0)))
    else some (.run (p.image.codeAt .l14) (rsh2 n ah al bp ap back (.word 32768) (.word 0))) := rfl

theorem rshu2_shift (carry : Word) :
    exec 24 p.image.codeAt (fun _ => false) 16 (p.image.codeAt .l14) (rsh2 n ah al bp ap back (.word carry) (.word 0)) =
    some (.run (p.image.codeAt .l12)
      (rsh2 (n - 1) (ah >>> 1) (carry + (al >>> 1)) bp ap back (.word carry) (.word 0))) := rfl

end Rshu2

/-- A double word shifted to the right, word by word. -/
theorem high_ushiftRight (a : BitVec 32) : high (a >>> 1) = high a >>> 1 := by
  apply BitVec.eq_of_toNat_eq
  rw [toNat_high, BitVec.toNat_ushiftRight, BitVec.toNat_ushiftRight, toNat_high, Nat.shiftRight_eq_div_pow,
    Nat.shiftRight_eq_div_pow]
  omega

theorem low_ushiftRight (a : BitVec 32) :
    low (a >>> 1) = (if high a &&& 1 = 0 then (0 : Word) else 32768) + (low a >>> 1) := by
  have whole := a.isLt
  have bit := toNat_and_one (w := 16) (by decide) (high a)
  have lowest : (if high a &&& 1 = 0 then (0 : Word) else 32768).toNat = (high a).toNat % 2 * 32768 := by
    by_cases zero : high a &&& 1 = 0
    · rw [zero] at bit
      rw [if_pos zero, ← bit]
      rfl
    · have one := toNat_one (w := 16) (by decide)
      rw [and_one_eq_one (by decide) zero, one] at bit
      rw [if_neg zero, ← bit]
      rfl
  apply BitVec.eq_of_toNat_eq
  rw [toNat_low, BitVec.toNat_ushiftRight, BitVec.toNat_add, BitVec.toNat_ushiftRight, lowest, toNat_low, toNat_high,
    Nat.shiftRight_eq_div_pow, Nat.shiftRight_eq_div_pow]
  omega

/-- One turn of `__builtin_RSHU2`. -/
theorem rshu2_turn (n : Word) (a : BitVec 32) (bp ap : Word) (back : Nat) (nonzero : n ≠ 0) :
    Goes D p.image 24 (p.image.codeAt .l12, rsh2 n (high a) (low a) bp ap back .any .any)
      (p.image.codeAt .l12, rsh2 (n - 1) (high (a >>> 1)) (low (a >>> 1)) bp ap back .any .any) := by
  have head := rshu2_head (p := p) n (high a) (low a) bp ap back
  have go : decide (n.toInt ≠ (BitVec.ofInt 16 0).toInt) = true := decide_eq_true (mt (toInt_eq_zero n).mp nonzero)
  rw [if_pos go] at head
  have carry := rshu2_carry (p := p) n (high a) (low a) bp ap back
  simp only [decide_eq_true_eq, toInt_eq_zero] at carry
  rw [← apply_ite fun c : Word =>
    some (Exit.run (p.image.codeAt .l14) (rsh2 n (high a) (low a) bp ap back (.word c) (.word 0)))]
    at carry
  have shift := exec_goes (D := D) (rshu2_shift (p := p) n (high a) (low a) bp ap back
    (if high a &&& 1 = 0 then 0 else 32768))
  rw [high_ushiftRight, low_ushiftRight]
  exact (((exec_goes head).trans ((exec_goes carry).trans shift)).forget 2).forget 4

/-- **`__builtin_RSHU2`** -/
theorem rshu2_serves (n : Word) (a : BitVec 32) :
    Serves D p.image 24 .RSHU2 (n :: double a) (0 :: double (a >>> n.toNat)) := by
  rw [← iterate_ushiftRight]
  exact shift2_serves .l12 (fun n a bp ap back => rsh2 n (high a) (low a) bp ap back .any .any)
    (fun n a bp ap back => exec_goes (rshu2_start n (high a) (low a) bp ap back)) rshu2_turn
    (fun a bp ap back => exec_goes (rshu2_head 0 (high a) (low a) bp ap back)) n a

/-! ### Multiplication of double words -/

section Mulu2

variable (a b r : BitVec 32) (bp ap : Word) (back : Nat)

/-- The stack of `__builtin_MULU2` in its loop, with the result so far. -/
def mul2 (count : Val) : Mach :=
  ⟨.any, .addr 8, [count, .word (high r), .word (low r)] ++ (frame bp ap back ++ (double b ++ double a).map .word)⟩

/-- The double word that says whether a turn adds. -/
def lowBit (b : BitVec 32) : BitVec 32 := ((0 : Word) ++ (1 : Word)) &&& (high b ++ low b)

theorem mulu2_start : exec 40 p.image.codeAt (fun _ => false) 6 (p.image.codeAt .MULU2)
    (entry (double b ++ double a) bp ap back) = some (.run (p.image.codeAt .l18) (mul2 a b 0 bp ap back .any)) := rfl

theorem mulu2_test : exec 40 p.image.codeAt (fun _ => false) 4 (p.image.codeAt .l18) (mul2 a b r bp ap back .any) =
    some (.run ((p.image.codeAt .l18).drop 4)
      ⟨.any, .addr 8, (double 0 ++ double b).map .word ++ (mul2 a b r bp ap back .any).ws⟩) := rfl

theorem mulu2_more (x y z : Word) : exec 40 p.image.codeAt (· = .l17) 3 ((p.image.codeAt .l18).drop 5)
      ⟨.any, .addr 8, [x, y, z, flag true].map .word ++ (mul2 a b r bp ap back .any).ws⟩ =
    some (.run (p.image.codeAt .l17) (mul2 a b r bp ap back .any)) := rfl

theorem mulu2_end (x y z : Word) : exec 40 p.image.codeAt (fun _ => false) 8 ((p.image.codeAt .l18).drop 5)
      ⟨.any, .addr 8, [x, y, z, flag false].map .word ++ (mul2 a b r bp ap back .any).ws⟩ =
    some (exit [.any, .word (high r), .word (low r)] (double b ++ double r) bp ap back) := rfl

theorem mulu2_bit : exec 40 p.image.codeAt (fun _ => false) 7 (p.image.codeAt .l17) (mul2 a b r bp ap back .any) =
    some (.run ((p.image.codeAt .l17).drop 7)
      ⟨.any, .addr 8, (double 0 ++ double (lowBit b)).map .word ++ (mul2 a b r bp ap back .any).ws⟩) := rfl

theorem mulu2_add (x y z : Word) (zero : Bool) :
    exec 40 p.image.codeAt (· = .l20) 14 ((p.image.codeAt .l17).drop 8)
      ⟨.any, .addr 8, [x, y, z, flag zero].map .word ++ (mul2 a b r bp ap back .any).ws⟩ =
    some (.run (p.image.codeAt .l20)
      (mul2 a b (if zero then r else (high a ++ low a) + (high r ++ low r)) bp ap back .any)) := by
  cases zero <;> rfl

theorem mulu2_left : exec 40 p.image.codeAt (fun _ => false) 7 (p.image.codeAt .l20) (mul2 a b r bp ap back .any) =
    some (.run ((p.image.codeAt .l20).drop 7)
      ⟨.any, .addr 8, ((1 : Word) :: double a).map .word ++ (.addr 0 :: (mul2 a b r bp ap back (.word 1)).ws)⟩) := rfl

theorem mulu2_right (a' : BitVec 32) : exec 40 p.image.codeAt (fun _ => false) 6 ((p.image.codeAt .l20).drop 8)
      ⟨.any, .addr 8, ((0 : Word) :: double a').map .word ++ (.addr 0 :: (mul2 a b r bp ap back (.word 1)).ws)⟩ =
    some (.run ((p.image.codeAt .l20).drop 14)
      ⟨.any, .addr 8, ((1 : Word) :: double b).map .word ++ (.addr 2 :: (mul2 a' b r bp ap back (.word 1)).ws)⟩) := rfl

theorem mulu2_again (b' : BitVec 32) : exec 40 p.image.codeAt (fun _ => false) 7 ((p.image.codeAt .l20).drop 15)
      ⟨.any, .addr 8, ((0 : Word) :: double b').map .word ++ (.addr 2 :: (mul2 a b r bp ap back (.word 1)).ws)⟩ =
    some (.run (p.image.codeAt .l18) (mul2 a b' r bp ap back (.word 1))) := rfl

end Mulu2

theorem lowBit_eq (b : BitVec 32) : lowBit b = b &&& 1 := by
  unfold lowBit
  rw [high_append_low, BitVec.and_comm]
  rfl

section Mulu2

variable (a b r : BitVec 32) (bp ap : Word) (back : Nat)

/-- The loop's test, up to its branch. -/
theorem mulu2_tested : Goes D p.image 40 (p.image.codeAt .l18, mul2 a b r bp ap back .any)
    ((p.image.codeAt .l18).drop 5, ⟨.any, .addr 8,
      [high 0, low 0, high b, flag (b ≠ 0)].map .word ++ (mul2 a b r bp ap back .any).ws⟩) :=
  (exec_goes (mulu2_test a b r bp ap back)).trans
    ((ne_serves b 0).call 40 _ _ (mul2 a b r bp ap back .any).ws ((p.image.codeAt .l18).drop 5)
      (show 12 + 11 ≤ 40 by decide) (List.cons_ne_nil _ _)).goes

/-- The sum of a turn. -/
theorem mulu2_added : Goes D p.image 40 (p.image.codeAt .l17, mul2 a b r bp ap back .any)
    (p.image.codeAt .l20, mul2 a b (if b &&& 1 = 0 then r else a + r) bp ap back .any) := by
  have test := ((eq_serves (D := D) (p := p) (lowBit b) 0).call 40 .any (.addr 8)
    (mul2 a b r bp ap back .any).ws ((p.image.codeAt .l17).drop 8) (show 12 + 11 ≤ 40 by decide)
    (List.cons_ne_nil _ _)).goes
  have add := exec_goes (D := D) (mulu2_add (p := p) a b r bp ap back (high 0) (low 0) (high (lowBit b))
    (decide (lowBit b = 0)))
  simp only [decide_eq_true_eq, high_append_low, lowBit_eq] at add
  rw [lowBit_eq] at test
  have bit := exec_goes (D := D) (mulu2_bit (p := p) a b r bp ap back)
  rw [lowBit_eq] at bit
  exact bit.trans (test.trans add)

/-- The shifts of a turn. -/
theorem mulu2_shifted : Goes D p.image 40 (p.image.codeAt .l20, mul2 a b r bp ap back .any)
    (p.image.codeAt .l18, mul2 (a <<< 1) (b >>> 1) r bp ap back .any) := by
  have left := ((lshu2_serves (D := D) (p := p) 1 a).call 40 .any (.addr 8)
    (.addr 0 :: (mul2 a b r bp ap back (.word 1)).ws) ((p.image.codeAt .l20).drop 8)
    (show 24 + 12 ≤ 40 by decide) (List.cons_ne_nil _ _)).goes
  have right := ((rshu2_serves (D := D) (p := p) 1 b).call 40 .any (.addr 8)
    (.addr 2 :: (mul2 (a <<< 1) b r bp ap back (.word 1)).ws) ((p.image.codeAt .l20).drop 15)
    (show 24 + 12 ≤ 40 by decide) (List.cons_ne_nil _ _)).goes
  exact ((exec_goes (mulu2_left a b r bp ap back)).trans
    (left.trans ((exec_goes (mulu2_right a b r bp ap back (a <<< 1))).trans
    (right.trans (exec_goes (mulu2_again (a <<< 1) b r bp ap back (b >>> 1))))))).forget 0

end Mulu2

/-- **`__builtin_MULU2`**, which `__builtin_MULI2` is too. -/
theorem mulu2_serves (a b : BitVec 32) :
    Serves D p.image 40 .MULU2 (double b ++ double a) (double 0 ++ double (a * b)) := by
  refine .of_goes (show 8 ≤ 40 by decide) rfl fun bp ap back =>
    ⟨[.any, .word (high (a * b)), .word (low (a * b))], (exec_goes (mulu2_start a b bp ap back)).trans ?_⟩
  have loop := goes_loop (D := D) (P := p.image) 40
    (fun x : BitVec 32 × BitVec 32 × BitVec 32 => (p.image.codeAt .l18, mul2 x.1 x.2.1 x.2.2 bp ap back .any))
    (fun x => (exit [.any, .word (high (x.2.2 + x.1 * x.2.1)), .word (low (x.2.2 + x.1 * x.2.1))]
      (double 0 ++ double (x.2.2 + x.1 * x.2.1)) bp ap back).config) (fun x => x.2.1.toNat) (fun x => ?_) (a, b, 0)
  · rw [zero_add] at loop
    exact loop
  obtain ⟨a, b, r⟩ := x
  have tested := mulu2_tested (D := D) (p := p) a b r bp ap back
  by_cases zero : b = 0
  · subst zero
    refine Or.inl ?_
    show Goes D p.image 40 _ (exit [.any, .word (high (r + a * 0)), .word (low (r + a * 0))]
      (double 0 ++ double (r + a * 0)) bp ap back).config
    rw [mul_zero, add_zero]
    exact tested.trans (exec_goes (mulu2_end a 0 r bp ap back _ _ _))
  · rw [decide_eq_true zero] at tested
    have turn := tested.trans ((exec_goes (mulu2_more a b r bp ap back _ _ _)).trans
      ((mulu2_added a b r bp ap back).trans (mulu2_shifted a b (if b &&& 1 = 0 then r else a + r) bp ap back)))
    refine Or.inr ⟨(a <<< 1, b >>> 1, if b &&& 1 = 0 then r else a + r), shiftRight_one_lt zero, turn, ?_⟩
    have sum : (if b &&& 1 = 0 then r else a + r) + (a <<< 1) * (b >>> 1) = r + a * b := by
      rw [mul_comm a b, mul_step (by decide) b a, mul_comm (a <<< 1)]
      split
      · rw [add_zero]
      · rw [add_comm a r, add_assoc, add_comm a]
    show (exit [.any, .word (high ((if b &&& 1 = 0 then r else a + r) + (a <<< 1) * (b >>> 1))), _] _ bp ap back).config = _
    rw [sum]

end RlCpu.Binutils
