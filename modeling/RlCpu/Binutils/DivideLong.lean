/-
**Division of double words (`__builtin_DIVU2`, `__builtin_MODU2` and their signed names in `math.s`).**

The routine doubles the divisor until it exceeds the dividend, and takes it back bit by bit. A divisor that is doubled
beyond its 32 bits starts again from below: the routine then never ends, or divides by what is left of the divisor.
The signed names are labels of the same code.

* `divu2_serves`, `divu2_hangs`: what the division does, from the first doubled divisor beyond the dividend.
* `divu2_right`: the unsigned routines are right exactly where such a divisor is still one of 32 bits.
-/

import RlCpu.Binutils.Divide
import Mathlib.Data.Nat.Factorization.Basic

namespace RlCpu.Binutils

open RlCpu.Kernel RlCpu.Lib RlCpu.Sim Relation

variable {ι : Type} {D : Devices ι} {p : MathPlace}

/-! ### The code -/

section Exec

variable (denom current answer a b : BitVec 32) (bp ap : Word) (back : Nat)

/-- The locals of `__builtin_DIVU2`, with its counts. -/
def locals2 (count count' : Val) : List Val :=
  [count', count, .word (high answer), .word (low answer), .word (high current), .word (low current), .word (high denom),
    .word (low denom)]

/-- What is below the words that `__builtin_DIVU2` works on. -/
def below2 (count count' : Val) : List Val :=
  locals2 denom current answer count count' ++ (frame bp ap back ++ (double b ++ double a).map .word)

/-- The stack of `__builtin_DIVU2`, with `top` on it. -/
def div2 (top : List Val) (count count' : Val) : Mach :=
  ⟨.any, .addr 8, top ++ below2 denom current answer a b bp ap back count count'⟩

theorem divu2_init : exec 44 p.image.codeAt (fun _ => false) 5 (p.image.codeAt .DIVU2)
    (entry (double b ++ double a) bp ap back) =
    some (.run ((p.image.codeAt .DIVU2).drop 5)
      ⟨.any, .addr 8, [.any, .any, .any, .any, .any, .any, .word (high b), .word (low b)] ++
      (frame bp ap back ++ (double b ++ double a).map .word)⟩) := rfl

theorem divu2_zero : exec 44 p.image.codeAt (fun _ => false) 8 ((p.image.codeAt .DIVU2).drop 5)
    ⟨.any, .addr 8, [.any, .any, .any, .any, .any, .any, .word (high b), .word (low b)] ++
      (frame bp ap back ++ (double b ++ double a).map .word)⟩ =
    some (.run ((p.image.codeAt .DIVU2).drop 13) (div2 b 1 0 a b bp ap back [] .any .any)) := rfl

theorem divu2_compare : exec 44 p.image.codeAt (fun _ => false) 4 ((p.image.codeAt .DIVU2).drop 13)
    (div2 denom current answer a b bp ap back [] .any .any) =
    some (.run ((p.image.codeAt .DIVU2).drop 17)
      (div2 denom current answer a b bp ap back ((double a ++ double denom).map .word) .any .any)) := rfl

theorem divu2_less (x y z : Word) (holds : Bool) : exec 44 p.image.codeAt (· = .l2_d2) 8 ((p.image.codeAt .DIVU2).drop 18)
    (div2 denom current answer a b bp ap back ([x, y, z, flag holds].map .word) .any .any) =
    some (if holds then .run (p.image.codeAt .l2_d2) (div2 denom current answer a b bp ap back [] .any .any)
      else exit (locals2 denom current answer .any .any) (double b ++ double 0) bp ap back) := by
  cases holds <;> rfl

theorem divu2_differ : exec 44 p.image.codeAt (fun _ => false) 4 (p.image.codeAt .l2_d2)
    (div2 denom current answer a b bp ap back [] .any .any) =
    some (.run ((p.image.codeAt .l2_d2).drop 4)
      (div2 denom current answer a b bp ap back ((double a ++ double denom).map .word) .any .any)) := rfl

theorem divu2_same (x y z : Word) (holds : Bool) : exec 44 p.image.codeAt (· = .l7_d2) 8 ((p.image.codeAt .l2_d2).drop 5)
    (div2 denom current answer a b bp ap back ([x, y, z, flag holds].map .word) .any .any) =
    some (if holds then .run (p.image.codeAt .l7_d2) (div2 denom current answer a b bp ap back [] .any .any)
      else exit (locals2 denom current answer .any .any) (double b ++ double 1) bp ap back) := by
  cases holds <;> rfl

theorem divu2_left : exec 44 p.image.codeAt (fun _ => false) 7 (p.image.codeAt .l6_d2)
    (div2 denom current answer a b bp ap back [] .any .any) =
    some (.run ((p.image.codeAt .l6_d2).drop 7)
      (div2 denom current answer a b bp ap back (((1 : Word) :: double denom).map .word ++ [.addr 8])
        (.word 1) .any)) := rfl

theorem divu2_left' (denom' : BitVec 32) : exec 44 p.image.codeAt (fun _ => false) 6 ((p.image.codeAt .l6_d2).drop 8)
    (div2 denom current answer a b bp ap back (((0 : Word) :: double denom').map .word ++ [.addr 8]) (.word 1) .any) =
    some (.run ((p.image.codeAt .l6_d2).drop 14)
      (div2 denom' current answer a b bp ap back (((1 : Word) :: double current).map .word ++ [.addr 10])
        (.word 1) .any)) := rfl

theorem divu2_left'' (current' : BitVec 32) : exec 44 p.image.codeAt (· = .l7_d2) 7 ((p.image.codeAt .l6_d2).drop 15)
    (div2 denom current answer a b bp ap back (((0 : Word) :: double current').map .word ++ [.addr 10]) (.word 1) .any) =
    some (.run (p.image.codeAt .l7_d2) (div2 denom current' answer a b bp ap back [] (.word 1) .any)) := rfl

theorem divu2_beyond : exec 44 p.image.codeAt (fun _ => false) 4 (p.image.codeAt .l7_d2)
    (div2 denom current answer a b bp ap back [] .any .any) =
    some (.run ((p.image.codeAt .l7_d2).drop 4)
      (div2 denom current answer a b bp ap back ((double a ++ double denom).map .word) .any .any)) := rfl

theorem divu2_again (x y z : Word) : exec 44 p.image.codeAt (· = .l6_d2) 3 ((p.image.codeAt .l7_d2).drop 5)
    (div2 denom current answer a b bp ap back ([x, y, z, flag true].map .word) .any .any) =
    some (.run (p.image.codeAt .l6_d2) (div2 denom current answer a b bp ap back [] .any .any)) := rfl

theorem divu2_back (x y z : Word) : exec 44 p.image.codeAt (fun _ => false) 10 ((p.image.codeAt .l7_d2).drop 5)
    (div2 denom current answer a b bp ap back ([x, y, z, flag false].map .word) .any .any) =
    some (.run ((p.image.codeAt .l7_d2).drop 15)
      (div2 denom current answer a b bp ap back (((1 : Word) :: double denom).map .word ++ [.addr 8])
        (.word 1) .any)) := rfl

theorem divu2_back' (denom' : BitVec 32) : exec 44 p.image.codeAt (fun _ => false) 6 ((p.image.codeAt .l7_d2).drop 16)
    (div2 denom current answer a b bp ap back (((0 : Word) :: double denom').map .word ++ [.addr 8]) (.word 1) .any) =
    some (.run ((p.image.codeAt .l7_d2).drop 22)
      (div2 denom' current answer a b bp ap back (((1 : Word) :: double current).map .word ++ [.addr 10])
        (.word 1) .any)) := rfl

theorem divu2_back'' (current' : BitVec 32) : exec 44 p.image.codeAt (fun _ => false) 3 ((p.image.codeAt .l7_d2).drop 23)
    (div2 denom current answer a b bp ap back (((0 : Word) :: double current').map .word ++ [.addr 10]) (.word 1) .any) =
    some (.run (p.image.codeAt .l10_d2) (div2 denom current' answer a b bp ap back [] (.word 1) .any)) := rfl

theorem divu2_bit : exec 44 p.image.codeAt (fun _ => false) 4 (p.image.codeAt .l10_d2)
    (div2 denom current answer a b bp ap back [] .any .any) =
    some (.run ((p.image.codeAt .l10_d2).drop 4)
      (div2 denom current answer a b bp ap back ((double 0 ++ double current).map .word) .any .any)) := rfl

theorem divu2_more (x y z : Word) : exec 44 p.image.codeAt (· = .l9_d2) 3 ((p.image.codeAt .l10_d2).drop 5)
    (div2 denom current answer a b bp ap back ([x, y, z, flag true].map .word) .any .any) =
    some (.run (p.image.codeAt .l9_d2) (div2 denom current answer a b bp ap back [] .any .any)) := rfl

theorem divu2_end (x y z : Word) : exec 44 p.image.codeAt (fun _ => false) 8 ((p.image.codeAt .l10_d2).drop 5)
    (div2 denom current answer a b bp ap back ([x, y, z, flag false].map .word) .any .any) =
    some (exit (locals2 denom current answer .any .any) (double b ++ double answer) bp ap back) := rfl

theorem divu2_fits : exec 44 p.image.codeAt (fun _ => false) 4 (p.image.codeAt .l9_d2)
    (div2 denom current answer a b bp ap back [] .any .any) =
    some (.run ((p.image.codeAt .l9_d2).drop 4)
      (div2 denom current answer a b bp ap back ((double denom ++ double a).map .word) .any .any)) := rfl

theorem divu2_skip (x y z : Word) : exec 44 p.image.codeAt (· = .l12_d2) 3 ((p.image.codeAt .l9_d2).drop 5)
    (div2 denom current answer a b bp ap back ([x, y, z, flag true].map .word) .any .any) =
    some (.run (p.image.codeAt .l12_d2) (div2 denom current answer a b bp ap back [] .any .any)) := rfl

theorem divu2_take (x y z : Word) : exec 44 p.image.codeAt (· = .l12_d2) 10 ((p.image.codeAt .l9_d2).drop 5)
    (div2 denom current answer a b bp ap back ([x, y, z, flag false].map .word) .any .any) =
    some (.run ((p.image.codeAt .l9_d2).drop 15)
      (div2 denom current answer ((high a ++ low a) - (high denom ++ low denom)) b bp ap back [] .any .any)) := rfl

theorem divu2_take' : exec 44 p.image.codeAt (fun _ => false) 7 ((p.image.codeAt .l9_d2).drop 15)
    (div2 denom current answer a b bp ap back [] .any .any) =
    some (.run (p.image.codeAt .l12_d2)
      (div2 denom current ((high current ++ low current) |||
        (high answer ++ low answer)) a b bp ap back [] .any .any)) := rfl

theorem divu2_down : exec 44 p.image.codeAt (fun _ => false) 7 (p.image.codeAt .l12_d2)
    (div2 denom current answer a b bp ap back [] .any .any) =
    some (.run ((p.image.codeAt .l12_d2).drop 7)
      (div2 denom current answer a b bp ap back
        (((1 : Word) :: double current).map .word ++ [.addr 10]) .any (.word 1))) := rfl

theorem divu2_down' (current' : BitVec 32) : exec 44 p.image.codeAt (fun _ => false) 6 ((p.image.codeAt .l12_d2).drop 8)
    (div2 denom current answer a b bp ap back (((0 : Word) :: double current').map .word ++ [.addr 10]) .any (.word 1)) =
    some (.run ((p.image.codeAt .l12_d2).drop 14)
      (div2 denom current' answer a b bp ap back
        (((1 : Word) :: double denom).map .word ++ [.addr 8]) .any (.word 1))) := rfl

theorem divu2_down'' (denom' : BitVec 32) : exec 44 p.image.codeAt (· = .l10_d2) 7 ((p.image.codeAt .l12_d2).drop 15)
    (div2 denom current answer a b bp ap back (((0 : Word) :: double denom').map .word ++ [.addr 8]) .any (.word 1)) =
    some (.run (p.image.codeAt .l10_d2) (div2 denom' current answer a b bp ap back [] .any (.word 1))) := rfl

end Exec

/-! ### Calls inside the routine -/

section Calls

variable (denom current answer a b : BitVec 32) (bp ap : Word) (back : Nat) (count count' : Val) {l : MathLabel}
  (code : List (Instr MathLabel))

/-- A comparison called with the words on the stack. -/
theorem div2_test {args : List Word} {x y z : Word} {holds : Bool}
    (serves : Serves D p.image 12 l args [x, y, z, flag holds]) (next : code ≠ []) :
    Goes D p.image 44 (.link .call0W l :: code, div2 denom current answer a b bp ap back (args.map .word) count count')
      (code, div2 denom current answer a b bp ap back ([x, y, z, flag holds].map .word) count count') :=
  (serves.call _ _ _ _ _ (show 12 + 16 ≤ 44 by decide) next).goes

/-- A shift called, with the address for its result below the words. -/
theorem div2_shift (f : BitVec 32 → BitVec 32) {x : BitVec 32} (place : Val)
    (serves : Serves D p.image 24 l (1 :: double x) (0 :: double (f x))) (next : code ≠ []) :
    Goes D p.image 44
      (.link .call0W l :: code,
        div2 denom current answer a b bp ap back (((1 : Word) :: double x).map .word ++ [place]) count count')
      (code, div2 denom current answer a b bp ap back (((0 : Word) :: double (f x)).map .word ++ [place]) count count') :=
  (serves.call _ _ _ (place :: below2 denom current answer a b bp ap back count count') _
    (show 24 + 17 ≤ 44 by decide) next).goes

end Calls

/-! ### The blocks -/

section Blocks

variable (denom current answer a b : BitVec 32) (bp ap : Word) (back : Nat)

/-- The processor is at the label `l`, with the words in the locals. -/
def at2 (l : MathLabel) : Sim.Config MathLabel := (p.image.codeAt l, div2 denom current answer a b bp ap back [] .any .any)

/-- The end of the division. -/
def done2 (n : BitVec 32) : Sim.Config MathLabel :=
  (exit (locals2 denom current answer .any .any) (double b ++ double n) bp ap back : Exit MathLabel).config

/-- Up to the first comparison. -/
theorem divu2_start : Goes D p.image 44 (p.image.codeAt .DIVU2, entry (double b ++ double a) bp ap back)
    (if b.toNat ≤ a.toNat then at2 (p := p) b 1 0 a b bp ap back .l2_d2 else done2 b 1 0 b bp ap back 0) := by
  have test := div2_test (D := D) (p := p) b 1 0 a b bp ap back .any .any ((p.image.codeAt .DIVU2).drop 18)
      (unsigned_serves .le b a)
    (List.cons_ne_nil _ _)
  have less := exec_goes (D := D) (divu2_less (p := p) b 1 0 a b bp ap back (high a) (low a) (high b)
    (decide ((b.toNat : Int) ≤ a.toNat)))
  have goes := (exec_goes (D := D) (divu2_init (p := p) a b bp ap back)).trans
      ((exec_goes (divu2_zero a b bp ap back)).trans
    ((exec_goes (divu2_compare b 1 0 a b bp ap back)).trans (test.trans less)))
  simp only [decide_eq_true_eq, Int.ofNat_le] at goes
  split
  case isTrue holds => rwa [if_pos holds] at goes
  case isFalse fails => rwa [if_neg fails] at goes

/-- The comparison for equal operands. -/
theorem divu2_second : Goes D p.image 44 (at2 (p := p) denom current answer a b bp ap back .l2_d2)
    (if denom ≠ a then at2 (p := p) denom current answer a b bp ap back .l7_d2
      else done2 denom current answer b bp ap back 1) := by
  have test := div2_test (D := D) (p := p) denom current answer a b bp ap back .any .any
      ((p.image.codeAt .l2_d2).drop 5) (ne_serves denom a) (List.cons_ne_nil _ _)
  have same := exec_goes (D := D) (divu2_same (p := p) denom current answer a b bp ap back (high a) (low a) (high denom)
    (decide (denom ≠ a)))
  have goes := (exec_goes (divu2_differ denom current answer a b bp ap back)).trans (test.trans same)
  simp only [decide_eq_true_eq] at goes
  split
  case isTrue differ => rwa [if_pos differ] at goes
  case isFalse equal => rwa [if_neg equal] at goes

/-- Whether the divisor is beyond the dividend. -/
theorem divu2_tested : Moves D p.image 44 (at2 (p := p) denom current answer a b bp ap back .l7_d2)
    ((p.image.codeAt .l7_d2).drop 5, div2 denom current answer a b bp ap back
      ([high a, low a, high denom, flag (decide (denom.toNat ≤ a.toNat))].map .word) .any .any) := by
  have beyond : Moves D p.image 44 (at2 (p := p) denom current answer a b bp ap back .l7_d2) _ :=
    exec_moves (by intro is; cases is) (by intro l is; cases is) (divu2_beyond denom current answer a b bp ap back)
  have serves := unsigned_serves (D := D) (p := p) .le denom a
  have order : Order.le.holds denom.toNat a.toNat = decide (denom.toNat ≤ a.toNat) := decide_eq_decide.mpr Int.ofNat_le
  rw [order] at serves
  exact beyond.trans_goes (div2_test _ _ _ _ _ _ _ _ _ _ _ serves (List.cons_ne_nil _ _))

/-- One turn of the first loop. -/
theorem divu2_double (low : denom.toNat ≤ a.toNat) :
    Moves D p.image 44 (at2 (p := p) denom current answer a b bp ap back .l7_d2)
      (at2 (p := p) (denom <<< 1) (current <<< 1) answer a b bp ap back .l7_d2) := by
  have tested := divu2_tested (D := D) (p := p) denom current answer a b bp ap back
  rw [decide_eq_true low] at tested
  have first := div2_shift (D := D) (p := p) denom current answer a b bp ap back (.word 1) .any
      ((p.image.codeAt .l6_d2).drop 8) (· <<< 1) (.addr 8) (lshu2_serves 1 denom) (List.cons_ne_nil _ _)
  have second := div2_shift (D := D) (p := p) (denom <<< 1) current answer a b bp ap back (.word 1) .any
      ((p.image.codeAt .l6_d2).drop 15) (· <<< 1) (.addr 10) (lshu2_serves 1 current) (List.cons_ne_nil _ _)
  have shifts := ((exec_goes (D := D) (divu2_left (p := p) denom current answer a b bp ap back)).trans (first.trans
    ((exec_goes (divu2_left' denom current answer a b bp ap back (denom <<< 1))).trans (second.trans
      (exec_goes (divu2_left'' (denom <<< 1) current answer a b bp ap back (current <<< 1))))))).forget 1
  exact tested.trans_goes ((exec_goes (divu2_again denom current answer a b bp ap back _ _ _)).trans shifts)

/-- The end of the first loop. -/
theorem divu2_turned (high : a.toNat < denom.toNat) :
    Goes D p.image 44 (at2 (p := p) denom current answer a b bp ap back .l7_d2)
      (at2 (p := p) (denom >>> 1) (current >>> 1) answer a b bp ap back .l10_d2) := by
  have tested := divu2_tested (D := D) (p := p) denom current answer a b bp ap back
  rw [decide_eq_false (Nat.not_le_of_lt high)] at tested
  have first := div2_shift (D := D) (p := p) denom current answer a b bp ap back (.word 1) .any
      ((p.image.codeAt .l7_d2).drop 16) (· >>> 1) (.addr 8) (rshu2_serves 1 denom) (List.cons_ne_nil _ _)
  have second := div2_shift (D := D) (p := p) (denom >>> 1) current answer a b bp ap back (.word 1) .any
      ((p.image.codeAt .l7_d2).drop 23) (· >>> 1) (.addr 10) (rshu2_serves 1 current) (List.cons_ne_nil _ _)
  have shifts := (first.trans
    ((exec_goes (divu2_back' denom current answer a b bp ap back (denom >>> 1))).trans (second.trans
      (exec_goes (divu2_back'' (denom >>> 1) current answer a b bp ap back (current >>> 1)))))).forget 1
  exact tested.goes.trans ((exec_goes (divu2_back denom current answer a b bp ap back _ _ _)).trans shifts)

/-- Whether there is a bit left. -/
theorem divu2_left_over : Goes D p.image 44 (at2 (p := p) denom current answer a b bp ap back .l10_d2)
    (if current ≠ 0 then at2 (p := p) denom current answer a b bp ap back .l9_d2
      else done2 denom current answer b bp ap back answer) := by
  have test := div2_test (D := D) (p := p) denom current answer a b bp ap back .any .any
      ((p.image.codeAt .l10_d2).drop 5) (ne_serves current 0) (List.cons_ne_nil _ _)
  have goes := (exec_goes (divu2_bit denom current answer a b bp ap back)).trans test
  split
  case isTrue more =>
    rw [decide_eq_true more] at goes
    exact goes.trans (exec_goes (divu2_more denom current answer a b bp ap back _ _ _))
  case isFalse none =>
    rw [decide_eq_false none] at goes
    exact goes.trans (exec_goes (divu2_end denom current answer a b bp ap back _ _ _))

/-- A bit of the quotient. -/
theorem divu2_taken : Goes D p.image 44 (at2 (p := p) denom current answer a b bp ap back .l9_d2)
    (if a.toNat < denom.toNat then at2 (p := p) denom current answer a b bp ap back .l12_d2
      else at2 (p := p) denom current (current ||| answer) (a - denom) b bp ap back .l12_d2) := by
  have serves := unsigned_serves (D := D) (p := p) .lt a denom
  have order : Order.lt.holds a.toNat denom.toNat = decide (a.toNat < denom.toNat) := decide_eq_decide.mpr Int.ofNat_lt
  rw [order] at serves
  have test := div2_test (D := D) (p := p) denom current answer a b bp ap back .any .any
      ((p.image.codeAt .l9_d2).drop 5) serves (List.cons_ne_nil _ _)
  have goes := (exec_goes (divu2_fits denom current answer a b bp ap back)).trans test
  split
  case isTrue less =>
    rw [decide_eq_true less] at goes
    exact goes.trans (exec_goes (divu2_skip denom current answer a b bp ap back _ _ _))
  case isFalse enough =>
    rw [decide_eq_false enough] at goes
    have take := exec_goes (D := D)
        (divu2_take (p := p) denom current answer a b bp ap back (high denom) (low denom) (high a))
    have take' := exec_goes (D := D) (divu2_take' (p := p) denom current answer (a - denom) b bp ap back)
    simp only [high_append_low] at take take'
    exact goes.trans (take.trans take')

/-- The next bit. -/
theorem divu2_next : Goes D p.image 44 (at2 (p := p) denom current answer a b bp ap back .l12_d2)
    (at2 (p := p) (denom >>> 1) (current >>> 1) answer a b bp ap back .l10_d2) := by
  have first := div2_shift (D := D) (p := p) denom current answer a b bp ap back .any (.word 1)
      ((p.image.codeAt .l12_d2).drop 8) (· >>> 1) (.addr 10) (rshu2_serves 1 current) (List.cons_ne_nil _ _)
  have second := div2_shift (D := D) (p := p) denom (current >>> 1) answer a b bp ap back .any (.word 1)
      ((p.image.codeAt .l12_d2).drop 15) (· >>> 1) (.addr 8) (rshu2_serves 1 denom) (List.cons_ne_nil _ _)
  exact ((exec_goes (divu2_down denom current answer a b bp ap back)).trans (first.trans
    ((exec_goes (divu2_down' denom current answer a b bp ap back (current >>> 1))).trans (second.trans
      (exec_goes (divu2_down'' denom (current >>> 1) answer a b bp ap back (denom >>> 1))))))).forget 0

end Blocks

/-! ### The loops -/

/-- `k` is the number of the first doubled divisor beyond the dividend. -/
abbrev First2 (a b : BitVec 32) (k : Nat) : Prop := FirstAbove (fun j => (b <<< j).toNat) a.toNat k

/-- What is left of a divisor of which `k` bits are shifted out. -/
def rest2 (b : BitVec 32) (k : Nat) : BitVec 32 := (b <<< k) >>> k

section Words

variable {a b e answer : BitVec 32} {i k : Nat}

theorem toNat_shiftLeft_of_lt (fits : e.toNat * 2 ^ i < 2 ^ 32) : (e <<< i).toNat = e.toNat * 2 ^ i := by
  rw [BitVec.toNat_shiftLeft, Nat.shiftLeft_eq, Nat.mod_eq_of_lt fits]

/-- A doubled word halved. -/
theorem half_shiftLeft (fits : e.toNat * 2 ^ (i + 1) < 2 ^ 32) : (e <<< (i + 1)) >>> 1 = e <<< i := by
  have fits' : e.toNat * 2 ^ i < 2 ^ 32 :=
    lt_of_le_of_lt (Nat.mul_le_mul_left _ (Nat.pow_le_pow_right (by decide) (Nat.le_succ i))) fits
  apply BitVec.eq_of_toNat_eq
  rw [BitVec.toNat_ushiftRight, toNat_shiftLeft_of_lt fits, toNat_shiftLeft_of_lt fits', Nat.shiftRight_eq_div_pow, pow_one,
    pow_succ, ← mul_assoc, Nat.mul_div_cancel _ (by decide)]

theorem First2.beyond (first : First2 a b k) : a.toNat < (b <<< k).toNat := first.2

theorem First2.lt (first : First2 a b k) : k < 32 := by
  refine Nat.lt_of_not_le fun high => ?_
  have beyond := first.beyond
  rw [BitVec.shiftLeft_eq_zero high] at beyond
  exact Nat.not_lt_zero _ beyond

/-- The doubled divisor is what is left of it, doubled. -/
theorem rest2_shiftLeft (b : BitVec 32) (k : Nat) : (rest2 b k).toNat * 2 ^ k = (b <<< k).toNat := by
  unfold rest2
  rw [BitVec.toNat_ushiftRight, Nat.shiftRight_eq_div_pow]
  refine Nat.div_mul_cancel ?_
  rw [BitVec.toNat_shiftLeft, Nat.shiftLeft_eq]
  by_cases wide : k ≤ 32
  · exact (Nat.dvd_mod_iff (pow_dvd_pow 2 wide)).mpr (dvd_mul_left _ _)
  · rw [Nat.mod_eq_zero_of_dvd ((pow_dvd_pow 2 (Nat.le_of_not_le wide)).trans (dvd_mul_left _ _))]
    exact dvd_zero _

theorem shiftLeft_rest2 (b : BitVec 32) (k : Nat) : rest2 b k <<< k = b <<< k := by
  have same := rest2_shiftLeft b k
  apply BitVec.eq_of_toNat_eq
  rw [toNat_shiftLeft_of_lt (same ▸ (b <<< k).isLt), same]

theorem toNat_one_shiftLeft (low : i < 32) : ((1 : BitVec 32) <<< i).toNat = 2 ^ i := by
  have fits : (1 : BitVec 32).toNat * 2 ^ i < 2 ^ 32 := by
    rw [show (1 : BitVec 32).toNat = 1 from rfl, one_mul]
    exact Nat.pow_lt_pow_right (by decide) low
  rw [toNat_shiftLeft_of_lt fits, show (1 : BitVec 32).toNat = 1 from rfl, one_mul]

theorem one_shiftLeft_ne_zero (low : i < 32) : (1 : BitVec 32) <<< i ≠ 0 := by
  intro zero
  have bit := toNat_one_shiftLeft low
  rw [zero] at bit
  exact absurd bit.symm (Nat.two_pow_pos i).ne'

/-- A bit set where there was none. -/
theorem one_shiftLeft_or (low : i < 32) (clear : 2 ^ (i + 1) ∣ answer.toNat) :
    ((1 : BitVec 32) <<< i ||| answer).toNat = 2 ^ i + answer.toNat := by
  rw [BitVec.toNat_or, toNat_one_shiftLeft low]
  obtain ⟨c, is⟩ := clear
  rw [is, Nat.lor_comm, Nat.add_comm (2 ^ i)]
  exact (Nat.two_pow_add_eq_or_of_lt (Nat.pow_lt_pow_right (by decide) (Nat.lt_succ_self i)) c).symm

/-- A bit of the quotient, and the quotient of what is left. -/
theorem bit_add_udiv (positive : 0 < e.toNat) (low : i < 32) (clear : 2 ^ (i + 1) ∣ answer.toNat)
    (fits : e.toNat * 2 ^ i ≤ a.toNat) : ((1 : BitVec 32) <<< i ||| answer) + (a - e <<< i) / e = answer + a / e := by
  have times := toNat_shiftLeft_of_lt (lt_of_le_of_lt fits a.isLt)
  have left : (a - e <<< i).toNat = a.toNat - e.toNat * 2 ^ i := by
    rw [BitVec.toNat_sub_of_le (BitVec.le_def.mpr (times ▸ fits)), times]
  have bits : 2 ^ i ≤ a.toNat / e.toNat := (Nat.le_div_iff_mul_le positive).mpr (by rwa [mul_comm])
  apply BitVec.eq_of_toNat_eq
  rw [BitVec.toNat_add, BitVec.toNat_add, one_shiftLeft_or low clear, BitVec.toNat_udiv, BitVec.toNat_udiv, left,
    Nat.sub_mul_div]
  congr 1
  omega

end Words

section Loops

variable {a b e answer : BitVec 32} (bp ap : Word) (back : Nat)

/-- **The second loop**, from the bit `i` down: the quotient of what is left of the dividend is added to the answer. By
induction on the bits. -/
theorem divu2_bits (positive : 0 < e.toNat) {i : Nat} (fits : e.toNat * 2 ^ i < 2 ^ 32) (less : a.toNat < e.toNat * 2 ^ i)
    (clear : 2 ^ i ∣ answer.toNat) :
    Goes D p.image 44 (at2 (p := p) ((e <<< i) >>> 1) (((1 : BitVec 32) <<< i) >>> 1) answer a b bp ap back .l10_d2)
      (done2 (e >>> 1) 0 (answer + a / e) b bp ap back (answer + a / e)) := by
  induction i generalizing a answer with
  | zero =>
    have zero : a / e = 0 := by
      apply BitVec.eq_of_toNat_eq
      rw [BitVec.toNat_udiv, Nat.div_eq_of_lt (by simpa using less)]
      rfl
    rw [zero, add_zero]
    have last := divu2_left_over (D := D) (p := p) (e >>> 1) 0 answer a b bp ap back
    rw [if_neg (fun differ => differ rfl)] at last
    rw [BitVec.shiftLeft_zero, BitVec.shiftLeft_zero]
    exact last
  | succ i ih =>
    have fits' : e.toNat * 2 ^ i < 2 ^ 32 :=
    lt_of_le_of_lt (Nat.mul_le_mul_left _ (Nat.pow_le_pow_right (by decide) (Nat.le_succ i))) fits
    have low : 2 ^ (i + 1) < 2 ^ 32 := lt_of_le_of_lt (Nat.le_mul_of_pos_left _ positive) fits
    have one : (1 : BitVec 32).toNat * 2 ^ (i + 1) < 2 ^ 32 := by
      rw [show (1 : BitVec 32).toNat = 1 from rfl, one_mul]
      exact low
    have bits : i + 1 < 32 := (Nat.pow_lt_pow_iff_right (by decide)).mp low
    have times := toNat_shiftLeft_of_lt fits'
    rw [half_shiftLeft fits, half_shiftLeft one]
    have more := divu2_left_over (D := D) (p := p) (e <<< i) ((1 : BitVec 32) <<< i) answer a b bp ap back
    have taken := divu2_taken (D := D) (p := p) (e <<< i) ((1 : BitVec 32) <<< i) answer a b bp ap back
    rw [if_pos (one_shiftLeft_ne_zero (by omega))] at more
    refine more.trans (taken.trans ?_)
    split
    case isTrue under =>
      exact (divu2_next _ _ answer a b bp ap back).trans
        (ih fits' (times ▸ under) ((pow_dvd_pow 2 (Nat.le_succ i)).trans clear))
    case isFalse enough =>
      have enough' : e.toNat * 2 ^ i ≤ a.toNat := times ▸ Nat.le_of_not_lt enough
      rw [← bit_add_udiv positive (by omega) clear enough']
      refine (divu2_next _ _ _ _ b bp ap back).trans (ih fits' ?_ ?_)
      · rw [BitVec.toNat_sub_of_le (BitVec.le_def.mpr (Nat.le_of_not_lt enough)), times]
        rw [pow_succ, ← mul_assoc] at less
        omega
      · rw [one_shiftLeft_or (by omega) clear]
        exact Nat.dvd_add (dvd_refl _) ((pow_dvd_pow 2 (Nat.le_succ i)).trans clear)

/-- The first loop after `k` turns. -/
def doubled2 (a b : BitVec 32) (bp ap : Word) (back k : Nat) : Sim.Config MathLabel :=
  at2 (p := p) (b <<< k) ((1 : BitVec 32) <<< k) 0 a b bp ap back .l7_d2

theorem divu2_turn {k : Nat} (low : (b <<< k).toNat ≤ a.toNat) :
    Moves D p.image 44 (doubled2 (p := p) a b bp ap back k) (doubled2 (p := p) a b bp ap back (k + 1)) := by
  have double := divu2_double (D := D) (p := p) (b <<< k) ((1 : BitVec 32) <<< k) 0 a b bp ap back low
  rw [← BitVec.shiftLeft_add, ← BitVec.shiftLeft_add] at double
  exact double

/-- From the call to the first loop. -/
theorem divu2_loop (low : b.toNat ≤ a.toNat) (differ : b ≠ a) :
    Goes D p.image 44 (p.image.codeAt .DIVU2, entry (double b ++ double a) bp ap back)
      (doubled2 (p := p) a b bp ap back 0) := by
  have start := divu2_start (D := D) (p := p) a b bp ap back
  have second := divu2_second (D := D) (p := p) b 1 0 a b bp ap back
  rw [if_pos low] at start
  rw [if_pos differ] at second
  unfold doubled2
  rw [BitVec.shiftLeft_zero, BitVec.shiftLeft_zero]
  exact start.trans second

end Loops

/-- **A division that ends**: `k` is the number of the first doubled divisor beyond the dividend. -/
theorem divu2_serves {a b : BitVec 32} {k : Nat} (first : First2 a b k) (differ : b ≠ a) :
    Serves D p.image 44 .DIVU2 (double b ++ double a) (double b ++ double (a / rest2 b k)) := by
  refine .of_goes (show 8 ≤ 44 by decide) rfl fun bp ap back => ?_
  by_cases low : b.toNat ≤ a.toNat
  · have reach : ∀ j ≤ k, Goes D p.image 44 (doubled2 (p := p) a b bp ap back 0) (doubled2 (p := p) a b bp ap back j) := by
      intro j
      induction j with
      | zero => exact fun _ => .refl _
      | succ j ih => exact fun less => (ih (by omega)).trans (divu2_turn bp ap back (first.1 j less)).goes
    have turned := divu2_turned (D := D) (p := p) (b <<< k) ((1 : BitVec 32) <<< k) 0 a b bp ap back first.2
    have same := rest2_shiftLeft b k
    have positive : 0 < (rest2 b k).toNat := by
      refine Nat.pos_of_ne_zero fun zero => ?_
      rw [zero, zero_mul] at same
      exact Nat.not_lt_zero _ (same ▸ first.beyond)
    have bits := divu2_bits (D := D) (p := p) (a := a) (b := b) bp ap back positive
      (same ▸ (b <<< k).isLt) (same ▸ first.beyond) (show 2 ^ k ∣ (0 : BitVec 32).toNat from dvd_zero _)
    rw [shiftLeft_rest2, zero_add] at bits
    exact ⟨_, (divu2_loop bp ap back low differ).trans ((reach k (le_refl k)).trans (turned.trans bits))⟩
  · have start := divu2_start (D := D) (p := p) a b bp ap back
    rw [if_neg low] at start
    have none : k = 0 := by
      refine Nat.eq_zero_of_not_pos fun positive => low ?_
      simpa using first.1 0 positive
    have zero : a / rest2 b k = 0 := by
      subst none
      apply BitVec.eq_of_toNat_eq
      rw [BitVec.toNat_udiv]
      refine Nat.div_eq_of_lt ?_
      simpa [rest2] using low
    rw [zero]
    exact ⟨_, start⟩

/-- Equal operands. -/
theorem divu2_serves_self (a : BitVec 32) : Serves D p.image 44 .DIVU2 (double a ++ double a) (double a ++ double 1) := by
  refine .of_goes (show 8 ≤ 44 by decide) rfl fun bp ap back => ?_
  have start := divu2_start (D := D) (p := p) a a bp ap back
  have second := divu2_second (D := D) (p := p) a 1 0 a a bp ap back
  rw [if_pos (le_refl _)] at start
  rw [if_neg (fun differ => differ rfl)] at second
  exact ⟨_, start.trans second⟩

/-- **A division that does not end**: no doubled divisor is beyond the dividend. -/
theorem divu2_hangs {a b : BitVec 32} (low : ∀ j : Nat, (b <<< j).toNat ≤ a.toNat) (differ : b ≠ a) :
    Hangs D p.image 44 .DIVU2 (double b ++ double a) := by
  refine ⟨show 8 ≤ 44 by decide, fun bp ap back => ?_⟩
  have small : b.toNat ≤ a.toNat := by simpa using low 0
  refine (divu2_loop bp ap back small differ).stays ?_
  exact .of_returns (doubled2 (p := p) a b bp ap back) (fun _ => True) (a := 0)
    (fun k _ => ⟨k + 1, trivial, divu2_turn bp ap back (low k)⟩) trivial

/-! ### The remainder -/

section Mod

variable (a b n m : BitVec 32) (bp ap : Word) (back : Nat)

/-- What is below the arguments of the calls in `__builtin_MODU2`: the dividend and the operands in the locals. -/
def modBelow2 : List Val :=
  [.word (high a), .word (low a), .word (high b), .word (low b), .word (high a), .word (low a)] ++
    (frame bp ap back ++ (double b ++ double a).map .word)

theorem modu2_locals : exec 60 p.image.codeAt (fun _ => false) 9 (p.image.codeAt .MODU2)
    (entry (double b ++ double a) bp ap back) =
    some (.run ((p.image.codeAt .MODU2).drop 9) ⟨.any, .addr 8, (modBelow2 a b bp ap back).drop 2⟩) := rfl

theorem modu2_args : exec 60 p.image.codeAt (fun _ => false) 6 ((p.image.codeAt .MODU2).drop 9)
    ⟨.any, .addr 8, (modBelow2 a b bp ap back).drop 2⟩ =
    some (.run ((p.image.codeAt .MODU2).drop 15)
      ⟨.any, .addr 8, (double b ++ double a).map .word ++ modBelow2 a b bp ap back⟩) := rfl

theorem modu2_times : exec 60 p.image.codeAt (fun _ => false) 3 ((p.image.codeAt .MODU2).drop 16)
    ⟨.any, .addr 8, (double b ++ double n).map .word ++ modBelow2 a b bp ap back⟩ =
    some (.run ((p.image.codeAt .MODU2).drop 19)
      ⟨.any, .addr 8, (double b ++ double n).map .word ++ modBelow2 a b bp ap back⟩) := rfl

theorem modu2_end : exec 60 p.image.codeAt (fun _ => false) 5 ((p.image.codeAt .MODU2).drop 20)
    ⟨.any, .addr 8, (double 0 ++ double m).map .word ++ modBelow2 a b bp ap back⟩ =
    some (exit [.word (high b), .word (low b), .word (high a), .word (low a)]
      (double b ++ double ((high a ++ low a) - (high m ++ low m))) bp ap back) := rfl

theorem modu2_start : Goes D p.image 60 (p.image.codeAt .MODU2, entry (double b ++ double a) bp ap back)
    ((p.image.codeAt .MODU2).drop 15, ⟨.any, .addr 8, (double b ++ double a).map .word ++ modBelow2 a b bp ap back⟩) :=
  (exec_goes (modu2_locals a b bp ap back)).trans (exec_goes (modu2_args a b bp ap back))

end Mod

theorem modu2_serves {a b n : BitVec 32}
    (divides : Serves D p.image 44 .DIVU2 (double b ++ double a) (double b ++ double n)) :
    Serves D p.image 60 .MODU2 (double b ++ double a) (double b ++ double (a - n * b)) := by
  refine .of_goes (show 8 ≤ 60 by decide) rfl fun bp ap back =>
    ⟨[.word (high b), .word (low b), .word (high a), .word (low a)], ?_⟩
  have divide := divides.call 60 .any (.addr 8) (modBelow2 a b bp ap back) ((p.image.codeAt .MODU2).drop 16)
    (show 44 + 14 ≤ 60 by decide) (List.cons_ne_nil _ _)
  have times := (mulu2_serves (D := D) (p := p) n b).call 60 .any (.addr 8) (modBelow2 a b bp ap back)
    ((p.image.codeAt .MODU2).drop 20) (show 40 + 14 ≤ 60 by decide) (List.cons_ne_nil _ _)
  have last := exec_goes (D := D) (modu2_end (p := p) a b (n * b) bp ap back)
  rw [high_append_low, high_append_low] at last
  exact (modu2_start a b bp ap back).trans (divide.goes.trans ((exec_goes (modu2_times a b n bp ap back)).trans
    (times.goes.trans last)))

theorem modu2_hangs {a b : BitVec 32} (hangs : Hangs D p.image 44 .DIVU2 (double b ++ double a)) :
    Hangs D p.image 60 .MODU2 (double b ++ double a) := by
  refine ⟨show 8 ≤ 60 by decide, fun bp ap back => ?_⟩
  exact (modu2_start a b bp ap back).stays
    (hangs.call .any (.addr 8) (modBelow2 a b bp ap back) (show 44 + 14 ≤ 60 by decide))

/-! ### Where the quotient is right -/

/-- The divisor doubled `k` times is beyond the dividend, and a double word. -/
def Doubles (a b : BitVec 32) (k : Nat) : Prop := a.toNat < b.toNat * 2 ^ k ∧ b.toNat * 2 ^ k < 2 ^ 32

section Quotient

variable {a b : BitVec 32} {k : Nat}

theorem Doubles.beyond (doubles : Doubles a b k) : a.toNat < (b <<< k).toNat := by
  rw [toNat_shiftLeft_of_lt doubles.2]
  exact doubles.1

/-- Where the divisor keeps its bits until it is beyond the dividend, so it does at the first such place. -/
theorem First2.doubles_iff (first : First2 a b k) : (∃ j, Doubles a b j) ↔ b.toNat * 2 ^ k < 2 ^ 32 := by
  constructor
  · rintro ⟨j, doubles⟩
    have early : k ≤ j := Nat.le_of_not_lt fun late => absurd doubles.beyond (Nat.not_lt_of_le (first.1 j late))
    exact lt_of_le_of_lt (Nat.mul_le_mul_left _ (Nat.pow_le_pow_right (by decide) early)) doubles.2
  · intro fits
    refine ⟨k, ?_, fits⟩
    rw [← toNat_shiftLeft_of_lt fits]
    exact first.2

theorem rest2_of_lt (fits : b.toNat * 2 ^ k < 2 ^ 32) : rest2 b k = b := by
  apply BitVec.eq_of_toNat_eq
  have same := rest2_shiftLeft b k
  rw [toNat_shiftLeft_of_lt fits] at same
  exact Nat.eq_of_mul_eq_mul_right (Nat.two_pow_pos k) same

/-- The last divisor that is not beyond the dividend is the first that is, halved. -/
theorem First2.last (first : First2 a b (k + 1)) : (rest2 b (k + 1)).toNat * 2 ^ k = (b <<< k).toNat := by
  have low : (b <<< k).toNat ≤ a.toNat := first.1 k (Nat.lt_succ_self k)
  have beyond := first.beyond
  have same := rest2_shiftLeft b (k + 1)
  have whole := (b <<< k).isLt
  rw [BitVec.shiftLeft_add, BitVec.toNat_shiftLeft, Nat.shiftLeft_eq, pow_one] at beyond same
  rw [pow_succ, ← mul_assoc] at same
  omega

/-- The first bit of the quotient is set. -/
theorem First2.quotient_range (first : First2 a b (k + 1)) :
    2 ^ k ≤ a.toNat / (rest2 b (k + 1)).toNat ∧ a.toNat / (rest2 b (k + 1)).toNat < 2 ^ (k + 1) := by
  have last := first.last
  have low : (b <<< k).toNat ≤ a.toNat := first.1 k (Nat.lt_succ_self k)
  have beyond := first.beyond
  rw [← rest2_shiftLeft] at beyond
  have positive : 0 < (rest2 b (k + 1)).toNat := Nat.pos_of_ne_zero fun zero => by
    rw [zero, zero_mul] at beyond
    exact Nat.not_lt_zero _ beyond
  exact ⟨(Nat.le_div_iff_mul_le positive).mpr (by rw [mul_comm, last]; exact low), Nat.div_lt_of_lt_mul beyond⟩

/-- A quotient with that bit keeps the divisor's bits. -/
theorem First2.fits (first : First2 a b (k + 1)) (nonzero : b ≠ 0) (bit : 2 ^ k ≤ a.toNat / b.toNat) :
    b.toNat * 2 ^ (k + 1) < 2 ^ 32 := by
  have positive : 0 < b.toNat := Nat.pos_of_ne_zero fun zero => nonzero (BitVec.eq_of_toNat_eq zero)
  have under : b.toNat * 2 ^ k ≤ a.toNat := by
    rw [mul_comm]
    exact (Nat.le_div_iff_mul_le positive).mp bit
  have last := first.last
  rw [toNat_shiftLeft_of_lt (lt_of_le_of_lt under a.isLt)] at last
  have same := rest2_shiftLeft b (k + 1)
  have whole := (b <<< (k + 1)).isLt
  rw [← Nat.eq_of_mul_eq_mul_right (Nat.two_pow_pos k) last]
  exact same ▸ whole

/-- The answer is the quotient exactly where the divisor keeps its bits. -/
theorem First2.quotient_iff (first : First2 a b k) (nonzero : b ≠ 0) :
    a / rest2 b k = a / b ↔ b.toNat * 2 ^ k < 2 ^ 32 := by
  constructor
  · intro same
    cases k with
    | zero => simpa using b.isLt
    | succ k =>
      have quotient := congrArg BitVec.toNat same
      rw [BitVec.toNat_udiv, BitVec.toNat_udiv] at quotient
      exact first.fits nonzero (quotient ▸ first.quotient_range.1)
  · intro fits
    rw [rest2_of_lt fits]

/-- A factor below a power of two takes no more twos out of a product than the power. -/
theorem two_pow_dvd_mul {d m w k : Nat} (positive : 0 < d) (less : d < 2 ^ k) (dvd : 2 ^ w ∣ d * m) :
    2 ^ w ∣ 2 ^ k * m := by
  obtain ⟨s, odd, isOdd, rfl⟩ := Nat.exists_eq_two_pow_mul_odd positive.ne'
  have coprime : Nat.Coprime (2 ^ w) odd := (Nat.coprime_two_left.mpr isOdd).pow_left w
  have twos : 2 ^ w ∣ 2 ^ s * m := by
    refine coprime.dvd_of_dvd_mul_left ?_
    rwa [← mul_assoc, mul_comm odd]
  have few : 2 ^ s < 2 ^ k := lt_of_le_of_lt (Nat.le_mul_of_pos_right _ isOdd.pos) less
  exact twos.trans (mul_dvd_mul_right (pow_dvd_pow 2 ((Nat.pow_lt_pow_iff_right (by decide)).mp few).le) m)

/-- And so is the remainder. -/
theorem First2.remainder_iff (first : First2 a b k) (nonzero : b ≠ 0) :
    a - a / rest2 b k * b = a % b ↔ b.toNat * 2 ^ k < 2 ^ 32 := by
  constructor
  · intro same
    cases k with
    | zero => simpa using b.isLt
    | succ k =>
      by_contra overflow
      rw [← sub_mul_udiv, sub_right_inj, mul_comm b] at same
      have range := first.quotient_range
      have less : a.toNat / b.toNat < 2 ^ k := Nat.lt_of_not_le fun bit => overflow (first.fits nonzero bit)
      have products := congrArg BitVec.toNat same
      rw [BitVec.toNat_mul, BitVec.toNat_mul, BitVec.toNat_udiv, BitVec.toNat_udiv] at products
      have dvd : 2 ^ 32 ∣ (a.toNat / (rest2 b (k + 1)).toNat - a.toNat / b.toNat) * b.toNat := by
        rw [Nat.sub_mul]
        exact (Nat.modEq_iff_dvd' (Nat.mul_le_mul_right _ (by omega))).mp (Eq.symm products)
      have small := lt_of_le_of_lt (Nat.sub_le (a.toNat / (rest2 b (k + 1)).toNat) (a.toNat / b.toNat)) range.2
      have gone := two_pow_dvd_mul (by omega) small dvd
      have beyond := first.beyond
      rw [BitVec.toNat_shiftLeft, Nat.shiftLeft_eq, mul_comm, Nat.mod_eq_zero_of_dvd gone] at beyond
      exact Nat.not_lt_zero _ beyond
  · intro fits
    rw [rest2_of_lt fits, mul_comm, sub_mul_udiv]

end Quotient

/-! ### Calls -/

/-- What a call of a division of double words leaves, if it returns at all. -/
theorem double_leads {l : MathLabel} {need : Nat} {a b x : BitVec 32} (result : BitVec 32 → BitVec 32)
    {site : CallSite ι l (double b ++ double a) []} (depth : need ≤ mathDepth)
    (serves : ∀ n, Serves D site.place.image 44 .DIVU2 (double b ++ double a) (double b ++ double n) →
      Serves D site.place.image need l (double b ++ double a) (double b ++ double (result n)))
    (hangs : Hangs D site.place.image 44 .DIVU2 (double b ++ double a) →
      Hangs D site.place.image need l (double b ++ double a)) :
    site.Leads D site.next [.any, .any, .word (high x), .word (low x)] ↔
      a = b ∧ result 1 = x ∨ a ≠ b ∧ ∃ k, First2 a b k ∧ result (a / rest2 b k) = x := by
  have words : ∀ y : BitVec 32, List.Forall₂ (Val.Is site.window.base) [.any, .any, .word (high x), .word (low x)]
      (double b ++ double y) ↔ y = x := by
    intro y
    simp only [double, List.cons_append, List.nil_append, List.forall₂_cons, Val.Is, List.Forall₂.nil, true_and, and_true]
    refine ⟨?_, fun same => same ▸ ⟨rfl, rfl⟩⟩
    rintro ⟨highs, lows⟩
    exact eq_of_words highs lows
  by_cases equal : a = b
  · subst equal
    rw [CallSite.leads_iff (serves 1 (divu2_serves_self a)) depth rfl, words]
    simp
  rw [or_iff_right (fun both => equal both.1), and_iff_right equal]
  rcases first_or_none (fun j => (b <<< j).toNat) a.toNat with ⟨k, first⟩ | none
  · rw [CallSite.leads_iff (serves _ (divu2_serves first (Ne.symm equal))) depth rfl, words]
    constructor
    · exact fun same => ⟨k, first, same⟩
    · rintro ⟨k', first', same⟩
      rwa [first.unique first']
  · constructor
    · exact fun leads => absurd leads (CallSite.not_leads (hangs (divu2_hangs none (Ne.symm equal))) depth)
    · rintro ⟨k, first, -⟩
      exact absurd first.2 (Nat.not_lt_of_le (none k))

theorem divu2_leads {a b x : BitVec 32} {site : CallSite ι .DIVU2 (double b ++ double a) []} :
    site.Leads D site.next [.any, .any, .word (high x), .word (low x)] ↔
      a = b ∧ 1 = x ∨ a ≠ b ∧ ∃ k, First2 a b k ∧ a / rest2 b k = x :=
  double_leads id (by decide) (fun _ serves => serves) id

theorem modu2_leads {a b x : BitVec 32} {site : CallSite ι .MODU2 (double b ++ double a) []} :
    site.Leads D site.next [.any, .any, .word (high x), .word (low x)] ↔
      a = b ∧ a - 1 * b = x ∨ a ≠ b ∧ ∃ k, First2 a b k ∧ a - a / rest2 b k * b = x :=
  double_leads (fun n => a - n * b) (by decide) (fun _ serves => modu2_serves serves) modu2_hangs

/-- A first doubled divisor with a property that means that the divisor has kept its bits. -/
theorem exists_first2_iff {a b : BitVec 32} {right : Nat → Prop}
    (right_iff : ∀ k, First2 a b k → (right k ↔ b.toNat * 2 ^ k < 2 ^ 32)) :
    (∃ k, First2 a b k ∧ right k) ↔ ∃ k, Doubles a b k := by
  constructor
  · rintro ⟨k, first, holds⟩
    exact first.doubles_iff.mpr ((right_iff k first).mp holds)
  · rintro ⟨j, doubles⟩
    rcases first_or_none (fun j => (b <<< j).toNat) a.toNat with ⟨k, first⟩ | none
    · exact ⟨k, first, (right_iff k first).mpr (First2.doubles_iff first |>.mp ⟨j, doubles⟩)⟩
    · exact absurd doubles.beyond (Nat.not_lt_of_le (none j))

/-- **Unsigned division of double words**: the quotient and the remainder are right exactly where the operands are
equal or the divisor, doubled some number of times, is a double word beyond the dividend. -/
theorem divu2_right (a b : BitVec 32) (nonzero : b ≠ 0) (div : CallSite ι .DIVU2 (double b ++ double a) [])
    (mod : CallSite ι .MODU2 (double b ++ double a) []) :
    (div.Leads D div.next [.any, .any, .word (high (a / b)), .word (low (a / b))] ↔ a = b ∨ ∃ k, Doubles a b k) ∧
      (mod.Leads D mod.next [.any, .any, .word (high (a % b)), .word (low (a % b))] ↔ a = b ∨ ∃ k, Doubles a b k) := by
  rw [divu2_leads, modu2_leads, exists_first2_iff fun k first => first.quotient_iff nonzero,
    exists_first2_iff fun k first => first.remainder_iff nonzero]
  by_cases equal : a = b
  · subst equal
    have positive : 0 < a.toNat := Nat.pos_of_ne_zero fun zero => nonzero (BitVec.eq_of_toNat_eq zero)
    have quotient : a / a = 1 := by
      apply BitVec.eq_of_toNat_eq
      rw [BitVec.toNat_udiv, Nat.div_self positive]
      rfl
    have remainder : a - 1 * a = a % a := by
      rw [← sub_mul_udiv, quotient, mul_comm]
    exact ⟨iff_of_true (Or.inl ⟨rfl, quotient.symm⟩) (Or.inl rfl), iff_of_true (Or.inl ⟨rfl, remainder⟩) (Or.inl rfl)⟩
  · simp [equal]

/-- `7 / 2` and `7 % 2`. -/
theorem divu2_right_seven :
    ((callSite .DIVU2 (double 2 ++ double 7) [] (by decide) (by decide)).Leads noDevice 0x102
        [.any, .any, .word 0, .word 3] ↔ (7 : BitVec 32) = 2 ∨ ∃ k, Doubles 7 2 k) ∧
      ((callSite .MODU2 (double 2 ++ double 7) [] (by decide) (by decide)).Leads noDevice 0x102
        [.any, .any, .word 0, .word 1] ↔ (7 : BitVec 32) = 2 ∨ ∃ k, Doubles 7 2 k) :=
  divu2_right 7 2 (by decide) (callSite _ _ _ (by decide) (by decide)) (callSite _ _ _ (by decide) (by decide))

/-- `0xffffffff / 1` does not end. -/
theorem divu2_one :
    ¬ (callSite .DIVU2 (double 1 ++ double 0xffffffff) [] (by decide) (by decide)).Leads noDevice 0x102
      [.any, .any, .word (high (0xffffffff / 1)), .word (low (0xffffffff / 1))] := by
  intro leads
  rcases divu2_leads.mp leads with ⟨equal, -⟩ | ⟨-, k, first, -⟩
  · exact absurd equal (by decide)
  · have beyond : 0xffffffff < ((1 : BitVec 32) <<< k).toNat := first.2
    have whole := ((1 : BitVec 32) <<< k).isLt
    omega

end RlCpu.Binutils
