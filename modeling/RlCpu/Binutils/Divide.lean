/-
**Division of words (`__builtin_DIVU1` and `__builtin_MODU1` in `math.s`).**

The routine adds the divisor to a sum until the sum exceeds the dividend. The sum is a word, so it exceeds the
dividend in time only where the next multiple of the divisor is a word too: `(a / b + 1) * b < 65536`. Else it starts
again from below, and ends late or never. The signed names are labels of the same code.

* `divu1_serves`, `divu1_hangs`: what the division does, from the first sum beyond the dividend.
* `divu1_right`: the unsigned routines are right exactly on that condition.
-/

import RlCpu.Binutils.MulShift

namespace RlCpu.Binutils

open RlCpu.Kernel RlCpu.Lib RlCpu.Sim Relation

variable {ι : Type} {D : Devices ι} {p : MathPlace}

/-! ### The loop -/

/-- The stack of `__builtin_DIVU1` in its loop: the count `c` and the sum `s`. -/
def div1 (s c a b bp ap : Word) (back : Nat) : Mach :=
  ⟨.any, .addr 6, .word c :: .word s :: (frame bp ap back ++ [b, a].map .word)⟩

theorem divu1_start (a b bp ap : Word) (back : Nat) :
    exec 12 p.image.codeAt (fun _ => false) 3 (p.image.codeAt .DIVU1) (entry [b, a] bp ap back) =
      some (.run (p.image.codeAt .divu1_3) (div1 0 0 a b bp ap back)) := rfl

/-- One turn: the comparison and, unless the sum is beyond the dividend, the next sum. -/
theorem divu1_exec (s c a b bp ap : Word) (back : Nat) :
    exec 12 p.image.codeAt (fun _ => false) 19 (p.image.codeAt .divu1_3) (div1 s c a b bp ap back) =
      if decide (s.toNat ≤ a.toNat) = true then
        some (.run (p.image.codeAt .divu1_3) (div1 (b + s) (c + 1) a b bp ap back))
      else some (exit [.word (c - 1), .word s] [b, c - 1] bp ap back) := rfl

/-- The sum after `k` turns. -/
def multiple (b : Word) (k : Nat) : Word := BitVec.ofNat 16 (b.toNat * k)

theorem multiple_succ (b : Word) (k : Nat) : b + multiple b k = multiple b (k + 1) := by
  unfold multiple
  rw [Nat.mul_succ, Nat.add_comm, BitVec.ofNat_add, BitVec.ofNat_toNat, BitVec.setWidth_eq]

theorem toNat_multiple (b : Word) (k : Nat) : (multiple b k).toNat = b.toNat * k % 65536 := BitVec.toNat_ofNat _ _

section Loop

variable (a b bp ap : Word) (back : Nat)

/-- The loop after `k` turns. -/
def turns (k : Nat) : Sim.Config MathLabel :=
  (p.image.codeAt .divu1_3, div1 (multiple b k) (BitVec.ofNat 16 k) a b bp ap back)

theorem divu1_turn {k : Nat} (low : b.toNat * k % 65536 ≤ a.toNat) :
    Moves D p.image 12 (turns (p := p) a b bp ap back k) (turns (p := p) a b bp ap back (k + 1)) := by
  have run := divu1_exec (p := p) (multiple b k) (BitVec.ofNat 16 k) a b bp ap back
  have count : BitVec.ofNat 16 k + 1 = BitVec.ofNat 16 (k + 1) := (BitVec.ofNat_add k 1).symm
  rw [if_pos (decide_eq_true (by rw [toNat_multiple]; exact low)), multiple_succ, count] at run
  exact exec_moves (by intro is; cases is) (by intro l is; cases is) run

theorem divu1_last {k : Nat} (high : a.toNat < b.toNat * k % 65536) :
    Goes D p.image 12 (turns (p := p) a b bp ap back k)
      (exit [.word (BitVec.ofNat 16 k - 1), .word (multiple b k)] [b, BitVec.ofNat 16 k - 1] bp ap back).config := by
  have run := divu1_exec (p := p) (multiple b k) (BitVec.ofNat 16 k) a b bp ap back
  rw [if_neg (by rw [decide_eq_true_eq, toNat_multiple]; omega)] at run
  exact exec_goes run

end Loop

/-- **A division that ends**: `k` is the number of the first sum beyond the dividend. -/
theorem divu1_serves {a b : Word} {k : Nat} (low : ∀ j < k, b.toNat * j % 65536 ≤ a.toNat)
    (high : a.toNat < b.toNat * k % 65536) : Serves D p.image 12 .DIVU1 [b, a] [b, BitVec.ofNat 16 k - 1] := by
  refine .of_goes (show 6 ≤ 12 by decide) rfl fun bp ap back =>
    ⟨[.word (BitVec.ofNat 16 k - 1), .word (multiple b k)], ?_⟩
  have reach : ∀ j ≤ k, Goes D p.image 12 (turns (p := p) a b bp ap back 0) (turns (p := p) a b bp ap back j) := by
    intro j
    induction j with
    | zero => exact fun _ => .refl _
    | succ j ih => exact fun less => (ih (by omega)).trans (divu1_turn a b bp ap back (low j less)).goes
  exact (exec_goes (divu1_start a b bp ap back)).trans ((reach k (le_refl k)).trans (divu1_last a b bp ap back high))

/-- **A division that does not end**: no sum is beyond the dividend. -/
theorem divu1_hangs {a b : Word} (low : ∀ j, b.toNat * j % 65536 ≤ a.toNat) : Hangs D p.image 12 .DIVU1 [b, a] := by
  refine ⟨show 6 ≤ 12 by decide, fun bp ap back => ?_⟩
  refine (exec_goes (divu1_start a b bp ap back)).stays ?_
  exact .of_returns (turns (p := p) a b bp ap back) (fun _ => True) (a := 0)
    (fun k _ => ⟨k + 1, trivial, divu1_turn a b bp ap back (low k)⟩) trivial

/-! ### The remainder -/

section Mod

variable (a b bp ap : Word) (back : Nat)

/-- What is below the arguments of the calls in `__builtin_MODU1`. -/
def modBelow : List Val := .word a :: (frame bp ap back ++ [b, a].map .word)

theorem modu1_start :
    exec 20 p.image.codeAt (fun _ => false) 4 (p.image.codeAt .MODU1) (entry [b, a] bp ap back) =
      some (.run ((p.image.codeAt .MODU1).drop 3) ⟨.any, .addr 6, [b, a].map .word ++ modBelow a b bp ap back⟩) := rfl

theorem modu1_times (n : Word) :
    exec 20 p.image.codeAt (fun _ => false) 3 ((p.image.codeAt .MODU1).drop 4)
      ⟨.any, .addr 6, [b, n].map .word ++ modBelow a b bp ap back⟩ =
      some (.run ((p.image.codeAt .MODU1).drop 6) ⟨.any, .addr 6, [b, n].map .word ++ modBelow a b bp ap back⟩) := rfl

theorem modu1_end (x : Word) :
    exec 20 p.image.codeAt (fun _ => false) 6 ((p.image.codeAt .MODU1).drop 7)
      ⟨.any, .addr 6, [0, x].map .word ++ modBelow a b bp ap back⟩ = some (exit [] [b, a - x] bp ap back) := rfl

end Mod

theorem modu1_serves {a b n : Word} (divides : Serves D p.image 12 .DIVU1 [b, a] [b, n]) :
    Serves D p.image 20 .MODU1 [b, a] [b, a - b * n] := by
  refine .of_goes (show 6 ≤ 20 by decide) rfl fun bp ap back => ⟨[], ?_⟩
  have divide := divides.call 20 .any (.addr 6) (modBelow a b bp ap back) ((p.image.codeAt .MODU1).drop 4)
    (show 12 + 7 ≤ 20 by decide) (List.cons_ne_nil _ _)
  have signed : Serves D p.image 10 .MULI1 [b, n] [0, b * n] := (mulu1_serves b n).alias rfl
  have times := signed.call 20 .any (.addr 6) (modBelow a b bp ap back) ((p.image.codeAt .MODU1).drop 7)
    (show 10 + 7 ≤ 20 by decide) (List.cons_ne_nil _ _)
  exact (exec_goes (modu1_start a b bp ap back)).trans (divide.goes.trans ((exec_goes (modu1_times a b bp ap back n)).trans
    (times.goes.trans (exec_goes (modu1_end a b bp ap back (b * n))))))

theorem modu1_hangs {a b : Word} (hangs : Hangs D p.image 12 .DIVU1 [b, a]) : Hangs D p.image 20 .MODU1 [b, a] := by
  refine ⟨show 6 ≤ 20 by decide, fun bp ap back => ?_⟩
  exact (exec_goes (modu1_start a b bp ap back)).stays
    (hangs.call .any (.addr 6) (modBelow a b bp ap back) (show 12 + 7 ≤ 20 by decide))

/-! ### Where the sums exceed the dividend -/

/-- `k` is the first place where `f` is beyond `a`. -/
def FirstAbove (f : Nat → Nat) (a k : Nat) : Prop := (∀ j < k, f j ≤ a) ∧ a < f k

theorem first_or_none (f : Nat → Nat) (a : Nat) : (∃ k, FirstAbove f a k) ∨ ∀ j, f j ≤ a := by
  by_cases some : ∃ k, a < f k
  · exact Or.inl ⟨Nat.find some, fun j less => Nat.le_of_not_lt (Nat.find_min some less), Nat.find_spec some⟩
  · exact Or.inr fun j => Nat.le_of_not_lt fun less => some ⟨j, less⟩

theorem FirstAbove.unique {f : Nat → Nat} {a k k' : Nat} (first : FirstAbove f a k)
    (other : FirstAbove f a k') : k = k' := by
  rcases Nat.lt_trichotomy k k' with less | same | more
  · exact absurd first.2 (Nat.not_lt_of_le (other.1 k less))
  · exact same
  · exact absurd other.2 (Nat.not_lt_of_le (first.1 k' more))

/-- `k` is the number of the first sum beyond the dividend. -/
abbrev First1 (a b : Word) (k : Nat) : Prop := FirstAbove (fun j => b.toNat * j % 65536) a.toNat k

section FirstAbove

variable {a b : Word} {k : Nat}

theorem First1.beyond (first : First1 a b k) : a.toNat < b.toNat * k % 65536 := first.2

/-- The count is a word: from 65536 on the sums come again. -/
theorem First1.range (first : First1 a b k) : 0 < k ∧ k < 65536 := by
  refine ⟨Nat.pos_of_ne_zero fun zero => ?_, Nat.lt_of_not_le fun high => ?_⟩
  · have beyond := first.beyond
    rw [zero, Nat.mul_zero, Nat.zero_mod] at beyond
    exact Nat.not_lt_zero _ beyond
  · obtain ⟨m, rfl⟩ := Nat.exists_eq_add_of_le high
    have beyond := first.beyond
    rw [Nat.mul_add, Nat.mul_comm b.toNat 65536, Nat.mul_add_mod] at beyond
    exact absurd beyond (Nat.not_lt_of_le (first.1 m (by omega)))

/-- The count that the routine leaves. -/
theorem First1.count (first : First1 a b k) : (BitVec.ofNat 16 k - 1).toNat = k - 1 := by
  have range := first.range
  rw [BitVec.toNat_sub, BitVec.toNat_ofNat, show (1 : Word).toNat = 1 from rfl]
  omega

/-- **The next multiple of the divisor** is beyond the dividend as a word exactly where it is a word. -/
theorem next_multiple (nonzero : b ≠ 0) :
    a.toNat < b.toNat * (a.toNat / b.toNat + 1) % 65536 ↔ (a.toNat / b.toNat + 1) * b.toNat < 65536 := by
  have positive : 0 < b.toNat := Nat.pos_of_ne_zero fun zero => nonzero (BitVec.eq_of_toNat_eq zero)
  have split := Nat.div_add_mod a.toNat b.toNat
  have rest := Nat.mod_lt a.toNat positive
  have highA := a.isLt
  have highB := b.isLt
  rw [Nat.mul_comm _ b.toNat, Nat.mul_add, Nat.mul_one]
  generalize b.toNat * (a.toNat / b.toNat) = product at split ⊢
  omega

theorem first_quotient (nonzero : b ≠ 0) (fits : (a.toNat / b.toNat + 1) * b.toNat < 65536) :
    First1 a b (a.toNat / b.toNat + 1) := by
  refine ⟨fun j less => ?_, (next_multiple nonzero).mpr fits⟩
  refine (Nat.mod_le _ _).trans ((Nat.mul_le_mul_left _ (Nat.le_of_lt_succ less)).trans ?_)
  exact Nat.mul_div_le _ _

/-- The count is the quotient exactly where the next multiple is a word. -/
theorem First1.quotient_iff (first : First1 a b k) (nonzero : b ≠ 0) :
    BitVec.ofNat 16 k - 1 = a / b ↔ (a.toNat / b.toNat + 1) * b.toNat < 65536 := by
  have range := first.range
  constructor
  · intro same
    have count := first.count
    rw [same, BitVec.toNat_udiv] at count
    rw [← next_multiple nonzero, show a.toNat / b.toNat + 1 = k by omega]
    exact first.2
  · intro fits
    apply BitVec.eq_of_toNat_eq
    rw [first.count, BitVec.toNat_udiv, first.unique (first_quotient nonzero fits), Nat.add_sub_cancel]

theorem sub_mul_udiv {w : Nat} (a b : BitVec w) : a - b * (a / b) = a % b := by
  rw [sub_eq_iff_eq_add]
  apply BitVec.eq_of_toNat_eq
  rw [BitVec.toNat_add, BitVec.toNat_mul, BitVec.toNat_udiv, BitVec.toNat_umod, Nat.add_mod_mod, Nat.mod_add_div,
    Nat.mod_eq_of_lt a.isLt]

/-- And so is the remainder. -/
theorem First1.remainder_iff (first : First1 a b k) (nonzero : b ≠ 0) :
    a - b * (BitVec.ofNat 16 k - 1) = a % b ↔ (a.toNat / b.toNat + 1) * b.toNat < 65536 := by
  constructor
  · intro same
    rw [← sub_mul_udiv, sub_right_inj] at same
    have next : b * BitVec.ofNat 16 k = b * (a / b + 1) := by
      rw [mul_add, ← same, ← mul_add, sub_add_cancel]
    have words := congrArg BitVec.toNat next
    rw [BitVec.toNat_mul, BitVec.toNat_mul, BitVec.toNat_add, BitVec.toNat_udiv, BitVec.toNat_ofNat,
      show (1 : Word).toNat = 1 from rfl, Nat.mul_mod_mod, Nat.mul_mod_mod] at words
    rw [← next_multiple nonzero, ← words]
    exact first.2
  · intro fits
    rw [(first.quotient_iff nonzero).mpr fits, sub_mul_udiv]

end FirstAbove

/-! ### Calls -/

/-- What a call of a division of words leaves, if it returns at all. -/
theorem word_leads {l : MathLabel} {need : Nat} {a b x : Word} {result : Nat → Word} {site : CallSite ι l [b, a] []}
    (depth : need ≤ mathDepth)
    (serves : ∀ k, First1 a b k → Serves D site.place.image need l [b, a] [b, result k])
    (hangs : (∀ j, b.toNat * j % 65536 ≤ a.toNat) → Hangs D site.place.image need l [b, a]) :
    site.Leads D site.next [.any, .word x] ↔ ∃ k, First1 a b k ∧ result k = x := by
  rcases first_or_none (fun j => b.toNat * j % 65536) a.toNat with ⟨k, first⟩ | none
  · rw [CallSite.leads_iff (serves k first) depth rfl]
    simp only [List.forall₂_cons, Val.Is, List.Forall₂.nil, true_and, and_true]
    constructor
    · exact fun same => ⟨k, first, same⟩
    · rintro ⟨k', first', same⟩
      rw [first.unique first', same]
  · constructor
    · exact fun leads => absurd leads (CallSite.not_leads (hangs none) depth)
    · rintro ⟨k, first, -⟩
      exact absurd first.2 (Nat.not_lt_of_le (none k))

theorem divu1_leads {a b x : Word} {site : CallSite ι .DIVU1 [b, a] []} :
    site.Leads D site.next [.any, .word x] ↔ ∃ k, First1 a b k ∧ BitVec.ofNat 16 k - 1 = x :=
  word_leads (by decide) (fun _ first => divu1_serves first.1 first.2) divu1_hangs

theorem modu1_leads {a b x : Word} {site : CallSite ι .MODU1 [b, a] []} :
    site.Leads D site.next [.any, .word x] ↔ ∃ k, First1 a b k ∧ a - b * (BitVec.ofNat 16 k - 1) = x :=
  word_leads (by decide) (fun _ first => modu1_serves (divu1_serves first.1 first.2)) fun none =>
    modu1_hangs (divu1_hangs none)

/-- A first sum beyond the dividend with a property that means that the next multiple is a word. -/
theorem exists_first_iff {a b : Word} {right : Nat → Prop} (nonzero : b ≠ 0)
    (right_iff : ∀ k, First1 a b k → (right k ↔ (a.toNat / b.toNat + 1) * b.toNat < 65536)) :
    (∃ k, First1 a b k ∧ right k) ↔ (a.toNat / b.toNat + 1) * b.toNat < 65536 := by
  constructor
  · rintro ⟨k, first, holds⟩
    exact (right_iff k first).mp holds
  · intro fits
    exact ⟨_, first_quotient nonzero fits, (right_iff _ (first_quotient nonzero fits)).mpr fits⟩

/-- **Unsigned division of words**: the quotient and the remainder are right exactly where the next multiple of the
divisor is a word. -/
theorem divu1_right (a b : Word) (nonzero : b ≠ 0) (div : CallSite ι .DIVU1 [b, a] []) (mod : CallSite ι .MODU1 [b, a] []) :
    (div.Leads D div.next [.any, .word (a / b)] ↔ (a.toNat / b.toNat + 1) * b.toNat < 65536) ∧
      (mod.Leads D mod.next [.any, .word (a % b)] ↔ (a.toNat / b.toNat + 1) * b.toNat < 65536) := by
  rw [divu1_leads, modu1_leads]
  exact ⟨exists_first_iff nonzero fun k first => first.quotient_iff nonzero,
    exists_first_iff nonzero fun k first => first.remainder_iff nonzero⟩

/-- `7 / 2` and `7 % 2`. -/
theorem divu1_right_seven :
    ((callSite .DIVU1 [2, 7] [] (by decide) (by decide)).Leads noDevice 0x102
        [.any, .word 3] ↔ (7 / 2 + 1) * 2 < 65536) ∧
      ((callSite .MODU1 [2, 7] [] (by decide) (by decide)).Leads noDevice 0x102
        [.any, .word 1] ↔ (7 / 2 + 1) * 2 < 65536) :=
  divu1_right 7 2 (by decide) (callSite _ _ _ (by decide) (by decide)) (callSite _ _ _ (by decide) (by decide))

/-- `65535 / 1` does not end. -/
theorem divu1_one :
    ¬ (callSite .DIVU1 [1, 65535] [] (by decide) (by decide)).Leads noDevice 0x102
      [.any, .word (65535 / 1)] := by
  intro leads
  obtain ⟨k, first, -⟩ := divu1_leads.mp leads
  have beyond : 65535 < 1 * k % 65536 := first.2
  omega

end RlCpu.Binutils
