/-
**Comparisons of double words (`__builtin_cmp_*` of `math.s`, `genBuiltinCmp` of `trans2.cpp`).**

A comparison leaves 1 or 0 in place of its operands' last word. The unsigned ones are right (`unsigned_serves`). The
signed ones compare the high words and then the low ones, but where the high words are equal and negative they turn
the order of the low words around: low words have no sign, so the order is right without it.

* `signedCode_eq_iff`: where the decision of a signed comparison is right.
* `signedCmp_right`: a signed comparison and the branch after it are right but for equal negative high words and
  different low words.
-/

import RlCpu.Binutils.Math

namespace RlCpu.Binutils

open RlCpu.Kernel RlCpu.Lib RlCpu.Sim Relation

variable {ι : Type} {D : Devices ι} {p : MathPlace}

/-- What a comparison leaves. -/
def flag (holds : Bool) : Word := if holds then 1 else 0

theorem flag_inj {b b' : Bool} (same : flag b = flag b') : b = b' := by
  cases b <;> cases b' <;> first | rfl | cases same

/-- An order that the compiler asks for. -/
inductive Order
  | ge | gt | le | lt
  deriving DecidableEq

namespace Order

/-- The C operator. -/
def holds : Order → Int → Int → Bool
  | ge, a, b => a ≥ b
  | gt, a, b => a > b
  | le, a, b => a ≤ b
  | lt, a, b => a < b

/-- The routine for signed double words. -/
def signed : Order → MathLabel
  | ge => .cmpGEI2
  | gt => .cmpGTI2
  | le => .cmpLEI2
  | lt => .cmpLTI2

/-- The routine for unsigned double words. -/
def unsigned : Order → MathLabel
  | ge => .cmpGEU2
  | gt => .cmpGTU2
  | le => .cmpLEU2
  | lt => .cmpLTU2

/-- The branches of a signed comparison: `below` and `above` compare the high words, `same` and `order` the low ones,
and `negative` is the sign. -/
def signedBranches (below above same onSame order negative : Bool) : Bool :=
  if below then false else if above then true else if same then onSame else if order then negative else !negative

/-- The branches of an unsigned comparison. -/
def unsignedBranches (below above order : Bool) : Bool := if below then false else if above then true else !order

/-- What the signed routine decides, from the words of `a` and `b`. -/
def signedCode (c : Order) (ah al bh bl : Word) : Bool :=
  let negative := decide ((ah &&& (0x8000 : Word)).toInt ≠ (0 : Word).toInt)
  match c with
  | ge => signedBranches (ah.toInt < bh.toInt) (ah.toInt > bh.toInt) (al.toInt = bl.toInt) true
    (al.toNat ≤ bl.toNat) negative
  | gt => signedBranches (ah.toInt < bh.toInt) (ah.toInt > bh.toInt) (al.toInt = bl.toInt) false
    (al.toNat ≤ bl.toNat) negative
  | le => signedBranches (ah.toInt > bh.toInt) (ah.toInt < bh.toInt) (al.toInt = bl.toInt) true
    (al.toNat ≥ bl.toNat) negative
  | lt => signedBranches (ah.toInt > bh.toInt) (ah.toInt < bh.toInt) (al.toInt = bl.toInt) false
    (al.toNat ≥ bl.toNat) negative

/-- What the unsigned routine decides. -/
def unsignedCode (c : Order) (ah al bh bl : Word) : Bool :=
  match c with
  | ge => unsignedBranches (ah.toNat < bh.toNat) (ah.toNat > bh.toNat) (al.toNat < bl.toNat)
  | gt => unsignedBranches (ah.toNat < bh.toNat) (ah.toNat > bh.toNat) (al.toNat ≤ bl.toNat)
  | le => unsignedBranches (ah.toNat > bh.toNat) (ah.toNat < bh.toNat) (al.toNat > bl.toNat)
  | lt => unsignedBranches (ah.toNat > bh.toNat) (ah.toNat < bh.toNat) (al.toNat ≥ bl.toNat)

end Order

/-! ### The routines -/

section Exec

variable (ah al bh bl bp ap : Word) (back : Nat)

/-- The end of a comparison. -/
def compared (holds : Bool) : Option (Exit MathLabel) := some (exit [] [bh, bl, ah, flag holds] bp ap back)

theorem signed_branches (below above same onSame order negative : Bool) :
    (if below = true then compared ah bh bl bp ap back false
      else if above = true then compared ah bh bl bp ap back true
      else if same = true then compared ah bh bl bp ap back onSame
      else if order = true then
        if negative = true then compared ah bh bl bp ap back true else compared ah bh bl bp ap back false
      else if negative = true then compared ah bh bl bp ap back false else compared ah bh bl bp ap back true) =
    compared ah bh bl bp ap back (Order.signedBranches below above same onSame order negative) := by
  cases below <;> cases above <;> cases same <;> cases order <;> cases negative <;> rfl

theorem unsigned_branches (below above order : Bool) :
    (if below = true then compared ah bh bl bp ap back false
      else if above = true then compared ah bh bl bp ap back true
      else if order = true then compared ah bh bl bp ap back false else compared ah bh bl bp ap back true) =
    compared ah bh bl bp ap back (Order.unsignedBranches below above order) := by
  cases below <;> cases above <;> cases order <;> rfl

theorem signed_exec (c : Order) :
    exec 12 p.image.codeAt (fun _ => false) 30 (p.image.codeAt c.signed) (entry [bh, bl, ah, al] bp ap back) =
      compared ah bh bl bp ap back (c.signedCode ah al bh bl) := by
  have branches := signed_branches ah bh bl bp ap back
  cases c with
  | ge => exact branches (ah.toInt < bh.toInt) (ah.toInt > bh.toInt) (al.toInt = bl.toInt) true (al.toNat ≤ bl.toNat) _
  | gt => exact branches (ah.toInt < bh.toInt) (ah.toInt > bh.toInt) (al.toInt = bl.toInt) false (al.toNat ≤ bl.toNat) _
  | le => exact branches (ah.toInt > bh.toInt) (ah.toInt < bh.toInt) (al.toInt = bl.toInt) true (al.toNat ≥ bl.toNat) _
  | lt => exact branches (ah.toInt > bh.toInt) (ah.toInt < bh.toInt) (al.toInt = bl.toInt) false (al.toNat ≥ bl.toNat) _

theorem unsigned_exec (c : Order) :
    exec 12 p.image.codeAt (fun _ => false) 30 (p.image.codeAt c.unsigned) (entry [bh, bl, ah, al] bp ap back) =
      compared ah bh bl bp ap back (c.unsignedCode ah al bh bl) := by
  have branches := unsigned_branches ah bh bl bp ap back
  cases c with
  | ge => exact branches (ah.toNat < bh.toNat) (ah.toNat > bh.toNat) (al.toNat < bl.toNat)
  | gt => exact branches (ah.toNat < bh.toNat) (ah.toNat > bh.toNat) (al.toNat ≤ bl.toNat)
  | le => exact branches (ah.toNat > bh.toNat) (ah.toNat < bh.toNat) (al.toNat > bl.toNat)
  | lt => exact branches (ah.toNat > bh.toNat) (ah.toNat < bh.toNat) (al.toNat ≥ bl.toNat)

theorem eq_exec :
    exec 12 p.image.codeAt (fun _ => false) 30 (p.image.codeAt .cmpEQU2) (entry [bh, bl, ah, al] bp ap back) =
      if decide (ah.toInt ≠ bh.toInt) = true then compared ah bh bl bp ap back false
      else if decide (al.toInt ≠ bl.toInt) = true then compared ah bh bl bp ap back false
      else compared ah bh bl bp ap back true := rfl

theorem ne_exec :
    exec 12 p.image.codeAt (fun _ => false) 30 (p.image.codeAt .cmpNEU2) (entry [bh, bl, ah, al] bp ap back) =
      if decide (ah.toInt ≠ bh.toInt) = true then compared ah bh bl bp ap back true
      else if decide (al.toInt ≠ bl.toInt) = true then compared ah bh bl bp ap back true
      else compared ah bh bl bp ap back false := rfl

theorem same_branches (holds : Bool) (a b : BitVec 32) :
    (if decide ((high a).toInt ≠ (high b).toInt) = true then compared ah bh bl bp ap back (!holds)
      else if decide ((low a).toInt ≠ (low b).toInt) = true then compared ah bh bl bp ap back (!holds)
      else compared ah bh bl bp ap back holds) =
    compared ah bh bl bp ap back (if a = b then holds else !holds) := by
  by_cases highs : high a = high b
  · by_cases lows : low a = low b
    · rw [if_pos (eq_of_words highs lows)]
      simp [highs, lows]
    · have differ : a ≠ b := fun same => lows (same ▸ rfl)
      simp [highs, lows, differ, BitVec.toInt_inj]
  · have differ : a ≠ b := fun same => highs (same ▸ rfl)
    simp [highs, differ, BitVec.toInt_inj]

end Exec

/-! ### What they decide -/

/-- The sign that the routines test. -/
theorem sign_bit (w : Word) : decide ((w &&& (0x8000 : Word)).toInt ≠ (0 : Word).toInt) = w.msb := by
  have bit : w &&& (0x8000 : Word) = if w.getLsbD 15 then BitVec.twoPow 16 15 else 0#16 := by
    rw [show (0x8000 : Word) = BitVec.twoPow 16 15 from rfl, BitVec.and_twoPow]
  rw [bit, show w.msb = w.getLsbD 15 from BitVec.msb_eq_getLsbD_last w]
  cases w.getLsbD 15 <;> decide

theorem signedBranches_iff (c : Order) (x y : Int) (m n : Nat) (low : m < 65536) (low' : n < 65536) (negative : Bool) :
    (match c with
      | .ge => Order.signedBranches (x < y) (x > y) (m = n) true (m ≤ n) negative
      | .gt => Order.signedBranches (x < y) (x > y) (m = n) false (m ≤ n) negative
      | .le => Order.signedBranches (x > y) (x < y) (m = n) true (m ≥ n) negative
      | .lt => Order.signedBranches (x > y) (x < y) (m = n) false (m ≥ n) negative) =
      c.holds (x * 65536 + m) (y * 65536 + n) ↔ ¬ (x = y ∧ negative = true ∧ m ≠ n) := by
  rcases lt_trichotomy x y with less | rfl | more
  · cases c <;> grind [Order.signedBranches, Order.holds]
  · rcases lt_trichotomy m n with less | rfl | more
    · cases c <;> grind [Order.signedBranches, Order.holds]
    · cases c <;> grind [Order.signedBranches, Order.holds]
    · cases c <;> grind [Order.signedBranches, Order.holds]
  · cases c <;> grind [Order.signedBranches, Order.holds]

theorem signedCode_eq_iff (c : Order) (a b : BitVec 32) :
    c.signedCode (high a) (low a) (high b) (low b) = c.holds a.toInt b.toInt ↔
      ¬ (high a = high b ∧ (high a).msb = true ∧ low a ≠ low b) := by
  have branches := signedBranches_iff c (high a).toInt (high b).toInt (low a).toNat (low b).toNat (low a).isLt (low b).isLt
    (high a).msb
  rw [← toInt_words, ← toInt_words] at branches
  have lows : (low a).toNat ≠ (low b).toNat ↔ low a ≠ low b := not_congr BitVec.toNat_inj
  rw [← BitVec.toInt_inj, ← lows, ← branches]
  unfold Order.signedCode
  rw [sign_bit]
  simp only [BitVec.toInt_inj, BitVec.toNat_inj]

theorem unsignedCode_eq (c : Order) (a b : BitVec 32) :
    c.unsignedCode (high a) (low a) (high b) (low b) = c.holds a.toNat b.toNat := by
  have wordsA := Nat.div_add_mod a.toNat 65536
  have wordsB := Nat.div_add_mod b.toNat 65536
  have lowA := Nat.mod_lt a.toNat (show 65536 > 0 by decide)
  have lowB := Nat.mod_lt b.toNat (show 65536 > 0 by decide)
  unfold Order.unsignedCode
  rw [toNat_high, toNat_high, toNat_low, toNat_low]
  cases c <;> grind [Order.unsignedBranches, Order.holds]

/-! ### The calls -/

theorem signed_serves (c : Order) (a b : BitVec 32) :
    Serves D p.image 12 c.signed (double b ++ double a)
      [high b, low b, high a, flag (c.signedCode (high a) (low a) (high b) (low b))] :=
  .of_exec [] (show 8 ≤ 12 by decide) rfl fun bp ap back => signed_exec (high a) (low a) (high b) (low b) bp ap back c

/-- **The unsigned comparisons are right.** -/
theorem unsigned_serves (c : Order) (a b : BitVec 32) :
    Serves D p.image 12 c.unsigned (double b ++ double a)
      [high b, low b, high a, flag (c.holds a.toNat b.toNat)] := by
  rw [← unsignedCode_eq]
  exact .of_exec [] (show 8 ≤ 12 by decide) rfl fun bp ap back =>
    unsigned_exec (high a) (low a) (high b) (low b) bp ap back c

theorem eq_serves (a b : BitVec 32) :
    Serves D p.image 12 .cmpEQU2 (double b ++ double a) [high b, low b, high a, flag (a = b)] := by
  refine .of_exec [] (show 8 ≤ 12 by decide) rfl fun bp ap back =>
    (eq_exec (high a) (low a) (high b) (low b) bp ap back).trans ?_
  refine (same_branches _ _ _ _ _ _ true a b).trans ?_
  by_cases same : a = b <;> simp [same, compared]

theorem ne_serves (a b : BitVec 32) :
    Serves D p.image 12 .cmpNEU2 (double b ++ double a) [high b, low b, high a, flag (a ≠ b)] := by
  refine .of_exec [] (show 8 ≤ 12 by decide) rfl fun bp ap back =>
    (ne_exec (high a) (low a) (high b) (low b) bp ap back).trans ?_
  refine (same_branches _ _ _ _ _ _ false a b).trans ?_
  by_cases same : a = b <;> simp [same, compared]

/-- What `genBuiltinCmp` puts out after the call, for a label at the block `target`. -/
def branchWords (target : Word) : List Word := [Op.discardB.wordB 3, Op.cnstB.wordB 0, Op.neW.word, target]

/-- The branch after a comparison. -/
theorem branch_leads {l : MathLabel} {args : List Word} {target x y z : Word} {holds : Bool}
    {site : CallSite ι l args (branchWords target)}
    (serves : Serves D site.place.image 12 l args [x, y, z, flag holds])
    (outside : site.Outside (target.toNat * 8)) :
    site.Leads D (if holds then target.toNat * 8 else site.next) [] := by
  obtain ⟨u, steps, here⟩ := CallSite.called serves (by decide)
  have code : CodeAt site.window site.place.image.inside (site.pc + 2) (branchWords target) :=
    CallSite.call_inside.tail.tail
  have room : mathDepth ≤ site.window.size := site.deep
  obtain ⟨u1, step1, here⟩ := here.stepVal (D := D) site.place.image.addr (.byte .discardB 3) room code rfl
  obtain ⟨u2, step2, here⟩ := here.stepVal (D := D) site.place.image.addr (.byte .cnstB 0) room code.tail rfl
  obtain ⟨u3, step3, here⟩ := here.branch (D := D) code.tail.tail rfl rfl
  have steps3 := ((steps.tail step1).tail step2).tail step3
  have taken : (if decide ((flag holds).toInt ≠ (BitVec.ofInt 16 0).toInt) = true then target.toNat * 8
      else site.pc + 2 + 1 + 1 + 2) = if holds then target.toNat * 8 else site.next := by
    cases holds <;> rfl
  refine CallSite.leads_of_steps steps3 (taken ▸ here) ?_
  cases holds
  · exact CallSite.outside_next
  · exact outside

/-- What a call of a comparison leaves. -/
theorem flag_leads {l : MathLabel} {args : List Word} {x y z : Word} {left right : Bool} {site : CallSite ι l args []}
    (serves : Serves D site.place.image 12 l args [x, y, z, flag left]) :
    site.Leads D site.next [.any, .any, .any, .word (flag right)] ↔ left = right := by
  rw [CallSite.leads_iff serves (by decide) rfl]
  simp only [List.forall₂_cons, Val.Is, List.Forall₂.nil, true_and, and_true]
  exact ⟨flag_inj, congrArg flag⟩

/-- **Signed comparisons**: the routine leaves the truth of the comparison, and the branch after it is taken as in C,
but where the high words are equal and negative and the low words differ. -/
theorem signedCmp_right (c : Order) (a b : BitVec 32) (target : Word)
    (site : CallSite ι c.signed (double b ++ double a) (branchWords target)) (outside : site.Outside (target.toNat * 8)) :
    (site.bare.Leads D site.bare.next [.any, .any, .any, .word (flag (c.holds a.toInt b.toInt))] ∧
      site.Leads D (if c.holds a.toInt b.toInt then target.toNat * 8 else site.next) []) ↔
    ¬ (high a = high b ∧ (high a).msb = true ∧ low a ≠ low b) := by
  rw [← signedCode_eq_iff c, flag_leads (signed_serves c a b)]
  refine ⟨And.left, fun right => ⟨right, ?_⟩⟩
  rw [← right]
  exact branch_leads (signed_serves c a b) outside

/-- Devices that answer no address. -/
abbrev noDevice : Devices Unit := ⟨fun _ _ => none, fun _ _ _ => none⟩

/-- `5 >= 3`, with the label at the block 64. -/
theorem signedCmp_right_five :
    ((callSite .cmpGEI2 (double 3 ++ double 5) (branchWords 64) (by decide) (by decide)).bare.Leads
        noDevice 0x102 [.any, .any, .any, .word 1] ∧
      (callSite .cmpGEI2 (double 3 ++ double 5) (branchWords 64) (by decide) (by decide)).Leads
        noDevice 0x200 []) ↔
    ¬ (high 5 = high 3 ∧ (high 5).msb = true ∧ low 5 ≠ low 3) :=
  signedCmp_right .ge 5 3 64 (callSite _ _ _ (by decide) (by decide)) (by
    rintro (⟨inListing, -⟩ | ⟨-, inCall⟩)
    · exact absurd inListing (by decide)
    · exact absurd inCall (by decide))

/-- `-1 >= -2` is false for the routine. -/
theorem signedCmp_minus_one :
    ¬ (callSite .cmpGEI2 (double (-2) ++ double (-1)) [] (by decide) (by decide)).Leads noDevice 0x102
      [.any, .any, .any, .word (flag (Order.ge.holds (-1) (-2)))] := by
  intro leads
  have decided := (flag_leads (signed_serves .ge (-1) (-2))).mp leads
  exact absurd decided (by decide)

end RlCpu.Binutils
