/-
**The shift of a name (`convert8ToLabels` of `linker.cpp`).**

A name may be followed by constants with their signs; `Shifted name n` says that they add up to `n`. The linker adds in
an `int`.

* `labelShift_shifted`: the loop of the linker finds the 32 bits of that sum.
* `convert8ToLabels_shift`: it is the shift of every label of an object file.
-/

import RlCpu.Binutils.Linker
import RlCpu.Lib.Decimal

namespace RlCpu.Binutils

open RlCpu.Kernel RlCpu.Lib

/-- **The sum of the constants in a name.** -/
inductive Shifted : Name → Int → Prop
  | plain {name : Name} (unsigned : ∀ c ∈ name, isSign c = false) : Shifted name 0
  | plus {name digits : Name} {n : Int} (start : Shifted name n) (number : IsNumber digits) :
      Shifted (name ++ '+' :: digits) (n + decimal digits)
  | minus {name digits : Name} {n : Int} (start : Shifted name n) (number : IsNumber digits) :
      Shifted (name ++ '-' :: digits) (n - decimal digits)

/-- A sum is the same whether its summands have been cut to 32 bits or not. -/
theorem addSummand_int32 (cSub : Bool) (n m : Int) :
    addSummand cSub (int32 n) (int32 m) = int32 (if cSub then n - m else n + m) := by
  unfold addSummand int32
  cases cSub with
  | false =>
    show Int.bmod (Int.bmod n _ + Int.bmod m _) _ = Int.bmod (n + m) _
    rw [← Int.add_bmod]
  | true =>
    show Int.bmod (Int.bmod n _ - Int.bmod m _) _ = Int.bmod (n - m) _
    rw [Int.bmod_sub_bmod, Int.sub_bmod_bmod]

section Loop

variable {cSub : Bool} {shRes cOp n : Int} {name : Name}

/-- A sign ends the constant before it. -/
theorem shiftLoop_sign {sign : Char} (isSign : sign = '+' ∨ sign = '-') (rest : Name)
    (run : shiftLoop cSub shRes cOp name = some n) :
    shiftLoop cSub shRes cOp (name ++ sign :: rest) = shiftLoop (sign = '-') n 0 rest := by
  induction name generalizing cSub shRes cOp with
  | nil =>
    obtain rfl : addSummand cSub shRes cOp = n := Option.some.inj run
    obtain rfl | rfl := isSign
    · rfl
    · rfl
  | cons c name ih =>
    simp only [shiftLoop, List.cons_append] at run ⊢
    by_cases digit : c.isDigit = true
    · rw [if_pos digit] at run ⊢
      exact ih run
    · rw [if_neg digit] at run ⊢
      by_cases minus : c = '-'
      · rw [if_pos minus] at run ⊢
        exact ih run
      · rw [if_neg minus] at run ⊢
        by_cases plus : c = '+'
        · rw [if_pos plus] at run ⊢
          exact ih run
        · rw [if_neg plus] at run
          cases run

/-- The digits of a constant. -/
theorem shiftLoop_digits (cSub : Bool) (shRes : Int) (start : Nat) {digits : Name}
    (number : ∀ c ∈ digits, c.isDigit = true) :
    shiftLoop cSub shRes (int32 start) digits =
      some (addSummand cSub shRes (int32 (Nat.ofDigitChars 10 digits start))) := by
  induction digits generalizing start with
  | nil => rfl
  | cons c digits ih =>
    have rest := ih (10 * start + (c.toNat - '0'.toNat)) fun d member =>
      number d (List.mem_cons_of_mem c member)
    have next : int32 (int32 start * 10 + digit c) = int32 ((10 * start + (c.toNat - '0'.toNat) : Nat) : Int) := by
      have value : (start : Int) * 10 + digit c = ((10 * start + (c.toNat - '0'.toNat) : Nat) : Int) := by
        unfold digit
        push_cast
        rw [Int.mul_comm]
      rw [← value]
      unfold int32
      rw [Int.add_bmod, Int.bmod_mul_bmod, ← Int.add_bmod]
    unfold shiftLoop
    rw [if_pos (number c List.mem_cons_self), next, rest, Nat.ofDigitChars_cons]

end Loop

/-- The shift starts at the first sign. -/
theorem labelShift_eq (name : Name) :
    labelShift name = shiftLoop false 0 0 (name.dropWhile fun c => !isSign c) := by
  unfold labelShift
  by_cases signed : name.any isSign = true
  · rw [if_pos signed]
  · have unshifted : name.dropWhile (fun c => !isSign c) = [] := by
      rw [List.dropWhile_eq_nil_iff]
      intro c member
      have plain := List.any_eq_false.mp (Bool.not_eq_true _ ▸ signed) c member
      simpa using plain
    rw [if_neg signed, unshifted]
    rfl

/-- A constant with its sign is added to a shift, or taken from it. -/
theorem labelShift_sign {name : Name} {n : Int} {sign : Char} (isSign' : sign = '+' ∨ sign = '-')
    (rest : Name) (start : labelShift name = some n) :
    labelShift (name ++ sign :: rest) = shiftLoop (sign = '-') n 0 rest := by
  rw [labelShift_eq] at start ⊢
  by_cases unshifted : name.dropWhile (fun c => !isSign c) = []
  · have first : (sign :: rest).dropWhile (fun c => !isSign c) = sign :: rest := by
      obtain rfl | rfl := isSign'
      · rfl
      · rfl
    rw [unshifted] at start
    rw [List.dropWhile_append, unshifted, List.isEmpty_nil, if_pos rfl, first]
    exact shiftLoop_sign isSign' rest start
  · rw [List.dropWhile_append, if_neg (by simpa using unshifted)]
    exact shiftLoop_sign isSign' rest start

/-- **The linker finds the sum of the constants**, in 32 bits. -/
theorem labelShift_shifted {name : Name} {n : Int} (shifted : Shifted name n) :
    labelShift name = some (int32 n) := by
  induction shifted with
  | plain unsigned =>
    rename_i name
    rw [labelShift_eq]
    have unshifted : name.dropWhile (fun c => !isSign c) = [] := by
      rw [List.dropWhile_eq_nil_iff]
      intro c member
      rw [unsigned c member]
      rfl
    rw [unshifted]
    rfl
  | plus _ number ih =>
    rw [labelShift_sign (Or.inl rfl) _ ih]
    exact (shiftLoop_digits _ _ 0 number.2).trans (congrArg some (addSummand_int32 false _ _))
  | minus _ number ih =>
    rw [labelShift_sign (Or.inr rfl) _ ih]
    exact (shiftLoop_digits _ _ 0 number.2).trans (congrArg some (addSummand_int32 true _ _))

/-! ### The labels of an object file -/

/-- The shift of a label is that of its name. -/
def ShiftsRead (labels : LabelMap) : Prop := ∀ l ∈ labels, labelShift l.1 = some l.2.shift

theorem setLabel_shift {labels : LabelMap} {name : Name} {entry : LabelEntry} (read : ShiftsRead labels)
    (shift : labelShift name = some entry.shift) : ShiftsRead (setLabel name entry labels) := by
  induction labels with
  | nil =>
    intro l member
    obtain rfl := List.mem_singleton.mp member
    exact shift
  | cons label labels ih =>
    obtain ⟨key, old⟩ := label
    have first : labelShift key = some old.shift := read (key, old) List.mem_cons_self
    have rest : ShiftsRead labels := fun l member => read l (List.mem_cons_of_mem _ member)
    unfold setLabel
    split
    · intro l member
      obtain rfl | member := List.mem_cons.mp member
      · exact shift
      · exact rest l member
    · split
      · intro l member
        obtain rfl | member := List.mem_cons.mp member
        · exact shift
        · exact read l member
      · intro l member
        obtain rfl | member := List.mem_cons.mp member
        · exact first
        · exact ih rest l member

theorem readLabel_shift {src rest : List Byte} {name : Name} {entry : LabelEntry}
    (read : readLabel src = some (name, entry, rest)) : labelShift name = some entry.shift := by
  simp only [readLabel, Option.bind_eq_bind] at read
  split at read
  · rw [Option.bind_eq_some_iff] at read
    obtain ⟨sect, -, read⟩ := read
    rw [Option.bind_eq_some_iff] at read
    obtain ⟨shift, shiftOf, read⟩ := read
    obtain ⟨rfl, same⟩ := Prod.mk.inj (Option.some.inj read)
    obtain ⟨rfl, -⟩ := Prod.mk.inj same
    exact shiftOf
  · cases read

/-- **The shift of every label of an object file is that of its name.** -/
theorem convert8ToLabels_shift {fuel : Nat} {src : List Byte} {labels read : LabelMap}
    (before : ShiftsRead labels) (run : convert8ToLabels labels fuel src = some read) : ShiftsRead read := by
  induction fuel generalizing labels src with
  | zero =>
    cases src with
    | nil => exact Option.some.inj run ▸ before
    | cons _ _ => cases run
  | succ fuel ih =>
    cases src with
    | nil => exact Option.some.inj run ▸ before
    | cons b src =>
      unfold convert8ToLabels at run
      rw [Option.bind_eq_bind, Option.bind_eq_some_iff] at run
      obtain ⟨⟨name, entry, rest⟩, first, run⟩ := run
      exact ih (setLabel_shift before (readLabel_shift first)) run

end RlCpu.Binutils
