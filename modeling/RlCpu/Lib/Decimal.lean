/-
**Decimal numbers in texts.**

`natText n` is what `%d` prints of a number, `decimal` what its digits stand for. A number in front of a text
that does not go on with a digit is read back: `takeWhile_number` and `decimal_natText`.
-/

import Mathlib.Data.List.TakeWhile
import Mathlib.Tactic.IntervalCases

namespace RlCpu.Lib

/-- The number that a text of digits stands for. -/
def decimal (digits : List Char) : Nat := Nat.ofDigitChars 10 digits 0

/-- A text of digits. -/
def IsNumber (digits : List Char) : Prop := digits ≠ [] ∧ ∀ c ∈ digits, c.isDigit = true

/-- The digits of a number. -/
def natText (n : Nat) : List Char := Nat.toDigits 10 n

/-- A text that does not start with a digit. -/
def EndsNumber (rest : List Char) : Prop := ∀ c ∈ rest.head?, c.isDigit = false

theorem natText_isNumber (n : Nat) : IsNumber (natText n) :=
  ⟨Nat.toDigits_ne_nil, fun _ member => Nat.isDigit_of_mem_toDigits (by decide) (by decide) member⟩

theorem decimal_natText (n : Nat) : decimal (natText n) = n :=
  Nat.ofDigitChars_toDigits (by decide) (by decide)

theorem IsNumber.cons {digits : List Char} (number : IsNumber digits) :
    ∃ c rest, digits = c :: rest ∧ c.isDigit = true := by
  obtain ⟨nonempty, all⟩ := number
  cases digits with
  | nil => exact absurd rfl nonempty
  | cons c rest => exact ⟨c, rest, rfl, all c List.mem_cons_self⟩

/-- A number in front of a text ends where the text does not go on with a digit. -/
theorem takeWhile_number {digits rest : List Char} (number : ∀ c ∈ digits, c.isDigit = true)
    (ends : EndsNumber rest) : (digits ++ rest).takeWhile Char.isDigit = digits ∧
      (digits ++ rest).dropWhile Char.isDigit = rest := by
  have stop : rest.takeWhile Char.isDigit = [] ∧ rest.dropWhile Char.isDigit = rest := by
    cases rest with
    | nil => exact ⟨rfl, rfl⟩
    | cons c rest =>
      have no := ends c rfl
      simp [no]
  have all : digits.takeWhile Char.isDigit = digits := List.takeWhile_eq_self_iff.mpr number
  refine ⟨?_, ?_⟩
  · rw [List.takeWhile_append_of_pos number, stop.1, List.append_nil]
  · rw [List.dropWhile_append_of_pos number, stop.2]

end RlCpu.Lib
