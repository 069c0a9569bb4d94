/-
**Operands of the assembler (`strtol`, `evaluateExpr` and the operands of `main` in `assembler.cpp`).**

An operand that starts with a digit or a `-` is a sum, evaluated at once; any other is a label, whose word the
linker fills in. `.byte` puts out one number a number of times.
-/

import RlCpu.Binutils.Translator

namespace RlCpu.Binutils

open RlCpu.Kernel RlCpu.Lib RlCpu.Sim

/-- The value of a character as a digit of some base, 36 if it is none. -/
def digitValue (c : Char) : Nat :=
  if c.isDigit then c.toNat - '0'.toNat
  else if c.isLower then c.toNat - 'a'.toNat + 10
  else if c.isUpper then c.toNat - 'A'.toNat + 10
  else 36

/-- The digits of a base in front of a text, and the rest. -/
def digitsOf (base : Nat) (text : Text) : Int × Text :=
  let digits := text.takeWhile fun c => digitValue c < base
  ((digits.foldl (fun n c => n * base + digitValue c) 0 : Nat), text.dropWhile fun c => digitValue c < base)

/-- The number in front of a text without a sign: hexadecimal behind `0x`, octal behind `0`. -/
def unsignedOf : Text → Int × Text
  | '0' :: 'x' :: c :: rest =>
    if digitValue c < 16 then digitsOf 16 (c :: rest) else (0, 'x' :: c :: rest)
  | '0' :: 'X' :: c :: rest =>
    if digitValue c < 16 then digitsOf 16 (c :: rest) else (0, 'X' :: c :: rest)
  | '0' :: rest => digitsOf 8 ('0' :: rest)
  | text => digitsOf 10 text

/-- `strtol` with base 0, of a text without blanks: the number in front and the rest. -/
def strtol : Text → Int × Text
  | '-' :: rest =>
    if (unsignedOf rest).2 = rest then (0, '-' :: rest) else (-(unsignedOf rest).1, (unsignedOf rest).2)
  | '+' :: rest =>
    if (unsignedOf rest).2 = rest then (0, '+' :: rest) else unsignedOf rest
  | text => unsignedOf text

/-- The loop of `evaluateExpr`; `none` for an operand that is no sum. Every round but the last takes a sign. -/
def evaluateLoop (cSub : Bool) (shRes : Int) : (fuel : Nat) → Text → Option Int
  | 0, _ => none
  | fuel + 1, s =>
    let (cOp, p) := strtol s
    let shRes := if cSub then shRes - cOp else shRes + cOp
    match p with
    | [] => some shRes
    | '-' :: p => evaluateLoop true shRes fuel p
    | '+' :: p => evaluateLoop false shRes fuel p
    | _ => none

/-- `evaluateExpr` -/
def evaluateExpr (s : Text) : Option Int := evaluateLoop false 0 (s.length + 1) s

/-- A word that the assembler puts out: a number, or a label that it marks. -/
inductive AsmWord
  | num (w : Word)
  | label (name : Text)
  deriving DecidableEq, Repr

/-- An operand that is a number. -/
def isNumeric : Text → Bool
  | [] => false
  | c :: _ => c.isDigit || c = '-'

/-- The words of an operation with its operand, or none where the assembler stops. -/
def assemble (opcode : Op) (argType : Suffix) (arg : Text) : Option (List AsmWord) :=
  match argType with
  | .none => some [.num opcode.word]
  | .b => do
    if isNumeric arg then
      let argNum ← evaluateExpr arg
      return [.num (opcode.wordB (BitVec.ofInt 16 argNum))]
    else none
  | .w => do
    if isNumeric arg then
      let argNum ← evaluateExpr arg
      return [.num opcode.word, .num (BitVec.ofInt 16 argNum)]
    else return [.num opcode.word, .label arg]

/-- The words of an entry of the translator. -/
def RcEntry.assemble (entry : RcEntry) : Option (List AsmWord) := do
  let opcode ← entry.op
  Binutils.assemble opcode entry.argType.suffix entry.arg

/-! ### Directives -/

/-- A number as an `int` that a stream reads keeps it: one that is too large becomes the largest. -/
def clampInt (x : Int) : Int := if 2 ^ 31 ≤ x then 2 ^ 31 - 1 else if x < -2 ^ 31 then -2 ^ 31 else x

/-- The sign in front of a number, and what is left. -/
def readSign : Text → Int × Text
  | '-' :: rest => (-1, rest)
  | '+' :: rest => (1, rest)
  | rest => (1, rest)

/-- `ss >> num` of an `int`: the number and what is left of the stream, none where there is no number. -/
def readInt (ss : Text) : Option (Int × Text) :=
  let (sign, digits) := readSign (skipSpace ss)
  if digits.takeWhile Char.isDigit = [] then none
  else some (clampInt (sign * decimal (digits.takeWhile Char.isDigit)), digits.dropWhile Char.isDigit)

/-- `ss >> num`: what the number becomes, none where it stays as it is, and the stream, none where it has failed. -/
def streamInt : Option Text → Option Int × Option Text
  | none => (none, none)
  | some ss =>
    if skipSpace ss = [] then (none, none)
    else
      match readInt ss with
      | some (num, rest) => (some num, some rest)
      | none => (some 0, none)

/-- The words of `.byte` in `main`; none where a number that it uses has no value. -/
def byteLine (ss : Text) : Option (List Word) := do
  let (num, ss) := streamInt (some ss)
  let num ← num
  if num ≤ 0 then return []
  else
    let val ← (streamInt ss).1
    return List.replicate num.toNat (BitVec.ofInt 16 val)

theorem streamInt_of_readInt {ss rest : Text} {num : Int} (read : readInt ss = some (num, rest)) :
    streamInt (some ss) = (some num, some rest) := by
  have more : skipSpace ss ≠ [] := fun ended => by
    unfold readInt at read
    rw [ended] at read
    cases read
  unfold streamInt
  dsimp only
  rw [if_neg more, read]

/-- The words that are put out for a line with `.byte`. -/
def byteWords (line : Text) : Option (List Word) :=
  let (word, ss) := readWord line
  if word = ".byte".toList then byteLine ss else none

end RlCpu.Binutils
