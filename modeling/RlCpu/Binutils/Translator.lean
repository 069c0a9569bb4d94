/-
**Entries of the translator (`trans2.h`, `parseOp` and `dumpCode` of `trans2.cpp`).**

An `RcEntry` is an operation of the target with the text of its argument. The argument of a line is
classified by its first character, and by its value if that is a digit. A text is a list of characters; it
fits the buffers of 100 characters that the source keeps it in. A directive is passed on with the rest of its
line.
-/

import RlCpu.Sim.Code
import RlCpu.Lib.Decimal

namespace RlCpu.Binutils

open RlCpu.Kernel RlCpu.Lib RlCpu.Sim

/-- A text. -/
abbrev Text := List Char

/-- `opname_rc` -/
inductive Rc
  | nop | addrf | addrl | cnst | addrs | indir | add | sub | band | bor | bxor | bcom | lsh | rsh
  | eq | ne | ge | gt | le | lt | uge | ugt | ule | ult
  | call0 | call1 | call2 | ret | jump | discard | alloc | store | rstore | dup
  deriving DecidableEq, Repr

/-- `size_rc` -/
inductive SizeRc
  | word
  | dword
  deriving DecidableEq, Repr

/-- `arg_rc` -/
inductive ArgRc
  | none
  | char
  | word
  | link
  deriving DecidableEq, Repr

/-- `RCEntry`, of an operation. -/
structure RcEntry where
  name : Rc
  arg : Text
  size : SizeRc
  argType : ArgRc
  needIndir : Bool
  deriving DecidableEq, Repr

/-- An operation as `parseOp` puts it out. -/
def rcEntry (name : Rc) (arg : Text) (size : SizeRc) (argType : ArgRc) : RcEntry :=
  ⟨name, arg, size, argType, false⟩

/-! ### Arguments -/

/-- `%d` -/
def intText (n : Int) : Text := if n < 0 then '-' :: natText n.natAbs else natText n.natAbs

/-- `atoi` -/
def atoi : Text → Int
  | '-' :: rest => -(decimal (rest.takeWhile Char.isDigit) : Int)
  | '+' :: rest => decimal (rest.takeWhile Char.isDigit)
  | text => decimal (text.takeWhile Char.isDigit)

/-- What `parseOp` finds out about its argument: `flArgNumeric` and `argType`. -/
def argClass : Text → Bool × ArgRc
  | [] => (false, .none)
  | c :: rest =>
    if c.isDigit then
      let val := atoi (c :: rest)
      let flArgNumeric := '+' ∉ c :: rest
      if val ≥ -127 ∧ val ≤ 127 then
        if flArgNumeric then (true, .char) else (false, .word)
      else (flArgNumeric, .word)
    else (false, .link)

/-- `ADDRF` -/
def addrfEntry (argStr : Text) : RcEntry := rcEntry .addrf argStr .word (argClass argStr).2

/-- `ADDRG` -/
def addrgEntry (argStr : Text) : RcEntry := rcEntry .cnst argStr .word (argClass argStr).2

/-- `ADDRL` -/
def addrlEntry (nArgs : Nat) (argStr : Text) : RcEntry :=
  if (argClass argStr).1 then
    let localN := atoi argStr + nArgs
    rcEntry .addrl (intText localN) .word (if localN ≤ 127 then .char else .word)
  else rcEntry .addrl (argStr ++ '+' :: natText nArgs) .word .link

/-! ### Directives -/

/-- `isspace` -/
def isSpace (c : Char) : Bool := c ∈ [' ', '\t', '\n', '\x0b', '\x0c', '\r']

/-- What a stream goes on with, after blanks. -/
def skipSpace (ss : Text) : Text := ss.dropWhile isSpace

/-- `ss >> word`: the word and what is left of the stream. -/
def readWord (ss : Text) : Text × Text :=
  ((skipSpace ss).takeWhile fun c => !isSpace c, (skipSpace ss).dropWhile fun c => !isSpace c)

/-- The directive that one of the compiler becomes. `proc`, `endproc` and `asm` become more than a directive. -/
def directiveName (lccWord : Text) : Option Text :=
  if lccWord ∈ ["import", "export", "code", "data", "align", "skip", "byte", "address"].map String.toList then
    some lccWord
  else if lccWord ∈ ["lit", "bss"].map String.toList then some "data".toList
  else none

/-- `parseDirective`: the directive and its argument, which is the rest of the line after one character. -/
def parseDirective (line : Text) : Option (Text × Text) :=
  let lccWord := (readWord line).1
  let lccArg := if lccWord.length = line.length then [] else line.drop (lccWord.length + 1)
  (directiveName lccWord).map fun name => (name, lccArg)

/-- `dumpCode`, of a directive. -/
def dumpDirective (directive : Text × Text) : Text := '.' :: directive.1 ++ ' ' :: directive.2

/-- `CNST`: a word of the value for each unit of its size, the low one first. -/
def cnstWord (val : BitVec 64) (i : Nat) : Word := val.extractLsb' (16 * i) 16

/-- `INDIR` -/
def indirEntry (opSize : Nat) : Option RcEntry :=
  if opSize = 1 then some (rcEntry .indir [] .word .none)
  else if opSize = 2 then some (rcEntry .indir [] .dword .none)
  else none

/-! ### Operations of the processor -/

/-- The suffix that `dumpCode` prints: none, `_b` or `_w`. -/
inductive Suffix
  | none
  | b
  | w
  deriving DecidableEq, Repr

/-- `argTypeStr` -/
def ArgRc.suffix : ArgRc → Suffix
  | .none => .none
  | .char => .b
  | .word => .w
  | .link => .w

/-- The operation of a line that `dumpCode` prints, by its name: `i` if it is indirect, the name, `2` for double
words, and the suffix. -/
def RcEntry.op (entry : RcEntry) : Option Op :=
  match entry.needIndir, entry.name, entry.size, entry.argType.suffix with
  | false, .nop, .word, .none => some .nop
  | false, .addrf, .word, .b => some .addrfB
  | false, .addrf, .word, .w => some .addrfW
  | true, .addrf, .word, .b => some .iaddrfB
  | true, .addrf, .word, .w => some .iaddrfW
  | false, .addrl, .word, .b => some .addrlB
  | false, .addrl, .word, .w => some .addrlW
  | true, .addrl, .word, .b => some .iaddrlB
  | true, .addrl, .word, .w => some .iaddrlW
  | false, .cnst, .word, .b => some .cnstB
  | false, .cnst, .word, .w => some .cnstW
  | true, .cnst, .word, .b => some .icnstB
  | true, .cnst, .word, .w => some .icnstW
  | false, .addrs, .word, .b => some .addrsB
  | false, .addrs, .word, .w => some .addrsW
  | true, .addrs, .word, .b => some .iaddrsB
  | true, .addrs, .word, .w => some .iaddrsW
  | false, .indir, .word, .none => some .indir
  | false, .indir, .dword, .none => some .indir2
  | false, .add, .word, .none => some .add
  | false, .add, .word, .b => some .addB
  | false, .add, .word, .w => some .addW
  | false, .add, .dword, .none => some .add2
  | false, .sub, .word, .none => some .sub
  | false, .sub, .word, .b => some .subB
  | false, .sub, .word, .w => some .subW
  | false, .sub, .dword, .none => some .sub2
  | false, .band, .word, .none => some .band
  | false, .band, .word, .b => some .bandB
  | false, .band, .word, .w => some .bandW
  | false, .band, .dword, .none => some .band2
  | false, .bor, .word, .none => some .bor
  | false, .bor, .word, .b => some .borB
  | false, .bor, .word, .w => some .borW
  | false, .bor, .dword, .none => some .bor2
  | false, .bxor, .word, .none => some .bxor
  | false, .bxor, .word, .b => some .bxorB
  | false, .bxor, .word, .w => some .bxorW
  | false, .bxor, .dword, .none => some .bxor2
  | false, .lsh, .word, .none => some .lsh
  | false, .rsh, .word, .none => some .rsh
  | false, .eq, .word, .w => some .eqW
  | false, .ne, .word, .w => some .neW
  | false, .ge, .word, .w => some .geW
  | false, .gt, .word, .w => some .gtW
  | false, .le, .word, .w => some .leW
  | false, .lt, .word, .w => some .ltW
  | false, .uge, .word, .w => some .ugeW
  | false, .ugt, .word, .w => some .ugtW
  | false, .ule, .word, .w => some .uleW
  | false, .ult, .word, .w => some .ultW
  | false, .call0, .word, .none => some .call0
  | false, .call0, .word, .w => some .call0W
  | false, .call1, .word, .none => some .call1
  | false, .call1, .word, .w => some .call1W
  | false, .call2, .word, .none => some .call2
  | false, .call2, .word, .w => some .call2W
  | false, .ret, .word, .none => some .ret
  | false, .jump, .word, .none => some .jump
  | false, .jump, .word, .w => some .jumpW
  | false, .discard, .word, .b => some .discardB
  | false, .discard, .word, .w => some .discardW
  | false, .alloc, .word, .b => some .allocB
  | false, .alloc, .word, .w => some .allocW
  | false, .store, .word, .none => some .store
  | false, .store, .dword, .none => some .store2
  | false, .rstore, .word, .none => some .rstore
  | false, .rstore, .dword, .none => some .rstore2
  | false, .dup, .word, .none => some .dupOp
  | _, _, _, _ => none

end RlCpu.Binutils
