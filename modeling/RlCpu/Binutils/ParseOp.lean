/-
**The translator (`parseOp`, `parseLine` and `main` of `trans2.cpp`).**

The compiler puts out a line for each operator of a tree, behind those of its operands. `parseOp` adds to `output` what
the processor does for it; `none` is where it fails. A double word has its low word first on the stack.
-/

import RlCpu.Binutils.InlineShift
import RlCpu.Binutils.Procedures

namespace RlCpu.Binutils

open RlCpu.Kernel RlCpu.Lib RlCpu.Sim

/-! ### Lines -/

/-- `opname_lcc`, as far as the compiler puts them out. -/
inductive LccOp
  | addrf | addrg | addrl | cnst | indir | neg | add | band | bor | bxor | div | lsh | mod | mul | rsh | sub | asgn
  | eq | ge | gt | le | lt | ne | arg | call | ret | jump | label | bcom | cvf | cvi | cvp | cvu | discard
  deriving DecidableEq, Repr

/-- `opnames_lcc` -/
def LccOp.name : LccOp → Text
  | .addrf => "ADDRF".toList
  | .addrg => "ADDRG".toList
  | .addrl => "ADDRL".toList
  | .cnst => "CNST".toList
  | .indir => "INDIR".toList
  | .neg => "NEG".toList
  | .add => "ADD".toList
  | .band => "BAND".toList
  | .bor => "BOR".toList
  | .bxor => "BXOR".toList
  | .div => "DIV".toList
  | .lsh => "LSH".toList
  | .mod => "MOD".toList
  | .mul => "MUL".toList
  | .rsh => "RSH".toList
  | .sub => "SUB".toList
  | .asgn => "ASGN".toList
  | .eq => "EQ".toList
  | .ge => "GE".toList
  | .gt => "GT".toList
  | .le => "LE".toList
  | .lt => "LT".toList
  | .ne => "NE".toList
  | .arg => "ARG".toList
  | .call => "CALL".toList
  | .ret => "RET".toList
  | .jump => "JUMP".toList
  | .label => "LABEL".toList
  | .bcom => "BCOM".toList
  | .cvf => "CVF".toList
  | .cvi => "CVI".toList
  | .cvp => "CVP".toList
  | .cvu => "CVU".toList
  | .discard => "DISCARD".toList

def LccOp.all : List LccOp :=
  [.addrf, .addrg, .addrl, .cnst, .indir, .neg, .add, .band, .bor, .bxor, .div, .lsh, .mod, .mul, .rsh, .sub, .asgn,
    .eq, .ge, .gt, .le, .lt, .ne, .arg, .call, .ret, .jump, .label, .bcom, .cvf, .cvi, .cvp, .cvu, .discard]

/-- `op`, `opType` and `opSize` from `opRaw`; every operator that the compiler puts out ends in a type and a size. -/
def splitOp (opRaw : Text) : Option (Text × Char × Nat) :=
  if opRaw = "DISCARD".toList then some (opRaw, '\x00', 0)
  else match opRaw.reverse with
    | 'V' :: op => some (op.reverse, 'V', 0)
    | 'B' :: op => some (op.reverse, 'B', 0)
    | opSize :: opType :: op => if opSize.isDigit then some (op.reverse, opType, opSize.toNat - '0'.toNat) else none
    | _ => none

/-- A line of the output: an operation, or a directive with its argument. -/
inductive OutLine
  | op (entry : RcEntry)
  | directive (name arg : Text)
  deriving DecidableEq

/-- `output`, `nLocals`, `nArgs` and `cArg`. -/
structure Translator where
  output : List OutLine
  nLocals : Nat
  nArgs : Nat
  cArg : Nat

/-- `output.push_back`, of operations. -/
def Translator.put (s : Translator) (entries : List RcEntry) : Translator :=
  { s with output := s.output ++ entries.map .op }

/-! ### Operators -/

/-- An operation of one or two words. -/
def sizedEntry (name : Rc) (opSize : Nat) : Option RcEntry :=
  if opSize = 1 then some (rcEntry name [] .word .none)
  else if opSize = 2 then some (rcEntry name [] .dword .none)
  else none

/-- `BCOM` -/
def bcomEntries (opSize : Nat) : Option (List RcEntry) :=
  if opSize = 1 then some [rcEntry .bxor "0xffff".toList .word .word]
  else if opSize = 2 then
    some [rcEntry .cnst "0xffff".toList .word .word, rcEntry .cnst "0xffff".toList .word .word,
      rcEntry .bxor [] .dword .none]
  else none

/-- `NEG` -/
def negEntries (opSize : Nat) : Option (List RcEntry) :=
  if opSize = 1 then some [rcEntry .bxor "0xffff".toList .word .word, rcEntry .add "0x01".toList .word .char]
  else if opSize = 2 then
    some [rcEntry .cnst "0xffff".toList .word .word, rcEntry .cnst "0xffff".toList .word .word,
      rcEntry .bxor [] .dword .none, rcEntry .cnst "0x01".toList .word .char, rcEntry .cnst "0x00".toList .word .char,
      rcEntry .add [] .dword .none]
  else none

/-- `genBuiltin`; `genBuiltin line` is the one for a word. -/
def genBuiltinSized (line : Text) (opSize : Nat) : Option (List RcEntry) :=
  if opSize = 1 then some (genBuiltin line)
  else if opSize = 2 then
    some [rcEntry .call0 ("__builtin_".toList ++ line) .word .link, rcEntry .discard ['2'] .word .char]
  else none

/-- `genBuiltinCmp` -/
def genBuiltinCmp (line : Text) (opSize : Nat) (argStr : Text) : Option (List RcEntry) :=
  if opSize = 2 then
    some [rcEntry .call0 ("__builtin_cmp_".toList ++ line) .word .link, rcEntry .discard ['3'] .word .char,
      rcEntry .cnst ['0'] .word .char, rcEntry .ne argStr .word .link]
  else none

/-- A comparison: `name`, or `unsignedName` for unsigned words and pointers. -/
def compareEntries (name unsignedName : Rc) (line : Text) (opType : Char) (opSize : Nat) (argStr : Text) :
    Option (List RcEntry) :=
  if opSize = 1 then
    some [rcEntry (if opType = 'U' ∨ opType = 'P' then unsignedName else name) argStr .word .link]
  else genBuiltinCmp line opSize argStr

/-- `CVI` and its like, from `fromSz` words to `toSz`. -/
def convertEntries (fromSz toSz : Nat) : List RcEntry :=
  if toSz < fromSz then
    [rcEntry .discard (natText (fromSz - toSz)) .word (if fromSz - toSz < 127 then .char else .word)]
  else List.replicate (toSz - fromSz) (rcEntry .cnst ['0'] .word .char)

/-- `atol` -/
def atol (text : Text) : BitVec 64 :=
  let n := atoi text
  BitVec.ofInt 64 (if 2 ^ 63 ≤ n then 2 ^ 63 - 1 else if n < -2 ^ 63 then -2 ^ 63 else n)

/-- `LSH` and `RSH`: an inline shift where the count is the constant behind which the line stands. -/
def shiftLines (name : Rc) (line : Text) (opSize : Nat) (output : List OutLine) : List OutLine :=
  match output.getLast? with
  | some (.op back) => output.dropLast ++ (parseShift name line opSize [back]).map .op
  | _ => output ++ (genBuiltin line).map .op

/-- `ARG` -/
def argEntries (cArg opSize : Nat) : Option (List RcEntry) :=
  (sizedEntry .rstore opSize).map fun store =>
    [rcEntry .addrl (natText cArg) .word (if cArg ≤ 127 then .char else .word), store]

/-- `ASGN` -/
def asgnEntries (opType : Char) (opSize : Nat) (argStr : Text) : Option (List RcEntry) :=
  if opType = 'B' then
    some [rcEntry .cnst argStr .word (argClass argStr).2, rcEntry .call0 "__builtin_memcpy".toList .word .link,
      rcEntry .discard ['3'] .word .char]
  else (sizedEntry .store opSize).map fun store => [store]

/-- `parseOp`, of a line with the words `opRaw` and `argStr`. -/
def parseWords (opRaw argStr line : Text) (s : Translator) : Option Translator := do
  let argType := (argClass argStr).2
  let (op, opType, opSize) ← splitOp opRaw
  match LccOp.all.find? fun o => o.name = op with
  | some .addrf => if opSize = 1 then some (s.put [addrfEntry argStr]) else none
  | some .addrg => if opSize = 1 then some (s.put [addrgEntry argStr]) else none
  | some .addrl => if opSize = 1 then some (s.put [addrlEntry s.nArgs argStr]) else none
  | some .cnst => some (s.put ((List.range opSize).map (cnstEntry (atol argStr))))
  | some .indir => if opType = 'B' then some s else (indirEntry opSize).map fun entry => s.put [entry]
  | some .neg => (negEntries opSize).map s.put
  | some .bcom => (bcomEntries opSize).map s.put
  | some .add => (sizedEntry .add opSize).map fun entry => s.put [entry]
  | some .sub => (sizedEntry .sub opSize).map fun entry => s.put [entry]
  | some .band => (sizedEntry .band opSize).map fun entry => s.put [entry]
  | some .bor => (sizedEntry .bor opSize).map fun entry => s.put [entry]
  | some .bxor => (sizedEntry .bxor opSize).map fun entry => s.put [entry]
  | some .div | some .mod | some .mul => (genBuiltinSized line opSize).map s.put
  | some .lsh => some { s with output := shiftLines .lsh line opSize s.output }
  | some .rsh => some { s with output := shiftLines .rsh line opSize s.output }
  | some .asgn => (asgnEntries opType opSize argStr).map s.put
  | some .eq => (compareEntries .eq .eq line opType opSize argStr).map s.put
  | some .ne => (compareEntries .ne .ne line opType opSize argStr).map s.put
  | some .gt => (compareEntries .gt .ugt line opType opSize argStr).map s.put
  | some .ge => (compareEntries .ge .uge line opType opSize argStr).map s.put
  | some .lt => (compareEntries .lt .ult line opType opSize argStr).map s.put
  | some .le => (compareEntries .le .ule line opType opSize argStr).map s.put
  | some .arg => (argEntries s.cArg opSize).map fun entries => { s.put entries with cArg := s.cArg + opSize }
  | some .call => (callEntry opSize none).map fun entry => { s.put [entry] with cArg := 0 }
  | some .ret => some (s.put (genRet opSize))
  | some .jump => some (s.put [rcEntry .jump [] .word .none])
  | some .label => some { s with output := s.output ++ [.directive "label".toList argStr] }
  | some .cvi | some .cvu | some .cvf | some .cvp => some (s.put (convertEntries (atoi argStr).toNat opSize))
  | some .discard =>
      if argType = .char ∨ argType = .word then
        some (if atoi argStr ≠ 0 then s.put [rcEntry .discard argStr .word argType] else s)
      else none
  | none => some s

/-- `parseOp` -/
def parseOp (line : Text) (s : Translator) : Option Translator :=
  parseWords (readWord line).1 (readWord (readWord line).2).1 line s

/-! ### Lines -/

/-- `output.push_back`, of a directive. -/
def Translator.putDirective (s : Translator) (name lccArg : Text) : Translator :=
  { s with output := s.output ++ [.directive name lccArg] }

/-- `genProcHeader`, of the rest of a line `proc`; a number that is not there is 0. -/
def procHeader (params : Text) (s : Translator) : Translator :=
  let (funcName, ss) := readWord params
  let (nLocals, ss) := (readInt ss).getD (0, [])
  let (nArgs, _) := (readInt ss).getD (0, [])
  let s := { s.putDirective "label".toList funcName with nLocals := nLocals.toNat, nArgs := nArgs.toNat, cArg := 0 }
  s.put (genProcHeader s.nLocals s.nArgs)

/-- `parseDirective`, of every directive. -/
def parseDirectiveLine (line : Text) (s : Translator) : Option Translator :=
  let lccWord := (readWord line).1
  let lccArg := if lccWord.length = line.length then [] else line.drop (lccWord.length + 1)
  if lccWord = "proc".toList then some (procHeader lccArg (s.putDirective lccWord lccArg))
  else if lccWord = "endproc".toList then some ((s.put genProcEnding).putDirective lccWord lccArg)
  else if lccWord = "asm".toList then some (s.putDirective lccWord lccArg)
  else (parseDirective line).map fun directive => s.putDirective directive.1 directive.2

namespace Translator

/-- `parseLine` -/
def parseLine (line : Text) (s : Translator) : Option Translator :=
  match line with
  | [] => parseOp [] s
  | c :: rest => if 'a' ≤ c ∧ c ≤ 'z' then parseDirectiveLine (c :: rest) s else parseOp (c :: rest) s

/-- The loop of `main`. -/
def parseLines : List Text → Translator → Option Translator
  | [], s => some s
  | line :: lines, s => if line = [] then some s else (parseLine line s).bind (parseLines lines)

theorem parseLines_append {lines more : List Text} (ne : ∀ line ∈ lines, line ≠ []) (s : Translator) :
    parseLines (lines ++ more) s = (parseLines lines s).bind (parseLines more) := by
  induction lines generalizing s with
  | nil => rfl
  | cons line lines ih =>
    have here := ne line List.mem_cons_self
    show (if line = [] then some s else (parseLine line s).bind (parseLines (lines ++ more))) =
      (if line = [] then some s else (parseLine line s).bind (parseLines lines)).bind (parseLines more)
    rw [if_neg here, if_neg here, Option.bind_assoc]
    exact congrArg _ (funext (ih fun line mem => ne line (List.mem_cons_of_mem _ mem)))

theorem parseLines_single {line : Text} {s u : Translator} (ne : line ≠ []) (is : parseLine line s = some u) :
    parseLines [line] s = some u := by
  show (if line = [] then some s else (parseLine line s).bind _) = _
  rw [if_neg ne, is]
  rfl

/-- One more line. -/
theorem parseLines_concat {lines : List Text} {line : Text} {s t u : Translator} (ne : ∀ line ∈ lines, line ≠ [])
    (last : line ≠ []) (first : parseLines lines s = some t) (second : parseLine line t = some u) :
    parseLines (lines ++ [line]) s = some u := by
  rw [parseLines_append ne, first]
  show (if line = [] then _ else (parseLine line t).bind _) = _
  rw [if_neg last, second]
  rfl

theorem put_put (s : Translator) (first second : List RcEntry) :
    (s.put first).put second = s.put (first ++ second) := by
  unfold put
  rw [List.map_append, List.append_assoc]

end Translator

end RlCpu.Binutils
