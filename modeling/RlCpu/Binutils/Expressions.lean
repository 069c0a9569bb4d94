/-
**Integer expressions (`dumptree` of `xbytecode.c` and `parseOp` of `trans2.cpp`).**

`Expr n` is a tree of integer operators with a value of `n` words. `Expr.lines` is what the compiler puts out for it, and
`Expr.code` what the translator makes of the lines. `Expr.eval` is its value by a meaning of the operators: `target` is
that of the code, where a conversion to two words puts a zero above the word and a shift to the right is a logical one;
`language` is that of C, where both go by the sign.

* `Expr.eval_language`: the two agree where no negative number is widened or shifted to the right.
* `Expr.parsed`: the translator puts out the code of the tree.
* `Expr.code_spec`: where the code of a word ends in a constant, which a shift takes back, it is that constant alone.
-/

import RlCpu.Binutils.Entries
import RlCpu.Binutils.MulShift

namespace RlCpu.Binutils

open RlCpu.Kernel RlCpu.Lib RlCpu.Sim

/-! ### Trees -/

/-- The size of a value, in words. -/
inductive Size
  | one
  | two
  deriving DecidableEq, Repr

namespace Size

def words : Size → Nat
  | .one => 1
  | .two => 2

def bits : Size → Nat
  | .one => 16
  | .two => 32

/-- The character of a size. -/
def char : Size → Char
  | .one => '1'
  | .two => '2'

/-- The words of a value, the one on top first. -/
def wordsOf : (n : Size) → BitVec n.bits → List Word
  | .one, a => [a]
  | .two, a => double a

/-- The value of words of an area. -/
def fetch (env : Nat → Word) (offset : Nat) : (n : Size) → BitVec n.bits
  | .one => env offset
  | .two => env (offset + 1) ++ env offset

end Size

/-- Signed or unsigned. -/
inductive Ty
  | signed
  | unsigned
  deriving DecidableEq, Repr

namespace Ty

def char : Ty → Char
  | .signed => 'I'
  | .unsigned => 'U'

/-- What the compiler prints of a constant. -/
def text : Ty → BitVec 32 → Text
  | .signed, c => intText c.toInt
  | .unsigned, c => natText c.toNat

end Ty

/-- Operators of two operands of a size. -/
inductive BinOp
  | add | sub | band | bor | bxor | mul
  deriving DecidableEq, Repr

/-- The words of a procedure that have a name: its locals and its parameters. -/
inductive Area
  | locals
  | params
  deriving DecidableEq, Repr

/-- **An integer expression** of a size. A variable is the offset of its first word. -/
inductive Expr : Size → Type
  | cnst (n : Size) (t : Ty) (c : BitVec 32) : Expr n
  | var (n : Size) (t : Ty) (area : Area) (offset : Nat) : Expr n
  | neg {n : Size} (t : Ty) (a : Expr n) : Expr n
  | bcom {n : Size} (t : Ty) (a : Expr n) : Expr n
  | bin {n : Size} (op : BinOp) (t : Ty) (a b : Expr n) : Expr n
  | shift {n : Size} (left : Bool) (t : Ty) (a : Expr n) (count : Expr .one) : Expr n
  | convert {m : Size} (n : Size) (source result : Ty) (a : Expr m) : Expr n

/-! ### Values -/

/-- What conversions to more words, shifts to the right and comparisons of signed double words mean. -/
structure Meaning where
  widen : Ty → (m n : Size) → BitVec m.bits → BitVec n.bits
  right : Ty → (n : Size) → BitVec n.bits → Nat → BitVec n.bits
  order : Order → BitVec 32 → BitVec 32 → Bool

/-- The meaning that the code has. -/
def Meaning.target : Meaning where
  widen _ _ n a := a.setWidth n.bits
  right _ _ a count := a >>> count
  order c a b := c.signedCode (high a) (low a) (high b) (low b)

/-- The meaning that C gives. -/
def Meaning.language : Meaning where
  widen source _ n a := match source with
    | .signed => a.signExtend n.bits
    | .unsigned => a.setWidth n.bits
  right t _ a count := match t with
    | .signed => a.sshiftRight count
    | .unsigned => a >>> count
  order c a b := c.holds a.toInt b.toInt

def BinOp.eval {w : Nat} : BinOp → BitVec w → BitVec w → BitVec w
  | .add, a, b => a + b
  | .sub, a, b => a - b
  | .band, a, b => a &&& b
  | .bor, a, b => a ||| b
  | .bxor, a, b => a ^^^ b
  | .mul, a, b => a * b

namespace Expr

/-- The value of an expression, with the words `env` in the variables. -/
def eval (M : Meaning) (env : Area → Nat → Word) : {n : Size} → Expr n → BitVec n.bits
  | _, .cnst n _ c => c.setWidth n.bits
  | _, .var n _ area offset => n.fetch (env area) offset
  | _, .neg _ a => -a.eval M env
  | _, .bcom _ a => ~~~a.eval M env
  | _, .bin op _ a b => op.eval (a.eval M env) (b.eval M env)
  | n, .shift left t a count =>
      if left then a.eval M env <<< (count.eval M env).toNat else M.right t n (a.eval M env) (count.eval M env).toNat
  | _, .convert (m := m) n source _ a => M.widen source m n (a.eval M env)

/-- No negative number is widened or shifted to the right. -/
def NonNegative (env : Area → Nat → Word) : {n : Size} → Expr n → Prop
  | _, .cnst _ _ _ => True
  | _, .var _ _ _ _ => True
  | _, .neg _ a => a.NonNegative env
  | _, .bcom _ a => a.NonNegative env
  | _, .bin _ _ a b => a.NonNegative env ∧ b.NonNegative env
  | _, .shift left t a count => a.NonNegative env ∧ count.NonNegative env ∧
      (left = false → t = .signed → (a.eval .language env).msb = false)
  | _, .convert (m := m) n source _ a => a.NonNegative env ∧
      (m.words < n.words → source = .signed → (a.eval .language env).msb = false)

/-- The words of the variables. -/
def vars : {n : Size} → Expr n → List (Area × Nat)
  | _, .cnst _ _ _ => []
  | _, .var n _ area offset => (List.range n.words).map fun j => (area, offset + j)
  | _, .neg _ a => a.vars
  | _, .bcom _ a => a.vars
  | _, .bin _ _ a b => a.vars ++ b.vars
  | _, .shift _ _ a count => a.vars ++ count.vars
  | _, .convert _ _ _ a => a.vars

/-- The words that wait below the operand that is computed. -/
def height : {n : Size} → Expr n → Nat
  | _, .cnst _ _ _ => 0
  | _, .var _ _ _ _ => 0
  | _, .neg _ a => a.height
  | _, .bcom _ a => a.height
  | n, .bin _ _ a b => max a.height (n.words + b.height)
  | n, .shift _ _ a count => max a.height (n.words + count.height)
  | _, .convert _ _ _ a => a.height

end Expr

/-- **Without negative numbers where the sign counts, the code means what C does.** By induction on the expression. -/
theorem Expr.eval_language (env : Area → Nat → Word) {n : Size} (e : Expr n) (plain : e.NonNegative env) :
    e.eval .target env = e.eval .language env := by
  induction e with
  | cnst => rfl
  | var => rfl
  | neg t a ih => exact congrArg (- ·) (ih plain)
  | bcom t a ih => exact congrArg (~~~ ·) (ih plain)
  | bin op t a b iha ihb => exact congrArg₂ op.eval (iha plain.1) (ihb plain.2)
  | shift left t a count iha ihc =>
    obtain ⟨plainA, plainC, sign⟩ := plain
    simp only [eval]
    rw [iha plainA, ihc plainC]
    cases left with
    | true => rfl
    | false =>
      cases t with
      | unsigned => rfl
      | signed => exact (BitVec.sshiftRight_eq_of_msb_false (sign rfl rfl)).symm
  | @convert m n source result a ih =>
    obtain ⟨plainA, sign⟩ := plain
    simp only [eval]
    rw [ih plainA]
    cases source with
    | unsigned => rfl
    | signed =>
      show (a.eval .language env).setWidth n.bits = (a.eval .language env).signExtend n.bits
      cases m <;> cases n
      · exact (BitVec.signExtend_eq_setWidth_of_le _ (le_refl 16)).symm
      · exact (BitVec.signExtend_eq_setWidth_of_msb_false (sign (by decide) rfl)).symm
      · exact (BitVec.signExtend_eq_setWidth_of_le _ (by decide : 16 ≤ 32)).symm
      · exact (BitVec.signExtend_eq_setWidth_of_le _ (le_refl 32)).symm

/-! ### Lines and code -/

/-- The operator of the compiler. -/
def BinOp.lcc : BinOp → LccOp
  | .add => .add
  | .sub => .sub
  | .band => .band
  | .bor => .bor
  | .bxor => .bxor
  | .mul => .mul

/-- The operator of the target. -/
def BinOp.rc : BinOp → Rc
  | .add => .add
  | .sub => .sub
  | .band => .band
  | .bor => .bor
  | .bxor => .bxor
  | .mul => .nop

/-- The name of an operator with its type and its size. -/
def opname (op : LccOp) (t : Ty) (n : Size) : Text := op.name ++ [t.char, n.char]

/-- The operator of a shift. -/
def shiftOp (left : Bool) : LccOp := if left then .lsh else .rsh

/-- The shift by one. -/
def shiftRc (left : Bool) : Rc := if left then .lsh else .rsh

/-- The operator of a conversion. -/
def convertOp : Ty → LccOp
  | .signed => .cvi
  | .unsigned => .cvu

/-- The line of the address of a variable. -/
def Area.line (area : Area) (offset : Nat) : Text :=
  match area with
  | .locals => "ADDRLP1 ".toList ++ natText offset
  | .params => "ADDRFP1 ".toList ++ natText offset

/-- The address of a variable, in a procedure with `nArgs` words for the arguments of its calls. -/
def Area.entry (nArgs : Nat) (area : Area) (offset : Nat) : RcEntry :=
  match area with
  | .locals => addrlEntry nArgs (natText offset)
  | .params => addrfEntry (natText offset)

/-- What `parseOp` puts out for an operator of two operands. -/
def BinOp.entries (op : BinOp) (t : Ty) (n : Size) : List RcEntry :=
  match op with
  | .mul => (genBuiltinSized (opname .mul t n) n.words).getD []
  | op => (sizedEntry op.rc n.words).toList

namespace Expr

/-- `dumptree` -/
def lines : {n : Size} → Expr n → List Text
  | _, .cnst n t c => [opname .cnst t n ++ ' ' :: t.text c]
  | _, .var n t area offset => [area.line offset, opname .indir t n]
  | n, .neg t a => a.lines ++ [opname .neg t n]
  | n, .bcom t a => a.lines ++ [opname .bcom t n]
  | n, .bin op t a b => a.lines ++ b.lines ++ [opname op.lcc t n]
  | n, .shift left t a count => a.lines ++ count.lines ++ [opname (shiftOp left) t n]
  | _, .convert (m := m) n source result a => a.lines ++ [opname (convertOp source) result n ++ [' ', m.char]]

/-- The code of an expression, in a procedure with `nArgs` words for the arguments of its calls. -/
def code (nArgs : Nat) : {n : Size} → Expr n → List RcEntry
  | _, .cnst n t c => (List.range n.words).map (cnstEntry (atol (t.text c)))
  | _, .var n _ area offset => area.entry nArgs offset :: (indirEntry n.words).toList
  | n, .neg _ a => a.code nArgs ++ (negEntries n.words).getD []
  | n, .bcom _ a => a.code nArgs ++ (bcomEntries n.words).getD []
  | n, .bin op t a b => a.code nArgs ++ b.code nArgs ++ op.entries t n
  | n, .shift left t a count =>
      parseShift (shiftRc left) (opname (shiftOp left) t n) n.words (a.code nArgs ++ count.code nArgs)
  | _, .convert (m := m) n _ _ a => a.code nArgs ++ convertEntries m.words n.words

end Expr

/-! ### Shifts -/

section ParseShift

variable {name : Rc} {line : Text} {opSize : Nat}

theorem parseShift_append (before : List RcEntry) {entries : List RcEntry} (ne : entries ≠ []) :
    parseShift name line opSize (before ++ entries) = before ++ parseShift name line opSize entries := by
  obtain ⟨init, back, rfl⟩ := List.eq_nil_or_concat entries |>.resolve_left ne
  rw [List.concat_eq_append] at *
  unfold parseShift
  rw [← List.append_assoc, List.getLast?_concat, List.getLast?_concat, List.dropLast_concat, List.dropLast_concat]
  show (if opSize = 1 ∧ back.name = .cnst then _ else _) = before ++ (if opSize = 1 ∧ back.name = .cnst then _ else _)
  split
  · rw [List.append_assoc]
  · rw [List.append_assoc, List.append_assoc, List.append_assoc]

/-- An operation that is no constant on top of the output: the routine is called. -/
theorem parseShift_builtin {entries : List RcEntry}
    (other : opSize = 1 → ∀ back, entries.getLast? = some back → back.name ≠ .cnst) :
    parseShift name line opSize entries = entries ++ genBuiltin line := by
  unfold parseShift
  split
  case h_1 back last =>
    rw [if_neg fun is => other is.1 back last is.2]
  case h_2 => rfl

/-- A shift by a constant that stands alone. -/
theorem parseShift_number (n : Nat) {argType : ArgRc} :
    parseShift name line 1 [rcEntry .cnst (natText n) .word argType] = List.replicate n (rcEntry name [] .word .none) := by
  show [] ++ List.replicate (atoi (natText n)).toNat (rcEntry name [] .word .none) = _
  rw [atoi_natText, Int.toNat_natCast, List.nil_append]

/-- What `LSH` and `RSH` do to the output. -/
theorem shiftLines_append (out : List OutLine) {entries : List RcEntry} (ne : entries ≠ []) :
    shiftLines name line opSize (out ++ entries.map .op) = out ++ (parseShift name line opSize entries).map .op := by
  obtain ⟨init, back, rfl⟩ := List.eq_nil_or_concat entries |>.resolve_left ne
  rw [List.concat_eq_append, parseShift_append init (List.cons_ne_nil back []), List.map_append, List.map_append,
    ← List.append_assoc, show [back].map OutLine.op = [.op back] from rfl]
  unfold shiftLines
  rw [List.getLast?_concat, List.dropLast_concat]
  exact List.append_assoc _ _ _

end ParseShift

/-! ### The translator on the lines -/

theorem noBlanks {text : Text} (all : text.all (fun c => !isSpace c) = true) : ∀ c ∈ text, isSpace c = false := by
  intro c mem
  have no := List.all_eq_true.mp all c mem
  rwa [Bool.not_eq_true'] at no

theorem readWord_append {word rest : Text} (plain : ∀ c ∈ word, isSpace c = false) (ne : word ≠ [])
    (ends : ∀ c ∈ rest.head?, isSpace c = true) : readWord (word ++ rest) = (word, rest) := by
  obtain ⟨c, word, rfl⟩ := List.exists_cons_of_ne_nil ne
  have skip : skipSpace (c :: word ++ rest) = c :: word ++ rest :=
    List.dropWhile_cons_of_neg (by rw [plain c List.mem_cons_self]; decide)
  have stop : rest.takeWhile (fun c => !isSpace c) = [] ∧ rest.dropWhile (fun c => !isSpace c) = rest := by
    cases rest with
    | nil => exact ⟨rfl, rfl⟩
    | cons d rest =>
      have blank := ends d rfl
      simp [blank]
  have all : ∀ d ∈ c :: word, (!isSpace d) = true := fun d mem => by rw [plain d mem]; rfl
  unfold readWord
  rw [skip, List.takeWhile_append_of_pos all, List.dropWhile_append_of_pos all, stop.1, stop.2, List.append_nil]

theorem isSpace_digit {c : Char} (digit : c.isDigit = true) : isSpace c = false := by
  refine Bool.eq_false_iff.mpr fun blank => ?_
  have all : [' ', '\t', '\n', '\x0b', '\x0c', '\r'].all (fun d => !d.isDigit) = true := by decide
  have no := List.all_eq_true.mp all c (by simpa [isSpace] using blank)
  rw [digit] at no
  cases no

theorem readWord_blank (rest : Text) : readWord (' ' :: rest) = readWord rest := rfl

theorem readWord_natText (n : Nat) : (readWord (natText n)).1 = natText n := by
  have word : readWord (natText n ++ []) = _ := readWord_append
    (fun c mem => isSpace_digit ((natText_isNumber n).2 c mem)) (natText_isNumber n).1 fun c mem => nomatch mem
  rw [List.append_nil] at word
  rw [word]

theorem readWord_text (t : Ty) (c : BitVec 32) : (readWord (t.text c)).1 = t.text c := by
  cases t with
  | unsigned => exact readWord_natText c.toNat
  | signed =>
    show (readWord (intText c.toInt)).1 = intText c.toInt
    unfold intText
    split
    · have plain : ∀ d ∈ '-' :: natText c.toInt.natAbs, isSpace d = false := by
        intro d mem
        rcases List.mem_cons.mp mem with rfl | mem
        · decide
        · exact isSpace_digit ((natText_isNumber _).2 d mem)
      have word : readWord (('-' :: natText c.toInt.natAbs) ++ []) = _ :=
        readWord_append plain (List.cons_ne_nil _ _) fun c mem => nomatch mem
      rw [List.append_nil] at word
      rw [word]
    · exact readWord_natText _

section Lines

variable (s : Translator) (t : Ty) (n : Size)

theorem parseLine_cnst (c : BitVec 32) : Translator.parseLine (opname .cnst t n ++ ' ' :: t.text c) s =
    some (s.put ((List.range n.words).map (cnstEntry (atol (t.text c))))) := by
  have first : readWord (opname .cnst t n ++ ' ' :: t.text c) = (opname .cnst t n, ' ' :: t.text c) :=
    readWord_append (noBlanks (by cases t <;> cases n <;> decide)) (by cases t <;> cases n <;> decide) fun d mem => by
      obtain rfl := Option.some.inj mem
      decide
  have op : Translator.parseLine (opname .cnst t n ++ ' ' :: t.text c) s =
      parseOp (opname .cnst t n ++ ' ' :: t.text c) s := by cases t <;> cases n <;> rfl
  rw [op]
  unfold parseOp
  rw [first, readWord_blank, readWord_text]
  cases t <;> cases n <;> rfl

theorem parseLine_address (area : Area) (offset : Nat) :
    Translator.parseLine (area.line offset) s = some (s.put [area.entry s.nArgs offset]) := by
  have first : ∀ op : Text, (∀ c ∈ op, isSpace c = false) → op ≠ [] →
      readWord (op ++ ' ' :: natText offset) = (op, ' ' :: natText offset) := fun op plain ne =>
    readWord_append plain ne fun d is => by
      obtain rfl := Option.some.inj is
      decide
  cases area with
  | locals =>
    show parseOp ("ADDRLP1".toList ++ ' ' :: natText offset) s = _
    unfold parseOp
    rw [first _ (noBlanks (by decide)) (by decide), readWord_blank, readWord_natText]
    rfl
  | params =>
    show parseOp ("ADDRFP1".toList ++ ' ' :: natText offset) s = _
    unfold parseOp
    rw [first _ (noBlanks (by decide)) (by decide), readWord_blank, readWord_natText]
    rfl

theorem Area.line_ne_nil (area : Area) (offset : Nat) : area.line offset ≠ [] := by
  cases area <;> exact List.cons_ne_nil _ _

theorem parseLine_indir : Translator.parseLine (opname .indir t n) s = some (s.put (indirEntry n.words).toList) := by
  cases t <;> cases n <;> rfl

theorem parseLine_neg : Translator.parseLine (opname .neg t n) s = some (s.put ((negEntries n.words).getD [])) := by
  cases t <;> cases n <;> rfl

theorem parseLine_bcom : Translator.parseLine (opname .bcom t n) s = some (s.put ((bcomEntries n.words).getD [])) := by
  cases t <;> cases n <;> rfl

theorem parseLine_bin (op : BinOp) : Translator.parseLine (opname op.lcc t n) s = some (s.put (op.entries t n)) := by
  cases op <;> cases t <;> cases n <;> rfl

theorem parseLine_shift (left : Bool) : Translator.parseLine (opname (shiftOp left) t n) s =
    some { s with output := shiftLines (shiftRc left) (opname (shiftOp left) t n) n.words s.output } := by
  cases left <;> cases t <;> cases n <;> rfl

theorem parseLine_convert (source : Ty) (m : Size) : Translator.parseLine (opname (convertOp source) t n ++ [' ', m.char]) s =
    some (s.put (convertEntries m.words n.words)) := by
  cases source <;> cases t <;> cases n <;> cases m <;> rfl

end Lines

theorem opname_ne_nil (op : LccOp) (t : Ty) (n : Size) : opname op t n ≠ [] :=
  List.append_ne_nil_of_right_ne_nil _ (List.cons_ne_nil _ _)

theorem Expr.lines_ne_nil {n : Size} (e : Expr n) : ∀ line ∈ e.lines, line ≠ [] := by
  have last : ∀ {lines : List Text} (final : Text), (∀ line ∈ lines, line ≠ []) → final ≠ [] →
      ∀ line ∈ lines ++ [final], line ≠ [] := fun _ others ne =>
    List.forall_mem_append.mpr ⟨others, List.forall_mem_singleton.mpr ne⟩
  induction e with
  | cnst n t c =>
    exact List.forall_mem_singleton.mpr (List.append_ne_nil_of_left_ne_nil (opname_ne_nil _ _ _) _)
  | var n t area offset =>
    exact List.forall_mem_cons.mpr ⟨area.line_ne_nil offset, List.forall_mem_singleton.mpr (opname_ne_nil _ _ _)⟩
  | neg t a ih => exact last _ ih (opname_ne_nil _ _ _)
  | bcom t a ih => exact last _ ih (opname_ne_nil _ _ _)
  | bin op t a b iha ihb => exact last _ (List.forall_mem_append.mpr ⟨iha, ihb⟩) (opname_ne_nil _ _ _)
  | shift left t a count iha ihc => exact last _ (List.forall_mem_append.mpr ⟨iha, ihc⟩) (opname_ne_nil _ _ _)
  | convert n source result a ih =>
    exact last _ ih (List.append_ne_nil_of_left_ne_nil (opname_ne_nil _ _ _) _)

/-! ### Constants -/

theorem atoi_intText (z : Int) : atoi (intText z) = z := by
  unfold intText
  split
  · have whole := (takeWhile_number (natText_isNumber z.natAbs).2 (show EndsNumber [] from fun _ mem => nomatch mem)).1
    rw [List.append_nil] at whole
    show -(decimal ((natText z.natAbs).takeWhile Char.isDigit) : Int) = z
    rw [whole, decimal_natText]
    omega
  · rw [atoi_natText]
    omega

theorem atol_eq {text : Text} {z : Int} (is : atoi text = z) (low : -2 ^ 63 ≤ z) (high : z < 2 ^ 63) :
    atol text = BitVec.ofInt 64 z := by
  show BitVec.ofInt 64 (if 2 ^ 63 ≤ atoi text then 2 ^ 63 - 1 else if atoi text < -2 ^ 63 then -2 ^ 63 else atoi text) = _
  rw [is, if_neg (by omega), if_neg (by omega)]

/-- The words of a constant as the translator reads it. -/
theorem cnstWord_text (t : Ty) (c : BitVec 32) :
    cnstWord (atol (t.text c)) 0 = low c ∧ cnstWord (atol (t.text c)) 1 = high c := by
  have small := c.isLt
  have least := BitVec.le_toInt c
  have greatest := BitVec.toInt_lt (x := c)
  have value : atol (t.text c) = c.signExtend 64 ∨ atol (t.text c) = c.setWidth 64 := by
    cases t with
    | signed => exact Or.inl (atol_eq (atoi_intText _) (by omega) (by omega))
    | unsigned =>
      refine Or.inr ((atol_eq (atoi_natText _) (by omega) (by omega)).trans ?_)
      rw [BitVec.ofInt_natCast, BitVec.ofNat_toNat]
  have bits : ∀ i, i < 32 → (atol (t.text c)).getLsbD i = c.getLsbD i := by
    intro i inside
    have wide : i < 64 := by omega
    rcases value with value | value
    · rw [value, BitVec.getLsbD_signExtend, if_pos inside, decide_eq_true wide, Bool.true_and]
    · rw [value, BitVec.getLsbD_setWidth, decide_eq_true wide, Bool.true_and]
  unfold cnstWord low high
  constructor
  · apply BitVec.eq_of_getLsbD_eq
    intro i inside
    rw [BitVec.getLsbD_extractLsb', BitVec.getLsbD_setWidth, bits _ (by omega), Nat.mul_zero, Nat.zero_add]
  · apply BitVec.eq_of_getLsbD_eq
    intro i inside
    rw [BitVec.getLsbD_extractLsb', BitVec.getLsbD_setWidth, BitVec.getLsbD_ushiftRight, bits _ (by omega), Nat.mul_one]

/-- A constant of one word. -/
def numberEntry (w : Word) : RcEntry :=
  rcEntry .cnst (natText w.toNat) .word (if w.toNat ≤ 127 then .char else .word)

/-- The code of the word is the constant `w` alone. -/
def Expr.IsNumber (nArgs : Nat) {n : Size} (e : Expr n) (w : Word) : Prop :=
  e.code nArgs = [numberEntry w] ∧ ∀ env, n.wordsOf (e.eval .target env) = [w]

/-- **The last entry of the code**: if it is a constant, and the value has one word, the code is that constant. -/
def Expr.CodeSpec (nArgs : Nat) {n : Size} (e : Expr n) : Prop :=
  e.code nArgs ≠ [] ∧ ∀ back, n.words = 1 → (e.code nArgs).getLast? = some back → back.name = .cnst → ∃ w, e.IsNumber nArgs w

section CodeSpec

variable {nArgs : Nat} {n : Size}

/-- The code of a shift: shifts by one behind the code of the operand, or a call behind the code of both. -/
theorem Expr.code_shift (left : Bool) (t : Ty) (a : Expr n) {count : Expr .one} (spec : count.CodeSpec nArgs) :
    (n = .one ∧ ∃ w, count.IsNumber nArgs w ∧ (shift left t a count).code nArgs =
      a.code nArgs ++ List.replicate w.toNat (rcEntry (shiftRc left) [] .word .none)) ∨
    (shift left t a count).code nArgs = a.code nArgs ++ count.code nArgs ++ genBuiltin (opname (shiftOp left) t n) := by
  obtain ⟨ne, number⟩ := spec
  have made : (shift left t a count).code nArgs = a.code nArgs ++
      parseShift (shiftRc left) (opname (shiftOp left) t n) n.words (count.code nArgs) := parseShift_append _ ne
  by_cases constant : n = .one ∧ ∃ back, (count.code nArgs).getLast? = some back ∧ back.name = .cnst
  · obtain ⟨rfl, back, last, is⟩ := constant
    obtain ⟨w, is⟩ := number back rfl last is
    refine Or.inl ⟨rfl, w, is, ?_⟩
    rw [made, is.1]
    exact congrArg _ (parseShift_number w.toNat)
  · refine Or.inr ?_
    rw [made, parseShift_builtin, List.append_assoc]
    intro one back last is
    refine constant ⟨?_, back, last, is⟩
    cases n with
    | one => rfl
    | two => cases one

/-- Code that goes on with other entries. -/
theorem last_append {entries more : List RcEntry} {final back : RcEntry} (is : more.getLast? = some final)
    (other : final.name ≠ .cnst) (last : (entries ++ more).getLast? = some back) : back.name ≠ .cnst := by
  rw [List.getLast?_append, is] at last
  exact Option.some.inj last ▸ other

theorem Expr.CodeSpec.of_append {e : Expr n} (entries : List RcEntry) {more : List RcEntry}
    (is : e.code nArgs = entries ++ more) (ne : entries ≠ [])
    (final : n.words = 1 → ∃ back, more.getLast? = some back ∧ back.name ≠ .cnst) :
    e.CodeSpec nArgs := by
  refine ⟨is ▸ List.append_ne_nil_of_left_ne_nil ne _, fun back one last constant => ?_⟩
  obtain ⟨final, is', other⟩ := final one
  rw [is] at last
  exact absurd constant (last_append is' other last)

/-- The code of every expression. By induction on it; a shift by 0 and a conversion without words leave the code of the
operand. -/
theorem Expr.code_spec (nArgs : Nat) (e : Expr n) : e.CodeSpec nArgs := by
  induction e with
  | cnst n t c =>
    cases n with
    | two => exact ⟨List.cons_ne_nil _ _, fun back one => nomatch one⟩
    | one =>
      refine ⟨List.cons_ne_nil _ _, fun back _ _ _ => ⟨low c, ?_, fun env => rfl⟩⟩
      rw [← (cnstWord_text t c).1]
      rfl
  | var n t area offset =>
    refine .of_append [_] rfl (List.cons_ne_nil _ _) ?_
    cases n with
    | one => exact fun _ => ⟨_, rfl, by decide⟩
    | two => exact fun one => nomatch one
  | @neg n t a ih =>
    refine .of_append _ rfl ih.1 ?_
    cases n with
    | one => exact fun _ => ⟨_, rfl, by decide⟩
    | two => exact fun one => nomatch one
  | @bcom n t a ih =>
    refine .of_append _ rfl ih.1 ?_
    cases n with
    | one => exact fun _ => ⟨_, rfl, by decide⟩
    | two => exact fun one => nomatch one
  | @bin n op t a b iha ihb =>
    refine .of_append _ rfl (List.append_ne_nil_of_left_ne_nil iha.1 _) ?_
    cases n with
    | one => cases op <;> exact fun _ => ⟨_, rfl, fun same => nomatch same⟩
    | two => exact fun one => nomatch one
  | @shift n left t a count iha ihc =>
    rcases code_shift left t a ihc with ⟨rfl, w, ⟨-, value⟩, made⟩ | made
    · cases zero : w.toNat with
      | zero =>
        rw [zero, List.replicate_zero, List.append_nil] at made
        refine ⟨made ▸ iha.1, fun back one last constant => ?_⟩
        obtain ⟨v, same, is⟩ := iha.2 back one (made ▸ last) constant
        refine ⟨v, made.trans same, fun env => ?_⟩
        have none : (count.eval .target env).toNat = 0 := by
          rw [show count.eval .target env = w from (List.cons.inj (value env)).1]
          exact zero
        rw [← is env]
        show Size.wordsOf _ (if left then _ else _) = _
        rw [none]
        cases left with
        | true => exact congrArg _ (BitVec.shiftLeft_zero _)
        | false => exact congrArg _ (BitVec.ushiftRight_zero _)
      | succ k =>
        rw [zero, List.replicate_succ'] at made
        refine .of_append _ made iha.1 fun _ => ⟨_, List.getLast?_concat, ?_⟩
        cases left <;> decide
    · exact .of_append _ made (List.append_ne_nil_of_left_ne_nil iha.1 _) fun _ => ⟨_, rfl, fun same => nomatch same⟩
  | @convert m n source result a ih =>
    cases n with
    | two => exact ⟨List.append_ne_nil_of_left_ne_nil ih.1 _, fun back one => nomatch one⟩
    | one =>
      cases m with
      | two => exact .of_append _ rfl ih.1 fun _ => ⟨_, rfl, by decide⟩
      | one =>
        have same : (convert .one source result a).code nArgs = a.code nArgs := List.append_nil _
        refine ⟨same ▸ ih.1, fun back one last constant => ?_⟩
        obtain ⟨w, number, is⟩ := ih.2 back rfl (same ▸ last) constant
        refine ⟨w, same.trans number, fun env => ?_⟩
        rw [← is env]
        exact congrArg _ (BitVec.setWidth_eq _)

end CodeSpec

/-- **What the translator makes of an expression.** By induction on it. -/
theorem Expr.parsed {n : Size} (e : Expr n) (s : Translator) :
    Translator.parseLines e.lines s = some (s.put (e.code s.nArgs)) := by
  induction e generalizing s with
  | cnst n t c =>
    exact Translator.parseLines_single (List.append_ne_nil_of_left_ne_nil (opname_ne_nil _ _ _) _) (parseLine_cnst s t n c)
  | var n t area offset =>
    have address := area.line_ne_nil offset
    exact Translator.parseLines_concat (List.forall_mem_singleton.mpr address) (opname_ne_nil _ _ _)
      (Translator.parseLines_single address (parseLine_address s area offset))
      ((parseLine_indir _ t n).trans (by rw [s.put_put]; rfl))
  | neg t a ih =>
    exact Translator.parseLines_concat a.lines_ne_nil (opname_ne_nil _ _ _) (ih s)
      ((parseLine_neg _ t _).trans (by rw [s.put_put]; rfl))
  | bcom t a ih =>
    exact Translator.parseLines_concat a.lines_ne_nil (opname_ne_nil _ _ _) (ih s)
      ((parseLine_bcom _ t _).trans (by rw [s.put_put]; rfl))
  | bin op t a b iha ihb =>
    have operands : Translator.parseLines (a.lines ++ b.lines) s = some (s.put (a.code s.nArgs ++ b.code s.nArgs)) := by
      rw [Translator.parseLines_append a.lines_ne_nil, iha, Option.bind_some, ihb, s.put_put]
      rfl
    exact Translator.parseLines_concat (List.forall_mem_append.mpr ⟨a.lines_ne_nil, b.lines_ne_nil⟩)
      (opname_ne_nil _ _ _) operands ((parseLine_bin _ t _ op).trans (by rw [s.put_put]; rfl))
  | @shift n left t a count iha ihc =>
    have operands : Translator.parseLines (a.lines ++ count.lines) s =
        some (s.put (a.code s.nArgs ++ count.code s.nArgs)) := by
      rw [Translator.parseLines_append a.lines_ne_nil, iha, Option.bind_some, ihc, s.put_put]
      rfl
    refine Translator.parseLines_concat (List.forall_mem_append.mpr ⟨a.lines_ne_nil, count.lines_ne_nil⟩)
      (opname_ne_nil _ _ _) operands ((parseLine_shift _ t n left).trans ?_)
    have ne : a.code s.nArgs ++ count.code s.nArgs ≠ [] := List.append_ne_nil_of_left_ne_nil (a.code_spec s.nArgs).1 _
    show some { s with output := shiftLines _ _ _ (s.output ++ _) } = _
    rw [shiftLines_append s.output ne]
    rfl
  | convert n source result a ih =>
    exact Translator.parseLines_concat a.lines_ne_nil (List.append_ne_nil_of_left_ne_nil (opname_ne_nil _ _ _) _) (ih s)
      ((parseLine_convert _ result n source _).trans (by rw [s.put_put]; rfl))

end RlCpu.Binutils
