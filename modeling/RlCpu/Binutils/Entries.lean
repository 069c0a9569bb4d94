/-
**Code of entries, on a stack of known words.**

`linked addr entries` is the code of entries, with the labels at `addr`. `Takes D P addr size entries m m'`: wherever the
code of the entries stands, the processor comes from its start with the stack `m` to its end with the stack `m'`, in
any window of `size` words and with the routines of `P` in their place.

* `Takes.append`: entries one after the other.
* `Takes.val`, `Takes.addrl`, `Takes.call`: the entries that `parseOp` puts out.
* `evaluateExpr_natText`: the assembler reads back a number that the translator has printed.
-/

import RlCpu.Binutils.ParseOp

namespace RlCpu.Binutils

open RlCpu.Kernel RlCpu.Lib RlCpu.Lib.Abort RlCpu.Sim Relation

/-! ### Numbers that are printed and read back -/

theorem digitValue_digit {c : Char} (digit : c.isDigit = true) : digitValue c = c.toNat - '0'.toNat ∧ digitValue c < 10 := by
  have value : digitValue c = c.toNat - '0'.toNat := if_pos digit
  refine ⟨value, ?_⟩
  rw [value]
  have range : '0'.toNat ≤ c.toNat ∧ c.toNat ≤ '9'.toNat := by
    simpa [Char.isDigit, Char.le_def, UInt32.le_iff_toNat_le] using digit
  have nine : '9'.toNat = 57 := rfl
  have zero : '0'.toNat = 48 := rfl
  omega

/-- A text of digits, read in base 10. -/
theorem digitsOf_ten {digits : Text} (number : ∀ c ∈ digits, c.isDigit = true) :
    digitsOf 10 digits = ((decimal digits : Int), []) := by
  have all : digits.takeWhile (fun c => digitValue c < 10) = digits :=
    List.takeWhile_eq_self_iff.mpr fun c mem => by simpa using (digitValue_digit (number c mem)).2
  have none : digits.dropWhile (fun c => digitValue c < 10) = [] :=
    List.dropWhile_eq_nil_iff.mpr fun c mem => by simpa using (digitValue_digit (number c mem)).2
  have value : ∀ (digits : Text) (n : Nat), (∀ c ∈ digits, c.isDigit = true) →
      digits.foldl (fun n c => n * 10 + digitValue c) n = Nat.ofDigitChars 10 digits n := by
    intro digits
    induction digits with
    | nil => exact fun n _ => rfl
    | cons c rest ih =>
      intro n number
      rw [List.foldl_cons, ih _ fun c mem => number c (List.mem_cons_of_mem _ mem), Nat.ofDigitChars_cons,
        (digitValue_digit (number c List.mem_cons_self)).1, Nat.mul_comm n 10]
  unfold digitsOf
  rw [all, none]
  exact congrArg (fun n : Nat => ((n : Int), [])) (value digits 0 number)

/-- A printed number does not start with a 0, but for the number 0. -/
theorem natText_head (n : Nat) : n = 0 ∨ ∃ c rest, natText n = c :: rest ∧ c ≠ '0' := by
  induction n using Nat.strong_induction_on with
  | _ n ih =>
    by_cases small : n < 10
    · by_cases zero : n = 0
      · exact Or.inl zero
      · refine Or.inr ⟨n.digitChar, [], Nat.toDigits_of_lt_base small, ?_⟩
        have all : ∀ n : Fin 10, n.val ≠ 0 → n.val.digitChar ≠ '0' := by decide
        exact all ⟨n, small⟩ zero
    · have wide : 10 ≤ n := Nat.le_of_not_lt small
      rcases ih (n / 10) (Nat.div_lt_self (by omega) (by decide)) with zero | ⟨c, rest, text, ne⟩
      · omega
      · refine Or.inr ⟨c, rest ++ [(n % 10).digitChar], ?_, ne⟩
        have split : natText n = natText (n / 10) ++ [(n % 10).digitChar] :=
          Nat.toDigits_of_base_le (by decide) wide
        rw [split, text, List.cons_append]

theorem unsignedOf_natText (n : Nat) : unsignedOf (natText n) = ((n : Int), []) := by
  rcases natText_head n with rfl | ⟨c, rest, text, ne⟩
  · rfl
  · have number := (natText_isNumber n).2
    have whole := digitsOf_ten number
    rw [decimal_natText] at whole
    rw [text] at whole ⊢
    unfold unsignedOf
    split
    case h_1 is => exact absurd (List.cons.inj is).1 ne
    case h_2 is => exact absurd (List.cons.inj is).1 ne
    case h_3 is => exact absurd (List.cons.inj is).1 ne
    case h_4 => exact whole

/-- **The assembler reads a printed number back.** -/
theorem evaluateExpr_natText (n : Nat) : evaluateExpr (natText n) = some (n : Int) := by
  have read : strtol (natText n) = ((n : Int), []) := by
    obtain ⟨c, rest, text, digit⟩ := (natText_isNumber n).cons
    have plain := unsignedOf_natText n
    rw [text] at plain ⊢
    unfold strtol
    split
    case h_1 is => exact absurd ((List.cons.inj is).1 ▸ digit) (by decide)
    case h_2 is => exact absurd ((List.cons.inj is).1 ▸ digit) (by decide)
    case h_3 => exact plain
  unfold evaluateExpr evaluateLoop
  rw [read]
  exact congrArg some (Int.zero_add _)

theorem isNumeric_natText (n : Nat) : isNumeric (natText n) = true := by
  obtain ⟨c, rest, text, digit⟩ := (natText_isNumber n).cons
  rw [text]
  show (c.isDigit || _) = true
  rw [digit, Bool.true_or]

/-! ### Code -/

/-- The code of entries, with the labels at `addr`. -/
def linked (addr : Text → Word) : List RcEntry → Option (List Word)
  | [] => some []
  | entry :: entries => do
    let ws ← entry.assemble
    let rest ← linked addr entries
    return ws.map (AsmWord.value addr) ++ rest

theorem linked_append {addr : Text → Word} {first second : List RcEntry} {ws : List Word}
    (is : linked addr (first ++ second) = some ws) :
    ∃ vs us, linked addr first = some vs ∧ linked addr second = some us ∧ ws = vs ++ us := by
  induction first generalizing ws with
  | nil => exact ⟨[], ws, rfl, is, rfl⟩
  | cons entry entries ih =>
    obtain ⟨here, assembled, rest⟩ := Option.bind_eq_some_iff.mp is
    obtain ⟨words, is, whole⟩ := Option.bind_eq_some_iff.mp rest
    obtain ⟨vs, us, first, second, rfl⟩ := ih is
    refine ⟨here.map (AsmWord.value addr) ++ vs, us, ?_, second, ?_⟩
    · show (entry.assemble.bind fun ws => (linked addr entries).bind fun rest =>
        some (ws.map (AsmWord.value addr) ++ rest)) = _
      rw [assembled, Option.bind_some, first, Option.bind_some]
    · rw [List.append_assoc]
      exact (Option.some.inj whole).symm

theorem linked_single {addr : Text → Word} {entry : RcEntry} {ws : List Word} (is : linked addr [entry] = some ws) :
    ∃ here, entry.assemble = some here ∧ ws = here.map (AsmWord.value addr) := by
  obtain ⟨here, assembled, rest⟩ := Option.bind_eq_some_iff.mp is
  refine ⟨here, assembled, ?_⟩
  have whole : some (here.map (AsmWord.value addr) ++ []) = some ws := rest
  rw [List.append_nil] at whole
  exact (Option.some.inj whole).symm

variable {ι : Type} (D : Devices ι) (P : Image MathLabel) (addr : Text → Word) (size : Nat)

/-- **The code of the entries takes the stack `m` to `m'`.** -/
def Takes (entries : List RcEntry) (m m' : Mach) : Prop :=
  ∀ g : Window ι, size ≤ g.size → P.Loaded g → ∀ ws, linked addr entries = some ws → ∀ pc,
    pc + ws.length < 0x80000 → CodeAt g P.inside pc ws → ∀ t, At g pc m t →
      ∃ u, ReflTransGen (StepIn D P.inside) t u ∧ At g (pc + ws.length) m' u

variable {D P addr size} {first second : List RcEntry} {entry : RcEntry} {m m' m'' : Mach}

theorem Takes.nil (m : Mach) : Takes D P addr size [] m m := by
  rintro g - - ws is pc - - t here
  obtain rfl := Option.some.inj is
  exact ⟨t, .refl, here⟩

theorem Takes.append (left : Takes D P addr size first m m') (right : Takes D P addr size second m' m'') :
    Takes D P addr size (first ++ second) m m'' := by
  rintro g fits loaded ws is pc low code t here
  obtain ⟨vs, us, isFirst, isSecond, rfl⟩ := linked_append is
  rw [List.length_append] at low ⊢
  obtain ⟨u, steps, there⟩ := left g fits loaded vs isFirst pc (by omega) code.left t here
  obtain ⟨v, more, last⟩ := right g fits loaded us isSecond (pc + vs.length) (by omega) code.right u there
  refine ⟨v, steps.trans more, ?_⟩
  rw [← Nat.add_assoc]
  exact last

/-- An entry that is one instruction. -/
theorem Takes.single (does : ∀ g : Window ι, size ≤ g.size → P.Loaded g → ∀ here, entry.assemble = some here → ∀ pc,
    pc + here.length < 0x80000 → CodeAt g P.inside pc (here.map (AsmWord.value addr)) → ∀ t, At g pc m t →
      ∃ u, ReflTransGen (StepIn D P.inside) t u ∧ At g (pc + here.length) m' u) : Takes D P addr size [entry] m m' := by
  rintro g fits loaded ws is pc low code t here
  obtain ⟨words, assembled, rfl⟩ := linked_single is
  rw [List.length_map] at low ⊢
  exact does g fits loaded words assembled pc low code t here

/-- **An entry that only works on the stack.** -/
theorem Takes.val {L : Type} {words : List AsmWord} (line : Instr L) (labels : L → Word)
    (assembled : entry.assemble = some words) (is : words.map (AsmWord.value addr) = line.words labels)
    (made : m.stepVal size line = some m') : Takes D P addr size [entry] m m' := by
  refine .single fun g fits _ here assembled' pc _ code t at' => ?_
  obtain rfl := Option.some.inj (assembled.symm.trans assembled')
  have length : words.length = line.size := by
    rw [← line.length_words labels, ← is, List.length_map]
  rw [is] at code
  rw [← List.append_nil (line.words labels)] at code
  obtain ⟨u, step, there⟩ := at'.stepVal (D := D) labels line fits code made
  exact ⟨u, .single step, length ▸ there⟩

theorem Takes.plain (op : Op) {name : Rc} {words : SizeRc} (is : (rcEntry name [] words .none).op = some op)
    (made : m.stepPlain size op = some m') : Takes D P addr size [rcEntry name [] words .none] m m' := by
  have assembled : (rcEntry name [] words .none).assemble = some [.num op.word] := by
    unfold RcEntry.assemble
    rw [is]
    rfl
  exact .val (L := MathLabel) (.plain op) P.addr assembled rfl made

section Operands

variable {op : Op} {n : Int}

theorem RcEntry.assemble_char (is : entry.op = some op) (char : entry.argType = .char)
    (numeric : isNumeric entry.arg = true) (number : evaluateExpr entry.arg = some n) :
    entry.assemble = some [.num (op.wordB (BitVec.ofInt 16 n))] := by
  unfold RcEntry.assemble
  rw [is, char]
  show (if isNumeric entry.arg then (evaluateExpr entry.arg).bind _ else none) = _
  rw [if_pos numeric, number]
  rfl

theorem RcEntry.assemble_word (is : entry.op = some op) (word : entry.argType = .word)
    (numeric : isNumeric entry.arg = true) (number : evaluateExpr entry.arg = some n) :
    entry.assemble = some [.num op.word, .num (BitVec.ofInt 16 n)] := by
  unfold RcEntry.assemble
  rw [is, word]
  show (if isNumeric entry.arg then (evaluateExpr entry.arg).bind _
    else some [AsmWord.num op.word, AsmWord.label entry.arg]) = _
  rw [if_pos numeric, number]
  rfl

variable (op n)

/-- An entry with a byte. -/
theorem Takes.byte (is : entry.op = some op) (char : entry.argType = .char) (numeric : isNumeric entry.arg = true)
    (number : evaluateExpr entry.arg = some n) (range : -128 ≤ n ∧ n < 128) (made : m.stepByte size n op = some m') :
    Takes D P addr size [entry] m m' :=
  .val (L := MathLabel) (.byte op n) P.addr (RcEntry.assemble_char is char numeric number) rfl
    (by simp only [Mach.stepVal]; rw [if_pos range, made])

/-- An entry with a word. -/
theorem Takes.word (is : entry.op = some op) (word : entry.argType = .word) (numeric : isNumeric entry.arg = true)
    (number : evaluateExpr entry.arg = some n)
    (does : ∀ g : Window ι, size ≤ g.size → ∀ pc t, At g pc m t → CodeAt g P.inside pc [BitVec.ofInt 16 n] →
      Does g (instruction (demuxOps D) op) t (pc + 1) m') : Takes D P addr size [entry] m m' := by
  refine .single fun g fits _ here assembled pc _ code t at' => ?_
  obtain rfl := Option.some.inj ((RcEntry.assemble_word is word numeric number).symm.trans assembled)
  obtain ⟨u, step, there⟩ := at'.step (D := D) code op.decode_word (does g fits _ _ (at'.fetched _) code.tail)
  exact ⟨u, .single step, there⟩

end Operands

/-! ### The entries of the translator -/

section Rules

variable {ap bp : Val} {ws : List Val} {i n : Nat}

theorem Mach.push_of_lt {v : Val} (room : ws.length < size) :
    Mach.push size ⟨ap, bp, ws⟩ v = some ⟨ap, bp, v :: ws⟩ := if_pos room

/-- `CNST` of one word. -/
theorem Takes.number (small : n < 0x10000) (room : ws.length < size) :
    Takes D P addr size [rcEntry .cnst (natText n) .word (if n ≤ 127 then .char else .word)] ⟨ap, bp, ws⟩
      ⟨ap, bp, .word (BitVec.ofNat 16 n) :: ws⟩ := by
  have pushed : Mach.push size ⟨ap, bp, ws⟩ (.word (BitVec.ofNat 16 n)) = _ := Mach.push_of_lt room
  by_cases char : n ≤ 127
  · rw [if_pos char]
    exact .byte .cnstB n rfl rfl (isNumeric_natText n) (evaluateExpr_natText n) (by omega)
      (by rw [Mach.stepByte, BitVec.ofInt_natCast]; exact pushed)
  · rw [if_neg char]
    refine .word .cnstW n rfl rfl (isNumeric_natText n) (evaluateExpr_natText n)
      fun g fits pc t here code => here.pushRegW fits code ?_
    rw [BitVec.ofInt_natCast]
    exact pushed

theorem Takes.cnst (val : BitVec 64) (room : ws.length < size) :
    Takes D P addr size [cnstEntry val i] ⟨ap, bp, ws⟩ ⟨ap, bp, .word (cnstWord val i) :: ws⟩ := by
  have number : Takes D P addr size [cnstEntry val i] ⟨ap, bp, ws⟩
      ⟨ap, bp, .word (BitVec.ofNat 16 (cnstWord val i).toNat) :: ws⟩ := .number (cnstWord val i).isLt room
  rw [BitVec.ofNat_toNat, BitVec.setWidth_eq] at number
  exact number

/-- The address of a parameter, by a byte. -/
theorem At.addrfB {g : Window ι} {pc : Nat} {t : Cpu (Demux ι)} (fits : size ≤ g.size) (room : ws.length < size)
    (here : At g pc ⟨.addr i, bp, ws⟩ t) (high : t.irHigh = BitVec.ofInt 16 (n : Int)) :
    Does g (instruction (demuxOps D) .addrfB) t pc ⟨.addr i, bp, .addr (i + n) :: ws⟩ := by
  have is : (Val.addr (i + n)).Is g.base (t.ap + t.irHigh) := by
    show t.ap + _ = g.base + _
    rw [show t.ap = g.base + BitVec.ofNat 16 i from here.ap, high, BitVec.ofInt_natCast, BitVec.add_assoc,
      ← BitVec.ofNat_add]
  exact here.pushReg (D := D) fits (f := fun k => k.ap + k.irHigh) is (Mach.push_of_lt room)

/-- The address of a parameter, by a word. -/
theorem At.addrfW {g : Window ι} {pc : Nat} {t : Cpu (Demux ι)} {inside : Nat → Prop} (fits : size ≤ g.size)
    (room : ws.length < size) (here : At g pc ⟨.addr i, bp, ws⟩ t) (code : CodeAt g inside pc [BitVec.ofInt 16 (n : Int)]) :
    Does g (instruction (demuxOps D) .addrfW) t (pc + 1) ⟨.addr i, bp, .addr (i + n) :: ws⟩ := by
  have is : (Val.addr (i + n)).Is g.base ((t.withPC (pc + 1)).ap + BitVec.ofInt 16 (n : Int)) := by
    show t.ap + _ = g.base + _
    rw [show t.ap = g.base + BitVec.ofNat 16 i from here.ap, BitVec.ofInt_natCast, BitVec.add_assoc, ← BitVec.ofNat_add]
  obtain ⟨u, run, done⟩ := (here.withPC (pc + 1)).pushReg (D := D) fits (f := fun k => k.ap + BitVec.ofInt 16 (n : Int)) is
    (Mach.push_of_lt room)
  refine ⟨u, ?_, done⟩
  show (Sim.pushRegW (demuxOps D) fun k tmp => k.ap + tmp).exec t = _
  unfold Sim.pushRegW
  rw [exec_bind_ok (here.exec_operand code), run]

/-- The address of a local word. -/
theorem At.addrlW {g : Window ι} {pc : Nat} {t : Cpu (Demux ι)} {inside : Nat → Prop} (fits : size ≤ g.size)
    (room : ws.length < size) (here : At g pc ⟨ap, .addr i, ws⟩ t) (code : CodeAt g inside pc [BitVec.ofInt 16 (n : Int)]) :
    Does g (instruction (demuxOps D) .addrlW) t (pc + 1) ⟨ap, .addr i, .addr (i + n) :: ws⟩ := by
  have is : (Val.addr (i + n)).Is g.base ((t.withPC (pc + 1)).bp + BitVec.ofInt 16 (n : Int)) := by
    show t.bp + _ = g.base + _
    rw [show t.bp = g.base + BitVec.ofNat 16 i from here.bp, BitVec.ofInt_natCast, BitVec.add_assoc, ← BitVec.ofNat_add]
  obtain ⟨u, run, done⟩ := (here.withPC (pc + 1)).pushReg (D := D) fits (f := fun k => k.bp + BitVec.ofInt 16 (n : Int)) is
    (Mach.push_of_lt room)
  refine ⟨u, ?_, done⟩
  show (Sim.pushRegW (demuxOps D) fun k tmp => k.bp + tmp).exec t = _
  unfold Sim.pushRegW
  rw [exec_bind_ok (here.exec_operand code), run]

/-- The class of a number. -/
theorem argClass_natText (n : Nat) : argClass (natText n) = (true, if n ≤ 127 then .char else .word) := by
  have value : atoi (natText n) = n := atoi_natText n
  have plain : '+' ∉ natText n := fun mem => absurd ((natText_isNumber n).2 _ mem) (by decide)
  obtain ⟨c, rest, text, digit⟩ := (natText_isNumber n).cons
  rw [text] at plain value ⊢
  simp only [argClass, digit, if_true, plain, not_false_eq_true, decide_true, value]
  by_cases char : n ≤ 127
  · rw [if_pos char, if_pos (by omega)]
  · rw [if_neg char, if_neg (by omega)]

/-- The entry of a local word is the same text in both sizes. -/
theorem addrlEntry_natText (nArgs offset : Nat) : addrlEntry nArgs (natText offset) =
    rcEntry .addrl (natText (nArgs + offset)) .word (if nArgs + offset ≤ 127 then .char else .word) := by
  have value : atoi (natText offset) = offset := atoi_natText offset
  have numeric : (argClass (natText offset)).1 = true := by rw [argClass_natText]
  have sum : ((offset : Int) + nArgs) = ((nArgs + offset : Nat) : Int) := by push_cast; omega
  unfold addrlEntry
  rw [if_pos numeric, value]
  show rcEntry .addrl (intText ((offset : Int) + nArgs)) .word (if (offset : Int) + nArgs ≤ 127 then .char else .word) = _
  rw [sum]
  unfold intText
  rw [if_neg (by omega), Int.natAbs_natCast]
  congr 1
  by_cases char : nArgs + offset ≤ 127
  · rw [if_pos char, if_pos (by omega)]
  · rw [if_neg char, if_neg (by omega)]

/-- `ADDRL` -/
theorem Takes.addrl (nArgs offset : Nat) (room : ws.length < size) :
    Takes D P addr size [addrlEntry nArgs (natText offset)] ⟨ap, .addr i, ws⟩
      ⟨ap, .addr i, .addr (i + (nArgs + offset)) :: ws⟩ := by
  rw [addrlEntry_natText]
  have pushed : Mach.push size ⟨ap, .addr i, ws⟩ (.addr (i + (nArgs + offset))) = _ := Mach.push_of_lt room
  by_cases char : nArgs + offset ≤ 127
  · rw [if_pos char]
    refine .byte .addrlB (nArgs + offset : Nat) rfl rfl (isNumeric_natText _) (evaluateExpr_natText _)
      (by omega) ?_
    have local' : (Val.addr i).offset ((nArgs + offset : Nat) : Int) = some (i + (nArgs + offset)) := by
      show (if 0 ≤ (i : Int) + (nArgs + offset : Nat) then some ((i : Int) + (nArgs + offset : Nat)).toNat else none) = _
      rw [if_pos (by omega)]
      congr 1
    simp only [Mach.stepByte]
    rw [local', Option.bind_some, pushed]
  · rw [if_neg char]
    exact .word .addrlW (nArgs + offset : Nat) rfl rfl (isNumeric_natText _) (evaluateExpr_natText _)
      fun g fits pc t here code => At.addrlW fits room here code

/-- `ADDRF` -/
theorem Takes.addrf (offset : Nat) (room : ws.length < size) :
    Takes D P addr size [addrfEntry (natText offset)] ⟨.addr i, bp, ws⟩ ⟨.addr i, bp, .addr (i + offset) :: ws⟩ := by
  have entry : addrfEntry (natText offset) =
      rcEntry .addrf (natText offset) .word (if offset ≤ 127 then .char else .word) := by
    unfold addrfEntry
    rw [argClass_natText]
  rw [entry]
  by_cases char : offset ≤ 127
  · rw [if_pos char]
    refine .single fun g fits _ here assembled pc _ code t at' => ?_
    obtain rfl := Option.some.inj ((RcEntry.assemble_char (show _ = some Op.addrfB from rfl) rfl (isNumeric_natText _)
      (evaluateExpr_natText _)).symm.trans assembled)
    have high : (t.fetched (Op.addrfB.wordB (BitVec.ofInt 16 (offset : Int)))).irHigh = BitVec.ofInt 16 (offset : Int) := by
      rw [irHigh_wordB _ .addrfB _ rfl, byteValue_ofInt (by omega) (by omega)]
    obtain ⟨u, step, there⟩ := at'.step (D := D) code (Op.decode_wordB _ _) (At.addrfB fits room (at'.fetched _) high)
    exact ⟨u, .single step, there⟩
  · rw [if_neg char]
    exact .word .addrfW offset rfl rfl (isNumeric_natText _) (evaluateExpr_natText _)
      fun g fits pc t here code => At.addrfW fits room here code

/-- `INDIR` of one word. -/
theorem Takes.indir {v : Val} (room : ws.length < size) (found : Mach.load ⟨ap, bp, ws⟩ i = some v) :
    Takes D P addr size [rcEntry .indir [] .word .none] ⟨ap, bp, .addr i :: ws⟩ ⟨ap, bp, v :: ws⟩ :=
  .plain .indir rfl (by
    show (Mach.load ⟨ap, bp, ws⟩ i).bind _ = _
    rw [found, Option.bind_some, Mach.push_of_lt room])

theorem Mach.load_cons_of_some {v w : Val} (found : Mach.load ⟨ap, bp, ws⟩ i = some v) :
    Mach.load ⟨ap, bp, w :: ws⟩ i = some v :=
  Mach.load_below (m := ⟨ap, bp, w :: ws⟩) rfl found

/-- `INDIR` of two words. -/
theorem Takes.indir2 {v w : Val} (room : ws.length + 1 < size) (found : Mach.load ⟨ap, bp, ws⟩ i = some v)
    (next : Mach.load ⟨ap, bp, ws⟩ (i + 1) = some w) :
    Takes D P addr size [rcEntry .indir [] .dword .none] ⟨ap, bp, .addr i :: ws⟩ ⟨ap, bp, w :: v :: ws⟩ :=
  .plain .indir2 rfl (by
    show (Mach.load ⟨ap, bp, ws⟩ i).bind _ = _
    rw [found, Option.bind_some, Mach.push_of_lt (Nat.lt_of_succ_lt room), Option.bind_some, Mach.load_cons_of_some next,
      Option.bind_some]
    exact Mach.push_of_lt room)

/-- `DISCARD` -/
theorem Takes.discard {top : List Val} (small : top.length < 127) (text : natText top.length = arg) :
    Takes D P addr size [rcEntry .discard arg .word .char] ⟨ap, bp, top ++ ws⟩ ⟨ap, bp, ws⟩ := by
  obtain rfl := text
  refine .byte .discardB top.length rfl rfl (isNumeric_natText _) (evaluateExpr_natText _) (by omega) ?_
  show (if 0 ≤ (top.length : Int) ∧ (top.length : Int).toNat ≤ (top ++ ws).length then _ else none) = _
  rw [if_pos ⟨by omega, by rw [List.length_append]; omega⟩, Int.toNat_natCast, List.drop_left]

/-- A call of a routine. -/
theorem Takes.call {need : Nat} {l : MathLabel} {args results : List Word} {text : Text}
    (serves : Serves D P need l args results) (name : addr text = P.addr l) (label : isNumeric text = false)
    (fits : need + ws.length ≤ size) :
    Takes D P addr size [rcEntry .call0 text .word .link] ⟨ap, bp, args.map .word ++ ws⟩
      ⟨ap, bp, results.map .word ++ ws⟩ := by
  have assembled : (rcEntry .call0 text .word .link).assemble = some [.num Op.call0W.word, .label text] := by
    show (if isNumeric text then (evaluateExpr text).bind _ else some [AsmWord.num _, AsmWord.label text]) = _
    rw [label]
    rfl
  refine .single fun g room loaded here is pc low code t at' => ?_
  obtain rfl := Option.some.inj (assembled.symm.trans is)
  change CodeAt g P.inside pc [Op.call0W.word, addr text] at code
  rw [name] at code
  obtain ⟨u, steps, there⟩ := serves.atCall at' code loaded (fits.trans room) low
  exact ⟨u, steps.to_reflTransGen, there⟩

end Rules

end RlCpu.Binutils
