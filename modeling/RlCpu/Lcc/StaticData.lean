/-
**Static data (`I(defconst)` of `xbytecode.c`, the translator and the assembler).**

The back end prints a constant as `byte`, its size and its number. The translator passes the line on. The
assembler takes the first number for a count: it puts out the second one, cut to a word, as often.

* `emit_defconst`: the words of a constant.
* `exec_indir`: `INDIR` pushes the words at an address in their order.
* `defconst_layout`: exactly which constants are read back.
-/

import RlCpu.Lcc.Simplify
import RlCpu.Binutils.ObjectFile
import RlCpu.Binutils.Assembler
import RlCpu.Sim.Interrupt

namespace RlCpu.Lcc

open RlCpu.Kernel RlCpu.Lib RlCpu.Lib.Abort RlCpu.Sim RlCpu.Binutils

/-! ### The back end -/

/-- The suffixes `I`, `U` and `P`. -/
inductive ConstSuffix
  | I
  | U
  | P
  deriving DecidableEq, Repr

/-- The number that `print` shows: `%D` and `%U` are of a `long`, `%d` and `%u` take an `int` off it. -/
def shown (suffix : ConstSuffix) (size : Nat) (v : Long) : Int :=
  match suffix with
  | .I => if size > 4 then v.toInt else (v.setWidth 32).toInt
  | .U => if size > 4 then v.toNat else (v.setWidth 32).toNat
  | .P => v.toNat

/-- `I(defconst)`: the line it prints. -/
def defconst (suffix : ConstSuffix) (size : Nat) (v : Long) : Text :=
  "byte ".toList ++ natText size ++ ' ' :: intText (shown suffix size v)

/-- What the assembler puts into the section for the line. -/
def emit {space : Nat} (sect : AsmSection space) (suffix : ConstSuffix) (size : Nat) (v : Long) :
    Option (AsmSection space) := do
  let directive ← parseDirective (defconst suffix size v)
  let words ← byteWords (dumpDirective directive)
  return { sect with code := sect.code ++ words }

/-- The words of a value, as `CNST` pushes them: the low one first. -/
def layout (size : Nat) (v : Long) : List Word := (List.range size).map (cnstWord v)

/-- The number shown fits an `int`, or the low word is the one that the largest `int` ends with; and the words
are alike. -/
def Splits (suffix : ConstSuffix) (size : Nat) (v : Long) : Prop :=
  (shown suffix size v < 2 ^ 31 ∨ cnstWord v 0 = 0xffff) ∧ (size = 2 → cnstWord v 1 = cnstWord v 0)

/-! ### The line -/

theorem not_space {c : Char} (digit : c.isDigit = true) : isSpace c = false := by
  by_contra space
  have member : c ∈ [' ', '\t', '\n', '\x0b', '\x0c', '\r'] := of_decide_eq_true (Bool.not_eq_false _ ▸ space)
  simp only [List.mem_cons, List.not_mem_nil, or_false] at member
  rcases member with rfl | rfl | rfl | rfl | rfl | rfl
  all_goals cases digit

theorem skipSpace_blank (ss : Text) : skipSpace (' ' :: ss) = skipSpace ss := rfl

theorem skipSpace_self {c : Char} (printed : isSpace c = false) (rest : Text) :
    skipSpace (c :: rest) = c :: rest := by
  unfold skipSpace
  rw [List.dropWhile_cons_of_neg (by simp [printed])]

theorem readSign_digit {c : Char} (digit : c.isDigit = true) (rest : Text) :
    readSign (c :: rest) = (1, c :: rest) := by
  unfold readSign
  split
  case h_1 same =>
    obtain rfl := (List.cons.inj same).1
    exact absurd digit (by decide)
  case h_2 same =>
    obtain rfl := (List.cons.inj same).1
    exact absurd digit (by decide)
  case h_3 => rfl

/-- A number without a sign is read back, as far as an `int` goes. -/
theorem readInt_natText (n : Nat) {rest : Text} (ends : EndsNumber rest) :
    readInt (' ' :: (natText n ++ rest)) = some (clampInt n, rest) := by
  obtain ⟨c, digits, text, digit⟩ := (natText_isNumber n).cons
  have whole := takeWhile_number (natText_isNumber n).2 ends
  have start : skipSpace (' ' :: (natText n ++ rest)) = natText n ++ rest := by
    rw [skipSpace_blank, text]
    exact skipSpace_self (not_space digit) _
  unfold readInt
  rw [start]
  have plain : readSign (natText n ++ rest) = (1, natText n ++ rest) := by
    rw [text]
    exact readSign_digit digit _
  rw [plain]
  show (if List.takeWhile Char.isDigit (natText n ++ rest) = [] then none else _) = _
  rw [whole.1, whole.2, if_neg (natText_isNumber n).1, decimal_natText, Int.one_mul]

theorem readInt_intText (x : Int) : readInt (' ' :: intText x) = some (clampInt x, []) := by
  have ends : EndsNumber [] := fun c member => absurd member (by simp)
  unfold intText
  split
  case isTrue negative =>
    have whole := takeWhile_number (natText_isNumber x.natAbs).2 ends
    rw [List.append_nil] at whole
    unfold readInt
    rw [skipSpace_blank, skipSpace_self (by decide),
      show readSign ('-' :: natText x.natAbs) = (-1, natText x.natAbs) from rfl]
    show (if List.takeWhile Char.isDigit (natText x.natAbs) = [] then none else _) = _
    rw [whole.1, whole.2, if_neg (natText_isNumber x.natAbs).1, decimal_natText]
    congr 3
    omega
  case isFalse nonneg =>
    have read := readInt_natText x.natAbs ends
    rwa [List.append_nil, Int.natAbs_of_nonneg (by omega)] at read

theorem parseDirective_defconst (suffix : ConstSuffix) (size : Nat) (v : Long) :
    parseDirective (defconst suffix size v) =
      some ("byte".toList, natText size ++ ' ' :: intText (shown suffix size v)) := by
  unfold defconst
  generalize natText size = digits
  generalize intText (shown suffix size v) = number
  rfl

/-- **The words of a constant.** -/
theorem emit_defconst {space : Nat} (sect : AsmSection space) (suffix : ConstSuffix) {size : Nat}
    (small : size = 1 ∨ size = 2) (v : Long) :
    emit sect suffix size v = some { sect with
      code := sect.code ++ List.replicate size (BitVec.ofInt 16 (clampInt (shown suffix size v))) } := by
  have ends : EndsNumber (' ' :: intText (shown suffix size v)) := fun c member => by
    obtain rfl : ' ' = c := Option.some.inj member
    decide
  have count : clampInt size = size := by
    unfold clampInt
    rw [if_neg (by omega), if_neg (by omega)]
  have words : byteWords (dumpDirective ("byte".toList, natText size ++ ' ' :: intText (shown suffix size v))) =
      some (List.replicate size (BitVec.ofInt 16 (clampInt (shown suffix size v)))) := by
    have line : readWord (dumpDirective ("byte".toList, natText size ++ ' ' :: intText (shown suffix size v))) =
        (".byte".toList, ' ' :: (natText size ++ ' ' :: intText (shown suffix size v))) := rfl
    have first := streamInt_of_readInt (readInt_natText size ends)
    have second := streamInt_of_readInt (readInt_intText (shown suffix size v))
    have positive : ¬ (size : Int) ≤ 0 := by omega
    unfold byteWords
    rw [line]
    show byteLine _ = _
    unfold byteLine
    rw [first, count]
    show (if (size : Int) ≤ 0 then _ else _) = _
    rw [if_neg positive, second]
    rfl
  unfold emit
  rw [parseDirective_defconst]
  show (byteWords _).bind _ = _
  rw [words]
  rfl

/-! ### The words -/

theorem ofInt_toInt {w n : Nat} (y : BitVec w) (low : n ≤ w) : BitVec.ofInt n y.toInt = y.setWidth n := by
  refine BitVec.eq_of_toInt_eq ?_
  rw [BitVec.toInt_ofInt, BitVec.toInt_setWidth, BitVec.toInt_eq_toNat_bmod,
    Int.bmod_bmod_of_dvd (Nat.pow_dvd_pow 2 low)]

theorem ofInt_toNat {w n : Nat} (y : BitVec w) : BitVec.ofInt n y.toNat = y.setWidth n := by
  rw [BitVec.ofInt_natCast, BitVec.ofNat_toNat]

theorem shown_bounds (suffix : ConstSuffix) {size : Nat} (small : size ≤ 4) (v : Long) :
    -2 ^ 31 ≤ shown suffix size v ∧ BitVec.ofInt 16 (shown suffix size v) = cnstWord v 0 := by
  have word : cnstWord v 0 = v.setWidth 16 := (BitVec.setWidth_eq_extractLsb' (by decide)).symm
  have half : (v.setWidth 32).setWidth 16 = v.setWidth 16 := BitVec.setWidth_setWidth_of_le v (by decide)
  rw [word]
  cases suffix with
  | I =>
    have number : shown .I size v = (v.setWidth 32).toInt := if_neg (by omega)
    rw [number, ofInt_toInt _ (by decide), half]
    exact ⟨BitVec.le_toInt _, rfl⟩
  | U =>
    have number : shown .U size v = (v.setWidth 32).toNat := if_neg (by omega)
    rw [number, ofInt_toNat, half]
    exact ⟨by omega, rfl⟩
  | P =>
    have number : shown .P size v = v.toNat := rfl
    rw [number, ofInt_toNat]
    exact ⟨by omega, rfl⟩

/-- The word that is put out is the low word of the value. -/
theorem word_iff (suffix : ConstSuffix) {size : Nat} (small : size ≤ 4) (v : Long) :
    BitVec.ofInt 16 (clampInt (shown suffix size v)) = cnstWord v 0 ↔
      shown suffix size v < 2 ^ 31 ∨ cnstWord v 0 = 0xffff := by
  obtain ⟨low, same⟩ := shown_bounds suffix small v
  unfold clampInt
  by_cases fits : shown suffix size v < 2 ^ 31
  · rw [if_neg (by omega), if_neg (by omega)]
    exact iff_of_true same (Or.inl fits)
  · rw [if_pos (by omega)]
    have largest : BitVec.ofInt 16 (2 ^ 31 - 1) = 0xffff := by decide
    rw [largest, eq_comm]
    exact ⟨Or.inr, fun right => right.resolve_left fits⟩

/-- The words put out are those of the value. -/
theorem replicate_layout {suffix : ConstSuffix} {size : Nat} (small : size = 1 ∨ size = 2) {v : Long} :
    List.replicate size (BitVec.ofInt 16 (clampInt (shown suffix size v))) = layout size v ↔
      Splits suffix size v := by
  have word := word_iff suffix (show size ≤ 4 by omega) v
  unfold Splits
  rw [← word]
  generalize BitVec.ofInt 16 (clampInt (shown suffix size v)) = w
  rcases small with rfl | rfl
  · show [w] = [cnstWord v 0] ↔ _
    simp
  · show [w, w] = [cnstWord v 0, cnstWord v 1] ↔ _
    constructor
    · rintro same
      obtain ⟨first, second⟩ : w = cnstWord v 0 ∧ w = cnstWord v 1 := by simpa using same
      exact ⟨first, fun _ => second.symm.trans first⟩
    · rintro ⟨rfl, alike⟩
      rw [alike rfl]

/-! ### Reading back -/

section Reading

variable {ι : Type} {dev : Devices ι} {k : Cpu (Demux ι)} {words : List Word} {phys slot : Nat → Nat}

/-- The address of some words of data is on the stack: word `i` is at the physical address `phys i`, the word of
the stack and the one above at `slot 0` and `slot 1`, and they are apart. -/
structure Addressed (k : Cpu (Demux ι)) (words : List Word) (phys slot : Nat → Nat) : Prop where
  top : k.Writes .data (k.sp - 1).toNat (slot 0)
  above : k.Writes .data k.sp.toNat (slot 1)
  reads : ∀ i < words.length, k.Reads .data ((k.demux.ram (slot 0)).toNat + i) (phys i)
  holds : ∀ (i : Nat) (low : i < words.length), k.demux.ram (phys i) = words[i]
  apart : ∀ i < words.length, phys i ≠ slot 0
  slots : slot 0 ≠ slot 1

/-- **`INDIR`** pushes the words in their order. -/
theorem exec_indir {size : Nat} (small : size = 1 ∨ size = 2) (length : words.length = size)
    (here : Addressed k words phys slot) :
    ∃ entry op t, indirEntry size = some entry ∧ entry.op = some op ∧
      (instruction (demuxOps dev) op).exec k = (.ok (), t) ∧ t.sp = k.sp - 1 + BitVec.ofNat 16 size ∧
      ∀ (i : Nat) (low : i < words.length), t.demux.ram (slot i) = words[i] := by
  have nonempty : 0 < words.length := by omega
  have pops : (pop (demuxOps dev)).exec k = (.ok (k.demux.ram (slot 0)), k.withSP (k.sp - 1)) :=
    exec_pop here.top.reads
  have first : (memRead (demuxOps dev) (k.demux.ram (slot 0)).toNat .data).exec (k.withSP (k.sp - 1)) =
      (.ok words[0], k.withSP (k.sp - 1)) := by
    rw [← here.holds 0 nonempty]
    exact exec_memRead ((here.reads 0 nonempty).congr rfl rfl rfl)
  have pushes : (push (demuxOps dev) words[0]).exec (k.withSP (k.sp - 1)) =
      (.ok (), (k.withSP (k.sp - 1)).pushed (slot 0) words[0]) :=
    exec_push _ (here.top.congr rfl rfl rfl)
  have back : k.sp - 1 + 1 = k.sp := BitVec.sub_add_cancel _ _
  rcases small with rfl | rfl
  · refine ⟨_, .indir, (k.withSP (k.sp - 1)).pushed (slot 0) words[0], rfl, rfl, ?_, rfl, fun i low => ?_⟩
    · show (indir (demuxOps dev)).exec k = _
      unfold indir
      rw [exec_bind_ok pops, exec_bind_ok first, pushes]
    · obtain rfl : i = 0 := by omega
      exact Function.update_self _ _ _
  · let t := (k.withSP (k.sp - 1)).pushed (slot 0) words[0]
    have next : (memRead (demuxOps dev) ((k.demux.ram (slot 0)).toNat + 1) .data).exec t = (.ok words[1], t) := by
      rw [← here.holds 1 (by omega)]
      have same : t.demux.ram (phys 1) = k.demux.ram (phys 1) :=
        Function.update_of_ne (here.apart 1 (by omega)) _ _
      rw [← same]
      exact exec_memRead ((here.reads 1 (by omega)).congr rfl rfl rfl)
    have above : (push (demuxOps dev) words[1]).exec t = (.ok (), t.pushed (slot 1) words[1]) := by
      refine exec_push _ ?_
      have sp : t.sp = k.sp := back
      rw [sp]
      exact here.above.congr rfl rfl rfl
    refine ⟨_, .indir2, t.pushed (slot 1) words[1], rfl, rfl, ?_, ?_, fun i low => ?_⟩
    · show (indir2 (demuxOps dev)).exec k = _
      unfold indir2
      rw [exec_bind_ok pops, exec_bind_ok first, exec_bind_ok pushes, exec_bind_ok next, above]
    · show k.sp - 1 + 1 + 1 = k.sp - 1 + 2
      rw [BitVec.add_assoc]
      rfl
    · obtain rfl | rfl : i = 0 ∨ i = 1 := by omega
      · exact (Function.update_of_ne here.slots _ _).trans (Function.update_self _ _ _)
      · exact Function.update_self _ _ _

end Reading

/-- **Static data.** The assembler puts out as many words as the size says; they are the words of the value, and
`INDIR` reads the value back, exactly for the constants that split. -/
theorem defconst_layout (suffix : ConstSuffix) {size : Nat} (small : size = 1 ∨ size = 2) (v : Long) {space : Nat}
    (sect : AsmSection space) :
    ∃ words, emit sect suffix size v = some { sect with code := sect.code ++ words } ∧ words.length = size ∧
      (words = layout size v ↔ Splits suffix size v) ∧
      ∀ {ι : Type} (dev : Devices ι) (k : Cpu (Demux ι)) (phys slot : Nat → Nat), Addressed k words phys slot →
        ∃ entry op t, indirEntry size = some entry ∧ entry.op = some op ∧
          (instruction (demuxOps dev) op).exec k = (.ok (), t) ∧ t.sp = k.sp - 1 + BitVec.ofNat 16 size ∧
          ((List.range size).map (fun i => t.demux.ram (slot i)) = layout size v ↔ Splits suffix size v) := by
  refine ⟨_, emit_defconst sect suffix small v, List.length_replicate, replicate_layout small,
    fun dev k phys slot here => ?_⟩
  have pushed := @exec_indir _ dev _ _ _ _ _ small List.length_replicate here
  obtain ⟨entry, op, t, found, decoded, run, sp, stack⟩ := pushed
  refine ⟨entry, op, t, found, decoded, run, sp, ?_⟩
  rw [← replicate_layout small]
  have same : (List.range size).map (fun i => t.demux.ram (slot i)) =
      List.replicate size (BitVec.ofInt 16 (clampInt (shown suffix size v))) := by
    refine List.ext_getElem (by simp) fun i low low' => ?_
    rw [List.getElem_map, List.getElem_range]
    exact stack i low'
  rw [same]

/-- A processor with a constant at `0x5000` and the address of it on top of the stack. The MMU is off, and there are no
devices. -/
def dataMachine (words : List Word) : Cpu (Demux Unit) :=
  { ra := 0, rb := 0, ap := 0x10, bp := 0x4000, sp := 0x4001, pc := 0x100, ir := 0, s := 0, d := 0,
    commitEnabled := true, intEnabled := false, userMode := false, mmuEnabled := false, mmuEntrySelector := 0,
    shadow := ⟨0, 0, 0, 0, 0, 0⟩,
    demux :=
      { ram := fun a => if a = 0x4000 then 0x5000 else words.getD (a - 0x5000) 0
        table := fun _ => 0
        intCtl := ⟨0, 0, fun _ => 0⟩
        mmuLastFailPage := 0
        devs := () } }

theorem dataMachine_addressed {words : List Word} (short : words.length ≤ 2) :
    Addressed (dataMachine words) words (0x5000 + ·) (0x4000 + ·) := by
  have top : ((dataMachine words).sp - 1).toNat = 0x4000 := by
    show ((0x4001 : Word) - 1).toNat = _
    decide
  refine ⟨?_, .of_off rfl (by decide) (dataMachine words).sp.isLt, fun i low => ?_, fun i low => ?_, fun i low => ?_,
    by decide⟩
  · rw [top]
    exact .of_off rfl (by decide) (by decide)
  · exact .of_off rfl (by decide) (show 0x5000 + i < 2 ^ 16 by omega)
  · show (if 0x5000 + i = 0x4000 then 0x5000 else words.getD (0x5000 + i - 0x5000) 0) = _
    rw [if_neg (by omega), Nat.add_sub_cancel_left]
    exact (List.getElem_eq_getD 0).symm
  · show 0x5000 + i ≠ 0x4000 + 0
    omega

/-- `long x = 0x00050005;` has two words alike: `INDIR` gives them back. -/
theorem defconst_layout_alike :
    ∃ entry op t, emit (⟨Vector.replicate dataSpace false, []⟩ : AsmSection dataSpace) .I 2 0x50005 =
        some ⟨Vector.replicate dataSpace false, [5, 5]⟩ ∧
      indirEntry 2 = some entry ∧ entry.op = some op ∧
      (instruction (demuxOps ⟨fun _ _ => none, fun _ _ _ => none⟩) op).exec (dataMachine [5, 5]) = (.ok (), t) ∧
      t.sp = 0x4002 ∧ (List.range 2).map (fun i => t.demux.ram (0x4000 + i)) = layout 2 0x50005 := by
  obtain ⟨words, emitted, -, splits, reads⟩ :=
    defconst_layout .I (Or.inr rfl) 0x50005 (⟨Vector.replicate dataSpace false, []⟩ : AsmSection dataSpace)
  have alike : Splits .I 2 0x50005 := ⟨Or.inl (by decide), fun _ => by decide⟩
  obtain rfl : words = [5, 5] := splits.mpr alike
  obtain ⟨entry, op, t, found, decoded, run, sp, stack⟩ :=
    reads ⟨fun _ _ => none, fun _ _ _ => none⟩ (dataMachine [5, 5]) _ _ (dataMachine_addressed le_rfl)
  exact ⟨entry, op, t, emitted, found, decoded, run, sp, stack.mpr alike⟩

/-- `long x = 5;` is put out as `5, 5`. -/
theorem defconst_layout_wrong :
    ¬ ∀ (suffix : ConstSuffix) (size : Nat) (v : Long) (sect : AsmSection dataSpace), size = 1 ∨ size = 2 →
      emit sect suffix size v = some { sect with code := sect.code ++ layout size v } := by
  intro right
  have wrong := right .I 2 5 ⟨Vector.replicate dataSpace false, []⟩ (Or.inr rfl)
  rw [emit_defconst _ _ (Or.inr rfl)] at wrong
  have code := congrArg AsmSection.code (Option.some.inj wrong)
  revert code
  decide

end RlCpu.Lcc
