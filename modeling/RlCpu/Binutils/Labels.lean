/-
**Labels of an assembled source (`assembler.cpp`).**

`mentions`: the names that lines define or use. `DefinedAt`, `OperandAt`: where the loop comes to a definition, and to a
label that is an operand. `LabelsRight`: positions, marks and numbers of labels are what these say.

* `runLines_later`: words stay where they are, and numbers what they are.
* `labels_right_iff`: labels are right exactly where no more than `2^16` names are defined or used.
* `labels_wrap`: the next name has the number of the first in a word.
-/

import RlCpu.Binutils.AsmLoop

namespace RlCpu.Binutils

open RlCpu.Kernel RlCpu.Lib RlCpu.Sim

/-! ### What the source says -/

/-- The names that the lines define, in order. -/
def defined (lines : List Text) : List Name := lines.flatMap fun line => (parseLine line).elim [] Stmt.defined

/-- The names that the lines define or use, in order. -/
def mentions (lines : List Text) : List Name := lines.flatMap fun line => (parseLine line).elim [] Stmt.mentions

namespace Assembly

/-- The loop comes to a definition of `name` in the section `sect`, with the words `front` already there. -/
def DefinedAt (name : Name) (sect : Sect) (front : List Word) : List Text → Assembly → Prop
  | [], _ => False
  | line :: lines, asm =>
    (parseLine line = some (.label name) ∧ asm.cSection = sect ∧ asm.code sect = front) ∨
      ∃ stmt asm', parseLine line = some stmt ∧ asm.runStmt stmt = some asm' ∧ DefinedAt name sect front lines asm'

/-- The loop comes to `name` as an operand, for word `j` of the section `sect`. -/
def OperandAt (name : Name) (sect : Sect) (j : Nat) : List Text → Assembly → Prop
  | [], _ => False
  | line :: lines, asm =>
    (∃ ws i, parseLine line = some (.words ws) ∧ ws[i]? = some (.label name) ∧ asm.cSection = sect ∧
      j = (asm.code sect).length + i) ∨
      ∃ stmt asm', parseLine line = some stmt ∧ asm.runStmt stmt = some asm' ∧ OperandAt name sect j lines asm'

end Assembly

open Assembly

/-- **Labels are right.** -/
structure LabelsRight (lines : List Text) (asm : Assembly) : Prop where
  /-- A label is at the word that comes next, with only zeros put in before it, and that in the code. -/
  positions : ∀ name sect front, DefinedAt name sect front lines empty → ∃ pad, pad < sect.unit ∧
    front ++ List.replicate pad 0 <+: asm.code sect ∧ (asm.entry name).sect = sect ∧
      (asm.entry name).position * sect.unit = (front.length + pad : Nat)
  /-- The words that are marked are the operands that are labels. -/
  marks : ∀ sect j, asm.marked sect j = true ↔ ∃ name, OperandAt name sect j lines empty
  /-- The word of an operand is the number of the label that is written there. -/
  operands : ∀ name sect j, OperandAt name sect j lines empty →
    ∃ w, (asm.code sect)[j]? = some w ∧ (w.toNat : Int) = (asm.entry name).uid
  /-- Two names have different numbers, as words. -/
  distinct : ∀ name ∈ mentions lines, ∀ name' ∈ mentions lines,
    BitVec.ofInt 16 (asm.entry name).uid = BitVec.ofInt 16 (asm.entry name').uid → name = name'
  /-- A line puts out words in one section, and all words stay where they are. -/
  apart : ∀ before line behind stmt asm₁ asm₂, lines = before ++ line :: behind → runLines before empty = some asm₁ →
    parseLine line = some stmt → asm₁.runStmt stmt = some asm₂ →
      (∀ sect, sect ≠ asm₁.cSection → asm₂.code sect = asm₁.code sect) ∧ ∀ sect, asm₂.code sect <+: asm.code sect

namespace Assembly

/-! ### The loop -/

/-- What a run of the loop does. -/
structure RanLines (asm asm' : Assembly) (lines : List Text) : Prop where
  code : ∀ sect, asm.code sect <+: asm'.code sect
  marks : ∀ sect j, asm'.marked sect j = true ↔ asm.marked sect j = true ∨ ∃ name, OperandAt name sect j lines asm
  operands : ∀ name sect j, OperandAt name sect j lines asm →
    (asm'.code sect)[j]? = some (BitVec.ofInt 16 (asm'.entry name).uid) ∧ (asm'.entry name).uid ≠ -1 ∧
    name ∈ mentions lines
  places : ∀ name, name ∉ defined lines →
    (asm'.entry name).position = (asm.entry name).position ∧ (asm'.entry name).sect = (asm.entry name).sect
  keeps : KeepsNumbers asm asm'
  numbered : ∀ names, Numbered asm names → Numbered asm' (names ∪ (mentions lines).toFinset)

section Loop

variable {asm asm' asm'' : Assembly} {line : Text} {lines : List Text} {stmt : Stmt}

theorem defined_cons (parsed : parseLine line = some stmt) :
    defined (line :: lines) = stmt.defined ++ defined lines := by
  unfold defined
  rw [List.flatMap_cons, parsed]
  rfl

theorem mentions_cons (parsed : parseLine line = some stmt) :
    mentions (line :: lines) = stmt.mentions ++ mentions lines := by
  unfold mentions
  rw [List.flatMap_cons, parsed]
  rfl

theorem RanLines.nil (asm : Assembly) : RanLines asm asm [] where
  code _ := List.prefix_rfl
  marks _ _ := (or_iff_left fun some => by obtain ⟨_, clash⟩ := some; exact clash).symm
  operands _ _ _ clash := clash.elim
  places _ _ := ⟨rfl, rfl⟩
  keeps _ _ := rfl
  numbered names numbered := by
    show Numbered asm (names ∪ ([] : List Name).toFinset)
    rw [List.toFinset_nil, Finset.union_empty]
    exact numbered

/-- A word stays where it is. -/
theorem getElem?_of_prefix {α : Type} {l l' : List α} {j : Nat} {x : α} (front : l <+: l') (there : l[j]? = some x) :
    l'[j]? = some x := by
  obtain ⟨behind, rfl⟩ := front
  rw [List.getElem?_append_left (List.getElem?_eq_some_iff.mp there).1, there]

/-- An operand is in the first line, or in a later one. -/
theorem operandAt_cons {name : Name} {sect : Sect} {j : Nat} (parsed : parseLine line = some stmt)
    (run : asm.runStmt stmt = some asm') : OperandAt name sect j (line :: lines) asm ↔
      (∃ ws i, stmt = .words ws ∧ ws[i]? = some (.label name) ∧ asm.cSection = sect ∧ j = (asm.code sect).length + i) ∨
        OperandAt name sect j lines asm' := by
  refine or_congr ?_ ?_
  · refine exists_congr fun ws => exists_congr fun i => and_congr_left fun _ => ?_
    rw [parsed]
    exact ⟨Option.some.inj, congrArg some⟩
  · constructor
    · rintro ⟨stmt', asm₁, parsed', run', later⟩
      obtain rfl := Option.some.inj (parsed.symm.trans parsed')
      obtain rfl := Option.some.inj (run.symm.trans run')
      exact later
    · exact fun later => ⟨stmt, asm', parsed, run, later⟩

/-- One line, and the others after it. -/
theorem RanLines.cons (parsed : parseLine line = some stmt) (run : asm.runStmt stmt = some asm')
    (rest : RanLines asm' asm'' lines) : RanLines asm asm'' (line :: lines) := by
  have first := runStmt_ran run
  refine ⟨fun sect => (first.code sect).trans (rest.code sect), fun sect j => ?_, fun name sect j here => ?_,
    fun name differ => ?_, first.keeps.trans rest.keeps, fun names numbered => ?_⟩
  · rw [rest.marks, first.marks, or_assoc, ← exists_or]
    exact or_congr_right (exists_congr fun name => (operandAt_cons parsed run).symm)
  · rw [mentions_cons parsed, List.mem_append]
    obtain ⟨ws, i, same, word, rfl, rfl⟩ | later := (operandAt_cons parsed run).mp here
    · obtain ⟨there, some⟩ := first.operands ws i name same word
      refine ⟨?_, by rwa [rest.keeps name some], Or.inl ?_⟩
      · rw [rest.keeps name some]
        exact getElem?_of_prefix (rest.code asm.cSection) there
      · rw [same]
        exact List.mem_filterMap.mpr ⟨_, List.mem_of_getElem? word, rfl⟩
    · obtain ⟨there, some, mem⟩ := rest.operands name sect j later
      exact ⟨there, some, Or.inr mem⟩
  · rw [defined_cons parsed, List.mem_append, not_or] at differ
    obtain ⟨position, sect⟩ := first.places name differ.1
    obtain ⟨position', sect'⟩ := rest.places name differ.2
    exact ⟨position'.trans position, sect'.trans sect⟩
  · rw [mentions_cons parsed, List.toFinset_append, ← Finset.union_assoc]
    exact rest.numbered _ (first.numbered names numbered)

/-- **The loop**: words stay where they are, and numbers what they are. By induction on the lines. -/
theorem runLines_later : ∀ (lines : List Text) {asm asm' : Assembly}, runLines lines asm = some asm' →
    RanLines asm asm' lines := by
  intro lines
  induction lines with
  | nil =>
    intro asm asm' done
    obtain rfl := Option.some.inj done
    exact RanLines.nil asm
  | cons line lines ih =>
    intro asm asm' done
    obtain ⟨stmt, parsed, done⟩ := Option.bind_eq_some_iff.mp done
    obtain ⟨asm₁, run, done⟩ := Option.bind_eq_some_iff.mp done
    exact (ih done).cons parsed run

/-- **A definition**: after the loop the label is where it was put. By induction on the lines. -/
theorem runLines_defined : ∀ (lines : List Text) {asm asm' : Assembly} {name : Name} {sect : Sect} {front : List Word},
    runLines lines asm = some asm' → (defined lines).Nodup → DefinedAt name sect front lines asm →
    ∃ pad, pad < sect.unit ∧ front ++ List.replicate pad 0 <+: asm'.code sect ∧ (asm'.entry name).sect = sect ∧
      (asm'.entry name).position * sect.unit = (front.length + pad : Nat) := by
  intro lines
  induction lines with
  | nil => exact fun _ _ here => here.elim
  | cons line lines ih =>
    intro asm asm' name sect front done once here
    obtain ⟨stmt, parsed, done⟩ := Option.bind_eq_some_iff.mp done
    obtain ⟨asm₁, run, done⟩ := Option.bind_eq_some_iff.mp done
    rw [defined_cons parsed] at once
    obtain ⟨parsed', rfl, rfl⟩ | ⟨stmt', asm₂, parsed', run', later⟩ := here
    · obtain rfl := Option.some.inj (parsed.symm.trans parsed')
      obtain rfl : asm.align.regLabel name = asm₁ := Option.some.inj run
      obtain ⟨pad, low, code, sect, position⟩ := (ran_label asm name).label name rfl
      have rest := runLines_later lines done
      have differ : name ∉ defined lines := (List.nodup_cons.mp once).1
      obtain ⟨position', sect'⟩ := rest.places name differ
      refine ⟨pad, low, code ▸ rest.code _, sect'.trans sect, ?_⟩
      rw [position']
      exact position
    · obtain rfl := Option.some.inj (parsed.symm.trans parsed')
      obtain rfl := Option.some.inj (run.symm.trans run')
      exact ih done (List.nodup_append.mp once).2.1 later

theorem runLines_append : ∀ (before : List Text) {behind : List Text} {asm : Assembly},
    runLines (before ++ behind) asm = (runLines before asm).bind (runLines behind) := by
  intro before
  induction before with
  | nil => exact fun {behind asm} => rfl
  | cons line before ih =>
    intro behind asm
    show ((parseLine line).bind fun stmt => (asm.runStmt stmt).bind (runLines (before ++ behind))) =
      ((parseLine line).bind fun stmt => (asm.runStmt stmt).bind (runLines before)).bind (runLines behind)
    rw [Option.bind_assoc]
    refine congrArg _ (funext fun stmt => ?_)
    rw [Option.bind_assoc]
    exact congrArg _ (funext fun asm₁ => ih)

/-- The end of `main`: the code is aligned. -/
theorem assembleLines_ok (done : assembleLines lines = some asm') : ∃ asm, runLines lines empty = some asm ∧
    asm'.marked = asm.marked ∧ asm'.entry = asm.entry ∧ ∀ sect, asm.code sect <+: asm'.code sect := by
  obtain ⟨asm, run, done⟩ := Option.bind_eq_some_iff.mp done
  obtain rfl := Option.some.inj done
  refine ⟨asm, run, ?_, ?_, fun sect => ?_⟩
  · exact funext fun sect => by cases sect <;> rfl
  · rfl
  · cases sect
    · exact List.prefix_append _ _
    · exact List.prefix_rfl

theorem numbered_empty : Numbered empty ∅ where
  count := rfl
  missing _ := iff_of_true rfl (Finset.notMem_empty _)
  range _ mem := absurd mem (Finset.notMem_empty _)
  different _ mem := absurd mem (Finset.notMem_empty _)

theorem marked_empty (sect : Sect) (j : Nat) : empty.marked sect j = false := by
  have none : ∀ n : Nat, (Vector.replicate n false).toList.getD j false = false := fun n => by
    rw [Vector.toList_replicate, List.getD_eq_getElem?_getD, List.getElem?_replicate]
    split <;> rfl
  cases sect
  · exact none textSpace
  · exact none dataSpace

end Loop

end Assembly

/-! ### Labels as a whole -/

section Whole

variable {lines : List Text} {asm : Assembly} {names : Finset Name} {name name' : Name}

/-- The number of a label in a word, where there are no more than words have. -/
theorem Assembly.Numbered.word (numbered : Numbered asm names) (few : names.card ≤ 2 ^ 16) (mem : name ∈ names) :
    ((BitVec.ofInt 16 (asm.entry name).uid).toNat : Int) = (asm.entry name).uid := by
  obtain ⟨k, low, uid⟩ := numbered.range name mem
  rw [uid, BitVec.ofInt_natCast, BitVec.toNat_ofNat, Nat.mod_eq_of_lt (low.trans_le few)]

/-- **More names than numbers** cannot all have their own. -/
theorem few_of_distinct (distinct : ∀ name ∈ names, ∀ name' ∈ names,
    BitVec.ofInt 16 (asm.entry name).uid = BitVec.ofInt 16 (asm.entry name').uid → name = name') : names.card ≤ 2 ^ 16 := by
  have below : ∀ name ∈ names, (BitVec.ofInt 16 (asm.entry name).uid).toNat ∈ Finset.range (2 ^ 16) := fun name _ =>
    Finset.mem_range.mpr (BitVec.isLt _)
  have count := Finset.card_le_card_of_injOn _ below fun name mem name' mem' same =>
    distinct name mem name' mem' (BitVec.eq_of_toNat_eq same)
  rwa [Finset.card_range] at count

/-- **Assembler label resolution**: whatever the order of definitions, uses, exports, imports and sections, labels are
right if and only if no more than `2^16` names are defined or used. -/
theorem labels_right_iff (assembled : assembleLines lines = some asm) (once : (defined lines).Nodup) :
    LabelsRight lines asm ↔ (mentions lines).toFinset.card ≤ 2 ^ 16 := by
  refine ⟨fun right => @few_of_distinct asm (mentions lines).toFinset fun name mem name' mem' => ?_, fun few => ?_⟩
  · exact right.distinct name (List.mem_toFinset.mp mem) name' (List.mem_toFinset.mp mem')
  · obtain ⟨asm₁, run, marked, entry, code⟩ := assembleLines_ok assembled
    have ran := runLines_later lines run
    have numbered := ran.numbered ∅ numbered_empty
    rw [Finset.empty_union] at numbered
    refine ⟨fun name sect front here => ?_, fun sect j => ?_, fun name sect j here => ?_,
      fun name mem name' mem' same => ?_,
      fun before line behind stmt asm₂ asm₃ whole first parsed step => ?_⟩
    · obtain ⟨pad, low, there, place⟩ := runLines_defined lines run once here
      rw [entry]
      exact ⟨pad, low, there.trans (code sect), place⟩
    · rw [marked, ran.marks, marked_empty]
      exact or_iff_right Bool.false_ne_true
    · obtain ⟨there, -, mem⟩ := ran.operands name sect j here
      rw [entry]
      exact ⟨_, getElem?_of_prefix (code sect) there, numbered.word few (List.mem_toFinset.mpr mem)⟩
    · rw [entry] at same
      have mem := List.mem_toFinset.mpr mem
      have mem' := List.mem_toFinset.mpr mem'
      refine numbered.different name mem name' mem' ?_
      rw [← numbered.word few mem, ← numbered.word few mem', same]
    · rw [whole, runLines_append, first, Option.bind_some] at run
      obtain ⟨stmt', parsed', run⟩ := Option.bind_eq_some_iff.mp run
      obtain rfl := Option.some.inj (parsed.symm.trans parsed')
      obtain ⟨asm₄, step', run⟩ := Option.bind_eq_some_iff.mp run
      obtain rfl := Option.some.inj (step.symm.trans step')
      exact ⟨(runStmt_ran step).other, fun sect => ((runLines_later behind run).code sect).trans (code sect)⟩

end Whole

/-- A loop that jumps back to its label. -/
theorem labels_right_jump : ∃ asm, assembleLines [".label a".toList, "jump_w a".toList] = some asm ∧
    (LabelsRight [".label a".toList, "jump_w a".toList] asm ↔
      (mentions [".label a".toList, "jump_w a".toList]).toFinset.card ≤ 2 ^ 16) :=
  ⟨_, rfl, labels_right_iff rfl (by decide)⟩

/-! ### More labels than numbers -/

/-- The names `a`, `aa` and so on. -/
def nameOf (i : Nat) : Name := List.replicate (i + 1) 'a'

/-- The definition of a name. -/
def labelLine (i : Nat) : Text := ".label ".toList ++ nameOf i

/-- The word of a name. -/
def addressLine (i : Nat) : Text := ".address ".toList ++ nameOf i

/-- `n` labels, and the address of the last. -/
def manyLines (n : Nat) : List Text := (List.range n).map labelLine ++ [addressLine (n - 1)]

/-- The line of a name behind a directive. -/
theorem readWord_line (front : Text) (plain : front.all (fun c => !isSpace c) = true) (some : front ≠ []) (i : Nat) :
    readWord (front ++ ' ' :: nameOf i) = (front, ' ' :: nameOf i) := by
  have all : ∀ c ∈ front, (!isSpace c) = true := List.all_eq_true.mp plain
  have first : skipSpace (front ++ ' ' :: nameOf i) = front ++ ' ' :: nameOf i := by
    obtain ⟨c, rest, rfl⟩ := List.exists_cons_of_ne_nil some
    unfold skipSpace
    have letter : (!isSpace c) = true := all c List.mem_cons_self
    rw [List.cons_append, List.dropWhile_cons, if_neg (by simpa using letter)]
  unfold readWord
  rw [first, List.takeWhile_append_of_pos all, List.dropWhile_append_of_pos all]
  show (front ++ [], ' ' :: nameOf i) = _
  rw [List.append_nil]

theorem nextWord_name (word : Text) (i : Nat) : nextWord word (' ' :: nameOf i) = nameOf i := by
  have letters : ∀ c ∈ nameOf i, (!isSpace c) = true := fun c mem => by
    rw [List.eq_of_mem_replicate mem]
    rfl
  have first : skipSpace (' ' :: nameOf i) = nameOf i := rfl
  unfold nextWord readWord
  rw [first, if_neg (show nameOf i ≠ [] from List.cons_ne_nil _ _)]
  exact List.takeWhile_eq_self_iff.mpr letters

theorem parse_labelLine (i : Nat) : parseLine (labelLine i) = some (.label (nameOf i)) := by
  have words := readWord_line ".label".toList rfl (List.cons_ne_nil _ _) i
  unfold parseLine
  rw [show labelLine i = ".label".toList ++ ' ' :: nameOf i from rfl, words]
  show directive ".label".toList (' ' :: nameOf i) = _
  unfold directive
  rw [if_pos rfl, nextWord_name]

theorem parse_addressLine (i : Nat) : parseLine (addressLine i) = some (.words [.label (nameOf i)]) := by
  have words := readWord_line ".address".toList rfl (List.cons_ne_nil _ _) i
  unfold parseLine
  rw [show addressLine i = ".address".toList ++ ' ' :: nameOf i from rfl, words]
  show directive ".address".toList (' ' :: nameOf i) = _
  unfold directive
  iterate 6 rw [if_neg (by decide)]
  rw [if_neg (by decide), if_neg (by decide), if_pos rfl, nextWord_name]

/-- Definitions put out no words. By induction on them. -/
theorem runLines_labels : ∀ (is : List Nat) {asm : Assembly}, (∀ sect, asm.code sect = []) → asm.cSection = .text →
    ∃ asm', runLines (is.map labelLine) asm = some asm' ∧ (∀ sect, asm'.code sect = []) ∧ asm'.cSection = .text := by
  intro is
  induction is with
  | nil => exact fun empty sect => ⟨_, rfl, empty, sect⟩
  | cons i is ih =>
    intro asm empty sect
    have aligned : (∀ sect, asm.align.code sect = []) ∧ asm.align.cSection = .text := by
      unfold align
      rw [sect]
      dsimp only
      rw [show asm.text.code = [] from empty .text]
      refine ⟨fun sect' => ?_, (outputs_rest asm _).2.1.trans sect⟩
      rw [outputs_code, empty]
      split <;> rfl
    obtain ⟨⟨code, -, cSection⟩, -⟩ := newUid_rest asm.align (nameOf i)
    obtain ⟨asm', run, rest⟩ := @ih (asm.align.regLabel (nameOf i))
        (fun sect' => (congrFun code sect').trans (aligned.1 sect'))
      (cSection.trans aligned.2)
    refine ⟨asm', ?_, rest⟩
    rw [List.map_cons, runLines, parse_labelLine]
    exact run

/-- A label in a section that has no words. -/
theorem put_first {asm : Assembly} (empty : ∀ sect, asm.code sect = []) (sect : asm.cSection = .text) (name : Name) :
    ∃ asm', asm.puts [.label name] = some asm' := by
  obtain ⟨⟨code, -, cSection⟩, -⟩ := newUid_rest asm name
  have low : (asm.newUid name).text.code.length < textSpace := by
    rw [show (asm.newUid name).text.code = [] from (congrFun code .text).trans (empty .text)]
    decide
  have marked : ∃ asm₁, (asm.newUid name).markLabelPosition = some asm₁ := by
    unfold markLabelPosition
    rw [cSection.trans sect]
    exact ⟨_, dif_pos low⟩
  obtain ⟨asm₁, marked⟩ := marked
  have done : ∃ asm₂, asm.put (.label name) = some asm₂ := ⟨_, Option.bind_eq_some_iff.mpr ⟨asm₁, marked, rfl⟩⟩
  obtain ⟨asm₂, done⟩ := done
  exact ⟨asm₂, Option.bind_eq_some_iff.mpr ⟨asm₂, done, rfl⟩⟩

theorem nameOf_inj {i j : Nat} (same : nameOf i = nameOf j) : i = j := by
  have lengths := congrArg List.length same
  unfold nameOf at lengths
  rw [List.length_replicate, List.length_replicate] at lengths
  exact Nat.succ.inj lengths

/-- Each of the labels is defined once, and no other name is used. -/
theorem manyLines_names (n : Nat) : defined (manyLines (n + 1)) = (List.range (n + 1)).map nameOf ∧
    (mentions (manyLines (n + 1))).toFinset.card = n + 1 := by
  have labels : ∀ is : List Nat, defined (is.map labelLine) = is.map nameOf ∧
      mentions (is.map labelLine) = is.map nameOf := by
    intro is
    induction is with
    | nil => exact ⟨rfl, rfl⟩
    | cons i is ih =>
      rw [List.map_cons, defined_cons (parse_labelLine i), mentions_cons (parse_labelLine i), ih.1, ih.2]
      exact ⟨rfl, rfl⟩
  have last : defined [addressLine n] = [] ∧ mentions [addressLine n] = [nameOf n] := by
    rw [defined_cons (parse_addressLine n), mentions_cons (parse_addressLine n)]
    exact ⟨rfl, rfl⟩
  have both : defined (manyLines (n + 1)) = defined ((List.range (n + 1)).map labelLine) ++ defined [addressLine n] ∧
      mentions (manyLines (n + 1)) = mentions ((List.range (n + 1)).map labelLine) ++ mentions [addressLine n] :=
    ⟨List.flatMap_append, List.flatMap_append⟩
  rw [both.1, both.2, (labels _).1, (labels _).2, last.1, last.2, List.append_nil]
  refine ⟨rfl, ?_⟩
  have names : ((List.range (n + 1)).map nameOf ++ [nameOf n]).toFinset = (Finset.range (n + 1)).image nameOf := by
    ext name
    rw [List.mem_toFinset, List.mem_append, List.mem_map, Finset.mem_image, List.mem_singleton]
    constructor
    · rintro (⟨i, low, rfl⟩ | rfl)
      · exact ⟨i, Finset.mem_range.mpr (List.mem_range.mp low), rfl⟩
      · exact ⟨n, Finset.mem_range.mpr (Nat.lt_succ_self n), rfl⟩
    · rintro ⟨i, low, rfl⟩
      exact Or.inl ⟨i, List.mem_range.mpr (Finset.mem_range.mp low), rfl⟩
  rw [names, Finset.card_image_of_injective _ fun i j => nameOf_inj, Finset.card_range]

/-- They are assembled, and the sections have room. -/
theorem manyLines_assembled (n : Nat) : ∃ asm, assembleLines (manyLines (n + 1)) = some asm ∧
    asm.text.code.length ≤ textSpace ∧ asm.data.code.length ≤ dataSpace := by
  obtain ⟨asm₁, run, nothing, text⟩ := @runLines_labels (List.range (n + 1)) empty (fun sect => by cases sect <;> rfl) rfl
  obtain ⟨asm₂, done⟩ := put_first nothing text (nameOf n)
  have put := puts_ok _ done
  obtain ⟨l, code, length, -⟩ := put.words
  rw [text, nothing, List.nil_append] at code
  have whole : runLines (manyLines (n + 1)) empty = some asm₂ := by
    unfold manyLines
    rw [runLines_append, run, Option.bind_some, runLines, Nat.add_sub_cancel, parse_addressLine]
    show (asm₁.puts [.label (nameOf n)]).bind (runLines []) = some asm₂
    rw [done]
    rfl
  refine ⟨_, Option.bind_eq_some_iff.mpr ⟨asm₂, whole, rfl⟩, ?_, ?_⟩
  · show (asm₂.code .text ++ List.replicate _ 0).length ≤ textSpace
    have pad := Nat.mod_lt (codeBlockSize - (asm₂.text.code.length) % codeBlockSize) (show 0 < codeBlockSize by decide)
    rw [List.length_append, List.length_replicate, code, length]
    exact Nat.le_trans (Nat.add_le_add_left pad.le _) (show 1 + 8 ≤ 0x80000 by decide)
  · show (asm₂.code .data).length ≤ dataSpace
    rw [put.other .data (by rw [text]; exact Sect.noConfusion), nothing]
    exact Nat.zero_le _

/-- **A label more than there are numbers**: the sections have room, and the word of the last label is the number of the
first. -/
theorem labels_wrap : ∃ asm, assembleLines (manyLines (2 ^ 16 + 1)) = some asm ∧
    (defined (manyLines (2 ^ 16 + 1))).Nodup ∧
    asm.text.code.length ≤ textSpace ∧ asm.data.code.length ≤ dataSpace ∧ ¬ LabelsRight (manyLines (2 ^ 16 + 1)) asm := by
  obtain ⟨asm, assembled, text, data⟩ := manyLines_assembled (2 ^ 16)
  obtain ⟨once, count⟩ := manyLines_names (2 ^ 16)
  refine ⟨asm, assembled, ?_, text, data, fun right => ?_⟩
  · rw [once]
    exact List.nodup_range.map fun i j => nameOf_inj
  · have few := @few_of_distinct asm (mentions (manyLines (2 ^ 16 + 1))).toFinset fun name mem name' mem' =>
      right.distinct name (List.mem_toFinset.mp mem) name' (List.mem_toFinset.mp mem')
    rw [count] at few
    exact absurd few (Nat.not_succ_le_self _)

end RlCpu.Binutils
