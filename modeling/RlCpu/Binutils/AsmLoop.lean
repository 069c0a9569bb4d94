/-
**The assembly loop (`main` of `assembler.cpp`).**

A line is a directive or an operation. Words go to the current section, and the word of a label is its number, which it
takes when it is first defined or used; a definition in the code goes to the next block of eight words.

* `newUid_numbered`: numbers are given out in order, each name its own.
* `puts_ok`: the words of a line, and the marks of those that are labels.
* `runStmt_ran`: what a line does to the words, the marks, the positions and the numbers.
-/

import RlCpu.Binutils.ObjectFile
import RlCpu.Binutils.Assembler

namespace RlCpu.Binutils

open RlCpu.Kernel RlCpu.Lib RlCpu.Sim

/-! ### Lines -/

/-- `oplist`, up to the empty string at its end. -/
def oplist : List Text :=
  ["nop", "addrf_b", "addrf_w", "iaddrf_b", "iaddrf_w", "addrl_b", "addrl_w", "iaddrl_b", "iaddrl_w", "cnst_b",
    "cnst_w", "icnst_b", "icnst_w", "addrs_b", "addrs_w", "iaddrs_b", "iaddrs_w", "indir", "indir2", "add", "add_b",
    "add_w", "add2", "sub", "sub_b", "sub_w", "sub2", "band", "band_b", "band_w", "band2", "bor", "bor_b", "bor_w",
    "bor2", "bxor", "bxor_b", "bxor_w", "bxor2", "lsh", "rsh", "eq_w", "ge_w", "gt_w", "le_w", "lt_w", "ne_w", "uge_w",
    "ugt_w", "ule_w", "ult_w", "call0_w", "call0", "call1_w", "call1", "call2_w", "call2", "ret", "jump_w", "jump",
    "discard_b", "discard_w", "alloc_b", "alloc_w", "store", "rstore", "store2", "rstore2", "dup", "ei", "di", "ec",
    "dc", "pushc", "pushap", "popap", "pushbp", "popbp", "loadsp_w", "iloadsp_w", "storesp_w", "istoresp_w",
    "syscall", "reti", "swp", "swp_b", "swp_w", "pops", "loads_w", "pushs", "incs", "decs", "popd", "loadd_w",
    "pushd", "incd", "decd", "sdm", "sdmi", "iostore", "iorstore", "iostore_b", "ioread", "ioread_b", "mmuon",
    "mmuoff", "pushmmu", "blink_w"].map String.toList

/-- `getOpIndex`: the operation; the names are in the order of the numbers. -/
def getOpIndex (op : Text) : Option Op := Op.all[oplist.idxOf op]?

example : oplist.length = Op.all.length := by decide

/-- `argType` -/
def argType (word : Text) : Suffix :=
  if word.drop (word.length - 2) = "_b".toList then .b
  else if word.drop (word.length - 2) = "_w".toList then .w
  else .none

/-- `ss >> word`, which leaves the word as it is where there is no other. -/
def nextWord (word ss : Text) : Text := if skipSpace ss = [] then word else (readWord ss).1

/-- The words of `.skip`; none where its number has no value. -/
def skipLine (ss : Text) : Option (List Word) := do
  let num ← (streamInt (some ss)).1
  return List.replicate num.toNat 0

/-- What a line does. -/
inductive Stmt
  | nothing
  | label (name : Name)
  | importLabel (name : Name)
  | exportLabel (name : Name)
  | setSection (sect : Sect)
  | words (ws : List AsmWord)

/-- A line that starts with a directive. -/
def directive (word ss : Text) : Option Stmt :=
  if word = ".label".toList then some (.label (nextWord word ss))
  else if word = ".import".toList then some (.importLabel (nextWord word ss))
  else if word = ".export".toList then some (.exportLabel (nextWord word ss))
  else if word = ".byte".toList then (byteLine ss).map fun ws => .words (ws.map .num)
  else if word = ".skip".toList then (skipLine ss).map fun ws => .words (ws.map .num)
  else if word = ".code".toList then some (.setSection .text)
  else if word = ".lit".toList ∨ word = ".data".toList ∨ word = ".bss".toList then some (.setSection .data)
  else if word = ".endproc".toList then some (.words [.num Op.ret.word])
  else if word = ".address".toList then some (.words [.label (nextWord word ss)])
  else some .nothing

/-- A line; none where the assembler stops with a message, or uses a number without a value. -/
def parseLine (line : Text) : Option Stmt :=
  let (word, ss) := readWord line
  match word with
  | [] => some .nothing
  | ';' :: _ => some .nothing
  | '.' :: _ => directive word ss
  | _ => do
    let opcode ← getOpIndex word
    let ws ← assemble opcode (argType word) (readWord ss).1
    return .words ws

example : parseLine "  cnst_b -3 ; x".toList = some (.words [.num (Op.cnstB.wordB (-3))]) := by rfl

/-! ### The assembly of a line -/

namespace Assembly

/-- The words of a section. -/
def code (asm : Assembly) : Sect → List Word
  | .text => asm.text.code
  | .data => asm.data.code

/-- The mark of a word. -/
def marked (asm : Assembly) (sect : Sect) (j : Nat) : Bool :=
  match sect with
  | .text => asm.text.labelMap.toList.getD j false
  | .data => asm.data.labelMap.toList.getD j false

/-- `labels[name]` -/
def entry (asm : Assembly) (name : Name) : AsmLabel := getEntry name asm.labels.entries

/-- `exportLabel` -/
def exportLabel (name : Name) (asm : Assembly) : Assembly :=
  asm.alter name fun entry => { entry with needExport := true }

/-- `output`, of words. -/
def outputs (ws : List Word) (asm : Assembly) : Assembly :=
  match asm.cSection with
  | .text => { asm with text := { asm.text with code := asm.text.code ++ ws } }
  | .data => { asm with data := { asm.data with code := asm.data.code ++ ws } }

/-- `align` -/
def align (asm : Assembly) : Assembly :=
  match asm.cSection with
  | .text => asm.outputs (List.replicate ((codeBlockSize - asm.text.code.length % codeBlockSize) % codeBlockSize) 0)
  | .data => asm

/-- `markLabelPosition`; behind the end of `labelMap` there is no check. -/
def markLabelPosition (asm : Assembly) : Option Assembly :=
  match asm.cSection with
  | .text =>
    if low : asm.text.code.length < textSpace then
      some { asm with text := { asm.text with labelMap := asm.text.labelMap.set asm.text.code.length true low } }
    else none
  | .data =>
    if low : asm.data.code.length < dataSpace then
      some { asm with data := { asm.data with labelMap := asm.data.labelMap.set asm.data.code.length true low } }
    else none

/-- A word that is put out: a number, or the number of a label, which is marked. -/
def put : AsmWord → Assembly → Option Assembly
  | .num w, asm => some (asm.outputs [w])
  | .label name, asm => do
    let asm := asm.newUid name
    let labelUid := (asm.entry name).uid
    let asm ← asm.markLabelPosition
    let asm := asm.outputs [BitVec.ofInt 16 labelUid]
    return asm.alter name fun entry => { entry with used := true }

/-- The words of a line. -/
def puts : List AsmWord → Assembly → Option Assembly
  | [], asm => some asm
  | w :: ws, asm => (asm.put w).bind (puts ws)

/-- What a line does to the assembly. -/
def runStmt : Stmt → Assembly → Option Assembly
  | .nothing, asm => some asm
  | .label name, asm => some (asm.align.regLabel name)
  | .importLabel name, asm => some (asm.importLabel name)
  | .exportLabel name, asm => some (asm.exportLabel name)
  | .setSection sect, asm => some { asm with cSection := sect }
  | .words ws, asm => asm.puts ws

/-- The loop of `main`, over the lines that end with a newline; what follows the last of them is not taken. -/
def runLines : List Text → Assembly → Option Assembly
  | [], asm => some asm
  | line :: lines, asm => do
    let stmt ← parseLine line
    let asm ← asm.runStmt stmt
    runLines lines asm

/-- `main`, up to `writeToFile`. -/
def assembleLines (lines : List Text) : Option Assembly := do
  let asm ← runLines lines empty
  let asm := ({ asm with cSection := .text } : Assembly).align
  return ({ asm with cSection := .data } : Assembly).align

end Assembly

/-! ### Names and positions -/

/-- The label that a word is the number of. -/
def AsmWord.name? : AsmWord → Option Name
  | .num _ => none
  | .label name => some name

/-- The names that a line defines. -/
def Stmt.defined : Stmt → List Name
  | .label name => [name]
  | _ => []

/-- The names that a line defines or uses. -/
def Stmt.mentions : Stmt → List Name
  | .label name => [name]
  | .words ws => ws.filterMap AsmWord.name?
  | _ => []

/-- The words between two positions that a label can have. -/
def Sect.unit : Sect → Nat
  | .text => codeBlockSize
  | .data => 1

/-! ### One word -/

/-- `labels[name']` where another label is changed. -/
theorem getEntry_alterEntry_ne {name name' : Name} {f : AsmLabel → AsmLabel} {entries : List (Name × AsmLabel)}
    (ne : name' ≠ name) : getEntry name' (alterEntry name f entries) = getEntry name' entries := by
  induction entries with
  | nil =>
    unfold alterEntry getEntry
    rw [if_neg ne, getEntry, ite_self]
  | cons label entries ih =>
    obtain ⟨key, entry⟩ := label
    unfold alterEntry
    by_cases same : name = key
    · subst same
      rw [if_pos rfl, getEntry, if_neg ne, getEntry, if_neg ne]
    · rw [if_neg same]
      by_cases before : name < key
      · rw [if_pos before, getEntry, if_neg ne]
        by_cases first : name' < name
        · have low := first.trans before
          rw [if_pos first, getEntry, if_neg low.ne, if_pos low]
        · rw [if_neg first]
      · rw [if_neg before, getEntry, getEntry, ih]

namespace Assembly

section Parts

variable {asm asm' : Assembly} {name name' : Name} {f : AsmLabel → AsmLabel} {sect : Sect}

theorem entry_alter : (asm.alter name f).entry name = f (asm.entry name) := getEntry_alterEntry

theorem entry_alter_ne (ne : name' ≠ name) : (asm.alter name f).entry name' = asm.entry name' :=
  getEntry_alterEntry_ne ne

/-- Words that are put out go to the end of the current section. -/
theorem outputs_code (asm : Assembly) (ws : List Word) (sect : Sect) :
    (asm.outputs ws).code sect = if sect = asm.cSection then asm.code sect ++ ws else asm.code sect := by
  unfold outputs
  cases here : asm.cSection <;> cases sect <;> rfl

theorem outputs_rest (asm : Assembly) (ws : List Word) :
    (asm.outputs ws).marked = asm.marked ∧ (asm.outputs ws).cSection = asm.cSection ∧
      (asm.outputs ws).labelUid = asm.labelUid ∧ (asm.outputs ws).entry = asm.entry := by
  unfold outputs
  cases asm.cSection <;> exact ⟨rfl, rfl, rfl, rfl⟩

/-- One more mark. -/
theorem set_getD {n i j : Nat} (map : Vector Bool n) (low : i < n) :
    (map.set i true low).toList.getD j false = true ↔ map.toList.getD j false = true ∨ j = i := by
  have inside : i < map.toList.length := by rwa [Vector.length_toList]
  rw [Vector.toList_set, List.getD_eq_getElem?_getD, List.getD_eq_getElem?_getD, List.getElem?_set]
  by_cases same : i = j
  · subst same
    rw [if_pos rfl, if_pos inside]
    exact iff_of_true rfl (Or.inr rfl)
  · rw [if_neg same]
    exact (or_iff_left (Ne.symm same)).symm

/-- **The next word is marked.** -/
theorem markLabelPosition_ok (done : asm.markLabelPosition = some asm') :
    (asm'.code = asm.code ∧ asm'.cSection = asm.cSection ∧ asm'.labelUid = asm.labelUid ∧ asm'.entry = asm.entry) ∧
      ∀ sect j, asm'.marked sect j = true ↔
        asm.marked sect j = true ∨ sect = asm.cSection ∧ j = (asm.code sect).length := by
  unfold markLabelPosition at done
  split at done
  · rename_i here
    split at done
    · rename_i low
      obtain rfl := Option.some.inj done
      refine ⟨⟨funext fun sect => by cases sect <;> rfl, rfl, rfl, rfl⟩, fun sect j => ?_⟩
      cases sect
      · exact (set_getD asm.text.labelMap low).trans (or_congr_right (and_iff_right here.symm).symm)
      · exact (or_iff_left fun both => by rw [here] at both; cases both.1).symm
    · cases done
  · rename_i here
    split at done
    · rename_i low
      obtain rfl := Option.some.inj done
      refine ⟨⟨funext fun sect => by cases sect <;> rfl, rfl, rfl, rfl⟩, fun sect j => ?_⟩
      cases sect
      · exact (or_iff_left fun both => by rw [here] at both; cases both.1).symm
      · exact (set_getD asm.data.labelMap low).trans (or_congr_right (and_iff_right here.symm).symm)
    · cases done

end Parts

/-! ### The numbers of labels -/

/-- **The numbers are given out in order**: the names of `names` have those below their count, each its own, and no
other name has one. -/
structure Numbered (asm : Assembly) (names : Finset Name) : Prop where
  count : asm.labelUid = names.card
  missing : ∀ name, (asm.entry name).uid = -1 ↔ name ∉ names
  range : ∀ name ∈ names, ∃ k < names.card, (asm.entry name).uid = (k : Nat)
  different : ∀ name ∈ names, ∀ name' ∈ names, (asm.entry name).uid = (asm.entry name').uid → name = name'

/-- Numbers stay what they are. -/
def KeepsNumbers (asm asm' : Assembly) : Prop :=
  ∀ name, (asm.entry name).uid ≠ -1 → (asm'.entry name).uid = (asm.entry name).uid

section Numbers

variable {asm asm' asm'' : Assembly} {name name' : Name} {names : Finset Name}

theorem KeepsNumbers.trans (first : KeepsNumbers asm asm') (second : KeepsNumbers asm' asm'') :
    KeepsNumbers asm asm'' :=
  fun name old => (second name (by rwa [first name old])).trans (first name old)

theorem Numbered.congr (numbered : Numbered asm names) (count : asm'.labelUid = asm.labelUid)
    (same : ∀ name, (asm'.entry name).uid = (asm.entry name).uid) : Numbered asm' names where
  count := count.trans numbered.count
  missing name := by rw [same]; exact numbered.missing name
  range name mem := by rw [same]; exact numbered.range name mem
  different name mem name' mem' equal := by
    rw [same, same] at equal
    exact numbered.different name mem name' mem' equal

/-- What `newUid` leaves alone. -/
theorem newUid_rest (asm : Assembly) (name : Name) :
    ((asm.newUid name).code = asm.code ∧ (asm.newUid name).marked = asm.marked ∧
      (asm.newUid name).cSection = asm.cSection) ∧
      ∀ name', ((asm.newUid name).entry name').position = (asm.entry name').position ∧
        ((asm.newUid name).entry name').sect = (asm.entry name').sect := by
  unfold newUid
  split
  · refine ⟨⟨rfl, rfl, rfl⟩, fun name' => ?_⟩
    show ((asm.alter name _).entry name').position = _ ∧ ((asm.alter name _).entry name').sect = _
    by_cases same : name' = name
    · rw [same, entry_alter]
      exact ⟨rfl, rfl⟩
    · rw [entry_alter_ne same]
      exact ⟨rfl, rfl⟩
  · exact ⟨⟨rfl, rfl, rfl⟩, fun _ => ⟨rfl, rfl⟩⟩

/-- After `newUid` the label has a number, and the others keep theirs. -/
theorem newUid_keeps (asm : Assembly) (name : Name) :
    KeepsNumbers asm (asm.newUid name) ∧ ((asm.newUid name).entry name).uid ≠ -1 := by
  by_cases new : (asm.entry name).uid = -1
  · rw [show asm.newUid name = _ from if_pos new]
    refine ⟨fun name' old => ?_, ?_⟩
    · show ((asm.alter name _).entry name').uid = _
      rw [entry_alter_ne fun same : name' = name => old (same ▸ new)]
    · show ((asm.alter name _).entry name).uid ≠ -1
      rw [entry_alter]
      show (asm.labelUid : Int) ≠ -1
      omega
  · rw [show asm.newUid name = _ from if_neg new]
    exact ⟨fun _ _ => rfl, new⟩

/-- **A new label takes the next number.** -/
theorem newUid_numbered (numbered : Numbered asm names) : Numbered (asm.newUid name) (insert name names) := by
  by_cases new : (asm.entry name).uid = -1
  · rw [show asm.newUid name = _ from if_pos new]
    have absent : name ∉ names := (numbered.missing name).mp new
    have here : ((asm.alter name fun entry => { entry with uid := asm.labelUid }).entry name).uid =
        (asm.labelUid : Int) := by
      rw [entry_alter]
    have other : ∀ name', name' ≠ name →
        (asm.alter name fun entry => { entry with uid := asm.labelUid }).entry name' = asm.entry name' :=
        fun name' ne =>
      entry_alter_ne ne
    have below : ∀ name' ∈ names, (asm.entry name').uid ≠ (asm.labelUid : Int) := fun name' mem same => by
      obtain ⟨k, low, uid⟩ := numbered.range name' mem
      rw [numbered.count] at same
      omega
    have ne : ∀ name' ∈ names, name' ≠ name := fun name' mem same => absent (same ▸ mem)
    refine ⟨?_, fun name' => ?_, fun name' mem => ?_, fun name' mem name'' mem' equal => ?_⟩
    · show asm.labelUid + 1 = _
      rw [Finset.card_insert_of_notMem absent, numbered.count]
    · show ((asm.alter name _).entry name').uid = -1 ↔ _
      by_cases same : name' = name
      · subst same
        rw [here]
        exact iff_of_false (by omega) (not_not.mpr (Finset.mem_insert_self _ _))
      · rw [other name' same, numbered.missing, Finset.mem_insert, or_iff_right same]
    · show ∃ k < _, ((asm.alter name _).entry name').uid = _
      rw [Finset.card_insert_of_notMem absent]
      obtain rfl | old := Finset.mem_insert.mp mem
      · exact ⟨names.card, Nat.lt_succ_self _, by rw [here, numbered.count]⟩
      · rw [other name' (ne name' old)]
        obtain ⟨k, low, uid⟩ := numbered.range name' old
        exact ⟨k, Nat.lt_succ_of_lt low, uid⟩
    · change ((asm.alter name _).entry name').uid = ((asm.alter name _).entry name'').uid at equal
      obtain rfl | old := Finset.mem_insert.mp mem
      · obtain rfl | old' := Finset.mem_insert.mp mem'
        · rfl
        · rw [here, other name'' (ne name'' old')] at equal
          exact absurd equal.symm (below name'' old')
      · obtain rfl | old' := Finset.mem_insert.mp mem'
        · rw [here, other name' (ne name' old)] at equal
          exact absurd equal (below name' old)
        · rw [other name' (ne name' old), other name'' (ne name'' old')] at equal
          exact numbered.different name' old name'' old' equal
  · rw [show asm.newUid name = _ from if_neg new]
    have present : name ∈ names := not_not.mp fun absent => new ((numbered.missing name).mpr absent)
    rw [Finset.insert_eq_self.mpr present]
    exact numbered

end Numbers

/-! ### The words of a line -/

/-- What putting out words does. -/
structure Put (asm asm' : Assembly) (ws : List AsmWord) : Prop where
  cSection : asm'.cSection = asm.cSection
  other : ∀ sect, sect ≠ asm.cSection → asm'.code sect = asm.code sect
  words : ∃ l, asm'.code asm.cSection = asm.code asm.cSection ++ l ∧ l.length = ws.length ∧
    ∀ (i : Nat) name, ws[i]? = some (.label name) → l[i]? = some (BitVec.ofInt 16 (asm'.entry name).uid)
  marks : ∀ sect j, asm'.marked sect j = true ↔ asm.marked sect j = true ∨
    sect = asm.cSection ∧ ∃ (i : Nat) (name : Name), ws[i]? = some (.label name) ∧ j = (asm.code sect).length + i
  places : ∀ name, (asm'.entry name).position = (asm.entry name).position ∧ (asm'.entry name).sect = (asm.entry name).sect
  keeps : KeepsNumbers asm asm'
  has : ∀ (i : Nat) name, ws[i]? = some (.label name) → (asm'.entry name).uid ≠ -1
  numbered : ∀ names, Numbered asm names → Numbered asm' (names ∪ (ws.filterMap AsmWord.name?).toFinset)

section Words

variable {asm asm' asm'' : Assembly} {w : AsmWord} {ws : List AsmWord}

theorem Put.nil (asm : Assembly) : Put asm asm [] where
  cSection := rfl
  other _ _ := rfl
  words := ⟨[], (List.append_nil _).symm, rfl, fun _ _ clash => by cases clash⟩
  marks _ _ := (or_iff_left fun both => by obtain ⟨-, _, _, clash, -⟩ := both; cases clash).symm
  places _ := ⟨rfl, rfl⟩
  keeps _ _ := rfl
  has _ _ clash := by cases clash
  numbered names numbered := by
    rw [List.filterMap_nil, List.toFinset_nil, Finset.union_empty]
    exact numbered

/-- A number. -/
theorem put_num (asm : Assembly) (val : Word) : Put asm (asm.outputs [val]) [.num val] := by
  obtain ⟨marked, cSection, count, entry⟩ := outputs_rest asm [val]
  have none : ∀ (i : Nat) (name : Name), [AsmWord.num val][i]? ≠ some (.label name) := fun i name clash => by
    cases i with
    | zero => cases clash
    | succ i => cases clash
  refine ⟨cSection, fun sect ne => by rw [outputs_code, if_neg ne], ⟨[val], by rw [outputs_code, if_pos rfl], rfl,
    fun i name clash => absurd clash (none i name)⟩, fun sect j => ?_, fun name => by rw [entry]; exact ⟨rfl, rfl⟩,
    fun name _ => by rw [entry], fun i name clash => absurd clash (none i name), fun names numbered => ?_⟩
  · rw [marked]
    exact (or_iff_left fun both => by obtain ⟨-, i, name, clash, -⟩ := both; exact none i name clash).symm
  · show Numbered _ (names ∪ ([] : List Name).toFinset)
    rw [List.toFinset_nil, Finset.union_empty]
    exact numbered.congr count fun name => by rw [entry]

/-- A label. -/
theorem put_label {name : Name} (done : asm.put (.label name) = some asm') : Put asm asm' [.label name] := by
  unfold put at done
  dsimp only at done
  obtain ⟨asm₂, marked, done⟩ := Option.bind_eq_some_iff.mp done
  obtain rfl := Option.some.inj done
  obtain ⟨⟨code₁, marked₁, cSection₁⟩, places₁⟩ := newUid_rest asm name
  obtain ⟨keeps₁, has₁⟩ := newUid_keeps asm name
  obtain ⟨⟨code₂, cSection₂, count₂, entry₂⟩, marks₂⟩ := markLabelPosition_ok marked
  obtain ⟨marked₃, cSection₃, count₃, entry₃⟩ := outputs_rest asm₂ [BitVec.ofInt 16 ((asm.newUid name).entry name).uid]
  have here : asm₂.cSection = asm.cSection := cSection₂.trans cSection₁
  have code : asm₂.code = asm.code := code₂.trans code₁
  have entry : ∀ name', let last :=
      ((asm₂.outputs [BitVec.ofInt 16 ((asm.newUid name).entry name).uid]).alter name fun entry =>
      { entry with used := true }).entry name'
      last.uid = ((asm.newUid name).entry name').uid ∧ last.position = (asm.entry name').position ∧
        last.sect = (asm.entry name').sect := fun name' => by
    dsimp only
    by_cases same : name' = name
    · rw [same, entry_alter, entry₃, entry₂]
      exact ⟨rfl, places₁ name⟩
    · rw [entry_alter_ne same, entry₃, entry₂]
      exact ⟨rfl, places₁ name'⟩
  have only : ∀ (i : Nat) (name' : Name), [AsmWord.label name][i]? = some (.label name') → i = 0 ∧ name' = name :=
    fun i name' word => by
      cases i with
      | zero => exact ⟨rfl, (AsmWord.label.inj (Option.some.inj word)).symm⟩
      | succ i => cases word
  refine ⟨cSection₃.trans here, fun sect ne => ?_, ⟨[BitVec.ofInt 16 ((asm.newUid name).entry name).uid], ?_, rfl,
    fun i name' word => ?_⟩, fun sect j => ?_, fun name' => (entry name').2, fun name' old => ?_, fun i name' word => ?_,
    fun names numbered => ?_⟩
  · show (asm₂.outputs _).code sect = _
    rw [outputs_code, if_neg fun same => ne (same.trans here), code]
  · show (asm₂.outputs _).code _ = _
    rw [outputs_code, if_pos here.symm, code]
  · obtain ⟨rfl, rfl⟩ := only i name' word
    rw [(entry name').1]
    rfl
  · show (asm₂.outputs _).marked sect j = true ↔ _
    rw [marked₃, marks₂, marked₁, cSection₁, code₁]
    refine or_congr_right (and_congr_right fun _ => ⟨fun same => ⟨0, name, rfl, same⟩, ?_⟩)
    rintro ⟨i, name', word, same⟩
    obtain ⟨rfl, -⟩ := only i name' word
    exact same
  · rw [(entry name').1]
    exact keeps₁ name' old
  · obtain ⟨-, rfl⟩ := only i name' word
    rw [(entry name').1]
    exact has₁
  · show Numbered _ (names ∪ [name].toFinset)
    rw [List.toFinset_cons, List.toFinset_nil, insert_empty_eq, Finset.union_comm, ← Finset.insert_eq]
    exact (newUid_numbered numbered).congr (count₃.trans count₂) fun name' => (entry name').1

theorem put_ok (done : asm.put w = some asm') : Put asm asm' [w] := by
  cases w with
  | num val =>
    obtain rfl := Option.some.inj done
    exact put_num asm val
  | label name => exact put_label done

/-- One word, and the others after it. -/
theorem Put.cons (first : Put asm asm' [w]) (rest : Put asm' asm'' ws) : Put asm asm'' (w :: ws) := by
  obtain ⟨l, code, length, labels⟩ := first.words
  obtain ⟨l', code', length', labels'⟩ := rest.words
  obtain ⟨val, rfl⟩ : ∃ val, l = [val] := List.length_eq_one_iff.mp length
  rw [first.cSection] at code'
  refine ⟨rest.cSection.trans first.cSection, fun sect ne => ?_,
    ⟨val :: l', ?_, congrArg (· + 1) length', fun i name word => ?_⟩,
    fun sect j => ?_, fun name => ?_, first.keeps.trans rest.keeps, fun i name word => ?_, fun names numbered => ?_⟩
  · exact (rest.other sect (first.cSection ▸ ne)).trans (first.other sect ne)
  · rw [code', code, List.append_assoc]
    rfl
  · cases i with
    | zero =>
      have word' := labels 0 name word
      rw [rest.keeps name (first.has 0 name word)]
      exact word'
    | succ i => exact labels' i name word
  · rw [rest.marks, first.marks, first.cSection, or_assoc, ← and_or_left]
    refine or_congr_right (and_congr_right fun here => ?_)
    subst here
    rw [code, List.length_append, List.length_singleton]
    constructor
    · rintro (⟨i, name, word, same⟩ | ⟨i, name, word, same⟩)
      · cases i with
        | zero => exact ⟨0, name, word, same⟩
        | succ i => cases word
      · exact ⟨i + 1, name, word, by omega⟩
    · rintro ⟨i, name, word, same⟩
      cases i with
      | zero => exact Or.inl ⟨0, name, word, same⟩
      | succ i => exact Or.inr ⟨i, name, word, by omega⟩
  · exact ⟨(rest.places name).1.trans (first.places name).1, (rest.places name).2.trans (first.places name).2⟩
  · cases i with
    | zero =>
      have some := first.has 0 name word
      rwa [rest.keeps name some]
    | succ i => exact rest.has i name word
  · have both := rest.numbered _ (first.numbered names numbered)
    rw [Finset.union_assoc, ← List.toFinset_append, ← List.filterMap_append] at both
    exact both

/-- **The words of a line.** By induction on them. -/
theorem puts_ok : ∀ (ws : List AsmWord) {asm asm' : Assembly}, asm.puts ws = some asm' → Put asm asm' ws := by
  intro ws
  induction ws with
  | nil =>
    intro asm asm' done
    obtain rfl := Option.some.inj done
    exact Put.nil asm
  | cons w ws ih =>
    intro asm asm' done
    obtain ⟨asm₁, first, rest⟩ := Option.bind_eq_some_iff.mp done
    exact (put_ok first).cons (ih rest)

end Words

/-! ### A line -/

/-- What a line does. -/
structure Ran (asm asm' : Assembly) (stmt : Stmt) : Prop where
  code : ∀ sect, asm.code sect <+: asm'.code sect
  other : ∀ sect, sect ≠ asm.cSection → asm'.code sect = asm.code sect
  marks : ∀ sect j, asm'.marked sect j = true ↔ asm.marked sect j = true ∨
    ∃ name ws i, stmt = .words ws ∧ ws[i]? = some (.label name) ∧ asm.cSection = sect ∧ j = (asm.code sect).length + i
  operands : ∀ ws i name, stmt = .words ws → ws[i]? = some (.label name) →
    (asm'.code asm.cSection)[(asm.code asm.cSection).length + i]? = some (BitVec.ofInt 16 (asm'.entry name).uid) ∧
      (asm'.entry name).uid ≠ -1
  label : ∀ name, stmt = .label name → ∃ pad, pad < asm.cSection.unit ∧
    asm'.code asm.cSection = asm.code asm.cSection ++ List.replicate pad 0 ∧ (asm'.entry name).sect = asm.cSection ∧
      (asm'.entry name).position * asm.cSection.unit = ((asm.code asm.cSection).length + pad : Nat)
  places : ∀ name, name ∉ stmt.defined →
    (asm'.entry name).position = (asm.entry name).position ∧ (asm'.entry name).sect = (asm.entry name).sect
  keeps : KeepsNumbers asm asm'
  numbered : ∀ names, Numbered asm names → Numbered asm' (names ∪ stmt.mentions.toFinset)

section Line

variable {asm asm' : Assembly} {name : Name} {stmt : Stmt}

/-- A line that puts out no words and defines no label. -/
theorem ran_quiet (code : asm'.code = asm.code) (marked : asm'.marked = asm.marked)
    (count : asm'.labelUid = asm.labelUid)
    (entry : ∀ name, (asm'.entry name).uid = (asm.entry name).uid ∧ (asm'.entry name).position = (asm.entry name).position ∧
      (asm'.entry name).sect = (asm.entry name).sect)
    (noWords : ∀ ws, stmt ≠ .words ws) (noLabel : ∀ name, stmt ≠ .label name) (none : stmt.mentions = []) :
    Ran asm asm' stmt where
  code sect := code ▸ List.prefix_rfl
  other sect _ := code ▸ rfl
  marks sect j := by
    rw [marked]
    exact (or_iff_left fun some => by obtain ⟨_, ws, _, same, -⟩ := some; exact noWords ws same).symm
  operands ws _ _ same := absurd same (noWords ws)
  label name same := absurd same (noLabel name)
  places name _ := (entry name).2
  keeps name _ := (entry name).1
  numbered names numbered := by
    rw [none, List.toFinset_nil, Finset.union_empty]
    exact numbered.congr count fun name => (entry name).1

/-- A flag of a label. -/
theorem ran_flag {f : AsmLabel → AsmLabel}
    (flag : ∀ entry, (f entry).uid = entry.uid ∧ (f entry).position = entry.position ∧
    (f entry).sect = entry.sect) (noWords : ∀ ws, stmt ≠ .words ws) (noLabel : ∀ name, stmt ≠ .label name)
    (none : stmt.mentions = []) : Ran asm (asm.alter name f) stmt := by
  refine ran_quiet rfl rfl rfl (fun name' => ?_) noWords noLabel none
  by_cases same : name' = name
  · rw [same, entry_alter]
    exact flag _
  · rw [entry_alter_ne same]
    exact ⟨rfl, rfl, rfl⟩

/-- What `align` does: zeros are put out, up to a position that a label can have. -/
theorem align_spec (asm : Assembly) : ∃ pad, pad < asm.cSection.unit ∧ asm.align = asm.outputs (List.replicate pad 0) ∧
    (asm.align.nextPosition * asm.cSection.unit = ((asm.code asm.cSection).length + pad : Nat)) := by
  unfold align
  split
  · rename_i here
    rw [here]
    refine ⟨(codeBlockSize - asm.text.code.length % codeBlockSize) % codeBlockSize, Nat.mod_lt _ (by decide), rfl, ?_⟩
    show _ = ((asm.text.code.length + (codeBlockSize - asm.text.code.length % codeBlockSize) % codeBlockSize : Nat) : Int)
    generalize pad : (codeBlockSize - asm.text.code.length % codeBlockSize) % codeBlockSize = n
    have next : (asm.outputs (List.replicate n 0)).nextPosition =
        ((asm.text.code.length + n) / codeBlockSize : Nat) := by
      unfold outputs nextPosition
      rw [here]
      dsimp only
      rw [List.length_append, List.length_replicate]
    rw [next]
    show (((asm.text.code.length + n) / 8 : Nat) : Int) * (8 : Nat) = ((asm.text.code.length + n : Nat) : Int)
    change (8 - asm.text.code.length % 8) % 8 = n at pad
    omega
  · rename_i here
    rw [here]
    refine ⟨0, Nat.one_pos, ?_, ?_⟩
    · unfold outputs
      rw [here]
      dsimp only
      rw [List.replicate_zero, List.append_nil, ← here]
    · unfold nextPosition
      rw [here]
      exact Int.mul_one _

/-- **A definition**: zeros, and a label at the next word. -/
theorem ran_label (asm : Assembly) (name : Name) : Ran asm (asm.align.regLabel name) (.label name) := by
  obtain ⟨pad, low, aligned, next⟩ := align_spec asm
  obtain ⟨marked, cSection, count, entry⟩ := outputs_rest asm (List.replicate pad 0)
  obtain ⟨⟨code₁, marked₁, cSection₁⟩, places₁⟩ := newUid_rest asm.align name
  obtain ⟨keeps₁, -⟩ := newUid_keeps asm.align name
  have here : (asm.align.regLabel name).entry name =
      { (asm.align.newUid name).entry name with position := asm.align.nextPosition, sect := asm.align.cSection } :=
    entry_alter
  have other : ∀ name', name' ≠ name → (asm.align.regLabel name).entry name' = (asm.align.newUid name).entry name' :=
    fun name' ne => entry_alter_ne ne
  have code : ∀ sect, (asm.align.regLabel name).code sect =
      if sect = asm.cSection then asm.code sect ++ List.replicate pad 0 else asm.code sect := fun sect => by
    show (asm.align.newUid name).code sect = _
    rw [code₁, aligned, outputs_code]
  have uids : ∀ name', ((asm.align.regLabel name).entry name').uid = ((asm.align.newUid name).entry name').uid :=
      fun name' => by
    by_cases same : name' = name
    · rw [same, here]
    · rw [other name' same]
  refine ⟨fun sect => ?_, fun sect ne => ?_, fun sect j => ?_, fun ws i name' clash => ?_, fun name' same => ?_,
    fun name' differ => ?_, fun name' old => ?_, fun names numbered => ?_⟩
  · rw [code]
    split
    · exact List.prefix_append _ _
    · exact List.prefix_rfl
  · rw [code, if_neg ne]
  · show (asm.align.newUid name).marked sect j = true ↔ _
    rw [marked₁, aligned, marked]
    exact (or_iff_left fun some => by obtain ⟨_, _, _, clash, -⟩ := some; cases clash).symm
  · cases clash
  · obtain rfl := Stmt.label.inj same
    refine ⟨pad, low, by rw [code, if_pos rfl], ?_, ?_⟩
    · rw [here, aligned, cSection]
    · rw [here]
      exact next
  · have ne : name' ≠ name := fun same => differ (same ▸ List.mem_singleton_self name)
    rw [other name' ne]
    obtain ⟨position, sect⟩ := places₁ name'
    rw [aligned, entry] at position sect
    rw [aligned]
    exact ⟨position, sect⟩
  · rw [uids, keeps₁ name' (by rwa [aligned, entry]), aligned, entry]
  · have numbered' : Numbered asm.align names := numbered.congr (by rw [aligned, count]) fun name' => by rw [aligned, entry]
    show Numbered _ (names ∪ [name].toFinset)
    rw [List.toFinset_cons, List.toFinset_nil, insert_empty_eq, Finset.union_comm, ← Finset.insert_eq]
    exact (newUid_numbered numbered').congr rfl uids

/-- **Every line.** One case for each kind. -/
theorem runStmt_ran (done : asm.runStmt stmt = some asm') : Ran asm asm' stmt := by
  cases stmt with
  | nothing =>
    obtain rfl := Option.some.inj done
    exact ran_quiet rfl rfl rfl (fun _ => ⟨rfl, rfl, rfl⟩) nofun nofun rfl
  | label name =>
    obtain rfl := Option.some.inj done
    exact ran_label asm name
  | importLabel name =>
    obtain rfl := Option.some.inj done
    exact ran_flag (fun _ => ⟨rfl, rfl, rfl⟩) nofun nofun rfl
  | exportLabel name =>
    obtain rfl := Option.some.inj done
    exact ran_flag (fun _ => ⟨rfl, rfl, rfl⟩) nofun nofun rfl
  | setSection sect =>
    obtain rfl := Option.some.inj done
    refine ran_quiet (funext fun sect' => by cases sect' <;> rfl) (funext fun sect' => by cases sect' <;> rfl) rfl
      (fun _ => ⟨rfl, rfl, rfl⟩) nofun nofun rfl
  | words ws =>
    have put := puts_ok ws done
    obtain ⟨l, code, length, labels⟩ := put.words
    refine ⟨fun sect => ?_, put.other, fun sect j => ?_, fun ws' i name same word => ?_, nofun,
      fun name _ => put.places name,
      put.keeps, put.numbered⟩
    · by_cases here : sect = asm.cSection
      · rw [here, code]
        exact List.prefix_append _ _
      · rw [put.other sect here]
    · rw [put.marks]
      refine or_congr_right ⟨?_, ?_⟩
      · rintro ⟨here, i, name, word, same⟩
        exact ⟨name, ws, i, rfl, word, here.symm, same⟩
      · rintro ⟨name, ws', i, same, word, here, same'⟩
        obtain rfl := Stmt.words.inj same
        exact ⟨here.symm, i, name, word, same'⟩
    · obtain rfl := Stmt.words.inj same
      refine ⟨?_, put.has i name word⟩
      rw [code, List.getElem?_append_right (Nat.le_add_right _ _), Nat.add_sub_cancel_left]
      exact labels i name word

end Line

end Assembly

end RlCpu.Binutils
