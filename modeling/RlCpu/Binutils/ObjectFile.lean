/-
**Object files (`Assembly` of `assembler.cpp`, `loadFile` of `linker.cpp`).**

The assembler keeps a text section, a data section and a map of labels, and writes them to a file: a header
with three sizes, the labels, and for each section its marks and its words, at a fixed length. A label that is
imported and is no operand is left out. The linker reads the file with a program of its own.

* `loadFile_writeToFile`: it finds the words, the marks, and the labels that are used or are no imports.
* `uid_lost`: a label keeps its `uid` modulo `2^16` only.
-/

import RlCpu.Binutils.Image
import Mathlib.Data.Char
import Mathlib.Data.List.Lex

namespace RlCpu.Binutils

open RlCpu.Kernel RlCpu.Lib

/-- `text_space` -/
abbrev textSpace : Nat := 0x80000

/-- `data_space` -/
abbrev dataSpace : Nat := 0x10000

/-! ### The assembler -/

/-- `LabelEntry` of the assembler; its flags are only ever set. -/
structure AsmLabel where
  sect : Sect := .text
  uid : Int := -1
  position : Int := -1
  needExport : Bool := false
  needImport : Bool := false
  used : Bool := false
  deriving DecidableEq, Repr

/-- `Section` of the assembler: its `labelMap` has the size that the constructor of `Assembly` gives it. -/
structure AsmSection (space : Nat) where
  labelMap : Vector Bool space
  code : List Word

/-- `Assembly::labels`: a map lists its entries in the order of their names. -/
structure AsmLabels where
  entries : List (Name × AsmLabel)
  sorted : entries.Pairwise fun l l' => l.1 < l'.1

/-- `Assembly` -/
structure Assembly where
  text : AsmSection textSpace
  data : AsmSection dataSpace
  cSection : Sect
  labelUid : Nat
  labels : AsmLabels

/-! ### `writeToFile` -/

/-- `needImport` of a label in the file: one without a position is an import too. -/
def AsmLabel.isImport (entry : AsmLabel) : Bool := if entry.position < 0 then true else entry.needImport

/-- A label that is left out: it is imported, and no operand. -/
def AsmLabel.leftOut (entry : AsmLabel) : Bool := entry.isImport && !entry.used

/-- A character of a name. -/
def charByte (c : Char) : Byte := BitVec.ofNat 8 c.toNat

/-- A flag. -/
def flagByte (flag : Bool) : Byte := if flag then 1 else 0

/-- The number of a section. -/
def Sect.byte : Sect → Byte
  | .text => 0
  | .data => 1

/-- The bytes of a label, after its name. -/
def AsmLabel.bytes (entry : AsmLabel) : List Byte :=
  wordBytes (BitVec.ofInt 16 entry.uid) ++ wordBytes (BitVec.ofInt 16 entry.position) ++
    [entry.sect.byte, flagByte entry.isImport, flagByte entry.needExport]

/-- `convertLabelsTo8` -/
def convertLabelsTo8 : List (Name × AsmLabel) → List Byte
  | [] => []
  | (labelName, entry) :: rest =>
    if entry.leftOut then convertLabelsTo8 rest
    else labelName.map charByte ++ 0 :: entry.bytes ++ convertLabelsTo8 rest

/-- `convert16to8`, into a buffer of `size` bytes that is zero at first. -/
def convert16to8 (code : List Word) (size : Nat) : List Byte :=
  code.flatMap wordBytes ++ List.replicate (size - 2 * code.length) 0

/-- `header` of an object file. -/
def objHeader : List Byte := ['R', 'O', 'B', 'J'].map charByte

/-- `writeToFile` -/
def Assembly.writeToFile (asm : Assembly) : List Byte :=
  let labelFull := convertLabelsTo8 asm.labels.entries
  objHeader ++
    [BitVec.ofNat 8 (asm.text.code.length / 65536), BitVec.ofNat 8 (asm.text.code.length / 256),
      BitVec.ofNat 8 asm.text.code.length] ++
    [BitVec.ofNat 8 (asm.data.code.length / 256), BitVec.ofNat 8 asm.data.code.length] ++
    [BitVec.ofNat 8 (labelFull.length / 256), BitVec.ofNat 8 labelFull.length] ++
    (labelFull ++ (asm.text.labelMap.toList.map flagByte ++ (convert16to8 asm.text.code (textSpace * 2) ++
      (asm.data.labelMap.toList.map flagByte ++ convert16to8 asm.data.code (dataSpace * 2)))))

/-! ### `loadFile` -/

/-- What keeps a file from being loaded: `Bad file`, a file that ends too early, and labels that are no
labels. -/
inductive LoadError
  | badFile
  | short
  | badLabels
  deriving DecidableEq, Repr

/-- A file that is read from its front. -/
abbrev ReadM := StateT (List Byte) (Except LoadError)

/-- `file.read` -/
def fileRead (size : Nat) : ReadM (List Byte) := fun file =>
  if size ≤ file.length then .ok (file.take size, file.drop size) else .error .short

/-- A number of bytes, the highest first. -/
def bigEndian (bytes : List Byte) : Nat := bytes.foldl (fun n b => n * 256 + b.toNat) 0

/-- `convert8to16` -/
def convert8to16 : (len : Nat) → List Byte → List Word
  | len + 1, high :: low :: src => word16 high low :: convert8to16 len src
  | _, _ => []

/-- A section as it is read; its `offset` is not set before `computeOffsets`. -/
def readSection (offset : Nat) (labelMap : List Byte) (code : List Word) : Section where
  labelMap := fun j => labelMap.getD j 0 ≠ 0
  code := code
  offset := offset

/-- `loadFile` -/
def loadFile (offset : Nat) : ReadM Obj := do
  let header ← fileRead 4
  if header ≠ objHeader then throw .badFile
  let textSize ← bigEndian <$> fileRead 3
  let dataSize ← bigEndian <$> fileRead 2
  let labelFullLen ← bigEndian <$> fileRead 2
  let labelFull ← fileRead labelFullLen
  let textMap ← fileRead textSpace
  let textFull ← fileRead (textSpace * 2)
  let dataMap ← fileRead dataSpace
  let dataFull ← fileRead (dataSpace * 2)
  match convert8ToLabels [] labelFullLen labelFull with
  | some labels =>
    return {
      text := readSection offset textMap (convert8to16 textSize textFull)
      data := readSection offset dataMap (convert8to16 dataSize dataFull)
      labels := labels }
  | none => throw .badLabels

/-! ### Reading what was written -/

section Reading

variable {β : Type}

/-- A part of a file that has the size asked for. -/
theorem fileRead_bind {size : Nat} {part : List Byte} (whole : part.length = size) (rest : List Byte)
    (k : List Byte → ReadM β) : (fileRead size >>= k) (part ++ rest) = k part rest := by
  have read : fileRead size (part ++ rest) = .ok (part, rest) := by
    unfold fileRead
    rw [if_pos (by rw [List.length_append]; omega), List.take_left' whole, List.drop_left' whole]
  change (fileRead size (part ++ rest) >>= fun x => k x.1 x.2) = _
  rw [read]
  rfl

/-- A size. -/
theorem fileRead_map (size : Nat) {n : Nat} {part : List Byte} (whole : part.length = size) (value : bigEndian part = n)
    (rest : List Byte) (k : Nat → ReadM β) :
    (bigEndian <$> fileRead size >>= k) (part ++ rest) = k n rest := by
  rw [bind_map_left, fileRead_bind whole, value]

/-- The end of a file. -/
theorem fileRead_bind_last {size : Nat} {part : List Byte} (whole : part.length = size) (k : List Byte → ReadM β) :
    (fileRead size >>= k) part = k part [] := by
  have read := fileRead_bind whole [] k
  rwa [List.append_nil] at read

end Reading

/-- Two bytes of a size. -/
theorem bigEndian_two {n : Nat} (fits : n < 0x10000) :
    bigEndian [BitVec.ofNat 8 (n / 256), BitVec.ofNat 8 n] = n := by
  simp only [bigEndian, List.foldl, BitVec.toNat_ofNat]
  omega

/-- Three bytes of a size. -/
theorem bigEndian_three {n : Nat} (fits : n < 0x1000000) :
    bigEndian [BitVec.ofNat 8 (n / 65536), BitVec.ofNat 8 (n / 256), BitVec.ofNat 8 n] = n := by
  simp only [bigEndian, List.foldl, BitVec.toNat_ofNat]
  omega

theorem wordBytes_length (code : List Word) : (code.flatMap wordBytes).length = 2 * code.length := by
  induction code with
  | nil => rfl
  | cons w code ih =>
    rw [List.flatMap_cons, List.length_append, ih, List.length_cons]
    exact Nat.add_comm 2 _

theorem convert16to8_length {code : List Word} {size : Nat} (fits : 2 * code.length ≤ size) :
    (convert16to8 code size).length = size := by
  unfold convert16to8
  rw [List.length_append, wordBytes_length, List.length_replicate]
  omega

/-- The words come back. -/
theorem convert8to16_convert16to8 (code : List Word) (size : Nat) :
    convert8to16 code.length (convert16to8 code size) = code := by
  have words : ∀ (code : List Word) (rest : List Byte),
      convert8to16 code.length (code.flatMap wordBytes ++ rest) = code := by
    intro code rest
    induction code with
    | nil => rfl
    | cons w code ih =>
      change word16 (w.extractLsb' 8 8) (w.extractLsb' 0 8) ::
        convert8to16 code.length (code.flatMap wordBytes ++ rest) = w :: code
      rw [ih]
      exact congrArg (· :: code) (wordBytes_word w)
  exact words code _

/-- The marks come back. -/
theorem readSection_labelMap {space : Nat} (labelMap : Vector Bool space) (offset : Nat) (code : List Word) (j : Nat) :
    (readSection offset (labelMap.toList.map flagByte) code).labelMap j = labelMap.toList.getD j false := by
  unfold readSection
  dsimp only
  rw [List.getD_eq_getElem?_getD, List.getD_eq_getElem?_getD, List.getElem?_map]
  cases labelMap.toList[j]? with
  | none => rfl
  | some flag => cases flag <;> rfl

/-! ### One label -/

/-- **A name that the format can hold**: its characters are bytes, none of them is zero, and its shift is a sum
of constants. -/
structure Storable (name : Name) : Prop where
  bytes : ∀ c ∈ name, 0 < c.toNat ∧ c.toNat < 256
  shifted : ∃ n, Shifted name n

/-- The label that is read. -/
def AsmLabel.loaded (entry : AsmLabel) (shift : Int) : LabelEntry where
  sect := entry.sect
  uid := BitVec.ofInt 16 entry.uid
  position := entry.position % 0x10000
  needExport := entry.needExport.toNat
  needImport := entry.isImport.toNat
  shift := shift

theorem charByte_char {c : Char} (byte : c.toNat < 256) : Char.ofNat (charByte c).toNat = c := by
  unfold charByte
  rw [BitVec.toNat_ofNat, Nat.mod_eq_of_lt byte, Char.ofNat_toNat]

theorem charByte_ne_zero {c : Char} (byte : 0 < c.toNat ∧ c.toNat < 256) : charByte c ≠ 0 := by
  intro zero
  have value := congrArg BitVec.toNat zero
  unfold charByte at value
  rw [BitVec.toNat_ofNat, Nat.mod_eq_of_lt byte.2] at value
  exact byte.1.ne' value

/-- The name of a label. -/
theorem takeWhile_name {name : Name} (bytes : ∀ c ∈ name, 0 < c.toNat ∧ c.toNat < 256) (rest : List Byte) :
    (name.map charByte ++ 0 :: rest).takeWhile (· ≠ 0) = name.map charByte := by
  rw [List.takeWhile_append_of_pos]
  · exact List.append_nil _
  · intro b here
    obtain ⟨c, mem, rfl⟩ := List.mem_map.mp here
    exact decide_eq_true (charByte_ne_zero (bytes c mem))

theorem map_charByte {name : Name} (bytes : ∀ c ∈ name, 0 < c.toNat ∧ c.toNat < 256) :
    (name.map charByte).map (fun b => Char.ofNat b.toNat) = name := by
  rw [List.map_map]
  refine (List.map_congr_left fun c here => ?_).trans (List.map_id name)
  exact charByte_char (bytes c here).2

theorem flagByte_toNat (flag : Bool) : (flagByte flag).toNat = flag.toNat := by
  cases flag <;> rfl

theorem sect_ofByte (sect : Sect) : Sect.ofByte sect.byte = some sect := by
  cases sect <;> rfl

theorem ofInt_toNat (n : Int) : ((BitVec.ofInt 16 n).toNat : Int) = n % 0x10000 := by
  rw [BitVec.toNat_ofInt]
  omega

/-- **One label comes back.** -/
theorem readLabel_label {name : Name} {shift : Int} (entry : AsmLabel)
    (bytes : ∀ c ∈ name, 0 < c.toNat ∧ c.toNat < 256) (shifted : Shifted name shift) (rest : List Byte) :
    readLabel (name.map charByte ++ 0 :: entry.bytes ++ rest) = some (name, entry.loaded (int32 shift), rest) := by
  have after : (name.map charByte ++ 0 :: entry.bytes ++ rest).drop (name.length + 1) = entry.bytes ++ rest := by
    have whole : name.map charByte ++ 0 :: entry.bytes ++ rest =
        (name.map charByte ++ [0]) ++ (entry.bytes ++ rest) := by
      simp only [List.append_assoc, List.cons_append, List.nil_append]
    rw [whole, List.drop_left' (by rw [List.length_append, List.length_map]; rfl)]
  have front : ((name.map charByte ++ 0 :: entry.bytes ++ rest).takeWhile (· ≠ 0)).map
      (fun b => Char.ofNat b.toNat) = name := by
    rw [List.append_assoc, List.cons_append, takeWhile_name bytes, map_charByte bytes]
  unfold readLabel
  dsimp only
  rw [front, after]
  dsimp only [AsmLabel.bytes, wordBytes, List.cons_append, List.nil_append]
  rw [sect_ofByte, labelShift_shifted shifted]
  unfold AsmLabel.loaded word16
  dsimp only [Option.bind_eq_bind, Option.bind_some, Option.pure_def]
  rw [wordBytes_word, wordBytes_word, ofInt_toNat, flagByte_toNat, flagByte_toNat]

/-! ### The labels of a file -/

/-- A label behind all others goes to the end. -/
theorem setLabel_last {labels : LabelMap} {name : Name} (entry : LabelEntry)
    (last : ∀ l ∈ labels, l.1 < name) : setLabel name entry labels = labels ++ [(name, entry)] := by
  induction labels with
  | nil => rfl
  | cons label labels ih =>
    obtain ⟨key, old⟩ := label
    have before : key < name := last (key, old) List.mem_cons_self
    unfold setLabel
    rw [if_neg before.ne', if_neg before.asymm, ih fun l here => last l (List.mem_cons_of_mem _ here)]
    rfl

/-- The labels that are read: those that are not left out. -/
def loadedLabels (entries : List (Name × AsmLabel)) : LabelMap :=
  (entries.filter fun l => !l.2.leftOut).map fun l => (l.1, l.2.loaded ((labelShift l.1).getD 0))

theorem loadedLabels_leftOut {name : Name} {entry : AsmLabel} {entries : List (Name × AsmLabel)}
    (out : entry.leftOut = true) : loadedLabels ((name, entry) :: entries) = loadedLabels entries := by
  unfold loadedLabels
  rw [List.filter_cons_of_neg (by simpa using out)]

theorem loadedLabels_written {name : Name} {entry : AsmLabel} {entries : List (Name × AsmLabel)}
    (out : ¬ entry.leftOut = true) :
    loadedLabels ((name, entry) :: entries) =
      (name, entry.loaded ((labelShift name).getD 0)) :: loadedLabels entries := by
  unfold loadedLabels
  rw [List.filter_cons_of_pos (by simpa using out)]
  rfl

theorem labelBytes_length (name : Name) (entry : AsmLabel) :
    0 < (name.map charByte ++ 0 :: entry.bytes).length := by
  rw [List.length_append, List.length_cons]
  omega

/-- **The labels come back**, behind those that are there, with fuel for every byte. -/
theorem convert8ToLabels_loaded {entries : List (Name × AsmLabel)} {done : LabelMap} {fuel : Nat}
    (sorted : entries.Pairwise fun l l' => l.1 < l'.1) (before : ∀ l ∈ done, ∀ l' ∈ entries, l.1 < l'.1)
    (storable : ∀ l ∈ entries, Storable l.1) (enough : (convertLabelsTo8 entries).length ≤ fuel) :
    convert8ToLabels done fuel (convertLabelsTo8 entries) = some (done ++ loadedLabels entries) := by
  induction entries generalizing done fuel with
  | nil =>
    change convert8ToLabels done fuel [] = some (done ++ [])
    unfold convert8ToLabels
    rw [List.append_nil]
  | cons label entries ih =>
    obtain ⟨name, entry⟩ := label
    obtain ⟨first, sorted⟩ := List.pairwise_cons.mp sorted
    have storable' : ∀ l ∈ entries, Storable l.1 := fun l here => storable l (List.mem_cons_of_mem _ here)
    have before' : ∀ l ∈ done, ∀ l' ∈ entries, l.1 < l'.1 := fun l here l' here' =>
      before l here l' (List.mem_cons_of_mem _ here')
    by_cases out : entry.leftOut = true
    · have bytes : convertLabelsTo8 ((name, entry) :: entries) = convertLabelsTo8 entries := if_pos out
      rw [bytes] at enough ⊢
      rw [loadedLabels_leftOut out]
      exact ih sorted before' storable' enough
    · have bytes : convertLabelsTo8 ((name, entry) :: entries) =
          name.map charByte ++ 0 :: entry.bytes ++ convertLabelsTo8 entries := if_neg out
      obtain ⟨plain, n, shifted⟩ := storable (name, entry) List.mem_cons_self
      have positive := labelBytes_length name entry
      rw [bytes, List.length_append] at enough
      obtain ⟨fuel, rfl⟩ : ∃ f, fuel = f + 1 := ⟨fuel - 1, by omega⟩
      have last : setLabel name (entry.loaded (int32 n)) done = done ++ [(name, entry.loaded (int32 n))] :=
        setLabel_last _ fun l here => before l here (name, entry) List.mem_cons_self
      have step : convert8ToLabels done (fuel + 1) (convertLabelsTo8 ((name, entry) :: entries)) =
          convert8ToLabels (done ++ [(name, entry.loaded (int32 n))]) fuel (convertLabelsTo8 entries) := by
        rw [bytes, ← last]
        obtain ⟨b, rest, front⟩ := List.exists_cons_of_length_pos positive
        have read := readLabel_label entry plain shifted (convertLabelsTo8 entries)
        rw [front, List.cons_append] at read ⊢
        have one : convert8ToLabels done (fuel + 1) (b :: (rest ++ convertLabelsTo8 entries)) =
            (readLabel (b :: (rest ++ convertLabelsTo8 entries))).bind fun x =>
              convert8ToLabels (setLabel x.1 x.2.1 done) fuel x.2.2 := rfl
        rw [one, read]
        rfl
      have behind : ∀ l ∈ done ++ [(name, entry.loaded (int32 n))], ∀ l' ∈ entries, l.1 < l'.1 := by
        intro l here l' here'
        obtain here | here := List.mem_append.mp here
        · exact before' l here l' here'
        · obtain rfl := List.mem_singleton.mp here
          exact first l' here'
      rw [step, ih sorted behind storable' (by omega), loadedLabels_written out, labelShift_shifted shifted,
        List.append_assoc]
      rfl

/-! ### The file -/

section File

variable {asm : Assembly}

/-- **A file that can be loaded**: what the format has room for. -/
structure Assembly.Fits (asm : Assembly) : Prop where
  data : asm.data.code.length < 0x10000
  text : asm.text.code.length ≤ 0x80000
  block : (convertLabelsTo8 asm.labels.entries).length ≤ 0xffff
  names : ∀ l ∈ asm.labels.entries, Storable l.1

/-- **The file comes back**, as the linker has it. -/
theorem loadFile_eq (fits : asm.Fits) (offset : Nat) :
    loadFile offset asm.writeToFile = .ok
      ({ text := readSection offset (asm.text.labelMap.toList.map flagByte) asm.text.code
         data := readSection offset (asm.data.labelMap.toList.map flagByte) asm.data.code
         labels := loadedLabels asm.labels.entries }, []) := by
  have labels : convert8ToLabels [] (convertLabelsTo8 asm.labels.entries).length
      (convertLabelsTo8 asm.labels.entries) = some (loadedLabels asm.labels.entries) :=
    convert8ToLabels_loaded asm.labels.sorted (fun l here => by cases here) fits.names le_rfl
  have text : (convert16to8 asm.text.code (textSpace * 2)).length = textSpace * 2 :=
    convert16to8_length (by have := fits.text; unfold textSpace; omega)
  have data : (convert16to8 asm.data.code (dataSpace * 2)).length = dataSpace * 2 :=
    convert16to8_length (by have := fits.data; unfold dataSpace; omega)
  have textMap : (asm.text.labelMap.toList.map flagByte).length = textSpace := by
    rw [List.length_map, Vector.length_toList]
  have dataMap : (asm.data.labelMap.toList.map flagByte).length = dataSpace := by
    rw [List.length_map, Vector.length_toList]
  unfold loadFile Assembly.writeToFile
  dsimp only
  simp only [List.append_assoc]
  rw [fileRead_bind (show objHeader.length = 4 from rfl), if_neg (fun differ => differ rfl),
    fileRead_map 3 rfl (bigEndian_three (by have := fits.text; omega)),
    fileRead_map 2 rfl (bigEndian_two fits.data), fileRead_map 2 rfl (bigEndian_two (by have := fits.block; omega)),
    fileRead_bind rfl, fileRead_bind textMap, fileRead_bind text, fileRead_bind dataMap, fileRead_bind_last data,
    labels, convert8to16_convert16to8, convert8to16_convert16to8]
  rfl

/-- A label counts as an import when it is declared so or has no position. -/
def AsmLabel.Imported (entry : AsmLabel) : Prop := entry.needImport = true ∨ entry.position < 0

/-- **What is read of a label.** -/
structure AsmLabel.Describes (name : Name) (entry : AsmLabel) (read : LabelEntry) : Prop where
  sect : read.sect = entry.sect
  uid : (read.uid.toNat : Int) = entry.uid % 0x10000
  position : read.position = entry.position % 0x10000
  needExport : read.needExport = entry.needExport.toNat
  needImport : read.needImport = 1 ∧ entry.Imported ∨ read.needImport = 0 ∧ ¬ entry.Imported
  shift : ∃ n, Shifted name n ∧ read.shift = int32 n

/-- **The table of a file**: one entry for each label that is an operand or is no import, under its name. -/
structure Assembly.Table (asm : Assembly) (labels : LabelMap) : Prop where
  names : labels.Pairwise fun l l' => l.1 < l'.1
  entries : ∀ name read, (name, read) ∈ labels ↔ ∃ entry, (name, entry) ∈ asm.labels.entries ∧
    (entry.used = true ∨ ¬ entry.Imported) ∧ entry.Describes name read

theorem isImport_iff (entry : AsmLabel) : entry.isImport = true ↔ entry.Imported := by
  unfold AsmLabel.isImport AsmLabel.Imported
  split
  case isTrue low => exact iff_of_true rfl (Or.inr low)
  case isFalse high => exact ⟨Or.inl, fun either => either.resolve_right high⟩

theorem leftOut_iff (entry : AsmLabel) : entry.leftOut = false ↔ (entry.used = true ∨ ¬ entry.Imported) := by
  rw [← isImport_iff]
  unfold AsmLabel.leftOut
  cases entry.isImport <;> cases entry.used <;> decide

theorem loaded_describes {name : Name} {n : Int} (entry : AsmLabel) (shifted : Shifted name n) :
    entry.Describes name (entry.loaded (int32 n)) where
  sect := rfl
  uid := ofInt_toNat entry.uid
  position := rfl
  needExport := rfl
  needImport := by
    rw [← isImport_iff]
    unfold AsmLabel.loaded
    cases entry.isImport
    · exact Or.inr ⟨rfl, Bool.false_ne_true⟩
    · exact Or.inl ⟨rfl, rfl⟩
  shift := ⟨n, shifted, rfl⟩

/-- The description of a label leaves nothing open. -/
theorem describes_loaded {name : Name} {entry : AsmLabel} {read : LabelEntry} (describes : entry.Describes name read) :
    read = entry.loaded ((labelShift name).getD 0) := by
  obtain ⟨sect, uid, position, needExport, needImport, shift⟩ := read
  obtain ⟨rfl, uids, rfl, rfl, imports, n, shifted, is⟩ := describes
  have same : uid = BitVec.ofInt 16 entry.uid := by
    apply BitVec.eq_of_toNat_eq
    have other := ofInt_toNat entry.uid
    dsimp only at uids
    omega
  have flag : needImport = entry.isImport.toNat := by
    rw [← isImport_iff] at imports
    dsimp only at imports
    obtain ⟨rfl, set⟩ | ⟨rfl, unset⟩ := imports
    · rw [set]
      rfl
    · rw [Bool.eq_false_of_not_eq_true unset]
      rfl
  dsimp only at is
  rw [labelShift_shifted shifted, same, flag, is]
  rfl

/-- The labels that are read make up the table. -/
theorem loadedLabels_table (names : ∀ l ∈ asm.labels.entries, Storable l.1) :
    asm.Table (loadedLabels asm.labels.entries) where
  names := by
    unfold loadedLabels
    rw [List.pairwise_map]
    exact asm.labels.sorted.filter _
  entries := by
    intro name read
    unfold loadedLabels
    rw [List.mem_map]
    constructor
    · rintro ⟨⟨name', entry⟩, here, same⟩
      obtain ⟨rfl, rfl⟩ := Prod.mk.inj same
      obtain ⟨mem, written⟩ := List.mem_filter.mp here
      obtain ⟨n, shifted⟩ := (names _ mem).shifted
      refine ⟨entry, mem, (leftOut_iff entry).mp (by simpa using written), ?_⟩
      rw [labelShift_shifted shifted]
      exact loaded_describes entry shifted
    · rintro ⟨entry, mem, written, describes⟩
      have kept : (!entry.leftOut) = true := by rw [(leftOut_iff entry).mpr written, Bool.not_false]
      exact ⟨(name, entry), List.mem_filter.mpr ⟨mem, kept⟩,
        Prod.ext rfl (describes_loaded describes).symm⟩

/-- **An object file comes back**: the linker reads the words and the marks that the assembler wrote, and the
table of its labels. -/
theorem loadFile_writeToFile (fits : asm.Fits) (offset : Nat) :
    ∃ obj, loadFile offset asm.writeToFile = .ok (obj, []) ∧
      obj.text.code = asm.text.code ∧ obj.data.code = asm.data.code ∧
      (∀ j, obj.text.labelMap j = asm.text.labelMap.toList.getD j false) ∧
      (∀ j, obj.data.labelMap j = asm.data.labelMap.toList.getD j false) ∧
      asm.Table obj.labels := by
  refine ⟨_, loadFile_eq fits offset, rfl, rfl, ?_, ?_, loadedLabels_table fits.names⟩
  · exact readSection_labelMap asm.text.labelMap offset asm.text.code
  · exact readSection_labelMap asm.data.labelMap offset asm.data.code

end File

/-! ### Labels with large numbers -/

/-- `labels[name]`: the default of the constructor, for a name that is not there. -/
def getEntry (name : Name) : List (Name × AsmLabel) → AsmLabel
  | [] => {}
  | (key, entry) :: rest => if name = key then entry else if name < key then {} else getEntry name rest

/-- A change of `labels[name]`. -/
def alterEntry (name : Name) (f : AsmLabel → AsmLabel) : List (Name × AsmLabel) → List (Name × AsmLabel)
  | [] => [(name, f {})]
  | (key, entry) :: rest =>
    if name = key then (name, f entry) :: rest
    else if name < key then (name, f {}) :: (key, entry) :: rest
    else (key, entry) :: alterEntry name f rest

section Entries

variable {name : Name} {f : AsmLabel → AsmLabel} {entries : List (Name × AsmLabel)}

theorem getEntry_alterEntry : getEntry name (alterEntry name f entries) = f (getEntry name entries) := by
  induction entries with
  | nil => exact if_pos rfl
  | cons label entries ih =>
    obtain ⟨key, entry⟩ := label
    unfold alterEntry
    by_cases same : name = key
    · rw [if_pos same, getEntry, if_pos rfl, getEntry, if_pos same]
    · rw [if_neg same]
      by_cases before : name < key
      · rw [if_pos before, getEntry, if_pos rfl, getEntry, if_neg same, if_pos before]
      · rw [if_neg before, getEntry, if_neg same, if_neg before, ih, getEntry, if_neg same, if_neg before]

/-- A label is one that was there, or the changed one. -/
theorem mem_alterEntry {l : Name × AsmLabel} (here : l ∈ alterEntry name f entries) :
    l ∈ entries ∨ l = (name, f (getEntry name entries)) := by
  induction entries with
  | nil => exact Or.inr (List.mem_singleton.mp here)
  | cons label entries ih =>
    obtain ⟨key, entry⟩ := label
    unfold alterEntry at here
    unfold getEntry
    split at here
    · rename_i same
      rw [if_pos same]
      obtain rfl | here := List.mem_cons.mp here
      · exact Or.inr rfl
      · exact Or.inl (List.mem_cons_of_mem _ here)
    · rename_i differ
      rw [if_neg differ]
      split at here
      · rename_i before
        rw [if_pos before]
        obtain rfl | here := List.mem_cons.mp here
        · exact Or.inr rfl
        · exact Or.inl here
      · rename_i behind
        rw [if_neg behind]
        obtain rfl | here := List.mem_cons.mp here
        · exact Or.inl List.mem_cons_self
        · exact (ih here).imp (List.mem_cons_of_mem _) id

theorem alterEntry_mem : (name, f (getEntry name entries)) ∈ alterEntry name f entries := by
  induction entries with
  | nil => exact List.mem_cons_self
  | cons label entries ih =>
    obtain ⟨key, entry⟩ := label
    unfold alterEntry getEntry
    split
    · exact List.mem_cons_self
    · split
      · exact List.mem_cons_self
      · exact List.mem_cons_of_mem _ ih

theorem alterEntry_sorted (sorted : entries.Pairwise fun l l' => l.1 < l'.1) :
    (alterEntry name f entries).Pairwise fun l l' => l.1 < l'.1 := by
  induction entries with
  | nil => exact List.pairwise_singleton _ _
  | cons label entries ih =>
    obtain ⟨key, entry⟩ := label
    obtain ⟨first, rest⟩ := List.pairwise_cons.mp sorted
    unfold alterEntry
    split
    · rename_i same
      subst same
      exact List.pairwise_cons.mpr ⟨first, rest⟩
    · rename_i differ
      split
      · rename_i before
        refine List.pairwise_cons.mpr ⟨fun l here => ?_, sorted⟩
        obtain rfl | here := List.mem_cons.mp here
        · exact before
        · exact before.trans (first l here)
      · rename_i behind
        refine List.pairwise_cons.mpr ⟨fun l here => ?_, ih rest⟩
        obtain here | rfl := mem_alterEntry here
        · exact first l here
        · exact lt_of_le_of_ne (not_lt.mp behind) (Ne.symm differ)

/-- A name that is not there. -/
theorem getEntry_absent (absent : ∀ l ∈ entries, l.1 ≠ name) : getEntry name entries = {} := by
  induction entries with
  | nil => rfl
  | cons label entries ih =>
    obtain ⟨key, entry⟩ := label
    unfold getEntry
    rw [if_neg (absent (key, entry) List.mem_cons_self).symm, ih fun l here => absent l (List.mem_cons_of_mem _ here)]
    exact ite_self _

end Entries

namespace Assembly

/-- A change of `labels[name]`. -/
def alter (name : Name) (f : AsmLabel → AsmLabel) (asm : Assembly) : Assembly :=
  { asm with labels := ⟨alterEntry name f asm.labels.entries, alterEntry_sorted asm.labels.sorted⟩ }

/-- `importLabel` -/
def importLabel (name : Name) (asm : Assembly) : Assembly :=
  asm.alter name fun entry => { entry with needImport := true }

/-- `generateLabelUid`, where the label has none yet. -/
def newUid (name : Name) (asm : Assembly) : Assembly :=
  if (getEntry name asm.labels.entries).uid = -1 then
    { asm.alter name (fun entry => { entry with uid := asm.labelUid }) with labelUid := asm.labelUid + 1 }
  else asm

/-- Where the next word goes, as the position of a label. -/
def nextPosition (asm : Assembly) : Int :=
  match asm.cSection with
  | .text => (asm.text.code.length / codeBlockSize : Nat)
  | .data => (asm.data.code.length : Nat)

/-- `regLabel` -/
def regLabel (name : Name) (asm : Assembly) : Assembly :=
  (asm.newUid name).alter name fun entry => { entry with position := asm.nextPosition, sect := asm.cSection }

/-- The assembly of a program that has not started. -/
def empty : Assembly where
  text := ⟨Vector.replicate textSpace false, []⟩
  data := ⟨Vector.replicate dataSpace false, []⟩
  cSection := .text
  labelUid := 0
  labels := ⟨[], .nil⟩

section Labels

variable {asm : Assembly} {name : Name}

/-- What `regLabel` does to the labels: those of another name stay, and no flag is set. -/
theorem mem_regLabel {l : Name × AsmLabel} (here : l ∈ (asm.regLabel name).labels.entries) :
    l ∈ asm.labels.entries ∨ l.1 = name ∧ l.2.needImport = (getEntry name asm.labels.entries).needImport ∧
      l.2.used = (getEntry name asm.labels.entries).used := by
  unfold regLabel newUid at here
  split at here
  · obtain here | rfl := mem_alterEntry here
    · obtain here | rfl := mem_alterEntry here
      · exact Or.inl here
      · exact Or.inr ⟨rfl, rfl, rfl⟩
    · dsimp only [alter]
      rw [getEntry_alterEntry]
      exact Or.inr ⟨rfl, rfl, rfl⟩
  · obtain here | rfl := mem_alterEntry here
    · exact Or.inl here
    · exact Or.inr ⟨rfl, rfl, rfl⟩

/-- A label of a new name takes the next number. -/
theorem regLabel_new (new : (getEntry name asm.labels.entries).uid = -1) :
    (asm.regLabel name).labelUid = asm.labelUid + 1 ∧
      (name, { getEntry name asm.labels.entries with
        uid := asm.labelUid, position := asm.nextPosition, sect := asm.cSection }) ∈
      (asm.regLabel name).labels.entries := by
  unfold regLabel newUid
  rw [if_pos new]
  refine ⟨rfl, ?_⟩
  have changed : getEntry name (alterEntry name (fun entry => { entry with uid := asm.labelUid }) asm.labels.entries) =
      { getEntry name asm.labels.entries with uid := asm.labelUid } := getEntry_alterEntry
  have there := @alterEntry_mem name
    (fun entry => { entry with position := asm.nextPosition, sect := asm.cSection })
    (alterEntry name (fun entry => { entry with uid := asm.labelUid }) asm.labels.entries)
  rw [changed] at there
  exact there

/-- What `regLabel` leaves alone. -/
theorem regLabel_sections (asm : Assembly) (name : Name) :
    (asm.regLabel name).text = asm.text ∧ (asm.regLabel name).data = asm.data ∧
      (asm.regLabel name).cSection = asm.cSection := by
  unfold regLabel newUid
  split
  · exact ⟨rfl, rfl, rfl⟩
  · exact ⟨rfl, rfl, rfl⟩

end Labels

/-- A program that imports labels and defines them itself: their names are `a`, `aa` and so on. -/
def imports : Nat → Assembly
  | 0 => empty
  | n + 1 => ((imports n).importLabel (List.replicate (n + 1) 'a')).regLabel (List.replicate (n + 1) 'a')

/-- Another label, after `n` of them. -/
def manyLabels (n : Nat) : Assembly := (imports n).regLabel ['b']

/-- A label of `imports`: it is not in the file. -/
def Skipped (n : Nat) (l : Name × AsmLabel) : Prop :=
  l.2.needImport = true ∧ l.2.used = false ∧ ∃ k, k ≤ n ∧ l.1 = List.replicate k 'a'

theorem Skipped.leftOut {n : Nat} {l : Name × AsmLabel} (skipped : Skipped n l) : l.2.leftOut = true := by
  unfold AsmLabel.leftOut AsmLabel.isImport
  rw [skipped.1, skipped.2.1, ite_self]
  rfl

/-- Each of the labels takes a number, and none is in the file. -/
theorem imports_spec (n : Nat) :
    (imports n).labelUid = n ∧ (imports n).text.code = [] ∧ (imports n).data.code = [] ∧
      (imports n).cSection = .text ∧ ∀ l ∈ (imports n).labels.entries, Skipped n l := by
  induction n with
  | zero => exact ⟨rfl, rfl, rfl, rfl, fun l here => by cases here⟩
  | succ n ih =>
    obtain ⟨uid, text, data, sect, left⟩ := ih
    have absent : ∀ l ∈ (imports n).labels.entries, l.1 ≠ List.replicate (n + 1) 'a' := by
      intro l here same
      obtain ⟨-, -, k, low, name⟩ := left l here
      have lengths := congrArg List.length (name.symm.trans same)
      rw [List.length_replicate, List.length_replicate] at lengths
      omega
    have fresh : getEntry (List.replicate (n + 1) 'a')
        ((imports n).importLabel (List.replicate (n + 1) 'a')).labels.entries = { needImport := true } := by
      refine getEntry_alterEntry.trans ?_
      rw [getEntry_absent absent]
    obtain ⟨text', data', sect'⟩ := regLabel_sections
      ((imports n).importLabel (List.replicate (n + 1) 'a')) (List.replicate (n + 1) 'a')
    have numbered := (regLabel_new (by rw [fresh])).1
    refine ⟨numbered.trans (congrArg (· + 1) uid), (congrArg AsmSection.code text').trans text,
      (congrArg AsmSection.code data').trans data, sect'.trans sect, fun l here => ?_⟩
    obtain here | ⟨name, imported, unused⟩ := mem_regLabel here
    · obtain here | rfl := mem_alterEntry here
      · obtain ⟨imported, unused, k, low, name⟩ := left l here
        exact ⟨imported, unused, k, Nat.le_succ_of_le low, name⟩
      · rw [getEntry_absent absent]
        exact ⟨rfl, rfl, n + 1, le_rfl, rfl⟩
    · rw [fresh] at imported unused
      exact ⟨imported, unused, n + 1, le_rfl, name⟩

/-- Labels that are left out take no bytes. -/
theorem convertLabelsTo8_leftOut {entries : List (Name × AsmLabel)} (out : ∀ l ∈ entries, l.2.leftOut = true) :
    convertLabelsTo8 entries = [] := by
  induction entries with
  | nil => rfl
  | cons label entries ih =>
    unfold convertLabelsTo8
    rw [if_pos (out label List.mem_cons_self)]
    exact ih fun l here => out l (List.mem_cons_of_mem _ here)

/-- The bytes of one label. -/
theorem convertLabelsTo8_one {name : Name} {entries : List (Name × AsmLabel)}
    (sorted : entries.Pairwise fun l l' => l.1 < l'.1) (out : ∀ l ∈ entries, l.1 = name ∨ l.2.leftOut = true) :
    (convertLabelsTo8 entries).length ≤ name.length + 8 := by
  induction entries with
  | nil => exact Nat.zero_le _
  | cons label entries ih =>
    obtain ⟨first, rest⟩ := List.pairwise_cons.mp sorted
    have out' : ∀ l ∈ entries, l.1 = name ∨ l.2.leftOut = true := fun l here => out l (List.mem_cons_of_mem _ here)
    unfold convertLabelsTo8
    split
    · exact ih rest out'
    · rename_i written
      obtain rfl : label.1 = name := (out label List.mem_cons_self).resolve_right written
      rw [convertLabelsTo8_leftOut fun l here => (out' l here).resolve_left (first l here).ne']
      simp only [List.length_append, List.length_map, List.length_cons, List.length_nil, AsmLabel.bytes, wordBytes]
      omega

theorem manyLabels_mem {n : Nat} {l : Name × AsmLabel} (here : l ∈ (manyLabels n).labels.entries) :
    l.1 = ['b'] ∨ Skipped n l := by
  obtain here | ⟨name, -, -⟩ := mem_regLabel here
  · exact Or.inr ((imports_spec n).2.2.2.2 l here)
  · exact Or.inl name

/-- The name of one of the labels. -/
theorem storable_plain {name : Name} (letters : ∀ c ∈ name, c = 'a' ∨ c = 'b') : Storable name where
  bytes := by
    intro c here
    obtain rfl | rfl := letters c here
    · decide
    · decide
  shifted := by
    refine ⟨0, .plain fun c here => ?_⟩
    obtain rfl | rfl := letters c here
    · rfl
    · rfl

/-- The file has room for them. -/
theorem manyLabels_fits (n : Nat) : (manyLabels n).Fits := by
  obtain ⟨-, text, data, -, -⟩ := imports_spec n
  obtain ⟨text', data', -⟩ := regLabel_sections (imports n) ['b']
  have noText : (manyLabels n).text.code = [] := (congrArg AsmSection.code text').trans text
  have noData : (manyLabels n).data.code = [] := (congrArg AsmSection.code data').trans data
  refine ⟨?_, ?_, ?_, fun l here => storable_plain fun c mem => ?_⟩
  · rw [noData]
    decide
  · rw [noText]
    exact Nat.zero_le _
  · have short := @convertLabelsTo8_one ['b'] _ (manyLabels n).labels.sorted fun l here =>
      (manyLabels_mem here).imp id Skipped.leftOut
    exact short.trans (by decide)
  · obtain name | ⟨-, -, k, -, name⟩ := manyLabels_mem here
    · rw [name] at mem
      exact Or.inr (List.mem_singleton.mp mem)
    · rw [name] at mem
      exact Or.inl (List.eq_of_mem_replicate mem)

/-- The last label is in the file, and its number is `n`. -/
theorem manyLabels_last (n : Nat) : ∃ entry, (['b'], entry) ∈ (manyLabels n).labels.entries ∧ entry.leftOut = false ∧
    entry.uid = n := by
  obtain ⟨uid, text, -, sect, left⟩ := imports_spec n
  have absent : ∀ l ∈ (imports n).labels.entries, l.1 ≠ ['b'] := by
    intro l here same
    obtain ⟨-, -, k, -, name⟩ := left l here
    have mem : 'b' ∈ List.replicate k 'a' := name ▸ same ▸ List.mem_cons_self
    exact absurd (List.eq_of_mem_replicate mem) (by decide)
  have fresh := getEntry_absent absent
  have there := (regLabel_new (by rw [fresh])).2
  rw [fresh, uid] at there
  have start : (imports n).nextPosition = 0 := by
    unfold nextPosition
    rw [sect, text]
    rfl
  rw [start] at there
  exact ⟨_, there, rfl, rfl⟩

/-- The numbers of the labels come back. -/
def KeepsUids (asm : Assembly) (labels : LabelMap) : Prop :=
  ∀ name entry, (name, entry) ∈ asm.labels.entries → (entry.used = true ∨ ¬ entry.Imported) →
    ∃ read, (name, read) ∈ labels ∧ (read.uid.toNat : Int) = entry.uid

/-- **A number of a label is lost**: the file has room for the program, and label `0x10000` comes back as
another one. -/
theorem uid_lost : (manyLabels 0x10000).Fits ∧ ¬ ∃ obj rest,
    loadFile 0 (manyLabels 0x10000).writeToFile = .ok (obj, rest) ∧ (manyLabels 0x10000).KeepsUids obj.labels := by
  refine ⟨manyLabels_fits _, ?_⟩
  rintro ⟨obj, rest, -, keeps⟩
  obtain ⟨entry, here, written, uid⟩ := manyLabels_last 0x10000
  obtain ⟨read, -, same⟩ := keeps _ entry here ((leftOut_iff entry).mp written)
  have low := read.uid.isLt
  omega

/-- A program of one word, `x+3`, whose label is imported. -/
def oneImport : Assembly :=
  { empty with
    data := ⟨(Vector.replicate dataSpace false).set 0 true, [0]⟩
    labels := ⟨[(['b', '+', '3'], { uid := 0, used := true })], List.pairwise_singleton _ _⟩ }

end Assembly

/-- The program of one word comes back. -/
theorem loadFile_oneImport : ∃ obj, loadFile 0 Assembly.oneImport.writeToFile = .ok (obj, []) ∧
    obj.text.code = Assembly.oneImport.text.code ∧ obj.data.code = Assembly.oneImport.data.code ∧
    (∀ j, obj.text.labelMap j = Assembly.oneImport.text.labelMap.toList.getD j false) ∧
    (∀ j, obj.data.labelMap j = Assembly.oneImport.data.labelMap.toList.getD j false) ∧
    Assembly.oneImport.Table obj.labels := by
  have shifted : Shifted (['b'] ++ '+' :: ['3']) (0 + decimal ['3']) := by
    refine .plus (.plain fun c here => ?_) ⟨List.cons_ne_nil _ _, fun c here => ?_⟩
    · rw [List.mem_singleton.mp here]
      rfl
    · rw [List.mem_singleton.mp here]
      rfl
  have bytes : ∀ c ∈ ['b', '+', '3'], 0 < c.toNat ∧ c.toNat < 256 := by
    intro c here
    simp only [List.mem_cons, List.not_mem_nil, or_false] at here
    obtain rfl | rfl | rfl := here
    · decide
    · decide
    · decide
  refine loadFile_writeToFile ⟨by decide, by decide, by decide, fun l here => ?_⟩ 0
  rw [List.mem_singleton.mp here]
  exact ⟨bytes, _, shifted⟩

end RlCpu.Binutils
