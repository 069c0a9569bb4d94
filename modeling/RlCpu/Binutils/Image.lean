/-
**The words of a linked program (`computeOffsets`, `link` and `writeBin`).**

A name means the definition in the object that refers to it, and else the definition that an object
exports (`Means`). The linker takes the first object in the order of the link that defines the name,
exported or not (`First`).

* `relocated_iff`: the program has the address of its meaning at every marked word if and only if the two
  agree at every reference by an imported name, and copies every other word.
-/

import RlCpu.Binutils.Resolve
import RlCpu.Binutils.Shift

namespace RlCpu.Binutils

open RlCpu.Kernel

/-! ### The meaning of a reference -/

section Meaning

variable (config : Config) (objs : List Obj)

/-- Where the section of object `i` starts. -/
def textOffset (i : Nat) : Nat := totalSize .text (objs.take i)

/-- Where the data of object `i` starts. -/
def dataOffset (i : Nat) : Nat := dataStart config.mode objs + totalSize .data (objs.take i)

/-- **The final address of a definition** of object `i`: the number of the block of code that its position
starts, or the number of its word of data. -/
def address (i : Nat) (entry : LabelEntry) : Int :=
  match entry.sect with
  | .text => (config.globalOffset + textOffset objs i + codeBlockSize * entry.position) / codeBlockSize
  | .data => config.globalOffset + config.dataOffset + dataOffset config objs i + entry.position

/-- **The definition that a name means in object `i`**: its own, or else the one that is exported. -/
inductive Means (i : Nat) (name : Name) : Nat → LabelEntry → Prop
  | own {obj : Obj} {entry : LabelEntry} (here : objs[i]? = some obj)
      (defined : obj.labels.defines name = some entry) : Means i name i entry
  | exported {obj provider : Obj} {k : Nat} {entry : LabelEntry} (here : objs[i]? = some obj)
      (foreign : obj.labels.defines name = none) (there : objs[k]? = some provider)
      (defined : provider.labels.defines name = some entry) (isExport : entry.needExport ≠ 0) :
      Means i name k entry

/-- The first definition of a name in the order of the link. -/
structure First (name : Name) (k : Nat) (entry : LabelEntry) : Prop where
  defined : ∃ obj, objs[k]? = some obj ∧ obj.labels.defines name = some entry
  before : ∀ j < k, ∀ obj, objs[j]? = some obj → obj.labels.defines name = none

/-- The label of a reference: the entry of the `uid` at a marked word. -/
structure Reference (i : Nat) (obj : Obj) (sect : Sect) (j : Nat) (name : Name) (entry : LabelEntry) :
    Prop where
  here : objs[i]? = some obj
  marked : (obj.sections sect).labelMap j = true
  word : (obj.sections sect).code[j]? = some entry.uid
  label : (name, entry) ∈ obj.labels

end Meaning

/-- The objects that are loaded from what the assembler writes: names and `uid`s are not used twice, a name is
followed by constants only, none if it is defined, and only words of the code are marked. -/
structure Obj.WellFormed (obj : Obj) : Prop where
  names : (obj.labels.map Prod.fst).Nodup
  uids : ∀ l ∈ obj.labels, ∀ l' ∈ obj.labels, l.2.uid = l'.2.uid → l = l'
  shifted : ∀ l ∈ obj.labels, ∃ n, Shifted l.1 n
  shifts : ShiftsRead obj.labels
  unshifted : ∀ l ∈ obj.labels, l.2.needImport = 0 → cropName l.1 = l.1
  inside : ∀ sect j, (obj.sections sect).labelMap j = true → j < obj.size sect

/-- The word `k` of a program. -/
def imageWord (mode : Mode) (objs : List Obj) (image : List Byte) (k : Nat) : Option Word :=
  let start := (header mode objs).length + 2 * k
  match image[start]?, image[start + 1]? with
  | some high, some low => some (high ++ low)
  | _, _ => none

/-- The word of a program that is word `j` of a section of object `i`. -/
def wordIndex (objs : List Obj) (sect : Sect) (i j : Nat) : Nat :=
  (if sect = .text then 0 else totalSize .text objs) + totalSize sect (objs.take i) + j

/-- **The program is relocated**: a marked word is the address of what its reference means plus the constants
of its name, and any other word is as it was. -/
structure Relocated (config : Config) (objs : List Obj) (image : List Byte) : Prop where
  marked : ∀ i obj sect j name entry, Reference objs i obj sect j name entry →
    ∃ k meant shift, Means objs i (cropName name) k meant ∧ Shifted name shift ∧
      imageWord config.mode objs image (wordIndex objs sect i j) =
        some (BitVec.ofInt 16 (address config objs k meant + shift))
  unmarked : ∀ i obj sect j w, objs[i]? = some obj → (obj.sections sect).labelMap j = false →
    (obj.sections sect).code[j]? = some w →
      imageWord config.mode objs image (wordIndex objs sect i j) = some w

/-! ### The sections of the program -/

theorem offsetsFrom_getElem (sizes : List Nat) (cOffset i : Nat) :
    (offsetsFrom cOffset sizes)[i]? = sizes[i]?.map fun _ => cOffset + (sizes.take i).sum := by
  induction sizes generalizing cOffset i with
  | nil => rfl
  | cons size sizes ih =>
    cases i with
    | zero => simp [offsetsFrom]
    | succ i =>
      simp only [offsetsFrom, List.getElem?_cons_succ, List.take_succ_cons, List.sum_cons]
      rw [ih, Nat.add_assoc]

/-- Every object is placed behind the ones before it. -/
theorem computeOffsets_getElem (config : Config) (objs : List Obj) (i : Nat) :
    (computeOffsets config objs)[i]? =
      objs[i]?.map fun obj => obj.place config (textOffset objs i) (dataOffset config objs i) := by
  unfold computeOffsets textOffset dataOffset totalSize
  simp only [List.getElem?_zipWith, List.zip, offsetsFrom_getElem, List.getElem?_map, List.map_take]
  cases objs[i]? with
  | none => rfl
  | some obj => simp

theorem wordBytes_word (w : Word) : w.extractLsb' 8 8 ++ w.extractLsb' 0 8 = w := by
  apply BitVec.eq_of_getLsbD_eq
  intro i low
  simp only [BitVec.getLsbD_append, BitVec.getLsbD_extractLsb']
  by_cases small : i < 8
  · simp [small]
  · have shifted : 8 + (i - 8) = i := by omega
    have inside : i - 8 < 8 := by omega
    simp [small, shifted, inside]

theorem flatMap_wordBytes (words : List Word) (k : Nat) :
    (words.flatMap wordBytes)[2 * k]? = words[k]?.map (·.extractLsb' 8 8) ∧
      (words.flatMap wordBytes)[2 * k + 1]? = words[k]?.map (·.extractLsb' 0 8) := by
  induction words generalizing k with
  | nil => exact ⟨rfl, rfl⟩
  | cons w words ih =>
    cases k with
    | zero => exact ⟨rfl, rfl⟩
    | succ k =>
      obtain ⟨high, low⟩ := ih k
      exact ⟨high, low⟩

/-- **The words of a program behind its header.** -/
theorem imageWord_eq (mode : Mode) (objs : List Obj) (words : List Word) (k : Nat) :
    imageWord mode objs (header mode objs ++ words.flatMap wordBytes) k = words[k]? := by
  obtain ⟨high, low⟩ := flatMap_wordBytes words k
  unfold imageWord
  simp only [Nat.add_assoc, List.getElem?_append_right (Nat.le_add_right _ _), Nat.add_sub_cancel_left]
  rw [high, low]
  cases words[k]? with
  | none => rfl
  | some w => exact congrArg some (wordBytes_word w)

theorem sectionWords_getElem (sect : Sect) (objs : List Obj) {i : Nat} {obj : Obj}
    (here : objs[i]? = some obj) {j : Nat} (inside : j < obj.size sect) :
    (sectionWords sect objs)[totalSize sect (objs.take i) + j]? = (obj.sections sect).code[j]? := by
  induction objs generalizing i with
  | nil => cases here
  | cons first objs ih =>
    unfold sectionWords totalSize at *
    cases i with
    | zero =>
      obtain rfl : first = obj := by simpa using here
      simp only [List.take_zero, List.map_nil, List.sum_nil, Nat.zero_add, List.flatMap_cons]
      exact List.getElem?_append_left inside
    | succ i =>
      have rest := ih (i := i) here
      simp only [List.take_succ_cons, List.map_cons, List.sum_cons, List.flatMap_cons]
      have behind : first.size sect + (List.map (fun obj => obj.size sect) (objs.take i)).sum + j -
          (first.sections sect).code.length =
          (List.map (fun obj => obj.size sect) (objs.take i)).sum + j := by
        unfold Obj.size
        omega
      rw [List.getElem?_append_right (by unfold Obj.size; omega), behind]
      exact rest

/-! ### A link that succeeds -/

/-- Where `mapM` returns, every element has returned. -/
theorem mapM_ok {α β ε : Type} {f : α → Except ε β} {l : List α} {r : List β} (run : l.mapM f = .ok r) :
    List.Forall₂ (fun a b => f a = .ok b) l r := by
  induction l generalizing r with
  | nil =>
    obtain rfl : [] = r := Except.ok.inj run
    exact .nil
  | cons a l ih =>
    rw [List.mapM_cons] at run
    cases first : f a with
    | error e =>
      rw [first] at run
      cases run
    | ok b =>
      rw [first] at run
      cases more : l.mapM f with
      | error e =>
        change (l.mapM f >>= fun bs => pure (b :: bs)) = _ at run
        rw [more] at run
        cases run
      | ok bs =>
        change (l.mapM f >>= fun bs => pure (b :: bs)) = _ at run
        rw [more] at run
        obtain rfl : b :: bs = r := Except.ok.inj run
        exact .cons first (ih more)

/-- Related lists are related at every index. -/
theorem forall₂_getElem {α β : Type} {r : α → β → Prop} {l : List α} {l' : List β}
    (all : List.Forall₂ r l l') {i : Nat} {a : α} (here : l[i]? = some a) : ∃ b, l'[i]? = some b ∧ r a b := by
  induction all generalizing i with
  | nil => cases here
  | cons first _ ih =>
    cases i with
    | zero =>
      obtain rfl := Option.some.inj here
      exact ⟨_, rfl, first⟩
    | succ i => exact ih here

/-- The word that a word of a section becomes. -/
def linkedWord (labels : LabelMap) (sect : Section) (j : Nat) (w : Word) : Except LinkError Word :=
  if sect.labelMap j then relocate labels w else pure w

/-- The words of a linked section, one by one. -/
theorem linkSection_eq (labels : LabelMap) (sect : Section) : linkSection labels sect =
    (sect.code.zipIdx.mapM fun x => linkedWord labels sect x.2 x.1).map fun code => { sect with code := code } := rfl

theorem linkSection_ok {labels : LabelMap} {sect linked : Section}
    (run : linkSection labels sect = .ok linked) :
    linked.code.length = sect.code.length ∧
      ∀ j w, sect.code[j]? = some w → ∃ v, linked.code[j]? = some v ∧ linkedWord labels sect j w = .ok v := by
  rw [linkSection_eq] at run
  cases code : (sect.code.zipIdx.mapM fun x => linkedWord labels sect x.2 x.1) with
  | error e =>
    rw [code] at run
    cases run
  | ok words =>
    rw [code] at run
    obtain rfl := Except.ok.inj run
    have all := mapM_ok code
    refine ⟨by simpa using all.length_eq.symm, fun j w here => ?_⟩
    obtain ⟨v, there, word⟩ := forall₂_getElem all (i := j) (a := (w, j)) (by
      rw [List.getElem?_zipIdx, here]
      simp)
    exact ⟨v, there, word⟩

theorem linkObj_ok {obj linked : Obj} (run : linkObj obj = .ok linked) (sect : Sect) :
    linked.size sect = obj.size sect ∧ ∀ j w, (obj.sections sect).code[j]? = some w →
      ∃ v, (linked.sections sect).code[j]? = some v ∧
        linkedWord obj.labels (obj.sections sect) j w = .ok v := by
  unfold linkObj at run
  cases text : linkSection obj.labels obj.text with
  | error e =>
    rw [text] at run
    cases run
  | ok text' =>
    cases data : linkSection obj.labels obj.data with
    | error e =>
      rw [text] at run
      change (linkSection obj.labels obj.data >>= _) = _ at run
      rw [data] at run
      cases run
    | ok data' =>
      rw [text] at run
      change (linkSection obj.labels obj.data >>= _) = _ at run
      rw [data] at run
      obtain rfl := Except.ok.inj run
      cases sect with
      | text => exact linkSection_ok text
      | data => exact linkSection_ok data

/-! ### Placed labels -/

section Placed

variable {config : Config} {objs : List Obj} {obj : Obj} {i : Nat}

/-- The labels of all objects, at their places. -/
def placedLabels (config : Config) (objs : List Obj) : List LabelMap :=
  (computeOffsets config objs).map Obj.labels

/-- The entry of object `i` at its place. -/
def LabelEntry.placed (config : Config) (objs : List Obj) (i : Nat) (entry : LabelEntry) : LabelEntry :=
  entry.place config (textOffset objs i) (dataOffset config objs i)

theorem placed_same (config : Config) (objs : List Obj) (i : Nat) (entry : LabelEntry) :
    (entry.placed config objs i).needImport = entry.needImport ∧
      (entry.placed config objs i).uid = entry.uid ∧
      (entry.placed config objs i).shift = entry.shift := by
  unfold LabelEntry.placed LabelEntry.place
  split
  · split
    · exact ⟨rfl, rfl, rfl⟩
    · exact ⟨rfl, rfl, rfl⟩
  · exact ⟨rfl, rfl, rfl⟩

/-- **A definition at its place has its final address.** -/
theorem placed_position (i : Nat) {entry : LabelEntry} (defined : entry.needImport = 0) :
    (entry.placed config objs i).position = address config objs i entry := by
  unfold LabelEntry.placed LabelEntry.place address
  have notImported : entry.needImport ≠ 1 := by
    rw [defined]
    decide
  rw [if_pos notImported]
  cases entry.sect with
  | text =>
    show entry.position + (config.globalOffset + textOffset objs i) / codeBlockSize =
      (config.globalOffset + textOffset objs i + codeBlockSize * entry.position) / codeBlockSize
    rw [Int.add_mul_ediv_left _ _ (by decide), Int.add_comm]
  | data =>
    show entry.position + (config.globalOffset + dataOffset config objs i + config.dataOffset) =
      config.globalOffset + config.dataOffset + dataOffset config objs i + entry.position
    omega

theorem find_map (g : LabelEntry → LabelEntry) (labels : LabelMap) (name : Name) :
    LabelMap.find (labels.map fun label => (label.1, g label.2)) name = (labels.find name).map g := by
  induction labels with
  | nil => rfl
  | cons label labels ih =>
    rw [List.map_cons, LabelMap.find_cons, LabelMap.find_cons]
    by_cases same : label.1 = name
    · rw [if_pos same, if_pos same]
      rfl
    · rw [if_neg same, if_neg same]
      exact ih

theorem defines_map {g : LabelEntry → LabelEntry} (same : ∀ e, (g e).needImport = e.needImport)
    (labels : LabelMap) (name : Name) :
    LabelMap.defines (labels.map fun label => (label.1, g label.2)) name =
      (labels.defines name).map g := by
  unfold LabelMap.defines
  rw [find_map]
  cases labels.find name with
  | none => rfl
  | some e =>
    by_cases defined : e.needImport = 0
    · simp [Option.filter, same, defined]
    · simp [Option.filter, same, defined]

theorem placedLabels_getElem (config : Config) (objs : List Obj) (i : Nat) :
    (placedLabels config objs)[i]? = objs[i]?.map fun obj =>
      obj.labels.map fun label => (label.1, label.2.placed config objs i) := by
  unfold placedLabels
  rw [List.getElem?_map, computeOffsets_getElem, Option.map_map]
  rfl

theorem defines_needImport {labels : LabelMap} {name : Name} {entry : LabelEntry}
    (defined : labels.defines name = some entry) : entry.needImport = 0 := by
  unfold LabelMap.defines at defined
  rw [Option.filter_eq_some_iff] at defined
  exact of_decide_eq_true defined.2

/-- **The linker finds the first definition, at its final address.** -/
theorem findGlobalLabel_first {name : Name} {found : LabelEntry}
    (search : findGlobalLabel (placedLabels config objs) name = some found) :
    ∃ k entry, First objs (cropName name) k entry ∧ found.position = address config objs k entry := by
  unfold findGlobalLabel at search
  rw [List.findSome?_eq_some_iff] at search
  obtain ⟨before, labels, after, whole, defined, earlier⟩ := search
  have index : ∀ j : Nat, (placedLabels config objs)[j]? = (before ++ labels :: after)[j]? := fun j => by rw [whole]
  have here := index before.length
  rw [placedLabels_getElem, List.getElem?_append_right (Nat.le_refl _), Nat.sub_self,
    List.getElem?_cons_zero, Option.map_eq_some_iff] at here
  obtain ⟨obj, there, rfl⟩ := here
  have placed := defines_map (fun e => (placed_same config objs before.length e).1) obj.labels (cropName name)
  rw [placed, Option.map_eq_some_iff] at defined
  obtain ⟨entry, defined, rfl⟩ := defined
  refine ⟨before.length, entry, ⟨⟨obj, there, defined⟩, fun j low other here => ?_⟩,
    placed_position before.length (defines_needImport defined)⟩
  have early := index j
  rw [placedLabels_getElem, here, List.getElem?_append_left low] at early
  have absent := earlier _ (List.mem_of_getElem? early.symm)
  rw [defines_map (fun e => (placed_same config objs j e).1),
    Option.map_eq_none_iff] at absent
  exact absent

theorem First.unique {name : Name} {k k' : Nat} {entry entry' : LabelEntry}
    (first : First objs name k entry) (first' : First objs name k' entry') : k = k' ∧ entry = entry' := by
  obtain ⟨⟨obj, here, defined⟩, before⟩ := first
  obtain ⟨⟨obj', here', defined'⟩, before'⟩ := first'
  obtain low | rfl | low := Nat.lt_trichotomy k k'
  · rw [before' k low obj here] at defined
    cases defined
  · rw [here] at here'
    obtain rfl := Option.some.inj here'
    rw [defined] at defined'
    exact ⟨rfl, Option.some.inj defined'⟩
  · rw [before k' low obj' here'] at defined'
    cases defined'

/-! ### The words of the program -/

/-- The labels of object `i` when the words are linked. -/
def linkedLabels (config : Config) (objs : List Obj) (i : Nat) (obj : Obj) : LabelMap :=
  resolved (placedLabels config objs) (obj.labels.map fun label => (label.1, label.2.placed config objs i))

theorem linkObjs_ok {out : List Obj} (linked : linkObjs config objs = .ok out) :
    out.length = objs.length ∧ ∀ (i : Nat) obj, objs[i]? = some obj → ∃ obj', out[i]? = some obj' ∧
      ∀ sect, obj'.size sect = obj.size sect ∧ ∀ j w, (obj.sections sect).code[j]? = some w →
        ∃ v, (obj'.sections sect).code[j]? = some v ∧
          linkedWord (linkedLabels config objs i obj) (obj.sections sect) j w = .ok v := by
  have all := mapM_ok linked
  rw [resolveNames_eq, List.map_map, List.zipWith_map_right, List.zipWith_self] at all
  have lengths : (computeOffsets config objs).length = objs.length := by
    have range : ∀ n : Nat, (computeOffsets config objs)[n]? = none ↔ objs[n]? = none := fun n => by
      rw [computeOffsets_getElem, Option.map_eq_none_iff]
    refine Nat.le_antisymm ?_ ?_
    · exact List.getElem?_eq_none_iff.mp ((range objs.length).mpr (List.getElem?_eq_none (Nat.le_refl _)))
    · exact List.getElem?_eq_none_iff.mp ((range _).mp (List.getElem?_eq_none (Nat.le_refl _)))
  refine ⟨?_, fun i obj here => ?_⟩
  · rw [← all.length_eq, List.length_map, lengths]
  · have place := computeOffsets_getElem config objs i
    rw [here, Option.map_some] at place
    obtain ⟨obj', there, run⟩ := forall₂_getElem all (by rw [List.getElem?_map, place]; rfl)
    refine ⟨obj', there, fun sect => ?_⟩
    obtain ⟨size, words⟩ := linkObj_ok run sect
    cases sect with
    | text => exact ⟨size, words⟩
    | data => exact ⟨size, words⟩

/-- A link leaves the sizes as they are. -/
theorem linkObjs_sizes {out : List Obj} (linked : linkObjs config objs = .ok out) (sect : Sect) :
    (out.map fun obj => obj.size sect) = objs.map fun obj => obj.size sect := by
  obtain ⟨lengths, words⟩ := linkObjs_ok linked
  refine List.ext_getElem? fun i => ?_
  rw [List.getElem?_map, List.getElem?_map]
  cases here : objs[i]? with
  | none =>
    have absent : out[i]? = none := by
      rw [List.getElem?_eq_none_iff] at here ⊢
      omega
    rw [absent]
  | some obj =>
    obtain ⟨obj', there, sizes⟩ := words i obj here
    rw [there]
    exact congrArg some (sizes sect).1

/-- **Every word of the program** is the linked word of its object. -/
theorem image_word {out : List Obj} (linked : linkObjs config objs = .ok out) (here : objs[i]? = some obj)
    {sect : Sect} {j : Nat} {w : Word} (word : (obj.sections sect).code[j]? = some w) :
    ∃ v, imageWord config.mode objs (writeBin config.mode out) (wordIndex objs sect i j) = some v ∧
      linkedWord (linkedLabels config objs i obj) (obj.sections sect) j w = .ok v := by
  obtain ⟨obj', there, same⟩ := (linkObjs_ok linked).2 i obj here
  obtain ⟨size, words⟩ := same sect
  obtain ⟨v, word', run⟩ := words j w word
  have total : ∀ s, totalSize s out = totalSize s objs := fun s =>
    congrArg List.sum (linkObjs_sizes linked s)
  have part : totalSize sect (out.take i) = totalSize sect (objs.take i) := by
    unfold totalSize
    rw [List.map_take, List.map_take, linkObjs_sizes linked sect]
  have heads : header config.mode objs = header config.mode out := by
    unfold header
    rw [total, total]
  have inside : j < obj'.size sect := by
    rw [size]
    exact (List.getElem?_eq_some_iff.mp word).1
  have found := sectionWords_getElem sect out there inside
  refine ⟨v, ?_, run⟩
  have sameHeader : imageWord config.mode objs (writeBin config.mode out) (wordIndex objs sect i j) =
      imageWord config.mode out (writeBin config.mode out) (wordIndex objs sect i j) := by
    unfold imageWord
    rw [heads]
  rw [sameHeader, writeBin, imageWord_eq]
  unfold wordIndex
  cases sect with
  | text =>
    have short : totalSize .text (out.take i) + j < (sectionWords .text out).length :=
      (List.getElem?_eq_some_iff.mp (found.trans word')).1
    rw [if_pos rfl, Nat.zero_add, ← part, List.getElem?_append_left short, found, word']
  | data =>
    have text : (sectionWords .text out).length = totalSize .text objs := by
      rw [← total]
      unfold sectionWords totalSize
      rw [List.length_flatMap]
      rfl
    rw [if_neg (by decide), ← part, Nat.add_assoc, ← text,
      List.getElem?_append_right (Nat.le_add_right _ _), Nat.add_sub_cancel_left, found, word']

/-! ### Relocation -/

theorem findLabelByUid_map {g : Name → LabelEntry → LabelEntry} (same : ∀ name e, (g name e).uid = e.uid)
    (uid : Word) (labels : LabelMap) :
    findLabelByUid uid (labels.map fun label => (label.1, g label.1 label.2)) =
      (findLabelByUid uid labels).map fun label => (label.1, g label.1 label.2) := by
  induction labels with
  | nil => rfl
  | cons label labels ih =>
    unfold findLabelByUid at *
    rw [List.map_cons, List.find?_cons, List.find?_cons, ih]
    by_cases here : label.2.uid = uid
    · simp [same, here]
    · simp [same, here]

/-- The label of a reference is found by its `uid`. -/
theorem Obj.WellFormed.findLabelByUid (wellFormed : obj.WellFormed) {name : Name} {entry : LabelEntry}
    (label : (name, entry) ∈ obj.labels) : findLabelByUid entry.uid obj.labels = some (name, entry) := by
  unfold Binutils.findLabelByUid
  cases found : obj.labels.find? (fun label => decide (label.2.uid = entry.uid)) with
  | none =>
    have absent := List.find?_eq_none.mp found (name, entry) label
    simp at absent
  | some other =>
    have member := List.mem_of_find?_eq_some found
    have uid := List.find?_some found
    rw [wellFormed.uids other member (name, entry) label (of_decide_eq_true uid)]

/-- A name that is defined in an object is found there. -/
theorem Obj.WellFormed.find (wellFormed : obj.WellFormed) {name : Name} {entry : LabelEntry}
    (label : (name, entry) ∈ obj.labels) : obj.labels.find name = some entry := by
  unfold LabelMap.find
  cases found : obj.labels.find? (fun label => decide (label.1 = name)) with
  | none =>
    have absent := List.find?_eq_none.mp found (name, entry) label
    simp at absent
  | some other =>
    have member := List.mem_of_find?_eq_some found
    have key : other.1 = name := by simpa using List.find?_some found
    rw [List.inj_on_of_nodup_map wellFormed.names member label key]
    rfl

/-- The entry that `link` finds, whatever the labels are. -/
theorem findLabelByUid_linked (w : Word) :
    findLabelByUid w (linkedLabels config objs i obj) = (findLabelByUid w obj.labels).map fun l =>
      (l.1, resolveEntry (placedLabels config objs) l.1 (l.2.placed config objs i)) := by
  have uids : ∀ (name : Name) (e : LabelEntry),
      (resolveEntry (placedLabels config objs) name (e.placed config objs i)).uid = e.uid := by
    intro name e
    unfold resolveEntry
    split
    · split
      · exact (placed_same _ _ _ e).2.1
      · exact (placed_same _ _ _ e).2.1
    · exact (placed_same _ _ _ e).2.1
  unfold linkedLabels resolved
  rw [List.map_map]
  exact findLabelByUid_map uids w obj.labels

/-- The entry that `link` finds for a label. -/
theorem linkedLabels_find (wellFormed : obj.WellFormed) {name : Name} {entry : LabelEntry}
    (label : (name, entry) ∈ obj.labels) :
    findLabelByUid entry.uid (linkedLabels config objs i obj) =
      some (name, resolveEntry (placedLabels config objs) name (entry.placed config objs i)) := by
  rw [findLabelByUid_linked, wellFormed.findLabelByUid label, Option.map_some]

/-- **What the linker puts at a marked word**: the address of the label itself if the object defines it, and
else the address of the first definition of its name. -/
theorem reference_word {out : List Obj} (linked : linkObjs config objs = .ok out)
    (wellFormed : obj.WellFormed) {sect : Sect} {j : Nat} {name : Name} {entry : LabelEntry}
    (reference : Reference objs i obj sect j name entry) :
    (entry.needImport = 0 ∧
      imageWord config.mode objs (writeBin config.mode out) (wordIndex objs sect i j) =
        some (BitVec.ofInt 16 (address config objs i entry + entry.shift))) ∨
      entry.needImport = 1 ∧ ∃ k first, First objs (cropName name) k first ∧
        imageWord config.mode objs (writeBin config.mode out) (wordIndex objs sect i j) =
          some (BitVec.ofInt 16 (address config objs k first + entry.shift)) := by
  obtain ⟨v, word, run⟩ := image_word linked reference.here reference.word
  obtain ⟨import', -, shift⟩ := placed_same config objs i entry
  unfold linkedWord at run
  rw [if_pos reference.marked] at run
  unfold relocate at run
  rw [linkedLabels_find wellFormed reference.label] at run
  rw [word]
  by_cases imported : entry.needImport = 1
  · refine Or.inr ⟨imported, ?_⟩
    cases search : findGlobalLabel (placedLabels config objs) name with
    | none =>
      have unresolved : resolveEntry (placedLabels config objs) name (entry.placed config objs i) =
          entry.placed config objs i := by
        unfold resolveEntry
        rw [search]
        split <;> rfl
      have still : (entry.placed config objs i).needImport ≠ 0 := by
        rw [import', imported]
        decide
      simp only [unresolved, if_pos still] at run
      cases run
    | some found =>
      obtain ⟨k, first, isFirst, position⟩ := findGlobalLabel_first search
      refine ⟨k, first, isFirst, ?_⟩
      have resolved : resolveEntry (placedLabels config objs) name (entry.placed config objs i) =
          { entry.placed config objs i with
            position := found.position, sect := found.sect, needImport := 0 } := by
        unfold resolveEntry
        rw [search, if_pos (import'.trans imported)]
      simp only [resolved, ne_eq, not_true_eq_false, if_false, position, shift] at run
      rw [Except.ok.inj run]
  · have same : resolveEntry (placedLabels config objs) name (entry.placed config objs i) =
        entry.placed config objs i := by
      unfold resolveEntry
      rw [if_neg (fun again => imported (import'.symm.trans again))]
    simp only [same, import', shift] at run
    by_cases defined : entry.needImport = 0
    · rw [if_neg (not_not.mpr defined), placed_position i defined] at run
      rw [← Except.ok.inj run]
      exact Or.inl ⟨defined, rfl⟩
    · rw [if_pos defined] at run
      cases run

end Placed

section Relocation

variable {config : Config} {objs out : List Obj}

theorem Means.defined {i k : Nat} {name : Name} {entry : LabelEntry} (means : Means objs i name k entry) :
    ∃ obj, objs[k]? = some obj ∧ obj.labels.defines name = some entry := by
  cases means with
  | own here defined => exact ⟨_, here, defined⟩
  | exported here foreign there defined isExport => exact ⟨_, there, defined⟩

/-- A definition that is referred to by its own name. -/
theorem means_own {i : Nat} {obj : Obj} {name : Name} {entry : LabelEntry} (wellFormed : obj.WellFormed)
    (here : objs[i]? = some obj) (label : (name, entry) ∈ obj.labels) (defined : entry.needImport = 0) :
    Means objs i (cropName name) i entry := by
  refine .own here ?_
  unfold LabelMap.defines
  rw [wellFormed.unshifted _ label defined, wellFormed.find label]
  simp [Option.filter, defined]

/-- The words of an address do not depend on whether its shift has been cut to 32 bits. -/
theorem ofInt_int32 (base n : Int) : BitVec.ofInt 16 (base + int32 n) = BitVec.ofInt 16 (base + n) := by
  have same : BitVec.ofInt 16 (int32 n) = BitVec.ofInt 16 n := by
    refine BitVec.eq_of_toInt_eq ?_
    rw [BitVec.toInt_ofInt, BitVec.toInt_ofInt]
    unfold int32
    exact Int.bmod_bmod_of_dvd (by decide)
  rw [BitVec.ofInt_add, BitVec.ofInt_add, same]

/-- The shift of a label is the sum of the constants of its name, in 32 bits. -/
theorem Obj.WellFormed.shift {obj : Obj} (wellFormed : obj.WellFormed) {name : Name} {entry : LabelEntry}
    (label : (name, entry) ∈ obj.labels) : ∃ n, Shifted name n ∧ entry.shift = int32 n := by
  obtain ⟨n, shifted⟩ := wellFormed.shifted _ label
  have read := wellFormed.shifts _ label
  rw [labelShift_shifted shifted] at read
  exact ⟨n, shifted, (Option.some.inj read).symm⟩

/-- At every reference by an imported name the first definition of the name is the one it means, or is at the
same address. -/
def FirstIsMeant (config : Config) (objs : List Obj) : Prop :=
  ∀ i obj sect j name entry, Reference objs i obj sect j name entry → entry.needImport = 1 →
    ∃ k meant k' first, Means objs i (cropName name) k meant ∧ First objs (cropName name) k' first ∧
      (k' = k ∨ BitVec.ofInt 16 (address config objs k' first) = BitVec.ofInt 16 (address config objs k meant))

/-- **Relocation.** A program that is linked from well-formed objects is relocated if and only if the first
definition of every imported name, in the order of the link, is the one that the name means. -/
theorem relocated_iff (wellFormed : ∀ obj ∈ objs, obj.WellFormed) (linked : linkObjs config objs = .ok out) :
    Relocated config objs (writeBin config.mode out) ↔ FirstIsMeant config objs := by
  constructor
  · intro relocated i obj sect j name entry reference imported
    obtain ⟨k, meant, shift, means, shifted, word⟩ := relocated.marked i obj sect j name entry reference
    have wellFormed' := wellFormed obj (List.mem_of_getElem? reference.here)
    have read := wellFormed'.shifts _ reference.label
    rw [labelShift_shifted shifted] at read
    have is : entry.shift = int32 shift := (Option.some.inj read).symm
    obtain ⟨defined, -⟩ | ⟨-, k', first, isFirst, word'⟩ :=
      reference_word linked wellFormed' reference
    · rw [imported] at defined
      cases defined
    · refine ⟨k, meant, k', first, means, isFirst, Or.inr ?_⟩
      have same := Option.some.inj (word'.symm.trans word)
      rw [is, ofInt_int32, BitVec.ofInt_add, BitVec.ofInt_add] at same
      exact add_right_cancel same
  · intro firstIsMeant
    refine ⟨fun i obj sect j name entry reference => ?_, fun i obj sect j w here unmarked word => ?_⟩
    · have wellFormed' := wellFormed obj (List.mem_of_getElem? reference.here)
      obtain ⟨defined, word⟩ | ⟨imported, k', first, isFirst, word⟩ :=
        reference_word linked wellFormed' reference
      · obtain ⟨n, shifted, is⟩ := wellFormed'.shift reference.label
        rw [is, ofInt_int32] at word
        exact ⟨i, entry, n, means_own wellFormed' reference.here reference.label defined, shifted, word⟩
      · obtain ⟨k, meant, k'', first', means, isFirst', agree⟩ :=
          firstIsMeant i obj sect j name entry reference imported
        obtain ⟨rfl, rfl⟩ := isFirst.unique isFirst'
        obtain ⟨n, shifted, is⟩ := wellFormed'.shift reference.label
        rw [is, ofInt_int32] at word
        refine ⟨k, meant, n, means, shifted, word.trans (congrArg some ?_)⟩
        rw [BitVec.ofInt_add, BitVec.ofInt_add]
        obtain rfl | same := agree
        · obtain ⟨_, there, defined⟩ := isFirst.defined
          obtain ⟨_, there', defined'⟩ := means.defined
          rw [there] at there'
          obtain rfl := Option.some.inj there'
          rw [Option.some.inj (defined.symm.trans defined')]
        · rw [same]
    · obtain ⟨v, word', run⟩ := image_word linked here word
      unfold linkedWord at run
      rw [unmarked, if_neg (by decide)] at run
      rw [word', Except.ok.inj run]

/-- An object with data only. -/
def dataObj (labels : LabelMap) (code : List Word) (labelMap : Nat → Bool) (offset : Nat) : Obj where
  text := ⟨fun _ => false, [], 0⟩
  data := ⟨labelMap, code, offset⟩
  labels := labels

/-- An object with `static int x = 7`, one with `int x = 9`, and one that imports `x` and has its address. -/
def staticAndGlobal : List Obj :=
  [dataObj [(['x'], ⟨.data, 0, 0, 0, 0, 0⟩)] [7] (fun _ => false) 0,
    dataObj [(['x'], ⟨.data, 0, 0, 1, 0, 0⟩)] [9] (fun _ => false) 0,
    dataObj [(['x'], ⟨.text, 0, 65535, 0, 1, 0⟩)] [0] (fun j => j = 0) 0]

/-- The same objects, linked. -/
def staticAndGlobalLinked : List Obj :=
  [dataObj [(['x'], ⟨.data, 0, 0, 0, 0, 0⟩)] [7] (fun _ => false) 0,
    dataObj [(['x'], ⟨.data, 0, 1, 1, 0, 0⟩)] [9] (fun _ => false) 1,
    dataObj [(['x'], ⟨.data, 0, 0, 0, 0, 0⟩)] [0] (fun j => j = 0) 2]

theorem staticAndGlobal_wellFormed : ∀ obj ∈ staticAndGlobal, obj.WellFormed := by
  have unsigned : ∀ c ∈ ['x'], isSign c = false := by
    intro c here
    rw [List.mem_singleton.mp here]
    rfl
  have plain : Shifted ['x'] 0 := .plain unsigned
  intro obj member
  unfold staticAndGlobal at member
  simp only [List.mem_cons, List.not_mem_nil, or_false] at member
  obtain rfl | rfl | rfl := member
  all_goals
    refine ⟨by decide, ?_, ?_, ?_, ?_, ?_⟩
    · intro l here l' here' _
      rw [List.mem_singleton.mp here, List.mem_singleton.mp here']
    · intro l here
      rw [List.mem_singleton.mp here]
      exact ⟨0, plain⟩
    · intro l here
      rw [List.mem_singleton.mp here]
      rfl
    · intro l here _
      rw [List.mem_singleton.mp here]
      rfl
    · intro sect j marked
      cases sect
      · cases marked
      · first
          | cases marked
          | exact (of_decide_eq_true marked : j = 0) ▸ Nat.one_pos

/-- Relocation of these objects: the link succeeds. -/
theorem relocated_iff_static :
    Relocated ⟨.oneSeg, 0, 0⟩ staticAndGlobal (writeBin .oneSeg staticAndGlobalLinked) ↔
      FirstIsMeant ⟨.oneSeg, 0, 0⟩ staticAndGlobal :=
  relocated_iff staticAndGlobal_wellFormed
    (show linkObjs ⟨.oneSeg, 0, 0⟩ staticAndGlobal = .ok staticAndGlobalLinked by rfl)

/-- **A label that is not exported is taken for one that is**: the address of `x` in the third object is that
of the `static int x` of the first. -/
theorem static_taken : linkObjs ⟨.oneSeg, 0, 0⟩ staticAndGlobal = .ok staticAndGlobalLinked ∧
    ¬ Relocated ⟨.oneSeg, 0, 0⟩ staticAndGlobal (writeBin .oneSeg staticAndGlobalLinked) := by
  refine ⟨by rfl, fun relocated => ?_⟩
  obtain ⟨k, meant, shift, means, shifted, word⟩ := relocated.marked 2 _ .data 0 ['x'] _
    ⟨rfl, rfl, rfl, List.mem_singleton.mpr rfl⟩
  have actual : imageWord .oneSeg staticAndGlobal (writeBin .oneSeg staticAndGlobalLinked)
      (wordIndex staticAndGlobal .data 2 0) = some 0 := by rfl
  have none_ : labelShift ['x'] = some 0 := rfl
  rw [labelShift_shifted shifted] at none_
  rw [← ofInt_int32, Option.some.inj none_, actual] at word
  have address := Option.some.inj word
  cases means with
  | own here defined =>
    obtain rfl := Option.some.inj here
    cases defined
  | exported here foreign there defined isExport =>
    match k with
    | 0 =>
      obtain rfl := Option.some.inj there
      obtain rfl := Option.some.inj defined
      exact isExport rfl
    | 1 =>
      obtain rfl := Option.some.inj there
      obtain rfl := Option.some.inj defined
      exact absurd address (by decide)
    | 2 =>
      obtain rfl := Option.some.inj there
      cases defined
    | k + 3 => cases there

end Relocation

end RlCpu.Binutils
