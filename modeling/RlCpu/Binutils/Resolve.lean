/-
**Names after `resolveNames`.**

`resolveNames` goes over the labels in place: an import that has been resolved is a definition to every
later search. It is one of the same place, so the order does not matter:

* `resolveNames_eq`: every import takes the place of the first definition of its name among the labels as
  they were.
-/

import RlCpu.Binutils.Linker
import Mathlib.Data.List.TakeWhile

namespace RlCpu.Binutils

open RlCpu.Kernel

variable {orig cur : List LabelMap}

/-- The place of a definition. -/
def LabelEntry.target (entry : LabelEntry) : Int × Sect := (entry.position, entry.sect)

/-- An entry takes only the place of the definition that is found. -/
theorem resolveEntry_congr {name : Name} (entry : LabelEntry)
    (same : (findGlobalLabel cur name).map LabelEntry.target =
      (findGlobalLabel orig name).map LabelEntry.target) :
    resolveEntry cur name entry = resolveEntry orig name entry := by
  unfold resolveEntry
  by_cases imported : entry.needImport = 1
  · rw [if_pos imported, if_pos imported]
    cases found : findGlobalLabel orig name with
    | none =>
      rw [found, Option.map_none, Option.map_eq_none_iff] at same
      rw [same]
    | some d =>
      rw [found, Option.map_some, Option.map_eq_some_iff] at same
      obtain ⟨d', found', target⟩ := same
      obtain ⟨position, sect⟩ := Prod.mk.inj target
      rw [found']
      simp only [position, sect]
  · rw [if_neg imported, if_neg imported]

/-- A cropped name stays as it is. -/
theorem cropName_cropName (name : Name) : cropName (cropName name) = cropName name := by
  unfold cropName
  by_cases empty : (name.takeWhile fun c => !isSign c) = []
  · simp only [empty, ↓reduceIte]
  · simp only [empty, ↓reduceIte]
    rw [List.takeWhile_idem]
    simp only [empty, ↓reduceIte]

theorem findGlobalLabel_cropName (labelsPerObj : List LabelMap) (name : Name) :
    findGlobalLabel labelsPerObj (cropName name) = findGlobalLabel labelsPerObj name := by
  unfold findGlobalLabel
  rw [cropName_cropName]

/-- The label `l`, or the label as `resolveNames` leaves it. -/
def MayResolve (orig : List LabelMap) (l l' : Name × LabelEntry) : Prop :=
  l' = l ∨ l' = (l.1, resolveEntry orig l.1 l.2)

/-- Maps of labels on the way from the first ones to the resolved ones. -/
def Between (orig : List LabelMap) : List LabelMap → List LabelMap → Prop :=
  List.Forall₂ (List.Forall₂ (MayResolve orig))

theorem MayResolve.name {l l' : Name × LabelEntry} (may : MayResolve orig l l') : l'.1 = l.1 := by
  obtain rfl | rfl := may
  · rfl
  · rfl

theorem LabelMap.find_cons (l : Name × LabelEntry) (labels : LabelMap) (name : Name) :
    LabelMap.find (l :: labels) name = if l.1 = name then some l.2 else LabelMap.find labels name := by
  unfold LabelMap.find
  rw [List.find?_cons]
  by_cases same : l.1 = name
  · simp [same]
  · simp [same]

/-- A name is in both maps or in none. -/
theorem find_between {labels labels' : LabelMap} (between : List.Forall₂ (MayResolve orig) labels labels')
    (name : Name) : labels.find name = none ∧ labels'.find name = none ∨
      ∃ e e', labels.find name = some e ∧ labels'.find name = some e' ∧
        (e' = e ∨ e' = resolveEntry orig name e) := by
  induction between with
  | nil => exact Or.inl ⟨rfl, rfl⟩
  | cons may _ ih =>
    rename_i l l' labels labels' _
    rw [LabelMap.find_cons, LabelMap.find_cons, may.name]
    by_cases same : l.1 = name
    · refine Or.inr ⟨l.2, l'.2, by rw [if_pos same], by rw [if_pos same], ?_⟩
      obtain rfl | rfl := may
      · exact Or.inl rfl
      · exact Or.inr (by rw [same])
    · rw [if_neg same, if_neg same]
      exact ih

/-- An object on the way defines what it did, or what a resolved import of it names. -/
theorem defines_between {labels labels' : LabelMap}
    (between : List.Forall₂ (MayResolve orig) labels labels') (name : Name) :
    labels'.defines name = labels.defines name ∨
      labels.defines name = none ∧ ∃ e' d, labels'.defines name = some e' ∧
        findGlobalLabel orig name = some d ∧ e'.target = d.target := by
  unfold LabelMap.defines
  obtain ⟨absent, absent'⟩ | ⟨e, e', found, found', rfl | rfl⟩ := find_between between name
  · rw [absent, absent']
    exact Or.inl rfl
  · rw [found, found']
    exact Or.inl rfl
  · rw [found, found']
    by_cases imported : e.needImport = 1
    · cases global : findGlobalLabel orig name with
      | none =>
        have same : resolveEntry orig name e = e := by
          unfold resolveEntry
          rw [if_pos imported, global]
        rw [same]
        exact Or.inl rfl
      | some d =>
        have resolved : resolveEntry orig name e =
            { e with position := d.position, sect := d.sect, needImport := 0 } := by
          unfold resolveEntry
          rw [if_pos imported, global]
        rw [resolved]
        refine Or.inr ⟨?_, _, d, rfl, rfl, rfl⟩
        simp [Option.filter, imported]
    · have same : resolveEntry orig name e = e := by
        unfold resolveEntry
        rw [if_neg imported]
      rw [same]
      exact Or.inl rfl

/-- **A search on the way finds the place that a search before finds.** -/
theorem findGlobalLabel_between (between : Between orig orig cur) (name : Name) :
    (findGlobalLabel cur name).map LabelEntry.target =
      (findGlobalLabel orig name).map LabelEntry.target := by
  -- Over a part of the objects, the search may also stop early, at an import resolved to that place.
  have search : ∀ part part' : List LabelMap, Between orig part part' →
      (part'.findSome? fun labels => labels.defines (cropName name)).map LabelEntry.target =
        (part.findSome? fun labels => labels.defines (cropName name)).map LabelEntry.target ∨
      (part'.findSome? fun labels => labels.defines (cropName name)).map LabelEntry.target =
        (findGlobalLabel orig name).map LabelEntry.target := by
    intro part part' between
    induction between with
    | nil => exact Or.inl rfl
    | cons head _ ih =>
      rename_i labels labels' rest rest' _
      rw [List.findSome?_cons, List.findSome?_cons]
      obtain same | ⟨absent, e', d, found', global, target⟩ := defines_between head (cropName name)
      · rw [same]
        cases labels.defines (cropName name) with
        | none => exact ih
        | some e => exact Or.inl rfl
      · rw [findGlobalLabel_cropName] at global
        rw [found', global]
        exact Or.inr (congrArg some target)
  obtain same | same := search orig cur between
  · exact same
  · exact same

/-! ### The loops -/

/-- The labels of an object, resolved. -/
def resolved (orig : List LabelMap) (labels : LabelMap) : LabelMap :=
  labels.map fun label => (label.1, resolveEntry orig label.1 label.2)

theorem forall₂_resolved (orig : List LabelMap) (labels : LabelMap) :
    List.Forall₂ (MayResolve orig) labels (resolved orig labels) := by
  unfold resolved
  rw [List.forall₂_map_right_iff, List.forall₂_same]
  exact fun _ _ => Or.inr rfl

theorem forall₂_same (orig : List LabelMap) (labels : LabelMap) :
    List.Forall₂ (MayResolve orig) labels labels := by
  rw [List.forall₂_same]
  exact fun _ _ => Or.inl rfl

theorem between_same (orig part : List LabelMap) : Between orig part part := by
  unfold Between
  rw [List.forall₂_same]
  exact fun labels _ => forall₂_same orig labels

theorem between_resolved (orig part : List LabelMap) :
    Between orig part (part.map (resolved orig)) := by
  unfold Between
  rw [List.forall₂_map_right_iff, List.forall₂_same]
  exact fun labels _ => forall₂_resolved orig labels

/-- The loop over the labels of an object. -/
theorem resolveObject_eq {before after : List LabelMap} (done todo : LabelMap)
    (whole : orig = before ++ (done ++ todo) :: after) :
    resolveObject (before.map (resolved orig)) after (resolved orig done) todo =
      resolved orig (done ++ todo) := by
  induction todo generalizing done with
  | nil => rw [List.append_nil]; rfl
  | cons label todo ih =>
    obtain ⟨name, entry⟩ := label
    have between : Between orig orig
        (before.map (resolved orig) ++ (resolved orig done ++ (name, entry) :: todo) :: after) := by
      nth_rewrite 2 [whole]
      refine List.rel_append (between_resolved orig before) (List.Forall₂.cons ?_ (between_same orig after))
      exact List.rel_append (forall₂_resolved orig done) (forall₂_same orig _)
    have step : resolveEntry (before.map (resolved orig) ++
        (resolved orig done ++ (name, entry) :: todo) :: after) name entry = resolveEntry orig name entry :=
      resolveEntry_congr entry (findGlobalLabel_between between name)
    have more : resolved orig done ++ [(name, resolveEntry orig name entry)] =
        resolved orig (done ++ [(name, entry)]) := by
      unfold resolved
      rw [List.map_append]
      rfl
    simp only [resolveObject, step, more]
    have rest := ih (done ++ [(name, entry)]) (by rw [whole, List.append_assoc]; rfl)
    rw [rest, List.append_assoc]
    rfl

/-- **Every import takes the place of the first definition of its name.** -/
theorem resolveNames_eq (orig : List LabelMap) : resolveNames [] orig = orig.map (resolved orig) := by
  have loop : ∀ before todo : List LabelMap, orig = before ++ todo →
      resolveNames (before.map (resolved orig)) todo = (before ++ todo).map (resolved orig) := by
    intro before todo
    induction todo generalizing before with
    | nil => intro _; rw [List.append_nil]; rfl
    | cons labels after ih =>
      intro whole
      unfold resolveNames
      have object : resolveObject (before.map (resolved orig)) after (resolved orig []) labels =
          resolved orig ([] ++ labels) := resolveObject_eq [] labels whole
      rw [List.nil_append] at object
      have start : resolved orig [] = [] := rfl
      rw [start] at object
      rw [object]
      have more : before.map (resolved orig) ++ [resolved orig labels] =
          (before ++ [labels]).map (resolved orig) := by
        rw [List.map_append]
        rfl
      rw [more, ih (before ++ [labels]) (by rw [whole, List.append_assoc]; rfl), List.append_assoc]
      rfl
  exact loop [] orig rfl

end RlCpu.Binutils
