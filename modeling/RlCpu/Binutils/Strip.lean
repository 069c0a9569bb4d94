/-
**Stripping before a link (`strip` of `linker.cpp`).**

`strip` keeps the object that exports `__progbeg` and, from every object that it keeps, those that export the
names that the object imports, each under its whole name. `resolveNames` then looks for a name up to its first
sign, and takes a definition that is not exported too.

* `strip_preserves_iff`: the link after `strip` succeeds, has every object that is reached, and binds every
  reference as before, if and only if the object that each reference is bound to is one that `strip` comes to.
* `strip_shifted`: an object that is referred to as `x+3` only is lost, and the link fails.
-/

import RlCpu.Binutils.Image
import RlCpu.Lib.Worklist
import Mathlib.Data.List.Sort

namespace RlCpu.Binutils

open RlCpu.Kernel RlCpu.Lib

/-- `whoProvides` -/
def whoProvides (objs : List Obj) (name : Name) : Option Nat :=
  objs.findIdx? fun obj => (obj.labels.find name).any fun entry => entry.needExport ≠ 0

/-- `__progbeg` -/
def progbeg : Name := "__progbeg".toList

/-- The objects that the imports of object `r` ask for, as far as they are found. -/
def providers (objs : List Obj) (r : Nat) : List Nat :=
  match objs[r]? with
  | none => []
  | some obj => obj.labels.filterMap fun ll => if ll.2.needImport ≠ 0 then whoProvides objs ll.1 else none

/-- `requiredObjs` at the end of `strip`, in order; `none` where the source reads `labelsPerObj[-1]`. -/
def requiredObjs (objs : List Obj) : Option (List Nat) := do
  let main ← whoProvides objs progbeg
  let required ← worklist (providers objs) (objs.length + 1) 0 [main]
  return required.insertionSort (· ≤ ·)

/-- The objects that are kept. -/
def keptObjs (objs : List Obj) (required : List Nat) : List Obj := required.filterMap fun i => objs[i]?

/-! ### References -/

section References

variable (objs : List Obj)

/-- A word of object `i` refers to an imported name. -/
inductive RefersTo (i : Nat) (name : Name) : Prop
  | mk {obj : Obj} {sect : Sect} {j : Nat} {w : Word} {entry : LabelEntry} (here : objs[i]? = some obj)
      (marked : (obj.sections sect).labelMap j = true) (word : (obj.sections sect).code[j]? = some w)
      (label : findLabelByUid w obj.labels = some (name, entry)) (imported : entry.needImport = 1)

/-- A name is bound to object `k`: the first that defines it, up to its sign. -/
def BoundTo (name : Name) (k : Nat) : Prop := ∃ entry, First objs (cropName name) k entry

/-- **An object defines a symbol that is reached** from `__progbeg` through references. -/
inductive Reaches : Nat → Prop
  | main {k : Nat} (bound : BoundTo objs progbeg k) : Reaches k
  | reference {i k : Nat} {name : Name} (reached : Reaches i) (refers : RefersTo objs i name)
      (bound : BoundTo objs name k) : Reaches k

/-- **The link after `strip`** succeeds, keeps every object that is reached, and binds every reference in an
object that is kept to the object it was bound to. -/
def StripPreserves (config : Config) : Prop :=
  ∃ required, requiredObjs objs = some required ∧
    (∃ out, linkObjs config (keptObjs objs required) = .ok out) ∧
    (∀ k, Reaches objs k → k ∈ required) ∧
    ∀ i ∈ required, ∀ name, RefersTo objs i name → ∀ k, BoundTo objs name k →
      ∃ b, required[b]? = some k ∧ BoundTo (keptObjs objs required) name b

/-- `strip` comes to an object: it exports `__progbeg`, or a name that an object imports to which `strip`
comes. -/
inductive Provided : Nat → Prop
  | main {k : Nat} (exports : whoProvides objs progbeg = some k) : Provided k
  | imported {i k : Nat} {obj : Obj} {name : Name} {entry : LabelEntry} (before : Provided i)
      (here : objs[i]? = some obj) (label : (name, entry) ∈ obj.labels) (isImport : entry.needImport ≠ 0)
      (exports : whoProvides objs name = some k) : Provided k

/-- **The two lookups agree**: some object exports `__progbeg`, and `strip` comes to the objects that
`__progbeg` and the references in the objects it comes to are bound to. -/
structure LookupsAgree : Prop where
  main : ∃ k, whoProvides objs progbeg = some k
  start : ∀ k, BoundTo objs progbeg k → Provided objs k
  references : ∀ i, Provided objs i → ∀ name, RefersTo objs i name → ∀ k, BoundTo objs name k → Provided objs k

end References

/-! ### The objects that are required -/

section Required

variable {objs : List Obj}

theorem whoProvides_lt {name : Name} {k : Nat} (exports : whoProvides objs name = some k) : k < objs.length := by
  unfold whoProvides at exports
  rw [List.findIdx?_eq_some_iff_getElem] at exports
  exact exports.1

theorem mem_providers {r k : Nat} : k ∈ providers objs r ↔ ∃ obj, objs[r]? = some obj ∧
    ∃ name entry, (name, entry) ∈ obj.labels ∧ entry.needImport ≠ 0 ∧ whoProvides objs name = some k := by
  unfold providers
  cases here : objs[r]? with
  | none => exact iff_of_false List.not_mem_nil fun ⟨obj, clash, _⟩ => by cases clash
  | some obj =>
    dsimp only
    rw [List.mem_filterMap]
    constructor
    · rintro ⟨⟨name, entry⟩, label, found⟩
      split at found
      · rename_i isImport
        exact ⟨obj, rfl, name, entry, label, isImport, found⟩
      · cases found
    · rintro ⟨obj', same, name, entry, label, isImport, found⟩
      obtain rfl := Option.some.inj same
      exact ⟨(name, entry), label, (if_pos isImport).trans found⟩

theorem provided_iff {main : Nat} (exports : whoProvides objs progbeg = some main) (k : Nat) :
    ReachedFrom (providers objs) [main] k ↔ Provided objs k := by
  constructor
  · rintro ⟨s, first, path⟩
    obtain rfl := List.mem_singleton.mp first
    induction path with
    | refl => exact .main exports
    | tail _ edge before =>
      obtain ⟨obj, here, name, entry, label, isImport, found⟩ := mem_providers.mp edge
      exact .imported before here label isImport found
  · intro provided
    induction provided with
    | main exports' =>
      obtain rfl := Option.some.inj (exports.symm.trans exports')
      exact ⟨_, List.mem_singleton_self _, .refl⟩
    | imported _ here label isImport found before =>
      obtain ⟨s, first, path⟩ := before
      exact ⟨s, first, path.tail (mem_providers.mpr ⟨_, here, _, _, label, isImport, found⟩)⟩

theorem Provided.lt {k : Nat} (provided : Provided objs k) : k < objs.length := by
  cases provided with
  | main exports => exact whoProvides_lt exports
  | imported _ _ _ _ exports => exact whoProvides_lt exports

/-- **`strip` comes to its end**, with the objects that it comes to, in their order. -/
theorem requiredObjs_spec {main : Nat} (exports : whoProvides objs progbeg = some main) :
    ∃ required, requiredObjs objs = some required ∧ required.Pairwise (· < ·) ∧
      ∀ k, k ∈ required ↔ Provided objs k := by
  have walk : Walk (providers objs) [main] 0 [main] := .begin (List.nodup_singleton main)
  have inside : ∀ k, ReachedFrom (providers objs) [main] k → k ∈ Finset.range objs.length := fun k reached =>
    Finset.mem_range.mpr ((provided_iff exports k).mp reached).lt
  obtain ⟨all, run, nodup, mem⟩ := worklist_returns walk inside
    (show (Finset.range objs.length).card < objs.length + 1 + 0 by rw [Finset.card_range]; omega)
  have perm := List.perm_insertionSort (· ≤ ·) all
  have sorted := List.pairwise_insertionSort (· ≤ ·) all
  refine ⟨all.insertionSort (· ≤ ·), ?_, ?_, fun k => ?_⟩
  · unfold requiredObjs
    rw [exports]
    change (worklist (providers objs) (objs.length + 1) 0 [main] >>= fun required =>
      some (required.insertionSort (· ≤ ·))) = _
    rw [run]
    rfl
  · have distinct := perm.nodup_iff.mpr nodup
    exact (sorted.and distinct).imp fun both => lt_of_le_of_ne both.1 both.2
  · rw [perm.mem_iff, mem, provided_iff exports]

end Required

/-! ### When a link succeeds -/

section Links

variable {config : Config} {objs : List Obj}

theorem mapM_returns {α β ε : Type} {f : α → Except ε β} {l : List α} (all : ∀ a ∈ l, ∃ b, f a = .ok b) :
    ∃ r, l.mapM f = .ok r := by
  induction l with
  | nil => exact ⟨[], rfl⟩
  | cons a l ih =>
    obtain ⟨b, first⟩ := all a List.mem_cons_self
    obtain ⟨r, rest⟩ := ih fun c here => all c (List.mem_cons_of_mem _ here)
    refine ⟨b :: r, ?_⟩
    rw [List.mapM_cons, first]
    change (l.mapM f >>= fun bs => pure (b :: bs)) = _
    rw [rest]
    rfl

/-- A section whose words can all be linked. -/
theorem linkSection_returns {labels : LabelMap} {sect : Section}
    (all : ∀ j w, sect.code[j]? = some w → ∃ v, linkedWord labels sect j w = .ok v) :
    ∃ linked, linkSection labels sect = .ok linked := by
  have words : ∃ code, (sect.code.zipIdx.mapM fun x => linkedWord labels sect x.2 x.1) = .ok code :=
    mapM_returns fun x here => all x.2 x.1 (List.mem_zipIdx_iff_getElem?.mp here)
  obtain ⟨code, run⟩ := words
  exact ⟨{ sect with code := code }, by rw [linkSection_eq, run]; rfl⟩

theorem linkObj_returns {obj : Obj} (all : ∀ sect j w, (obj.sections sect).code[j]? = some w →
    ∃ v, linkedWord obj.labels (obj.sections sect) j w = .ok v) : ∃ linked, linkObj obj = .ok linked := by
  obtain ⟨text, first⟩ := linkSection_returns (all .text)
  obtain ⟨data, second⟩ := linkSection_returns (all .data)
  refine ⟨{ obj with text := text, data := data }, ?_⟩
  change linkSection obj.labels obj.text = .ok text at first
  change linkSection obj.labels obj.data = .ok data at second
  unfold linkObj
  rw [first]
  change (linkSection obj.labels obj.data >>= fun data => pure { obj with text := text, data := data }) = _
  rw [second]
  rfl

/-- A link succeeds where every word can be linked. -/
theorem linkObjs_returns (all : ∀ (i : Nat) obj, objs[i]? = some obj → ∀ sect j w,
    (obj.sections sect).code[j]? = some w →
      ∃ v, linkedWord (linkedLabels config objs i obj) (obj.sections sect) j w = .ok v) :
    ∃ out, linkObjs config objs = .ok out := by
  unfold linkObjs
  dsimp only
  rw [resolveNames_eq, List.map_map, List.zipWith_map_right, List.zipWith_self]
  refine mapM_returns fun obj' here => ?_
  obtain ⟨i, there⟩ := List.mem_iff_getElem?.mp here
  rw [List.getElem?_map, computeOffsets_getElem, Option.map_map, Option.map_eq_some_iff] at there
  obtain ⟨obj, at', rfl⟩ := there
  refine linkObj_returns fun sect j w word => ?_
  cases sect with
  | text => exact all i obj at' .text j w word
  | data => exact all i obj at' .data j w word

/-- A name is found if and only if some object defines it. -/
theorem findGlobalLabel_isSome (config : Config) (objs : List Obj) {name : Name} :
    (findGlobalLabel (placedLabels config objs) name).isSome = true ↔ ∃ k, BoundTo objs name k := by
  constructor
  · intro found
    obtain ⟨entry, search⟩ := Option.isSome_iff_exists.mp found
    obtain ⟨k, first, isFirst, -⟩ := findGlobalLabel_first search
    exact ⟨k, first, isFirst⟩
  · rintro ⟨k, entry, ⟨obj, here, defined⟩, -⟩
    unfold findGlobalLabel
    rw [List.findSome?_isSome_iff]
    have place := placedLabels_getElem config objs k
    rw [here, Option.map_some] at place
    refine ⟨_, List.mem_of_getElem? place, ?_⟩
    rw [defines_map (fun e => (placed_same config objs k e).1), defined]
    rfl

/-- **A marked word can be linked**: its label is found, and is defined in its object or imported under a name
that some object defines. -/
def Resolves (objs : List Obj) (labels : LabelMap) (w : Word) : Prop :=
  ∃ name entry, findLabelByUid w labels = some (name, entry) ∧
    (entry.needImport = 0 ∨ entry.needImport = 1 ∧ ∃ k, BoundTo objs name k)

theorem resolveEntry_needImport (config : Config) (objs : List Obj) (i : Nat) (name : Name) (entry : LabelEntry) :
    (resolveEntry (placedLabels config objs) name (entry.placed config objs i)).needImport = 0 ↔
      (entry.needImport = 0 ∨ entry.needImport = 1 ∧ ∃ k, BoundTo objs name k) := by
  have same := (placed_same config objs i entry).1
  rw [← findGlobalLabel_isSome config objs]
  unfold resolveEntry
  rw [same]
  by_cases imported : entry.needImport = 1
  · rw [if_pos imported, imported]
    cases findGlobalLabel (placedLabels config objs) name with
    | none =>
      dsimp only
      rw [same, imported]
      decide
    | some found =>
      exact iff_of_true rfl (Or.inr ⟨rfl, rfl⟩)
  · rw [if_neg imported, same]
    exact ⟨Or.inl, fun either => either.resolve_right fun both => imported both.1⟩

theorem linkedWord_returns {i : Nat} {obj : Obj} {sect : Section} {j : Nat} {w : Word} :
    (∃ v, linkedWord (linkedLabels config objs i obj) sect j w = .ok v) ↔
      (sect.labelMap j = true → Resolves objs obj.labels w) := by
  unfold linkedWord
  by_cases marked : sect.labelMap j = true
  · rw [if_pos marked]
    unfold relocate Resolves
    rw [findLabelByUid_linked]
    cases findLabelByUid w obj.labels with
    | none =>
      refine iff_of_false (fun ⟨v, clash⟩ => by cases clash) fun resolves => ?_
      obtain ⟨name, entry, clash, -⟩ := resolves marked
      cases clash
    | some l =>
      obtain ⟨name, entry⟩ := l
      have resolved := resolveEntry_needImport config objs i name entry
      dsimp only [Option.map_some]
      by_cases defined : (resolveEntry (placedLabels config objs) name (entry.placed config objs i)).needImport = 0
      · rw [if_neg (not_not.mpr defined)]
        exact iff_of_true ⟨_, rfl⟩ fun _ => ⟨name, entry, rfl, resolved.mp defined⟩
      · rw [if_pos defined]
        refine iff_of_false (fun ⟨v, clash⟩ => by cases clash) fun resolves => ?_
        obtain ⟨name', entry', same, either⟩ := resolves marked
        obtain ⟨rfl, rfl⟩ := Prod.mk.inj (Option.some.inj same)
        exact defined (resolved.mpr either)
  · rw [if_neg marked]
    exact iff_of_true ⟨w, rfl⟩ fun clash => absurd clash marked

/-- **A link succeeds if and only if every marked word can be linked.** -/
theorem linkObjs_iff : (∃ out, linkObjs config objs = .ok out) ↔
    ∀ (i : Nat) obj, objs[i]? = some obj → ∀ sect j w, (obj.sections sect).code[j]? = some w →
      (obj.sections sect).labelMap j = true → Resolves objs obj.labels w := by
  constructor
  · rintro ⟨out, linked⟩ i obj here sect j w word
    obtain ⟨-, words⟩ := linkObjs_ok linked
    obtain ⟨obj', -, sects⟩ := words i obj here
    obtain ⟨v, -, run⟩ := (sects sect).2 j w word
    exact linkedWord_returns.mp ⟨v, run⟩
  · intro all
    refine linkObjs_returns fun i obj here sect j w word => ?_
    exact linkedWord_returns.mpr (all i obj here sect j w word)

end Links

/-! ### The objects that are kept -/

section Kept

variable {objs : List Obj} {required : List Nat} {config : Config}

theorem keptObjs_getElem (inside : ∀ k ∈ required, k < objs.length) (b : Nat) :
    (keptObjs objs required)[b]? = required[b]?.bind fun k => objs[k]? := by
  induction required generalizing b with
  | nil => rfl
  | cons k required ih =>
    obtain ⟨obj, here⟩ : ∃ obj, objs[k]? = some obj := ⟨_, List.getElem?_eq_getElem (inside k List.mem_cons_self)⟩
    unfold keptObjs
    rw [List.filterMap_cons_some here]
    cases b with
    | zero => exact here.symm
    | succ b => exact ih (fun k' mem => inside k' (List.mem_cons_of_mem _ mem)) b

/-- The objects that are kept stay in their order. -/
theorem required_lt (sorted : required.Pairwise (· < ·)) {a b k l : Nat} (low : a < b) (here : required[a]? = some k)
    (there : required[b]? = some l) : k < l := by
  obtain ⟨inA, rfl⟩ := List.getElem?_eq_some_iff.mp here
  obtain ⟨inB, rfl⟩ := List.getElem?_eq_some_iff.mp there
  exact List.pairwise_iff_getElem.mp sorted a b inA inB low

/-- **A name that is bound to an object that is kept stays bound to it.** -/
theorem boundTo_kept (sorted : required.Pairwise (· < ·)) (inside : ∀ k ∈ required, k < objs.length) {name : Name}
    {k b : Nat} (bound : BoundTo objs name k) (here : required[b]? = some k) :
    BoundTo (keptObjs objs required) name b := by
  obtain ⟨entry, ⟨obj, at', defined⟩, before⟩ := bound
  refine ⟨entry, ⟨obj, ?_, defined⟩, fun a low other there => ?_⟩
  · rw [keptObjs_getElem inside, here]
    exact at'
  · rw [keptObjs_getElem inside] at there
    obtain ⟨l, first, second⟩ := Option.bind_eq_some_iff.mp there
    exact before l (required_lt sorted low first here) other second

/-- The link of the objects that are kept succeeds, where the names stay bound. -/
theorem linkObjs_kept (linked : ∃ out, linkObjs config objs = .ok out) (inside : ∀ k ∈ required, k < objs.length)
    (bound : ∀ i ∈ required, ∀ name, RefersTo objs i name → ∀ k, BoundTo objs name k →
      ∃ b, required[b]? = some k ∧ BoundTo (keptObjs objs required) name b) :
    ∃ out, linkObjs config (keptObjs objs required) = .ok out := by
  rw [linkObjs_iff] at linked ⊢
  intro a obj here sect j w word marked
  rw [keptObjs_getElem inside] at here
  obtain ⟨i, first, second⟩ := Option.bind_eq_some_iff.mp here
  obtain ⟨name, entry, label, defined | ⟨imported, k, bound'⟩⟩ := linked i obj second sect j w word marked
  · exact ⟨name, entry, label, Or.inl defined⟩
  · obtain ⟨b, -, there⟩ := bound i (List.mem_of_getElem? first) name ⟨second, marked, word, label, imported⟩ k bound'
    exact ⟨name, entry, label, Or.inr ⟨imported, b, there⟩⟩

/-- **Stripping before a link**: where the link of all objects succeeds, `strip` preserves it if and only if the
two lookups agree. -/
theorem strip_preserves_iff {out : List Obj} (linked : linkObjs config objs = .ok out) :
    StripPreserves objs config ↔ LookupsAgree objs := by
  constructor
  · rintro ⟨required, run, -, keeps, binds⟩
    have exports : ∃ k, whoProvides objs progbeg = some k := by
      unfold requiredObjs at run
      obtain ⟨k, exports, -⟩ := Option.bind_eq_some_iff.mp run
      exact ⟨k, exports⟩
    obtain ⟨main, exports⟩ := exports
    obtain ⟨required', run', -, mem⟩ := requiredObjs_spec exports
    obtain rfl := Option.some.inj (run.symm.trans run')
    refine ⟨⟨main, exports⟩, fun k bound => (mem k).mp (keeps k (.main bound)),
      fun i provided name refers k bound => ?_⟩
    obtain ⟨b, here, -⟩ := binds i ((mem i).mpr provided) name refers k bound
    exact (mem k).mp (List.mem_of_getElem? here)
  · rintro ⟨⟨main, exports⟩, start, references⟩
    obtain ⟨required, run, sorted, mem⟩ := requiredObjs_spec exports
    have inside : ∀ k ∈ required, k < objs.length := fun k here => ((mem k).mp here).lt
    have binds : ∀ i ∈ required, ∀ name, RefersTo objs i name → ∀ k, BoundTo objs name k →
        ∃ b, required[b]? = some k ∧ BoundTo (keptObjs objs required) name b := by
      intro i here name refers k bound
      have there := (mem k).mpr (references i ((mem i).mp here) name refers k bound)
      obtain ⟨b, at'⟩ := List.mem_iff_getElem?.mp there
      exact ⟨b, at', boundTo_kept sorted inside bound at'⟩
    refine ⟨required, run, linkObjs_kept ⟨out, linked⟩ inside binds, fun k reached => ?_, binds⟩
    induction reached with
    | main bound => exact (mem _).mpr (start _ bound)
    | reference _ refers bound before => exact (mem _).mpr (references _ ((mem _).mp before) _ refers _ bound)

end Kept

/-! ### An object that is referred to with a shift -/

/-- An object that defines `__progbeg` and has the address `x+3`, and one that defines `x`. -/
def shiftedImport : List Obj :=
  [dataObj [(progbeg, ⟨.data, 0, 0, 1, 0, 0⟩), (['x', '+', '3'], ⟨.text, 1, 65535, 0, 1, 3⟩)] [1] (fun j => j = 0) 0,
    dataObj [(['x'], ⟨.data, 0, 0, 1, 0, 0⟩)] [9] (fun _ => false) 0]

/-- The same objects with the address `x`. -/
def plainImport : List Obj :=
  [dataObj [(progbeg, ⟨.data, 0, 0, 1, 0, 0⟩), (['x'], ⟨.text, 1, 65535, 0, 1, 0⟩)] [1] (fun j => j = 0) 0,
    dataObj [(['x'], ⟨.data, 0, 0, 1, 0, 0⟩)] [9] (fun _ => false) 0]

/-- Both lookups find the object that defines `x`. -/
theorem strip_plain : StripPreserves plainImport ⟨.oneSeg, 0, 0⟩ ↔ LookupsAgree plainImport :=
  strip_preserves_iff (show linkObjs ⟨.oneSeg, 0, 0⟩ plainImport = .ok _ by rfl)

/-- **An object that is referred to as `x+3` only** is lost: the link of all objects succeeds, and after `strip`
it fails. -/
theorem strip_shifted : (∃ out, linkObjs ⟨.oneSeg, 0, 0⟩ shiftedImport = .ok out) ∧
    ¬ StripPreserves shiftedImport ⟨.oneSeg, 0, 0⟩ := by
  refine ⟨⟨_, by rfl⟩, ?_⟩
  rintro ⟨required, run, ⟨out, linked⟩, -, -⟩
  have alone : requiredObjs shiftedImport = some [0] := by decide
  obtain rfl := Option.some.inj (alone.symm.trans run)
  have fails : linkObjs ⟨.oneSeg, 0, 0⟩ (keptObjs shiftedImport [0]) = .error (.unresolved ['x', '+', '3']) := by rfl
  cases fails.symm.trans linked

end RlCpu.Binutils
