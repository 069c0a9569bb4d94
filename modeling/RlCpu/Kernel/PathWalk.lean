/-
**Path resolution (`fs_lookup`).**

A path is taken component by component, each copied to the 32 words of `cBuf`, whatever its length.

`components path`: its parts between the slashes. `resolve`: where they lead, one `fs_finddir` after the other, mount
points crossed. `Resolved`: what `fs_lookup` should return. `ShortParts`: the components it comes to fit in `cBuf`.

* `walkPath_resolved`: the walk of `fs_lookup`, its parent too, returns that.
* `lookup_right_iff`: so does `fs_lookup`, exactly where the components fit.
* `lookup_overflows`: a component of 32 words does not.
-/

import RlCpu.Kernel.NotADir

namespace RlCpu.Kernel

open RlCpu.Lib

variable {δ : Type}

/-! ### What should be found -/

/-- The parts of a path between its slashes. -/
def components (path : List Word) : List (List Word) :=
  if path.dropWhile (· = slash) = [] then [] else component path :: components (afterComponent path)
termination_by path.length
decreasing_by exact dropComponent_length (by assumption)

section Spec

variable (env : FsEnv) (data : BlockKey → BlockData)

/-- `fs_finddir` for one component after the other. -/
def resolve : List (List Word) → FsNode → Option FsNode
  | [], dir => some dir
  | c :: cs, dir => (finds env data dir (c ++ [0])).bind (resolve cs)

/-- **What `fs_lookup` should return** for a path that starts at `dir`: the result, the parent and the node. -/
structure Resolved (path : List Word) (dir : FsNode) (rv : FsRv) (parent node : FsNode) : Prop where
  ok : rv = .ok ↔ ∃ n, resolve env data (components path) dir = some n
  node : rv = .ok → resolve env data (components path) dir = some node
  noFile : rv = .noFile ↔ ∃ front last n, components path = front ++ [last] ∧
    resolve env data front dir = some n ∧ finds env data n (last ++ [0]) = none ∧ path.getLast? ≠ some slash
  noDir : rv ≠ .ok → rv ≠ .noFile → rv = .noDir
  parent : rv = .ok ∨ rv = .noFile → ∀ front last, components path = front ++ [last] →
    resolve env data front dir = some parent

/-- **Every component that is come to fits in `cBuf`**, with a 0 behind it. -/
def ShortParts (path : List Word) (dir : FsNode) : Prop :=
  ∀ front part behind, components path = front ++ part :: behind → resolve env data front dir ≠ none → part.length ≤ 31

end Spec

section Facts

variable {env : FsEnv} {data : BlockKey → BlockData} {path : List Word} {dir parent node next : FsNode} {rv : FsRv}

theorem components_end (done : path.dropWhile (· = slash) = []) : components path = [] := by
  rw [components, if_pos done]

theorem components_more (some : path.dropWhile (· = slash) ≠ []) :
    components path = component path :: components (afterComponent path) := by
  rw [components, if_neg some]

theorem resolve_cons (c : List Word) (cs : List (List Word)) :
    resolve env data (c :: cs) dir = (finds env data dir (c ++ [0])).bind (resolve env data cs) := rfl

/-- There are no components where only slashes are. -/
theorem components_nil : components path = [] ↔ path.dropWhile (· = slash) = [] := by
  refine ⟨fun none => ?_, components_end⟩
  by_contra some
  rw [components_more some] at none
  cases none

/-- A path of slashes ends with one. -/
theorem getLast_slashes (done : path.dropWhile (· = slash) = []) (some : path ≠ []) : path.getLast? = .some slash := by
  have all : ∀ c ∈ path, c = slash := fun c mem => by simpa using List.dropWhile_eq_nil_iff.mp done c mem
  rw [List.getLast?_eq_getLast_of_ne_nil some, all _ (List.getLast_mem some)]

/-- The last word of a path is that of what is left behind a component. -/
theorem getLast_after (some : path.dropWhile (· = slash) ≠ []) :
    path.getLast? = .some slash ↔ afterComponent path ≠ [] ∧ (afterComponent path).getLast? = .some slash := by
  have parts := List.takeWhile_append_dropWhile (p := (· = slash)) (l := path)
  have component' : component path ++ afterComponent path = path.dropWhile (· = slash) :=
    List.takeWhile_append_dropWhile
  obtain ⟨c, tail, -, here⟩ := component_cons some
  have here : component path = c :: tail := here
  by_cases last : afterComponent path = []
  · rw [last, List.append_nil] at component'
    refine iff_of_false (fun equal => ?_) fun both => both.1 last
    have ne : component path ≠ [] := by
      rw [here]
      exact List.cons_ne_nil _ _
    have same : path.getLast? = (component path).getLast? := by
      conv_lhs => rw [← parts, ← component', List.getLast?_append_of_ne_nil _ ne]
    have final : (component path).getLast? = .some slash := same.symm.trans equal
    rw [List.getLast?_eq_getLast_of_ne_nil ne] at final
    have inside : slash ∈ component path := Option.some.inj final ▸ List.getLast_mem ne
    simpa using List.mem_takeWhile_imp inside
  · have same : path.getLast? = (afterComponent path).getLast? := by
      conv_lhs => rw [← parts, ← component', ← List.append_assoc, List.getLast?_append_of_ne_nil _ last]
    rw [same]
    exact (and_iff_right last).symm

/-- The components that are come to: the first, and those of what is left. -/
theorem shortParts_more (some : path.dropWhile (· = slash) ≠ []) : ShortParts env data path dir ↔
    (component path).length ≤ 31 ∧
      ∀ next, finds env data dir (component path ++ [0]) = .some next → ShortParts env data (afterComponent path) next := by
  unfold ShortParts
  rw [components_more some]
  constructor
  · refine fun short => ⟨short [] _ _ rfl (Option.some_ne_none _), fun next found front part behind same reached => ?_⟩
    refine short (component path :: front) part behind (congrArg (component path :: ·) same) ?_
    rwa [resolve_cons, found]
  · rintro ⟨first, later⟩ front part behind same reached
    cases front with
    | nil =>
      obtain ⟨rfl, -⟩ := List.cons.inj same
      exact first
    | cons c front =>
      obtain ⟨rfl, same'⟩ := List.cons.inj same
      rw [resolve_cons] at reached
      cases found : finds env data dir (component path ++ [0]) with
      | none =>
        rw [found] at reached
        exact absurd rfl reached
      | some next =>
        rw [found] at reached
        exact later next found front part behind same' reached

/-- **The walk comes to nothing exactly where a component is too long.** -/
theorem walkPath_none : walkPath env data path parent dir = none ↔ ¬ ShortParts env data path dir := by
  induction path, parent, dir using walkPath.induct env data with
  | case1 path parent dir done =>
    rw [walkPath_end done]
    refine iff_of_false (Option.some_ne_none _) (not_not.mpr fun front part behind same => ?_)
    rw [components_end done] at same
    cases front <;> cases same
  | case2 path parent dir some long =>
    rw [walkPath, if_neg some, if_pos long, shortParts_more some]
    exact iff_of_true rfl fun short => absurd short.1 (Nat.not_le.mpr long)
  | case3 path parent dir some short missing =>
    rw [walkPath_missing some (Nat.not_lt.mp short) missing, shortParts_more some]
    refine iff_of_false (Option.some_ne_none _) (not_not.mpr ⟨Nat.not_lt.mp short, fun next found => ?_⟩)
    rw [missing] at found
    cases found
  | case4 path parent dir some short next found ih =>
    rw [walkPath_found some (Nat.not_lt.mp short) found, shortParts_more some, ih, not_iff_not]
    refine ⟨fun rest => ⟨Nat.not_lt.mp short, fun n found' => ?_⟩, fun both => both.2 next found⟩
    obtain rfl := Option.some.inj (found.symm.trans found')
    exact rest

/-- **The walk returns what it should.** -/
theorem walkPath_resolved {r : FsRv × FsNode × FsNode} (walked : walkPath env data path parent dir = some r) :
    Resolved env data path dir r.1 r.2.1 r.2.2 := by
  induction path, parent, dir using walkPath.induct env data with
  | case1 path parent dir done =>
    rw [walkPath_end done] at walked
    obtain rfl := Option.some.inj walked
    have none := components_end done
    refine ⟨?_, fun _ => ?_, ?_, fun ne => absurd rfl ne, fun _ front last same => ?_⟩
    · rw [none]
      exact iff_of_true rfl ⟨dir, rfl⟩
    · rw [none]
      rfl
    · refine iff_of_false FsRv.noConfusion ?_
      rintro ⟨front, last, n, same, -⟩
      rw [none] at same
      exact absurd same.symm (List.append_ne_nil_of_right_ne_nil _ (List.cons_ne_nil _ _))
    · rw [none] at same
      exact absurd same.symm (List.append_ne_nil_of_right_ne_nil _ (List.cons_ne_nil _ _))
  | case2 path parent dir some long =>
    rw [walkPath, if_neg some, if_pos long] at walked
    cases walked
  | case3 path parent dir some short missing =>
    rw [walkPath_missing some (Nat.not_lt.mp short) missing] at walked
    obtain rfl := Option.some.inj walked
    have parts := components_more some
    have stuck : ∀ cs, resolve env data (component path :: cs) dir = none := fun cs => by
      rw [resolve_cons, missing]
      rfl
    have alone : ∀ {front last}, components path = front ++ [last] → (∃ n, resolve env data front dir = .some n) →
        front = [] ∧ last = component path ∧ components (afterComponent path) = [] := by
      intro front last same reached
      rw [parts] at same
      cases front with
      | nil =>
        obtain ⟨rfl, same'⟩ := List.cons.inj same
        exact ⟨rfl, rfl, same'⟩
      | cons c front =>
        obtain ⟨rfl, -⟩ := List.cons.inj same
        obtain ⟨n, reached⟩ := reached
        rw [stuck] at reached
        cases reached
    dsimp only
    refine ⟨?_, fun clash => ?_, ?_, fun _ ne => ?_, fun stops front last same => ?_⟩
    · rw [parts, stuck]
      refine iff_of_false ?_ ?_
      · split <;> exact FsRv.noConfusion
      · rintro ⟨_, clash⟩
        exact absurd clash.symm (Option.some_ne_none _)
    · split at clash <;> cases clash
    · constructor
      · intro final
        have none : afterComponent path = [] := by
          by_contra more
          rw [if_neg more] at final
          cases final
        refine ⟨[], component path, dir, ?_, rfl, missing, fun slashed => ?_⟩
        · rw [parts, none, components_end (show List.dropWhile _ [] = [] from rfl)]
          rfl
        · exact ((getLast_after some).mp slashed).1 none
      · rintro ⟨front, last, n, same, reached, -, unslashed⟩
        obtain ⟨-, -, rest⟩ := alone same ⟨n, reached⟩
        refine if_pos ?_
        by_contra more
        exact unslashed ((getLast_after some).mpr ⟨more, getLast_slashes (components_nil.mp rest) more⟩)
    · split at ne
      · exact absurd rfl ne
      · rename_i more
        rw [if_neg more]
    · have final : afterComponent path = [] := by
        by_contra more
        rw [if_neg more] at stops
        exact stops.elim FsRv.noConfusion FsRv.noConfusion
      rw [parts, final, components_end (show List.dropWhile _ [] = [] from rfl)] at same
      cases front with
      | nil => rfl
      | cons c front =>
        have clash := (List.cons.inj same).2
        exact absurd clash.symm (List.append_ne_nil_of_right_ne_nil _ (List.cons_ne_nil _ _))
  | case4 path parent dir some short next found ih =>
    rw [walkPath_found some (Nat.not_lt.mp short) found] at walked
    obtain ⟨ok, node, noFile, noDir, parent'⟩ := ih walked
    have parts := components_more some
    have step : ∀ cs, resolve env data (component path :: cs) dir = resolve env data cs next := fun cs => by
      rw [resolve_cons, found]
      rfl
    refine ⟨?_, fun here => ?_, ?_, noDir, fun stops front last same => ?_⟩
    · rw [parts, step]
      exact ok
    · rw [parts, step]
      exact node here
    · rw [noFile]
      constructor
      · rintro ⟨front, last, n, same, reached, missing, unslashed⟩
        refine ⟨component path :: front, last, n, ?_, ?_, missing, fun slashed => ?_⟩
        · rw [parts, same]
          rfl
        · rwa [step]
        · exact unslashed ((getLast_after some).mp slashed).2
      · rintro ⟨front, last, n, same, reached, missing, unslashed⟩
        rw [parts] at same
        cases front with
        | nil =>
          obtain ⟨rfl, -⟩ := List.cons.inj same
          obtain rfl := Option.some.inj reached
          rw [found] at missing
          cases missing
        | cons c front =>
          obtain ⟨rfl, same'⟩ := List.cons.inj same
          rw [step] at reached
          refine ⟨front, last, n, same', reached, missing, fun slashed => unslashed ?_⟩
          refine (getLast_after some).mpr ⟨fun none => ?_, slashed⟩
          rw [none] at slashed
          cases slashed
    · rw [parts] at same
      cases front with
      | nil =>
        obtain ⟨-, rest⟩ := List.cons.inj same
        rw [walkPath_end (components_nil.mp rest)] at walked
        obtain rfl := Option.some.inj walked
        rfl
      | cons c front =>
        obtain ⟨rfl, same'⟩ := List.cons.inj same
        rw [step]
        exact parent' stops front last same'

end Facts

/-! ### `fs_lookup` -/

section Lookup

variable {drv : BlkDriver δ} {base : BlockPtr → Nat} {room : Nat} {ok : Fault → Prop} {env : FsEnv}
  {data : BlockKey → BlockData}

/-- A run of `fs_lookup`. -/
theorem fsLookup_path {c : BlkState δ} (coherent : Coherent drv c data) (path : List Word)
    (present : WalkPresent env data path (startOf env path)) :
    (walkPath env data path (startOf env path) (startOf env path) = none ∧ fsLookup drv env path c = .error .wild) ∨
      ∃ r t, walkPath env data path (startOf env path) (startOf env path) = some r ∧
        fsLookup drv env path c = .ok (r, t) ∧ Coherent drv t data := by
  have correct : wp (Shows drv (fun i => (c.blockCache i).cnt.toNat) 4)
      (fun e => e = .wild ∧ walkPath env data path (startOf env path) (startOf env path) = none) (fsLookup drv env path)
      (fun r b => b = viewOf data ∧ walkPath env data path (startOf env path) (startOf env path) = some r) (viewOf data) :=
    wp_fsLookup_path (by decide) present (fun long => ⟨rfl, long⟩) fun r walked => ⟨rfl, walked⟩
  have step := correct c coherent.shows
  cases result : fsLookup drv env path c with
  | error e =>
    rw [result] at step
    obtain ⟨rfl, long⟩ := step
    exact Or.inl ⟨long, rfl⟩
  | ok v =>
    rw [result] at step
    obtain ⟨b, shows, rfl, walked⟩ := step
    exact Or.inr ⟨v.1, v.2, walked, rfl, (coherent.of_shows shows rfl (Set.Subset.refl _)).1⟩

/-- **`fs_lookup` does what it should**: it returns, with no word written behind `cBuf`, the result, the parent and the
node, and the disk is as before. -/
def LookupRight (drv : BlkDriver δ) (env : FsEnv) (data : BlockKey → BlockData) (c : BlkState δ)
    (path : List Word) : Prop :=
  ∃ rv parent node t, fsLookup drv env path c = .ok ((rv, parent, node), t) ∧ Coherent drv t data ∧
    Resolved env data path (startOf env path) rv parent node

/-- **Exactly where the components that it comes to fit in `cBuf`.** The blocks of the entries it reads are there;
anything may be mounted. -/
theorem lookup_right_iff {c : BlkState δ} (coherent : Coherent drv c data) {path : List Word}
    (present : WalkPresent env data path (startOf env path)) :
    LookupRight drv env data c path ↔ ShortParts env data path (startOf env path) := by
  obtain ⟨none, fails⟩ | ⟨⟨rv, parent, node⟩, t, walked, run, after⟩ := fsLookup_path coherent path present
  · refine iff_of_false ?_ (walkPath_none.mp none)
    rintro ⟨rv, parent, node, t, run, -⟩
    rw [fails] at run
    cases run
  · refine iff_of_true ⟨rv, parent, node, t, run, after, walkPath_resolved walked⟩ ?_
    by_contra long
    exact absurd (walked.symm.trans (walkPath_none.mpr long)) (Option.some_ne_none _)

end Lookup

/-- `/f/x` is found. -/
theorem lookup_right_lookalike : LookupRight ramDriver ramEnv lookalike (bootOn lookalike).blk pathFX.chars ↔
    ShortParts ramEnv lookalike pathFX.chars (startOf ramEnv pathFX.chars) :=
  lookup_right_iff (bootOn_coherent lookalike) lookalike_present

/-- **A name of 32 words** is copied behind `cBuf`. -/
theorem lookup_overflows : ¬ LookupRight ramDriver ramEnv lookalike (bootOn lookalike).blk (List.replicate 32 120) := by
  rintro ⟨rv, parent, node, t, run, -⟩
  have fails : fsLookup ramDriver ramEnv (List.replicate 32 120) (bootOn lookalike).blk = .error .wild := by
    unfold fsLookup
    rw [if_neg (by decide), lookupLoop]
    dsimp only
    rw [if_neg (by decide), if_pos (by decide)]
    rfl
  rw [fails] at run
  cases run

end RlCpu.Kernel
