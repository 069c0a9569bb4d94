/-
**Paths in a well-formed tree.**

`findEntry` is the entry `fs_finddir` finds. `DirPath data d path n`: every component of `path`, walked
from node `n`, is looked up in a directory, which the kernel does not check. `walk` is where the path
leads.

* `wp_fsFinddir`: the node of the first entry with the name.
* `wp_fsLookup`: what the parent and the node are for each result, `Looked`.
-/

import RlCpu.Kernel.TreeWrite
import Mathlib.Data.List.GetD
import Mathlib.Data.List.TakeWhile

namespace RlCpu.Kernel

open RlCpu.Lib

variable {δ : Type} {drv : BlkDriver δ}

/-! ### Names -/

theorem strcmpEq_cons {u v : Word} {us vs : List Word} :
    strcmpEq (u :: us) (v :: vs) = true ↔ u = v ∧ (u = 0 ∨ strcmpEq us vs = true) := by
  rw [strcmpEq]
  by_cases same : u = v <;> simp [same]

/-- The string in `name` of an entry. -/
def direntName (words : List Word) : List Word := words.takeWhile (· ≠ 0)

@[simp] theorem direntName_nil : direntName [] = [] := rfl

@[simp] theorem direntName_zero (words : List Word) : direntName (0 :: words) = [] :=
  List.takeWhile_cons_of_neg (by simp)

theorem direntName_cons {w : Word} (some : w ≠ 0) (words : List Word) :
    direntName (w :: words) = w :: direntName words :=
  List.takeWhile_cons_of_pos (decide_eq_true some)

/-- **`strcmp` compares the strings.** -/
theorem strcmpEq_string {what : List Word} (nonzero : ∀ c ∈ what, c ≠ 0) (words : List Word) :
    strcmpEq words (what ++ [0]) = true ↔ direntName words = what ∧ what.length < words.length := by
  induction what generalizing words with
  | nil =>
    cases words with
    | nil => exact iff_of_false Bool.false_ne_true fun both => absurd both.2 (Nat.lt_irrefl 0)
    | cons w words =>
      rw [List.nil_append, strcmpEq_cons]
      by_cases zero : w = 0
      · subst zero
        exact iff_of_true ⟨rfl, Or.inl rfl⟩ ⟨direntName_zero words, Nat.succ_pos _⟩
      · rw [direntName_cons zero]
        exact iff_of_false (fun both => zero both.1) fun both => List.cons_ne_nil _ _ both.1
  | cons c what ih =>
    have first := nonzero c List.mem_cons_self
    cases words with
    | nil => exact iff_of_false Bool.false_ne_true fun both => absurd both.2 (Nat.not_lt_zero _)
    | cons w words =>
      rw [List.cons_append, strcmpEq_cons, ih (fun c mem => nonzero c (List.mem_cons_of_mem _ mem)),
        List.length_cons, List.length_cons, Nat.succ_lt_succ_iff]
      by_cases zero : w = 0
      · subst zero
        rw [direntName_zero]
        exact iff_of_false (fun both => first both.1.symm) fun both => List.cons_ne_nil _ _ both.1.symm
      · rw [direntName_cons zero, List.cons.injEq, and_assoc]
        exact and_congr_right fun _ => or_iff_right zero

/-- The entry of directory `n` with the name `what`. -/
def findEntry (data : BlockKey → BlockData) (d n : Word) (what : List Word) : Option Nat :=
  (List.range (entryCount data d n)).find? fun i => strcmpEq (entryWords data d n i) what

theorem findEntry_some {data : BlockKey → BlockData} {d n : Word} {what : List Word} {i : Nat}
    (found : findEntry data d n what = some i) :
    i < entryCount data d n ∧ strcmpEq (entryWords data d n i) what = true :=
  ⟨List.mem_range.mp (List.mem_of_find?_eq_some found),
    List.find?_some (p := fun i => strcmpEq (entryWords data d n i) what) found⟩

theorem findEntry_none {data : BlockKey → BlockData} {d n : Word} {what : List Word}
    (missing : findEntry data d n what = none) {i : Nat} (low : i < entryCount data d n) :
    strcmpEq (entryWords data d n i) what = false :=
  (Bool.not_eq_true _).mp (List.find?_eq_none.mp missing i (List.mem_range.mpr low))

/-- The part of a path after its last `'/'`. -/
def lastPart (path : List Word) : List Word := (path.reverse.takeWhile (· ≠ slash)).reverse

/-- Before a `'/'` anything may stand. -/
theorem lastPart_append {front rest : List Word} (mem : slash ∈ rest) :
    lastPart (front ++ rest) = lastPart rest := by
  unfold lastPart
  rw [List.reverse_append, List.takeWhile_append, if_neg]
  intro whole
  have all := List.takeWhile_eq_self_iff.mp
    (List.takeWhile_prefix _ |>.eq_of_length whole) slash (List.mem_reverse.mpr mem)
  simp at all

/-- A part without `'/'`, after slashes. -/
theorem lastPart_slashes {front part : List Word} (slashes : ∀ c ∈ front, c = slash)
    (plain : ∀ c ∈ part, c ≠ slash) : lastPart (front ++ part) = part := by
  have whole : part.reverse.takeWhile (· ≠ slash) = part.reverse :=
    List.takeWhile_eq_self_iff.mpr fun c mem => decide_eq_true (plain c (List.mem_reverse.mp mem))
  have nothing : front.reverse.takeWhile (· ≠ slash) = [] := by
    cases front.eq_nil_or_concat with
    | inl empty => rw [empty]; rfl
    | inr last =>
      obtain ⟨init, c, rfl⟩ := last
      have here := slashes c (by simp)
      rw [here]
      simp
  unfold lastPart
  rw [List.reverse_append, List.takeWhile_append, if_pos (by rw [whole]), nothing,
    List.append_nil, List.reverse_reverse]

/-- What is left of a path after a component starts with `'/'`. -/
theorem slash_mem_rest {path : List Word} (some : path.dropWhile (· ≠ slash) ≠ []) :
    slash ∈ path.dropWhile (· ≠ slash) := by
  have head := List.dropWhile_get_zero_not (p := (· ≠ slash)) path (List.length_pos_iff.mpr some)
  have here : (path.dropWhile (· ≠ slash)).get ⟨0, List.length_pos_iff.mpr some⟩ = slash := by
    simpa using head
  have inside := List.get_mem (path.dropWhile (· ≠ slash)) ⟨0, List.length_pos_iff.mpr some⟩
  rwa [here] at inside

/-- A component is not empty. -/
theorem component_cons {path : List Word} (some : path.dropWhile (· = slash) ≠ []) :
    ∃ c tail, c ∈ path ∧ (path.dropWhile (· = slash)).takeWhile (· ≠ slash) = c :: tail := by
  have head := List.dropWhile_get_zero_not (p := (· = slash)) path (List.length_pos_iff.mpr some)
  cases cut : path.dropWhile (· = slash) with
  | nil => exact absurd cut some
  | cons c tail =>
    simp only [cut, List.get_eq_getElem, List.getElem_cons_zero] at head
    refine ⟨c, tail.takeWhile (· ≠ slash), ?_, ?_⟩
    · have inside : c ∈ path.dropWhile (· = slash) := cut ▸ List.mem_cons_self
      exact (List.dropWhile_sublist _).subset inside
    · rw [List.takeWhile_cons, if_pos (by simpa using head)]

/-- The last part of a path is its last component. -/
theorem lastPart_component (path : List Word) : lastPart path =
    if (path.dropWhile (· = slash)).dropWhile (· ≠ slash) = [] then
      (path.dropWhile (· = slash)).takeWhile (· ≠ slash)
    else lastPart ((path.dropWhile (· = slash)).dropWhile (· ≠ slash)) := by
  have parts := List.takeWhile_append_dropWhile (p := (· = slash)) (l := path)
  have component := List.takeWhile_append_dropWhile (p := (· ≠ slash))
    (l := path.dropWhile (· = slash))
  split
  case isTrue last =>
    rw [last, List.append_nil] at component
    conv_lhs => rw [← parts, ← component]
    refine lastPart_slashes (fun c inside => ?_) fun c inside => ?_
    · simpa using List.mem_takeWhile_imp inside
    · simpa using List.mem_takeWhile_imp inside
  case isFalse more =>
    conv_lhs => rw [← parts, ← component, ← List.append_assoc]
    exact lastPart_append (slash_mem_rest more)

/-- What `path` leads to from node `n`: the node, or the node in which a component is missing. -/
def walk (data : BlockKey → BlockData) (d : Word) (path : List Word) (n : Word) : FsRv × Word :=
  let path' := path.dropWhile (· = slash)
  if path' = [] then (.ok, n)
  else
    match findEntry data d n (path'.takeWhile (· ≠ slash) ++ [0]) with
    | none => (if path'.dropWhile (· ≠ slash) = [] then .noFile else .noDir, n)
    | some i => walk data d (path'.dropWhile (· ≠ slash)) (entryIdx data d n i)
termination_by path.length
decreasing_by exact dropComponent_length (by assumption)

/-- Every component of `path` is looked up in a directory. -/
def DirPath (data : BlockKey → BlockData) (d : Word) (path : List Word) (n : Word) : Prop :=
  let path' := path.dropWhile (· = slash)
  if path' = [] then True
  else
    IsDir data d n ∧
      match findEntry data d n (path'.takeWhile (· ≠ slash) ++ [0]) with
      | none => True
      | some i => DirPath data d (path'.dropWhile (· ≠ slash)) (entryIdx data d n i)
termination_by path.length
decreasing_by exact dropComponent_length (by assumption)

/-- The walk comes to a component that is not there and longer than `cBuf`. -/
def LongPart (data : BlockKey → BlockData) (d : Word) (path : List Word) (n : Word) : Prop :=
  let path' := path.dropWhile (· = slash)
  if path' = [] then False
  else
    match findEntry data d n (path'.takeWhile (· ≠ slash) ++ [0]) with
    | none => 31 < (path'.takeWhile (· ≠ slash)).length
    | some i => LongPart data d (path'.dropWhile (· ≠ slash)) (entryIdx data d n i)
termination_by path.length
decreasing_by exact dropComponent_length (by assumption)

/-- A long component makes a long path. -/
theorem LongPart.length_lt {data : BlockKey → BlockData} {d : Word} (length : Nat) :
    ∀ (path : List Word) (n : Word), path.length = length → LongPart data d path n → 31 < path.length := by
  induction length using Nat.strong_induction_on with
  | _ length ih =>
  intro path n measure long
  rw [LongPart] at long
  by_cases done : path.dropWhile (· = slash) = []
  · rw [if_pos done] at long
    exact long.elim
  rw [if_neg done] at long
  have shorter := dropComponent_length done
  have part_le : ((path.dropWhile (· = slash)).takeWhile (· ≠ slash)).length ≤ path.length :=
    ((List.takeWhile_sublist _).trans (List.dropWhile_sublist _)).length_le
  split at long
  case h_1 => exact long.trans_le part_le
  case h_2 => exact (ih _ (measure ▸ shorter) _ _ rfl long).trans shorter

theorem walk_nil (data : BlockKey → BlockData) (d n : Word) : walk data d [] n = (.ok, n) := by
  rw [walk]
  exact if_pos rfl

/-! ### Reading a directory -/

section Rules

variable {base : BlockPtr → Nat} {room : Nat} {ok : Fault → Prop} {a : DiskView} {d n : Word}
  {live raw : Set Word}

/-- What `fs_stat` returns for node `n`. -/
def statOf (data : BlockKey → BlockData) (d n : Word) : Stat :=
  if sIschr (nodeMode data d n) || sIsblk (nodeMode data d n) then
    ⟨d, n, nodeMode data d n, BitVec.ofNat 16 (fileSize data d n), 1⟩
  else ⟨d, n, nodeMode data d n, 0, fileSize data d n⟩

@[simp] theorem statOf_mode (data : BlockKey → BlockData) (d n : Word) :
    (statOf data d n).stMode = nodeMode data d n := by
  unfold statOf
  split <;> rfl

theorem statOf_size {data : BlockKey → BlockData} {d n : Word} (plain : ¬ IsDev data d n) :
    (statOf data d n).stSize = fileSize data d n := by
  unfold IsDev at plain
  unfold statOf
  rw [if_neg plain]

/-- **`fs_stat`** -/
theorem wp_fsStat {post : Stat → DiskView → Prop} (free : a.pins.length < room)
    (hard : (d, n) ∉ a.soft) (rest : post (statOf a.data d n) a) :
    wp (Shows drv base room) ok (fsStat drv ⟨d, n⟩) post a := by
  unfold fsStat
  refine wp_bind (wp_bread_hard free hard fun i => ?_)
  refine wp_bind (wp_data (a.mem_pin i _) ?_)
  dsimp only
  refine wp_bind (wp_bfree_pin ?_)
  by_cases dev : (sIschr ((a.data (d, n)).word 0) || sIsblk ((a.data (d, n)).word 0)) = true
  · refine wp_pos dev (wp_pure ?_)
    unfold statOf nodeMode at rest
    rwa [if_pos dev] at rest
  · refine wp_neg dev (wp_pure ?_)
    unfold statOf nodeMode at rest
    rwa [if_neg dev] at rest

/-- A part of a file of the tree is read as it is. -/
theorem wp_fsRead_node {offset size : Nat} {post : List Word → DiskView → Prop}
    (free : a.pins.length + 1 < room) (node : NodeOk a d live raw n) (plain : ¬ IsDev a.data d n)
    (small : size < 2 ^ 16) (inside : offset ≤ fileSize a.data d n)
    (rest : post (wordsAt a.data d n offset (min size (fileSize a.data d n - offset))) a) :
    wp (Shows drv base room) ok (fsRead drv ⟨d, n⟩ offset size) post a := by
  have bounded := node.bounded plain
  unfold fileSize at *
  refine wp_fsRead_full free node.hard node.file.index inside small ?_ ?_ rest
  · unfold maxFileSize dataSlots at bounded
    omega
  · intro p low high
    exact node.mapped plain p (Nat.zero_le p) (by unfold fileSize; omega)

/-- An entry of a directory. -/
theorem wp_readEntry {i : Nat} {post : List Word → DiskView → Prop}
    (free : a.pins.length + 1 < room) (node : NodeOk a d live raw n) (plain : ¬ IsDev a.data d n)
    (low : i < entryCount a.data d n) (rest : post (entryWords a.data d n i) a) :
    wp (Shows drv base room) ok (fsRead drv ⟨d, n⟩ (i * 32) 32) post a := by
  unfold entryCount at low
  refine wp_fsRead_node free node plain (by decide) (by omega) ?_
  rw [min_eq_left (by omega)]
  exact rest

@[simp] theorem entryWords_length (data : BlockKey → BlockData) (d n : Word) (i : Nat) :
    (entryWords data d n i).length = 32 := by
  unfold entryWords wordsAt
  rw [List.length_map, List.length_range]

theorem entryWords_getD (data : BlockKey → BlockData) (d n : Word) (i : Nat) {j : Nat}
    (small : j < 32) : (entryWords data d n i).getD j 0 = wordAt data d n (i * 32 + j) := by
  unfold entryWords wordsAt
  rw [List.getD_eq_getElem _ _ (by rwa [List.length_map, List.length_range]), List.getElem_map,
    List.getElem_range]

/-- An entry that is read whole. -/
theorem dEntOf_entry (env : FsEnv) (dir : FsNode) {words : List Word} (whole : words.length = 32) :
    dEntOf env dir words = words := by
  unfold dEntOf
  rw [whole]
  exact List.append_nil words

/-- The loop of `fs_finddir`. -/
theorem wp_finddirLoop {env : FsEnv} {what : List Word} {post : Option FsNode → DiskView → Prop}
    (unmounted : env.mtab = []) (free : a.pins.length + 1 < room) (node : NodeOk a d live raw n)
    (plain : ¬ IsDev a.data d n) :
    ∀ is : List Nat, (∀ i ∈ is, i < entryCount a.data d n) →
      post ((is.find? fun i => strcmpEq (entryWords a.data d n i) what).map
        fun i => ⟨d, entryIdx a.data d n i⟩) a →
      wp (Shows drv base room) ok (finddirLoop drv env ⟨d, n⟩ what is) post a := by
  intro is
  induction is with
  | nil => exact fun _ rest => wp_pure rest
  | cons i is ih =>
    intro low rest
    unfold finddirLoop
    refine wp_bind (wp_readEntry free node plain (low i List.mem_cons_self) ?_)
    rw [dEntOf_entry env _ (entryWords_length _ _ _ _)]
    by_cases here : strcmpEq (entryWords a.data d n i) what = true
    · refine wp_pos here (wp_pure ?_)
      rw [List.find?_cons, here] at rest
      rw [entryWords_getD _ _ _ _ (by decide), unmounted]
      exact rest
    · refine wp_neg here (ih (fun j mem => low j (List.mem_cons_of_mem i mem)) ?_)
      rwa [List.find?_cons, (Bool.not_eq_true _).mp here] at rest

theorem finddirWhere_nil (dir : FsNode) (what : List Word) : finddirWhere [] dir what = dir := by
  unfold finddirWhere
  split <;> rfl

/-- **`fs_finddir`** in a directory of the tree. -/
theorem wp_fsFinddir {env : FsEnv} {what : List Word} {post : FsNode × Option FsNode → DiskView → Prop}
    (unmounted : env.mtab = []) (free : a.pins.length + 1 < room) (node : NodeOk a d live raw n)
    (dir : IsDir a.data d n) (whole : fileSize a.data d n % 32 = 0)
    (rest : post (⟨d, n⟩, (findEntry a.data d n what).map fun i => ⟨d, entryIdx a.data d n i⟩) a) :
    wp (Shows drv base room) ok (fsFinddir drv env ⟨d, n⟩ what) post a := by
  have count : (fileSize a.data d n + 31) / 32 = entryCount a.data d n := by
    unfold entryCount
    omega
  unfold fsFinddir
  rw [unmounted, finddirWhere_nil]
  dsimp only
  refine wp_bind (wp_fsStat (by omega) node.hard ?_)
  rw [statOf_size dir.not_isDev, count]
  refine wp_bind (wp_finddirLoop unmounted free node dir.not_isDev _ (fun i => List.mem_range.mp) (wp_pure ?_))
  exact rest

/-! ### Walking a path -/

/-- Node `res` is directory `parent` itself, or one of its entries names it. -/
def Linked (a : DiskView) (d : Word) (live : Set Word) (parent res : FsNode) : Prop :=
  ∃ n ∈ live, ∃ m ∈ live, parent = ⟨d, n⟩ ∧ res = ⟨d, m⟩ ∧ IsDir a.data d n ∧
    (m = n ∨ ∃ i < entryCount a.data d n, entryIdx a.data d n i = m)

/-- What `fs_lookup` of `path` from node `start` returns. -/
def Looked (a : DiskView) (d : Word) (live : Set Word) (path : List Word) (start : Word) :
    FsRv × FsNode × FsNode → Prop
  | (.ok, parent, res) =>
      walk a.data d path start = (.ok, res.idx) ∧ Linked a d live parent res
  | (.noFile, parent, res) => ∃ n ∈ live, walk a.data d path start = (.noFile, n) ∧
      parent = ⟨d, n⟩ ∧ res = ⟨d, n⟩ ∧ IsDir a.data d n ∧
      findEntry a.data d n (lastPart path ++ [0]) = none
  | (.noDir, _, _) => (walk a.data d path start).1 = .noDir
  | _ => False

theorem Looked.of_rest {path rest : List Word} {start next : Word} {r : FsRv × FsNode × FsNode}
    (looked : Looked a d live rest next r) (same : lastPart path = lastPart rest)
    (step : walk a.data d path start = walk a.data d rest next) : Looked a d live path start r := by
  obtain ⟨rv, parent, res⟩ := r
  unfold Looked at *
  rw [same, step]
  exact looked

/-- The code `fs_lookup` returns is the one of the walk. -/
theorem Looked.code {path : List Word} {start : Word} {r : FsRv × FsNode × FsNode}
    (looked : Looked a d live path start r) : r.1 = (walk a.data d path start).1 := by
  obtain ⟨rv, parent, res⟩ := r
  cases rv with
  | ok => exact (congrArg Prod.fst looked.1).symm
  | noFile =>
    obtain ⟨n, -, walked, -⟩ := looked
    exact (congrArg Prod.fst walked).symm
  | noDir => exact looked.symm
  | notADir => exact looked.elim
  | fileExists => exact looked.elim

/-- The entry of a name is not a deleted one. -/
theorem DirOk.entry_live (dirOk : DirOk a d live n) {what : List Word} {i : Nat} {c : Word}
    {rest : List Word} (found : findEntry a.data d n what = some i) (name : what = c :: rest)
    (nonzero : c ≠ 0) : entryIdx a.data d n i ∈ live := by
  obtain ⟨low, same⟩ := findEntry_some found
  by_cases dots : IsDots (entryWords a.data d n i)
  · exact (dirOk.dots i low dots).1
  · refine (dirOk.named i _ ⟨low, rfl, fun zero => ?_, dots⟩).1
    have first := dirOk.deleted i low zero
    have split : entryWords a.data d n i =
        wordAt a.data d n (i * 32) :: (entryWords a.data d n i).tail := by
      unfold entryWords wordsAt
      rw [List.range_succ_eq_map, List.map_cons, List.tail_cons, Nat.add_zero]
    rw [split, name, first] at same
    unfold strcmpEq at same
    rw [if_pos nonzero.symm] at same
    cases same

/-- The loop of `fs_lookup`, by induction on what is left of the path. -/
theorem wp_lookupLoop {env : FsEnv} {post : FsRv × FsNode × FsNode → DiskView → Prop}
    (tree : TreeOk a d live ∅) (unmounted : env.mtab = []) (free : a.pins.length + 1 < room)
    (length : Nat) : ∀ (path : List Word) (parent : FsNode) (n : Word), path.length = length →
    (LongPart a.data d path n → ok .wild) → (∀ c ∈ path, c ≠ 0) → n ∈ live → Linked a d live parent ⟨d, n⟩ →
    DirPath a.data d path n → (∀ r, Looked a d live path n r → post r a) →
    wp (Shows drv base room) ok (lookupLoop drv env path parent ⟨d, n⟩) post a := by
  induction length using Nat.strong_induction_on with
  | _ length ih =>
  intro path parent n measure tolerated nonzero mem linked dirs rest
  rw [lookupLoop]
  dsimp only
  by_cases done : path.dropWhile (· = slash) = []
  · refine wp_pos done (wp_pure (rest _ ⟨?_, linked⟩))
    rw [walk]
    exact if_pos done
  refine wp_neg done ?_
  rw [DirPath] at dirs
  rw [if_neg done] at dirs
  obtain ⟨dir, dirs⟩ := dirs
  have step := walk.eq_1 a.data d path n
  rw [if_neg done] at step
  have shorter := dropComponent_length done
  have last := lastPart_component path
  have tolerates := LongPart.eq_1 a.data d path n
  rw [if_neg done] at tolerates
  rw [tolerates] at tolerated
  obtain ⟨c, tail, inside, cut⟩ := component_cons done
  have whole : ∀ c ∈ (path.dropWhile (· = slash)).takeWhile (· ≠ slash), c ≠ 0 := fun c here =>
    nonzero c ((List.dropWhile_sublist _).subset ((List.takeWhile_sublist _).subset here))
  have subset : ∀ c ∈ (path.dropWhile (· = slash)).dropWhile (· ≠ slash), c ≠ 0 := fun c here =>
    nonzero c ((List.dropWhile_sublist _).subset ((List.dropWhile_sublist _).subset here))
  generalize (path.dropWhile (· = slash)).dropWhile (· ≠ slash) = later at *
  generalize (path.dropWhile (· = slash)).takeWhile (· ≠ slash) = part at *
  have node := tree.node n mem
  have dirOk := node.dir dir fun raw => raw
  by_cases long : 31 < part.length
  · refine wp_pos long (wp_throw (tolerated ?_))
    cases found : findEntry a.data d n (part ++ [0]) with
    | none => exact long
    | some i =>
      have fits := ((strcmpEq_string whole _).mp (findEntry_some found).2).2
      rw [entryWords_length] at fits
      exact absurd long (Nat.not_lt.mpr (Nat.le_of_lt_succ fits))
  refine wp_neg long (wp_bind (wp_fsFinddir unmounted free node dir dirOk.whole ?_))
  cases found : findEntry a.data d n (part ++ [0]) with
  | none =>
    refine wp_pure ?_
    rw [found] at step
    by_cases final : later = []
    · rw [if_pos final] at last step ⊢
      refine rest _ ⟨n, mem, step, rfl, rfl, dir, ?_⟩
      rw [last]
      exact found
    · rw [if_neg final] at step ⊢
      exact rest _ (congrArg Prod.fst step)
  | some i =>
    rw [found] at dirs step tolerated
    have named := dirOk.entry_live found (by rw [cut]; rfl) (nonzero c inside)
    have linked' : Linked a d live ⟨d, n⟩ ⟨d, entryIdx a.data d n i⟩ :=
      ⟨n, mem, _, named, rfl, rfl, dir, Or.inr ⟨i, (findEntry_some found).1, rfl⟩⟩
    dsimp only [Option.map_some]
    by_cases final : later = []
    · refine wp_pos final (wp_pure (rest _ ⟨?_, linked'⟩))
      rw [step, final]
      exact walk_nil _ _ _
    · refine wp_neg final ?_
      rw [if_neg final] at last
      exact ih later.length (by omega) later ⟨d, n⟩ _ rfl tolerated subset named linked' dirs
        fun r looked => rest r (looked.of_rest last step)

/-- Where a walk starts. -/
def startOf (env : FsEnv) (path : List Word) : FsNode :=
  if path.head? = some slash then env.fsRoot else env.cwd

/-- `fs_lookup` of a path whose components are looked up in directories, for a caller in any directory. -/
theorem wp_fsLookup_from {env : FsEnv} {path : List Word} {m : Word}
    {post : FsRv × FsNode × FsNode → DiskView → Prop} (tree : TreeOk a d live ∅)
    (unmounted : env.mtab = []) (start : startOf env path = ⟨d, m⟩) (mem : m ∈ live)
    (dir : IsDir a.data d m) (free : a.pins.length + 1 < room)
    (tolerated : LongPart a.data d path m → ok .wild) (nonzero : ∀ c ∈ path, c ≠ 0)
    (dirs : DirPath a.data d path m) (rest : ∀ r, Looked a d live path m r → post r a) :
    wp (Shows drv base room) ok (fsLookup drv env path) post a := by
  have linked : Linked a d live ⟨d, m⟩ ⟨d, m⟩ := ⟨m, mem, m, mem, rfl, rfl, dir, Or.inl rfl⟩
  unfold startOf at start
  unfold fsLookup
  rw [start]
  dsimp only
  by_cases empty : path = []
  · refine wp_pos empty (wp_pure (rest _ ⟨?_, linked⟩))
    rw [empty, walk_nil]
  · exact wp_neg empty (wp_lookupLoop tree unmounted free path.length path _ _ rfl tolerated nonzero
      mem linked dirs rest)

/-- **`fs_lookup`** of a path whose components are looked up in directories. -/
theorem wp_fsLookup {env : FsEnv} {path : List Word} {post : FsRv × FsNode × FsNode → DiskView → Prop}
    (tree : TreeOk a d live ∅) (unmounted : env.mtab = []) (atRoot : env.fsRoot = ⟨d, rootIdx⟩)
    (here : env.cwd = ⟨d, rootIdx⟩) (free : a.pins.length + 1 < room)
    (tolerated : 31 < path.length → ok .wild) (nonzero : ∀ c ∈ path, c ≠ 0) (dirs : DirPath a.data d path rootIdx)
    (rest : ∀ r, Looked a d live path rootIdx r → post r a) :
    wp (Shows drv base room) ok (fsLookup drv env path) post a := by
  have start : startOf env path = ⟨d, rootIdx⟩ := by
    unfold startOf
    rw [atRoot, here, ite_self]
  exact wp_fsLookup_from tree unmounted start tree.root tree.rootDir free
    (fun long => tolerated (LongPart.length_lt path.length path _ rfl long)) nonzero dirs rest

end Rules

end RlCpu.Kernel
