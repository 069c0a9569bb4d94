/-
**Paths through a node that is no directory (`fs_finddir`, `fs_lookup` and their callers in `rlfs3.c`).**

`fs_finddir` reads the words of a node as entries, whatever its mode. `walkTo` is where a path leads when the
words of every node are read so, `walkPath` has the parent too, and `MissesInside` says that the walk gets stuck before
the last component.

* `wp_fsLookup_path`: where the entries that are read have blocks, `fs_lookup` follows that walk and changes
  nothing.
* `rejected_iff`: `fs_lookup`, `k_open`, `k_mkdir` and `k_mknod` all reject the path if and only if the walk
  gets stuck before the last component.
* `fsLookup_file`: a regular file whose words look like an entry is walked through.
-/

import RlCpu.Kernel.OutOfSpace

namespace RlCpu.Kernel

open RlCpu.Lib

variable {δ : Type}

/-! ### The walk -/

/-- The first component of a path. -/
def component (path : List Word) : List Word := (path.dropWhile (· = slash)).takeWhile (· ≠ slash)

/-- What follows the first component. -/
def afterComponent (path : List Word) : List Word := (path.dropWhile (· = slash)).dropWhile (· ≠ slash)

section Walk

variable (env : FsEnv) (data : BlockKey → BlockData)

/-- Entry `i` of a node, as `fs_finddir` has it. -/
def entryRead (dir : FsNode) (i : Nat) : List Word :=
  dEntOf env dir (wordsAt data dir.dev dir.idx (i * 32) (min 32 (fileSize data dir.dev dir.idx - i * 32)))

/-- The entries that `fs_finddir` looks through. -/
def entriesOf (dir : FsNode) : List Nat := List.range (((statOf data dir.dev dir.idx).stSize + 31) / 32)

/-- The node of the first entry with the name `what`. -/
def findsIn (dir : FsNode) (what : List Word) : List Nat → Option FsNode
  | [] => none
  | i :: rest =>
    if strcmpEq (entryRead env data dir i) what then
      some (crossMount env.mtab ⟨dir.dev, (entryRead env data dir i).getD 31 0⟩)
    else findsIn dir what rest

/-- What `fs_finddir` finds in a node under the name `what`. -/
def finds (dir : FsNode) (what : List Word) : Option FsNode :=
  findsIn env data (finddirWhere env.mtab dir what) what (entriesOf data (finddirWhere env.mtab dir what))

/-- Where a path leads, and the node at which it ends; `none` for a component that `cBuf` does not hold. -/
def walkTo (path : List Word) (dir : FsNode) : Option (FsRv × FsNode) :=
  if path.dropWhile (· = slash) = [] then some (.ok, dir)
  else if 31 < (component path).length then none
  else
    match finds env data dir (component path ++ [0]) with
    | none => some (if afterComponent path = [] then .noFile else .noDir, finddirWhere env.mtab dir (component path ++ [0]))
    | some next => walkTo (afterComponent path) next
termination_by path.length
decreasing_by exact dropComponent_length (by assumption)

/-- The walk of `fs_lookup`, with the parent; `none` for a component that `cBuf` does not hold. -/
def walkPath (path : List Word) (parent dir : FsNode) : Option (FsRv × FsNode × FsNode) :=
  if path.dropWhile (· = slash) = [] then some (.ok, parent, dir)
  else if 31 < (component path).length then none
  else
    match finds env data dir (component path ++ [0]) with
    | none => some (if afterComponent path = [] then .noFile else .noDir, dir,
        finddirWhere env.mtab dir (component path ++ [0]))
    | some next => walkPath (afterComponent path) dir next
termination_by path.length
decreasing_by exact dropComponent_length (by assumption)

/-- **The walk gets stuck before the last component**: it comes to a component with more of the path behind it,
and the node it is at has no entry of that name. -/
inductive MissesInside : List Word → FsNode → Prop
  | here {path : List Word} {dir : FsNode} (some : path.dropWhile (· = slash) ≠ [])
      (short : (component path).length ≤ 31) (missing : finds env data dir (component path ++ [0]) = none)
      (more : afterComponent path ≠ []) : MissesInside path dir
  | later {path : List Word} {dir next : FsNode} (some : path.dropWhile (· = slash) ≠ [])
      (short : (component path).length ≤ 31) (found : finds env data dir (component path ++ [0]) = .some next)
      (rest : MissesInside (afterComponent path) next) : MissesInside path dir

/-- The blocks of an entry are there. -/
def EntryPresent (dir : FsNode) (i : Nat) : Prop :=
  fileSize data dir.dev dir.idx + 2 ^ 16 ≤ 2 ^ 32 ∧
    Mapped (viewOf data) dir.dev dir.idx (i * 32) (min 32 (fileSize data dir.dev dir.idx - i * 32))

/-- The blocks of the entries up to the one that is found are there. -/
def ScanPresent (dir : FsNode) (what : List Word) : List Nat → Prop
  | [] => True
  | i :: rest => EntryPresent data dir i ∧
      (strcmpEq (entryRead env data dir i) what = false → ScanPresent dir what rest)

/-- **The blocks of all entries that the walk reads are there.** -/
def WalkPresent (path : List Word) (dir : FsNode) : Prop :=
  if path.dropWhile (· = slash) = [] then True
  else if 31 < (component path).length then True
  else
    ScanPresent env data (finddirWhere env.mtab dir (component path ++ [0])) (component path ++ [0])
      (entriesOf data (finddirWhere env.mtab dir (component path ++ [0]))) ∧
    match finds env data dir (component path ++ [0]) with
    | none => True
    | some next => WalkPresent (afterComponent path) next
termination_by path.length
decreasing_by exact dropComponent_length (by assumption)

end Walk

section Facts

variable {env : FsEnv} {data : BlockKey → BlockData}

theorem walkTo_end {path : List Word} {dir : FsNode} (done : path.dropWhile (· = slash) = []) :
    walkTo env data path dir = some (.ok, dir) := by
  rw [walkTo, if_pos done]

theorem walkTo_missing {path : List Word} {dir : FsNode} (some : path.dropWhile (· = slash) ≠ [])
    (short : (component path).length ≤ 31) (missing : finds env data dir (component path ++ [0]) = none) :
    walkTo env data path dir = .some (if afterComponent path = [] then .noFile else .noDir,
      finddirWhere env.mtab dir (component path ++ [0])) := by
  rw [walkTo, if_neg some, if_neg (Nat.not_lt.mpr short), missing]

theorem walkTo_found {path : List Word} {dir next : FsNode} (some : path.dropWhile (· = slash) ≠ [])
    (short : (component path).length ≤ 31) (found : finds env data dir (component path ++ [0]) = .some next) :
    walkTo env data path dir = walkTo env data (afterComponent path) next := by
  rw [walkTo, if_neg some, if_neg (Nat.not_lt.mpr short), found]

theorem walkPath_end {path : List Word} {parent dir : FsNode} (done : path.dropWhile (· = slash) = []) :
    walkPath env data path parent dir = some (.ok, parent, dir) := by
  rw [walkPath, if_pos done]

theorem walkPath_missing {path : List Word} {parent dir : FsNode} (some : path.dropWhile (· = slash) ≠ [])
    (short : (component path).length ≤ 31) (missing : finds env data dir (component path ++ [0]) = none) :
    walkPath env data path parent dir = .some (if afterComponent path = [] then .noFile else .noDir, dir,
      finddirWhere env.mtab dir (component path ++ [0])) := by
  rw [walkPath, if_neg some, if_neg (Nat.not_lt.mpr short), missing]

theorem walkPath_found {path : List Word} {parent dir next : FsNode} (some : path.dropWhile (· = slash) ≠ [])
    (short : (component path).length ≤ 31) (found : finds env data dir (component path ++ [0]) = .some next) :
    walkPath env data path parent dir = walkPath env data (afterComponent path) dir next := by
  rw [walkPath, if_neg some, if_neg (Nat.not_lt.mpr short), found]

/-- The walk without the parent. -/
theorem walkPath_walkTo (path : List Word) (parent dir : FsNode) :
    (walkPath env data path parent dir).map (fun r => (r.1, r.2.2)) = walkTo env data path dir := by
  induction path, parent, dir using walkPath.induct env data with
  | case1 path parent dir done => rw [walkPath_end done, walkTo_end done, Option.map_some]
  | case2 path parent dir some long =>
    rw [walkPath, if_neg some, if_pos long, walkTo, if_neg some, if_pos long, Option.map_none]
  | case3 path parent dir some short missing =>
    rw [walkPath_missing some (Nat.not_lt.mp short) missing, walkTo_missing some (Nat.not_lt.mp short) missing,
      Option.map_some]
  | case4 path parent dir some short next found ih =>
    rw [walkPath_found some (Nat.not_lt.mp short) found, walkTo_found some (Nat.not_lt.mp short) found, ih]

/-- **The walk ends with `FS_NO_DIR` where it gets stuck before the last component.** -/
theorem walkTo_noDir (path : List Word) (dir : FsNode) :
    (∃ node, walkTo env data path dir = some (.noDir, node)) ↔ MissesInside env data path dir := by
  refine ⟨?_, fun stuck => ?_⟩
  · induction path, dir using walkTo.induct env data with
    | case1 path dir done =>
      rintro ⟨node, clash⟩
      rw [walkTo_end done] at clash
      cases clash
    | case2 path dir some long =>
      rintro ⟨node, clash⟩
      rw [walkTo, if_neg some, if_pos long] at clash
      cases clash
    | case3 path dir some short missing =>
      rintro ⟨node, stop⟩
      rw [walkTo_missing some (Nat.not_lt.mp short) missing] at stop
      refine .here some (Nat.not_lt.mp short) missing fun last => ?_
      rw [if_pos last] at stop
      cases stop
    | case4 path dir some short next found ih =>
      rintro ⟨node, stop⟩
      rw [walkTo_found some (Nat.not_lt.mp short) found] at stop
      exact .later some (Nat.not_lt.mp short) found (ih ⟨node, stop⟩)
  · induction stuck with
    | here some short missing more => exact ⟨_, (walkTo_missing some short missing).trans (by rw [if_neg more])⟩
    | later some short found _ ih =>
      rw [walkTo_found some short found]
      exact ih

/-! ### A slash behind the path -/

theorem dropSlashes_slash {path : List Word} (some : path.dropWhile (· = slash) ≠ []) :
    (path ++ [slash]).dropWhile (· = slash) = path.dropWhile (· = slash) ++ [slash] := by
  rw [List.dropWhile_append, if_neg]
  rwa [List.isEmpty_iff]

theorem component_slash {path : List Word} (some : path.dropWhile (· = slash) ≠ []) :
    component (path ++ [slash]) = component path := by
  unfold component
  rw [dropSlashes_slash some, List.takeWhile_append]
  split
  · rename_i whole
    rw [(List.takeWhile_prefix _).eq_of_length whole]
    exact List.append_nil _
  · rfl

theorem afterComponent_slash {path : List Word} (some : path.dropWhile (· = slash) ≠ []) :
    afterComponent (path ++ [slash]) = afterComponent path ++ [slash] := by
  unfold afterComponent
  rw [dropSlashes_slash some, List.dropWhile_append]
  split
  · rename_i empty
    rw [List.isEmpty_iff] at empty
    rw [empty]
    rfl
  · rfl

theorem slash_end {path : List Word} (done : path.dropWhile (· = slash) = []) :
    (path ++ [slash]).dropWhile (· = slash) = [] := by
  rw [List.dropWhile_append, done]
  rfl

theorem slash_more {path : List Word} (some : path.dropWhile (· = slash) ≠ []) :
    (path ++ [slash]).dropWhile (· = slash) ≠ [] := by
  rw [dropSlashes_slash some]
  exact List.append_ne_nil_of_left_ne_nil some _

/-- A last component that is missing is not the last one any more. -/
def FsRv.behindSlash : FsRv → FsRv
  | .noFile => .noDir
  | rv => rv

/-- **The walk of a path with a slash behind it.** -/
theorem walkTo_slash (path : List Word) (dir : FsNode) : walkTo env data (path ++ [slash]) dir =
    (walkTo env data path dir).map fun r => (r.1.behindSlash, r.2) := by
  induction path, dir using walkTo.induct env data with
  | case1 path dir done =>
    rw [walkTo_end done, walkTo_end (slash_end done)]
    rfl
  | case2 path dir some long =>
    have same := component_slash some
    rw [walkTo, if_neg (slash_more some), if_pos (by rwa [same]), walkTo, if_neg some, if_pos long]
    rfl
  | case3 path dir some short missing =>
    have same := component_slash some
    rw [walkTo_missing some (Nat.not_lt.mp short) missing,
      walkTo_missing (slash_more some) (by rw [same]; exact Nat.not_lt.mp short) (by rwa [same]), same,
      afterComponent_slash some, if_neg (List.append_ne_nil_of_right_ne_nil _ (List.cons_ne_nil _ _))]
    split
    · rfl
    · rfl
  | case4 path dir some short next found ih =>
    have same := component_slash some
    rw [walkTo_found some (Nat.not_lt.mp short) found,
      walkTo_found (slash_more some) (by rw [same]; exact Nat.not_lt.mp short) (by rwa [same]),
      afterComponent_slash some, ih]

/-- It reads the same entries. -/
theorem walkPresent_slash (path : List Word) (dir : FsNode) :
    WalkPresent env data (path ++ [slash]) dir ↔ WalkPresent env data path dir := by
  induction path, dir using walkTo.induct env data with
  | case1 path dir done =>
    rw [WalkPresent, if_pos (slash_end done), WalkPresent, if_pos done]
  | case2 path dir some long =>
    have same := component_slash some
    rw [WalkPresent, if_neg (slash_more some), if_pos (by rwa [same]), WalkPresent, if_neg some, if_pos long]
  | case3 path dir some short missing =>
    have same := component_slash some
    rw [WalkPresent, if_neg (slash_more some), WalkPresent, if_neg some, same, missing]
  | case4 path dir some short next found ih =>
    have same := component_slash some
    rw [WalkPresent, if_neg (slash_more some), WalkPresent, if_neg some, same, found, afterComponent_slash some]
    dsimp only
    rw [ih]

end Facts

/-! ### Reading what is there -/

section Rules

variable {drv : BlkDriver δ} {base : BlockPtr → Nat} {room : Nat} {ok : Fault → Prop} {env : FsEnv}
  {data : BlockKey → BlockData}

/-- **`fs_stat`** of any node. -/
theorem wp_fsStat_any {post : Stat → DiskView → Prop} (free : 1 < room) (node : FsNode)
    (rest : post (statOf data node.dev node.idx) (viewOf data)) :
    wp (Shows drv base room) ok (fsStat drv node) post (viewOf data) :=
  wp_fsStat (Nat.lt_of_succ_lt free) (Set.notMem_empty _) rest

/-- An entry whose blocks are there. -/
theorem wp_fsRead_entry {post : List Word → DiskView → Prop} (free : 1 < room) {dir : FsNode} {i : Nat}
    (inside : i * 32 ≤ fileSize data dir.dev dir.idx) (present : EntryPresent data dir i)
    (rest : post (wordsAt data dir.dev dir.idx (i * 32) (min 32 (fileSize data dir.dev dir.idx - i * 32))) (viewOf data)) :
    wp (Shows drv base room) ok (fsRead drv dir (i * 32) 32) post (viewOf data) :=
  wp_fsRead_full free (Set.notMem_empty _) (fun _ _ => Set.notMem_empty _) inside (by decide) present.1 present.2 rest

/-- The loop of `fs_finddir`. -/
theorem wp_finddirLoop_present {what : List Word} {post : Option FsNode → DiskView → Prop} (free : 1 < room)
    {dir : FsNode} : ∀ is : List Nat, (∀ i ∈ is, i * 32 ≤ fileSize data dir.dev dir.idx) →
      ScanPresent env data dir what is → post (findsIn env data dir what is) (viewOf data) →
      wp (Shows drv base room) ok (finddirLoop drv env dir what is) post (viewOf data) := by
  intro is
  induction is with
  | nil => exact fun _ _ rest => wp_pure rest
  | cons i is ih =>
    rintro inside ⟨present, more⟩ rest
    unfold finddirLoop
    unfold findsIn at rest
    refine wp_bind (wp_fsRead_entry free (inside i List.mem_cons_self) present ?_)
    by_cases here : strcmpEq (entryRead env data dir i) what = true
    · rw [if_pos here] at rest
      exact wp_pos here (wp_pure rest)
    · rw [if_neg here] at rest
      exact wp_neg here (ih (fun j mem => inside j (List.mem_cons_of_mem i mem))
        (more ((Bool.not_eq_true _).mp here)) rest)

/-- The entries that are looked through start inside the node. -/
theorem entriesOf_inside {dir : FsNode} {i : Nat} (mem : i ∈ entriesOf data dir) :
    i * 32 ≤ fileSize data dir.dev dir.idx := by
  have low := List.mem_range.mp mem
  unfold statOf at low
  split at low
  · dsimp only at low
    omega
  · dsimp only at low
    omega

/-- **`fs_finddir`** where the entries are there. -/
theorem wp_fsFinddir_present {dir : FsNode} {what : List Word} {post : FsNode × Option FsNode → DiskView → Prop}
    (free : 1 < room)
    (present : ScanPresent env data (finddirWhere env.mtab dir what) what (entriesOf data (finddirWhere env.mtab dir what)))
    (rest : post (finddirWhere env.mtab dir what, finds env data dir what) (viewOf data)) :
    wp (Shows drv base room) ok (fsFinddir drv env dir what) post (viewOf data) := by
  unfold fsFinddir
  dsimp only
  refine wp_bind (wp_fsStat_any free _ ?_)
  refine wp_bind (wp_finddirLoop_present free _ (fun i mem => entriesOf_inside mem) present ?_)
  exact wp_pure rest

/-- **`fs_lookup` follows the walk, and so does the parent**, where the entries are there. -/
theorem wp_lookupLoop_path {path : List Word} {parent dir : FsNode} {post : FsRv × FsNode × FsNode → DiskView → Prop}
    (free : 1 < room) (present : WalkPresent env data path dir)
    (tolerated : walkPath env data path parent dir = none → ok .wild)
    (rest : ∀ r, walkPath env data path parent dir = some r → post r (viewOf data)) :
    wp (Shows drv base room) ok (lookupLoop drv env path parent dir) post (viewOf data) := by
  induction path, parent, dir using walkPath.induct env data with
  | case1 path parent dir done =>
    rw [lookupLoop]
    exact wp_pos done (wp_pure (rest _ (walkPath_end done)))
  | case2 path parent dir some long =>
    rw [lookupLoop]
    refine wp_neg some (wp_pos long (wp_throw (tolerated ?_)))
    rw [walkPath, if_neg some, if_pos long]
  | case3 path parent dir some short missing =>
    rw [WalkPresent, if_neg some, if_neg short] at present
    rw [walkPath_missing some (Nat.not_lt.mp short) missing] at rest
    rw [lookupLoop]
    refine wp_neg some (wp_neg short (wp_bind (wp_fsFinddir_present free present.1 ?_)))
    unfold component at missing
    rw [missing]
    exact wp_pure (rest _ rfl)
  | case4 path parent dir some short next found ih =>
    rw [WalkPresent, if_neg some, if_neg short, found] at present
    rw [walkPath_found some (Nat.not_lt.mp short) found] at rest tolerated
    rw [lookupLoop]
    refine wp_neg some (wp_neg short (wp_bind (wp_fsFinddir_present free present.1 ?_)))
    unfold component at found
    rw [found]
    by_cases last : afterComponent path = []
    · have stop : walkPath env data (afterComponent path) dir next = .some (.ok, dir, next) :=
        walkPath_end (by rw [last]; rfl)
      exact wp_pos last (wp_pure (rest _ stop))
    · exact wp_neg last (ih present.2 tolerated rest)

theorem wp_fsLookup_path {path : List Word} {post : FsRv × FsNode × FsNode → DiskView → Prop} (free : 1 < room)
    (present : WalkPresent env data path (startOf env path))
    (tolerated : walkPath env data path (startOf env path) (startOf env path) = none → ok .wild)
    (rest : ∀ r, walkPath env data path (startOf env path) (startOf env path) = some r → post r (viewOf data)) :
    wp (Shows drv base room) ok (fsLookup drv env path) post (viewOf data) := by
  unfold fsLookup
  dsimp only
  by_cases empty : path = []
  · refine wp_pos empty (wp_pure (rest _ ?_))
    rw [walkPath_end (by rw [empty]; rfl)]
    rfl
  · exact wp_neg empty (wp_lookupLoop_path free present tolerated rest)

/-- **`fs_lookup`** where the entries are there. -/
theorem wp_fsLookup_present {path : List Word} {post : FsRv × FsNode × FsNode → DiskView → Prop} (free : 1 < room)
    (present : WalkPresent env data path (startOf env path))
    (tolerated : walkTo env data path (startOf env path) = none → ok .wild)
    (rest : ∀ r : FsRv × FsNode × FsNode, walkTo env data path (startOf env path) = some (r.1, r.2.2) →
      post r (viewOf data)) :
    wp (Shows drv base room) ok (fsLookup drv env path) post (viewOf data) := by
  have projected := @walkPath_walkTo env data path (startOf env path) (startOf env path)
  refine wp_fsLookup_path free present (fun long => tolerated ?_) fun r walked => rest r ?_
  · rw [← projected, long, Option.map_none]
  · rw [← projected, walked, Option.map_some]

end Rules

/-! ### Runs -/

section Runs

variable (drv : BlkDriver δ) (env : FsEnv) (data : BlockKey → BlockData)

/-- **The path is rejected**: `fs_lookup`, `k_open` in every mode, `k_mkdir` and `k_mknod` fail, and every block
is as before. -/
structure Rejected (s : FsState δ) (path : CString) : Prop where
  lookup : ∃ r t, fsLookup drv env path.chars s.blk = .ok (r, t) ∧ r.1 ≠ .ok ∧ Coherent drv t data
  kOpen : ∀ mode, ∃ t, kOpen drv env path mode s = .ok (none, t) ∧ Coherent drv t.blk data
  kMkdir : ∃ rv t, kMkdir drv env path s = .ok (rv, t) ∧ rv ≠ .ok ∧ Coherent drv t.blk data
  kMknod : ∀ isChr major minor, ∃ rv t, kMknod drv env path isChr major minor s = .ok (rv, t) ∧ rv ≠ .ok ∧
    Coherent drv t.blk data

variable {drv env data} {s : FsState δ} {path : CString}

/-- A run of `fs_lookup` where the entries are there. -/
theorem fsLookup_run {c : BlkState δ} (coherent : Coherent drv c data) (name : List Word)
    (present : WalkPresent env data name (startOf env name)) :
    (walkTo env data name (startOf env name) = none ∧ fsLookup drv env name c = .error .wild) ∨
      ∃ rv parent node t, walkTo env data name (startOf env name) = some (rv, node) ∧
        fsLookup drv env name c = .ok ((rv, parent, node), t) ∧ Coherent drv t data := by
  have correct : wp (Shows drv (fun i => (c.blockCache i).cnt.toNat) 4)
      (fun e => e = .wild ∧ walkTo env data name (startOf env name) = none) (fsLookup drv env name)
      (fun r b => b = viewOf data ∧ walkTo env data name (startOf env name) = some (r.1, r.2.2)) (viewOf data) :=
    wp_fsLookup_present (by decide) present (fun long => ⟨rfl, long⟩) fun r walked => ⟨rfl, walked⟩
  have step := correct c coherent.shows
  cases result : fsLookup drv env name c with
  | error e =>
    rw [result] at step
    obtain ⟨rfl, long⟩ := step
    exact Or.inl ⟨long, rfl⟩
  | ok v =>
    rw [result] at step
    obtain ⟨b, shows, rfl, walked⟩ := step
    exact Or.inr ⟨v.1.1, v.1.2.1, v.1.2.2, v.2, walked, rfl, (coherent.of_shows shows rfl (Set.Subset.refl _)).1⟩

/-- The walk of a path is stuck where that of the trimmed one is. -/
theorem walk_trimmed (path : CString) : path.trimmed.chars = path.chars ∨
    path.chars = path.trimmed.chars ++ [slash] := by
  unfold CString.trimmed
  split
  · rename_i last
    refine Or.inr ?_
    have some : path.chars ≠ [] := by
      intro empty
      rw [empty] at last
      cases last
    have final : path.chars.getLast some = slash := by
      rw [List.getLast?_eq_getLast_of_ne_nil some] at last
      exact Option.some.inj last
    change path.chars = path.chars.dropLast ++ [slash]
    rw [← final]
    exact (List.dropLast_append_getLast some).symm
  · exact Or.inl rfl

/-- The walk of a path, from that of the trimmed one, where a slash behind it makes no difference. -/
theorem walkTo_trimmed {path : CString} {dir : FsNode} {r : Option (FsRv × FsNode)}
    (walked : walkTo env data path.trimmed.chars dir = r) (same : r.map (fun r => (r.1.behindSlash, r.2)) = r) :
    walkTo env data path.chars dir = r := by
  obtain equal | more := walk_trimmed path
  · rw [← equal, walked]
  · rw [more, walkTo_slash, walked, same]

theorem walkPresent_trimmed (path : CString) (dir : FsNode) :
    WalkPresent env data path.trimmed.chars dir ↔ WalkPresent env data path.chars dir := by
  obtain same | more := walk_trimmed path
  · rw [same]
  · rw [more]
    exact (walkPresent_slash _ dir).symm

theorem startOf_trimmed {path : CString} (some : path.trimmed.chars ≠ []) :
    startOf env path.trimmed.chars = startOf env path.chars := by
  obtain same | more := walk_trimmed path
  · rw [same]
  · unfold startOf
    rw [more]
    cases front : path.trimmed.chars with
    | nil => exact absurd front some
    | cons c rest => rfl

theorem chars_of_trimmed {path : CString} (some : path.trimmed.chars ≠ []) : path.chars ≠ [] := by
  obtain same | more := walk_trimmed path
  · rwa [← same]
  · rw [more]
    exact List.append_ne_nil_of_left_ne_nil some _

/-- The codes of a walk. -/
theorem walkTo_code {path : List Word} {dir node : FsNode} {rv : FsRv}
    (walked : walkTo env data path dir = some (rv, node)) : rv = .ok ∨ rv = .noFile ∨ rv = .noDir := by
  induction path, dir using walkTo.induct env data with
  | case1 path dir done =>
    rw [walkTo_end done] at walked
    exact Or.inl (Prod.mk.inj (Option.some.inj walked)).1.symm
  | case2 path dir some long =>
    rw [walkTo, if_neg some, if_pos long] at walked
    cases walked
  | case3 path dir some short missing =>
    rw [walkTo_missing some (Nat.not_lt.mp short) missing] at walked
    have code := (Prod.mk.inj (Option.some.inj walked)).1
    split at code
    · exact Or.inr (Or.inl code.symm)
    · exact Or.inr (Or.inr code.symm)
  | case4 path dir some short next found ih =>
    rw [walkTo_found some (Nat.not_lt.mp short) found] at walked
    exact ih walked

/-- `k_mkdir` of a name that its parent does not have never fails, be the parent a directory or not. -/
theorem kMkdir_noFile {parent node : FsNode} {c : BlkState δ} {rv : FsRv} {t : FsState δ} (some : path.chars ≠ [])
    (looked : fsLookup drv env path.trimmed.chars s.blk = .ok ((.noFile, parent, node), c))
    (run : kMkdir drv env path s = .ok (rv, t)) : rv = .ok := by
  unfold kMkdir onBlk at run
  rw [if_neg some] at run
  dsimp only at run
  rw [bind_run looked] at run
  dsimp only at run
  split at run
  · rename_i x c' result
    obtain ⟨rfl, -⟩ := Prod.mk.inj (Except.ok.inj run)
    obtain ⟨created, _, -, result⟩ := run_ok result
    obtain ⟨_, _, -, result⟩ := run_ok result
    obtain ⟨_, _, -, result⟩ := run_ok result
    obtain ⟨_, _, -, result⟩ := run_ok result
    obtain ⟨_, _, -, result⟩ := run_ok result
    exact (Prod.mk.inj (Except.ok.inj result)).1.symm
  · cases run

/-- A walk that is stuck before the last component makes every call fail. -/
theorem rejected_of_stuck (coherent : Coherent drv s.blk data)
    (present : WalkPresent env data path.chars (startOf env path.chars))
    (stuck : MissesInside env data path.trimmed.chars (startOf env path.chars)) : Rejected drv env data s path := by
  have some : path.trimmed.chars ≠ [] := by
    intro empty
    rw [empty] at stuck
    cases stuck with
    | here some => exact some rfl
    | later some => exact some rfl
  obtain ⟨node, walked⟩ := (walkTo_noDir _ _).mpr stuck
  have whole : walkTo env data path.chars (startOf env path.chars) = .some (.noDir, node) :=
    walkTo_trimmed walked rfl
  obtain ⟨clash, -⟩ | ⟨rv, parent, node', t, walked', run, after⟩ := fsLookup_run coherent path.chars present
  · rw [whole] at clash
    cases clash
  obtain ⟨rfl, rfl⟩ := Prod.mk.inj (Option.some.inj (whole.symm.trans walked'))
  have present' : WalkPresent env data path.trimmed.chars (startOf env path.trimmed.chars) := by
    rw [startOf_trimmed some]
    exact (walkPresent_trimmed path _).mpr present
  obtain ⟨clash, -⟩ | ⟨rv', parent', node'', t', walked'', run', after'⟩ :=
    fsLookup_run coherent path.trimmed.chars present'
  · rw [startOf_trimmed some, walked] at clash
    cases clash
  rw [startOf_trimmed some, walked] at walked''
  obtain ⟨rfl, rfl⟩ := Prod.mk.inj (Option.some.inj walked'')
  have failed : FsRv.noDir ≠ .ok := by decide
  refine ⟨⟨_, t, run, failed, after⟩, fun mode => ⟨{ s with blk := t }, ?_, after⟩,
    ⟨.noDir, { s with blk := t' }, ?_, failed, after'⟩,
    fun isChr major minor => ⟨.noDir, { s with blk := t }, ?_, failed, after⟩⟩
  · unfold kOpen
    rw [bind_run (onBlk_run run)]
    rfl
  · refine onBlk_run ?_
    rw [if_neg (chars_of_trimmed some)]
    dsimp only
    rw [bind_run run']
    rfl
  · refine onBlk_run ?_
    rw [bind_run run]
    rfl

/-- **Paths through a node that is no directory**: where the blocks that the walk reads are there, the path is
rejected by every call if and only if the walk, which reads the words of every node as entries, gets stuck before
the last component. -/
theorem rejected_iff (coherent : Coherent drv s.blk data)
    (present : WalkPresent env data path.chars (startOf env path.chars)) :
    Rejected drv env data s path ↔ MissesInside env data path.trimmed.chars (startOf env path.chars) := by
  refine ⟨fun rejected => ?_, rejected_of_stuck coherent present⟩
  obtain ⟨r, c, looked, failed, -⟩ := rejected.lookup
  cases walked : walkTo env data path.trimmed.chars (startOf env path.chars) with
  | none =>
    have whole : walkTo env data path.chars (startOf env path.chars) = none :=
      walkTo_trimmed walked rfl
    obtain ⟨-, run⟩ | ⟨rv, parent, node, t, walked', -⟩ := fsLookup_run coherent path.chars present
    · rw [run] at looked
      cases looked
    · rw [whole] at walked'
      cases walked'
  | some reached =>
    obtain ⟨rv, node⟩ := reached
    obtain rfl | rfl | rfl := walkTo_code walked
    · have whole : walkTo env data path.chars (startOf env path.chars) = some (.ok, node) :=
        walkTo_trimmed walked rfl
      obtain ⟨clash, -⟩ | ⟨rv, parent, node', t, walked', run, -⟩ := fsLookup_run coherent path.chars present
      · rw [whole] at clash
        cases clash
      · obtain ⟨rfl, rfl⟩ := Prod.mk.inj (Option.some.inj (whole.symm.trans walked'))
        obtain ⟨rfl, -⟩ := Prod.mk.inj (Except.ok.inj (run.symm.trans looked))
        exact absurd rfl failed
    · have some : path.trimmed.chars ≠ [] := by
        intro empty
        rw [empty, walkTo_end rfl] at walked
        cases walked
      have present' : WalkPresent env data path.trimmed.chars (startOf env path.trimmed.chars) := by
        rw [startOf_trimmed some]
        exact (walkPresent_trimmed path _).mpr present
      obtain ⟨clash, -⟩ | ⟨rv, parent, node', t, walked', run, -⟩ :=
        fsLookup_run coherent path.trimmed.chars present'
      · rw [startOf_trimmed some, walked] at clash
        cases clash
      · rw [startOf_trimmed some, walked] at walked'
        obtain ⟨rfl, rfl⟩ := Prod.mk.inj (Option.some.inj walked')
        obtain ⟨rv, t', made, notOk, -⟩ := rejected.kMkdir
        exact absurd (kMkdir_noFile (chars_of_trimmed some) run made) notOk
    · exact (walkTo_noDir _ _).mp ⟨node, walked⟩

end Runs

/-! ### A file that looks like a directory -/

/-- The entries of a node of one block. -/
theorem entryPresent_small {data : BlockKey → BlockData} {dir : FsNode} (small : fileSize data dir.dev dir.idx ≤ 256)
    (mapped : blockAt data dir.dev dir.idx 0 ≠ 0) (i : Nat) : EntryPresent data dir i := by
  refine ⟨by omega, fun p low high => ?_⟩
  have first : p / 256 = 0 := by omega
  rw [first]
  exact ⟨by decide, mapped, Set.notMem_empty _⟩

theorem scanPresent_small {env : FsEnv} {data : BlockKey → BlockData} {dir : FsNode}
    (small : fileSize data dir.dev dir.idx ≤ 256) (mapped : blockAt data dir.dev dir.idx 0 ≠ 0) (what : List Word)
    (is : List Nat) : ScanPresent env data dir what is := by
  induction is with
  | nil => trivial
  | cons i is ih => exact ⟨entryPresent_small small mapped i, fun _ => ih⟩

/-- A disk whose root has `.`, `..` and `f`, a regular file of 32 words: the name `x` and the number of the root. -/
def lookalike (key : BlockKey) : BlockData :=
  if key = (0, 34) then .ofFn fun j => [sIfdir, 96, 0, 35].getD j 0
  else if key = (0, 35) then .ofFn fun j =>
    if j = 0 then dot else if j = 31 then 34 else if j = 32 ∨ j = 33 then dot else if j = 63 then 34
    else if j = 64 then 102 else if j = 95 then 40 else 0
  else if key = (0, 40) then .ofFn fun j => [sIfreg, 32, 0, 41].getD j 0
  else if key = (0, 41) then .ofFn fun j => if j = 0 then 120 else if j = 31 then 34 else 0
  else fun _ => 0

/-- The path `/f/x`. -/
def pathFX : CString := ⟨[slash, 102, slash, 120], by simp, fun _ => 0⟩

theorem lookalike_f : finds ramEnv lookalike ⟨0, 34⟩ (component pathFX.chars ++ [0]) = some ⟨0, 40⟩ := by decide

theorem lookalike_x : finds ramEnv lookalike ⟨0, 40⟩ (component (afterComponent pathFX.chars) ++ [0]) =
    some ⟨0, 34⟩ := by decide

theorem lookalike_walk : walkTo ramEnv lookalike pathFX.chars ⟨0, 34⟩ = some (.ok, ⟨0, 34⟩) := by
  rw [walkTo_found (by decide) (by decide) lookalike_f, walkTo_found (by decide) (by decide) lookalike_x]
  exact walkTo_end rfl

/-- Every entry that is read is there. -/
theorem lookalike_present : WalkPresent ramEnv lookalike pathFX.chars ⟨0, 34⟩ := by
  rw [WalkPresent, if_neg (by decide), if_neg (by decide), lookalike_f]
  refine ⟨scanPresent_small (by decide) (by decide) _ _, ?_⟩
  dsimp only
  rw [WalkPresent, if_neg (by decide), if_neg (by decide), lookalike_x]
  refine ⟨scanPresent_small (by decide) (by decide) _ _, ?_⟩
  dsimp only
  rw [WalkPresent, if_pos (by decide)]
  trivial

/-- `/f/x` is rejected if and only if `f` has no entry `x` with more of the path behind it. -/
theorem rejected_iff_lookalike : Rejected ramDriver ramEnv lookalike (bootOn lookalike) pathFX ↔
    MissesInside ramEnv lookalike pathFX.trimmed.chars (startOf ramEnv pathFX.chars) :=
  rejected_iff (bootOn_coherent lookalike) lookalike_present

/-- **A regular file is walked through**: `/f` is a regular file, and `fs_lookup` of `/f/x` returns `FS_OK`. -/
theorem fsLookup_file : (∃ parent t, fsLookup ramDriver ramEnv [slash, 102] (bootOn lookalike).blk =
      .ok ((.ok, parent, ⟨0, 40⟩), t)) ∧ sIsdir (nodeMode lookalike 0 40) = false ∧
    ¬ Rejected ramDriver ramEnv lookalike (bootOn lookalike) pathFX := by
  refine ⟨?_, by decide, fun rejected => ?_⟩
  · have step : finds ramEnv lookalike ⟨0, 34⟩ (component [slash, 102] ++ [0]) = some ⟨0, 40⟩ := lookalike_f
    have walked : walkTo ramEnv lookalike [slash, 102] ⟨0, 34⟩ = some (.ok, ⟨0, 40⟩) := by
      rw [walkTo_found (by decide) (by decide) step]
      exact walkTo_end rfl
    have present : WalkPresent ramEnv lookalike [slash, 102] ⟨0, 34⟩ := by
      rw [WalkPresent, if_neg (by decide), if_neg (by decide), step]
      refine ⟨scanPresent_small (by decide) (by decide) _ _, ?_⟩
      dsimp only
      rw [WalkPresent, if_pos (by decide)]
      trivial
    obtain ⟨clash, -⟩ | ⟨rv, parent, node, t, walked', run, -⟩ :=
      fsLookup_run (bootOn_coherent lookalike) [slash, 102] present
    · exact absurd (walked.symm.trans clash) (Option.some_ne_none _)
    · obtain ⟨rfl, rfl⟩ := Prod.mk.inj (Option.some.inj (walked.symm.trans walked'))
      exact ⟨parent, t, run⟩
  · obtain ⟨r, c, looked, failed, -⟩ := rejected.lookup
    obtain ⟨clash, -⟩ | ⟨rv, parent, node, t, walked, run, -⟩ :=
      fsLookup_run (bootOn_coherent lookalike) pathFX.chars lookalike_present
    · exact absurd (lookalike_walk.symm.trans clash) (Option.some_ne_none _)
    · obtain ⟨rfl, rfl⟩ := Prod.mk.inj (Option.some.inj (lookalike_walk.symm.trans walked))
      obtain ⟨rfl, -⟩ := Prod.mk.inj (Except.ok.inj (run.symm.trans looked))
      exact failed rfl

end RlCpu.Kernel
