/-
**`k_unlink` in a well-formed tree.**

The node is given back first, and its entry is cleared afterwards. In between, the directory names a
block that is free, and counts as unfinished.

* `TreeOk.release`: the tree without the node.
* `wp_unlinkLoop`: the loop finds the one entry that names the node.
* `wp_kUnlink`: the tree stays well formed.
-/

import RlCpu.Kernel.Reset

namespace RlCpu.Kernel

open RlCpu.Lib

variable {δ : Type} {drv : BlkDriver δ} {a b c : DiskView} {d n x : Word} {live raw : Set Word}
  {i : Nat}

/-! ### The tree without the node -/

/-- A node whose blocks are not given back is as it was. -/
theorem Released.sameNode {m : Word} (released : Released a b d x) (file : FileOk a d m)
    (apart : Apart a.data d x m) : SameNode a b d m := by
  have away : ∀ p, ref a.data d m p ≠ 0 → ∀ q, ref a.data d x q ≠ ref a.data d m p :=
    fun p here q same => apart.blocks q p (same ▸ here) same
  refine SameNode.of_data (released.frame m apart.ne file.high file.marked) (fun p here => ?_)
    (released.kept m file.marked apart.ne fun p _ => apart.node p) (fun p here => ?_) fun e which mem => ?_
  · obtain ⟨high, marked, -⟩ := file.refs p here
    exact released.frame _ (apart.node' p) (by omega) marked
  · exact released.kept _ (file.refs p here).2.1 (apart.node' p)
      fun q _ => away p here q
  · refine (released.soft _ mem).resolve_right fun same => ?_
    have equal : e = x := congrArg Prod.snd same
    rcases which with rfl | ⟨p, rfl, -⟩
    · exact apart.ne equal
    · exact apart.node' p equal

/-- Entry `i` of directory `n`, a directory of the tree, names the node `x`, which is no directory. -/
structure Named (a : DiskView) (d : Word) (live : Set Word) (n : Word) (i : Nat) (x : Word) : Prop where
  tree : TreeOk a d live ∅
  mem : n ∈ live
  dir : IsDir a.data d n
  self : x ∈ live
  plain : ¬ IsDir a.data d x
  names : Names a.data d n i x

namespace Named

variable (named : Named a d live n i x)
include named

theorem dirOk {m : Word} (mem : m ∈ live) (dir : IsDir a.data d m) : DirOk a d live m :=
  (named.tree.node m mem).dir dir fun raw => raw

theorem ne_dir {m : Word} (dir : IsDir a.data d m) : m ≠ x := fun same => named.plain (same ▸ dir)

/-- No other entry names the node. -/
theorem unique {m : Word} {j : Nat} (mem : m ∈ live) (dir : IsDir a.data d m)
    (names : Names a.data d m j x) : n = m ∧ i = j :=
  named.tree.names n named.mem (fun raw => raw) named.dir m mem (fun raw => raw) dir i j x named.names names

/-- No other entry of the directory has the number of the node. -/
theorem entry_unique {j : Nat} (low : j < entryCount a.data d n)
    (same : entryIdx a.data d n j = x) : j = i := by
  have nonzero : x ≠ 0 := ne_zero_of_high (named.tree.node x named.self).file.high
  by_cases dots : IsDots (entryWords a.data d n j)
  · have isDir := ((named.dirOk named.mem named.dir).dots j low dots).2
    rw [same] at isDir
    exact absurd isDir named.plain
  · exact (named.unique named.mem named.dir ⟨low, same, nonzero, dots⟩).2.symm

theorem sameAfter (released : Released a b d x) {m : Word} (mem : m ∈ live) (ne : m ≠ x) :
    SameNode a b d m :=
  released.sameNode (named.tree.node m mem).file (named.tree.apart x named.self m mem ne)

/-- **The tree without the node**, but for its directory. -/
theorem release (released : Released a b d x) : TreeOk b d (live \ {x}) {n} := by
  have tree := named.tree
  have root : rootIdx ≠ x := named.ne_dir tree.rootDir
  refine tree.restrict ⟨fun e low => ?_, fun e mem => ?_⟩ Set.sdiff_subset ⟨tree.root, root⟩
    (fun m mem => named.sameAfter released mem.1 mem.2) (fun m mem _ raw => raw)
    (fun m mem done dir j y here => ?_) fun m mem dir m' mem' dir' => ⟨mem', named.ne_dir dir'⟩
  · have file := (tree.node x named.self).file
    refine released.kept e (tree.vol.reserved e low) (fun same => ?_) fun p here same => ?_
    · have high : 35 ≤ x.toNat := by
        have above := file.high
        have ne : x.toNat ≠ 34 := fun equal => root (BitVec.eq_of_toNat_eq equal).symm
        omega
      rw [same] at low
      omega
    · have high := (file.refs p here).1
      rw [same] at high
      omega
  · refine (released.soft _ mem).elim (tree.vol.bitmap e) fun same => ?_
    exact (tree.node x named.self).file.node_ne_bit e same.symm
  · refine ⟨((named.dirOk mem.1 dir).named j y here).1, fun same => ?_⟩
    exact done (named.unique mem.1 dir (same ▸ here)).1.symm

/-- The directory after the node was given back: as it was, with one entry of no account. -/
theorem dirOkAfter (released : Released a b d x) : DirOk b d live n := by
  have ok := named.dirOk named.mem named.dir
  have same := named.sameAfter released named.mem (named.ne_dir named.dir)
  refine same.dirOk ((named.tree.node n named.mem).dirMapped named.dir) ok (fun j low dots => ?_)
    fun j y here => (ok.named j y here).1
  obtain ⟨inside, isDir⟩ := ok.dots j low dots
  exact ⟨inside, (named.sameAfter released inside (named.ne_dir isDir)).isDir.mpr isDir⟩

/-- The entry is none of the two dots. -/
theorem late : 2 ≤ i := by
  have ok := named.dirOk named.mem named.dir
  by_contra early
  refine named.names.2.2.2 ?_
  rcases (show i = 0 ∨ i = 1 by omega) with rfl | rfl
  · exact Or.inl ok.first.2
  · exact Or.inr ok.second.2

end Named

/-- The node is given back (from view `a` to view `b`), and its entry is cleared (from `b` to `c`). -/
structure Deleted (a b c : DiskView) (d : Word) (live : Set Word) (n : Word) (i : Nat) (x : Word)
    (buf : Nat → Word) : Prop extends Named a d live n i x where
  released : Released a b d x
  written : FileWritten b c d n (Covers 0 (fileSize b.data d n)) (i * 32) 32 buf
  first : buf 0 = 0
  last : buf 31 = 0

namespace Deleted

variable {buf : Nat → Word} (deleted : Deleted a b c d live n i x buf)
include deleted

theorem stays : n ∈ live \ {x} := ⟨deleted.mem, deleted.toNamed.ne_dir deleted.dir⟩

theorem same : SameNode a b d n :=
  deleted.toNamed.sameAfter deleted.released deleted.mem (deleted.toNamed.ne_dir deleted.dir)

theorem isDirAfter : IsDir b.data d n := deleted.same.isDir.mpr deleted.dir

theorem dirOkAfter : DirOk b d live n := deleted.toNamed.dirOkAfter deleted.released

theorem inside : i < entryCount b.data d n := deleted.same.count ▸ deleted.names.1

/-- The entry is inside the directory. -/
theorem fits : i * 32 + 32 ≤ fileSize b.data d n := by
  have inside := deleted.inside
  have whole := deleted.dirOkAfter.whole
  unfold entryCount at inside
  omega

/-- The tree, but for the directory. -/
theorem treeAfter : TreeOk c d (live \ {x}) (insert n ∅) := by
  have tree := deleted.toNamed.release deleted.released
  have fits := deleted.fits
  have bounded := (tree.node n deleted.stays).bounded deleted.isDirAfter.not_isDev
  have both : insert n {n} = insert n (∅ : Set Word) := by
    rw [Set.insert_eq_of_mem (Set.mem_singleton n), insert_empty_eq]
  exact both ▸ tree.grow deleted.written deleted.stays deleted.isDirAfter.not_isDev (by omega)
    (by omega)

/-- The other nodes, while the entry is cleared. -/
theorem sibling {m : Word} (mem : m ∈ live \ {x}) (ne : m ≠ n) : SameNode b c d m := by
  have tree := deleted.toNamed.release deleted.released
  exact deleted.written.written.grown.sameNode (tree.node m mem).file
    (tree.apart n deleted.stays m mem ne)

theorem dirs {m : Word} (mem : m ∈ live \ {x}) : IsDir c.data d m ↔ IsDir a.data d m := by
  rw [← (deleted.toNamed.sameAfter deleted.released mem.1 mem.2).isDir]
  by_cases here : m = n
  · subst here
    exact deleted.written.isDir
  · exact (deleted.sibling mem here).isDir

/-- **What is named in the end**: all but the entry cleared. -/
theorem names_iff {m : Word} (mem : m ∈ live \ {x}) (dir : IsDir a.data d m) {j : Nat} {y : Word} :
    Names c.data d m j y ↔ (m = n → j ≠ i) ∧ Names a.data d m j y := by
  have same := deleted.toNamed.sameAfter deleted.released mem.1 mem.2
  have mapped := (deleted.tree.node m mem.1).dirMapped dir
  rw [← same.names mapped]
  by_cases here : m = n
  · subst here
    rw [deleted.written.names deleted.dirOkAfter.whole deleted.inside.le, deleted.last]
    refine ⟨fun known => ?_, fun both => Or.inl ⟨both.1 rfl, both.2⟩⟩
    rcases known with both | ⟨-, zero, nonzero, -⟩
    · exact ⟨fun _ => both.1, both.2⟩
    · exact absurd zero.symm nonzero
  · have isDir := same.isDir.mpr dir
    have tree := deleted.toNamed.release deleted.released
    rw [(deleted.sibling mem here).names ((tree.node m mem).dirMapped isDir)]
    exact ⟨fun names => ⟨fun equal => absurd equal here, names⟩, fun both => both.2⟩

theorem dirOk : DirOk c d (live \ {x}) n := by
  have ok := deleted.dirOkAfter
  have mapped := (deleted.tree.node n deleted.mem).dirMapped deleted.dir
  have split : (List.range 32).map buf = 0 :: ((List.range 31).map fun j => buf (j + 1)) := by
    rw [List.range_succ_eq_map, List.map_cons, List.map_map, deleted.first]
    rfl
  refine ok.write deleted.written deleted.inside.le deleted.toNamed.late (fun _ => deleted.first) ?_
    (fun some => absurd deleted.last some) (fun j low dots => ?_) fun j y ne names => ?_
  · rw [split]
    rintro (dot | dot)
    · exact absurd (strcmpEq_cons.mp dot).1 (by decide)
    · exact absurd (strcmpEq_cons.mp dot).1 (by decide)
  · rw [deleted.same.count] at low
    rw [deleted.same.entryWords mapped low] at dots
    rw [deleted.same.entryIdx mapped low]
    obtain ⟨inside, isDir⟩ := (deleted.toNamed.dirOk deleted.mem deleted.dir).dots j low dots
    have still : entryIdx a.data d n j ∈ live \ {x} := ⟨inside, deleted.toNamed.ne_dir isDir⟩
    exact ⟨still, (deleted.dirs still).mpr isDir⟩
  · have before := (deleted.same.names mapped).mp names
    refine ⟨((deleted.toNamed.dirOk deleted.mem deleted.dir).named j y before).1, ?_⟩
    rintro rfl
    exact ne (deleted.unique deleted.mem deleted.dir before).2.symm

/-- **The tree once the entry is cleared.** -/
theorem treeDeleted : TreeOk c d (live \ {x}) ∅ := by
  refine deleted.treeAfter.settle deleted.stays (fun _ => deleted.dirOk)
    fun dir m mem _ dir' j k y here here' => ?_
  have isDir := (deleted.dirs mem).mp dir'
  have first := ((deleted.names_iff deleted.stays deleted.dir).mp here).2
  have second := ((deleted.names_iff mem isDir).mp here').2
  exact deleted.tree.names n deleted.mem (fun raw => raw) deleted.dir m mem.1 (fun raw => raw) isDir
    j k y first second

end Deleted

/-! ### The call -/

/-- A write inside a file with one block ahead needs no block. -/
theorem missing_inside {offset size : Nat} (mapped : Mapped a d n 0 (fileSize a.data d n))
    (ahead : blockAt a.data d n (fileSize a.data d n / 256) ≠ 0)
    (inside : offset + size ≤ fileSize a.data d n) : missing a d n (touched offset size) = 0 := by
  refine Finset.card_eq_zero.mpr (Finset.filter_eq_empty_iff.mpr fun p mem => ?_)
  obtain ⟨k, range, place⟩ := Finset.mem_biUnion.mp mem
  rw [Finset.mem_Icc] at range
  refine passed_filled ?_ p place
  have low : k ≤ fileSize a.data d n / 256 := range.2.trans (Nat.div_le_div_right inside)
  rcases Nat.eq_or_lt_of_le low with last | before
  · rw [last]
    exact ahead
  · exact (mapped.slot (by omega)).2.1

section Rules

variable {base : BlockPtr → Nat} {room : Nat} {ok : Fault → Prop}

/-- **The loop of `k_unlink`**, over entries one of which has the number of the node. -/
theorem wp_unlinkLoop {post : Bool → DiskView → Prop} (free : b.pins.length + 3 < room)
    (node : NodeOk b d live raw n) (vol : VolumeOk b d) (plain : ¬ IsDev b.data d n)
    (whole : fileSize b.data d n % 32 = 0)
    (ahead : blockAt b.data d n (fileSize b.data d n / 256) ≠ 0)
    (inside : i < entryCount b.data d n) (here : entryIdx b.data d n i = x)
    (rest : ∀ c buf, FileWritten b c d n (Covers 0 (fileSize b.data d n)) (i * 32) 32 buf →
      buf 0 = 0 → buf 31 = 0 → post true c) :
    ∀ is : List Nat, i ∈ is → (∀ j ∈ is, j < entryCount b.data d n) →
      (∀ j ∈ is, entryIdx b.data d n j = x → j = i) →
      wp (Shows drv base room) ok (unlinkLoop drv ⟨d, n⟩ x is) post b := by
  have mapped := node.mapped plain
  have bounded := node.bounded plain
  have fits : i * 32 + 32 ≤ fileSize b.data d n := by
    unfold entryCount at inside
    omega
  intro is
  induction is with
  | nil => exact fun mem => absurd mem List.not_mem_nil
  | cons j is ih =>
    intro mem low unique
    unfold unlinkLoop fsReaddir
    refine wp_bind (wp_readEntry (by omega) node plain (low j List.mem_cons_self) ?_)
    refine wp_neg (by rw [entryWords_length]; exact fun ne => ne rfl) ?_
    rw [entryWords_getD _ _ _ _ (by decide)]
    by_cases found : entryIdx b.data d n j = x
    · have same : j = i := unique j List.mem_cons_self found
      subst same
      refine wp_pos found (wp_bind (wp_fsWrite free vol node.file node.hard ?_ ?_ ?_ mapped.kept
        fun c written => wp_pure (rest c _ written ?_ ?_)))
      · exact (Nat.le_add_right _ _).trans fits
      · exact (Nat.div_lt_iff_lt_mul (by decide)).mpr (fits.trans_lt bounded)
      · rw [missing_inside mapped ahead fits]
        exact Nat.zero_le _
      · simp [List.getD_eq_getElem?_getD]
      · simp [List.getD_eq_getElem?_getD]
    · refine wp_neg found (ih ?_ (fun l mem => low l (List.mem_cons_of_mem j mem))
        fun l mem => unique l (List.mem_cons_of_mem j mem))
      refine (List.mem_cons.mp mem).resolve_left ?_
      rintro rfl
      exact found here

/-- What `k_unlink` does with a node that is no directory: it is given back, and its entry is cleared. -/
theorem wp_unlinkNode {post : Bool → DiskView → Prop} (named : Named a d live n i x)
    (free : a.pins.length + 3 < room) (enough : 2 ≤ freeBlocks a d)
    (rest : ∀ b c buf, Deleted a b c d live n i x buf → c.pins = a.pins → post true c) :
    wp (Shows drv base room) ok (do
      fsReset drv ⟨d, x⟩
      let parentSt ← fsStat drv ⟨d, n⟩
      unlinkLoop drv ⟨d, n⟩ x (List.range ((parentSt.stSize + 31) / 32))) post a := by
  have ⟨tree, mem, dir, self, notDir, low, here, _⟩ := named
  refine wp_bind (wp_fsReset (by omega) tree self enough fun b released => ?_)
  have same := named.sameAfter released mem (named.ne_dir dir)
  have mapped := (tree.node n mem).dirMapped dir
  have treeB := named.release released
  have node := treeB.node n ⟨mem, named.ne_dir dir⟩
  have isDir : IsDir b.data d n := same.isDir.mpr dir
  have okB := named.dirOkAfter released
  have pins := released.pins
  refine wp_bind (wp_fsStat (by rw [pins]; omega) node.hard ?_)
  have count : (fileSize b.data d n + 31) / 32 = entryCount b.data d n := by
    have whole := okB.whole
    unfold entryCount
    omega
  rw [statOf_size isDir.not_isDev, count]
  have inside : i < entryCount b.data d n := same.count ▸ low
  refine wp_unlinkLoop (by rw [pins]; exact free) node treeB.vol isDir.not_isDev okB.whole okB.ahead
    inside ((same.entryIdx mapped low).trans here) (fun c buf written first last =>
      rest b c buf ⟨named, released, written, first, last⟩ ?_) _ (List.mem_range.mpr inside)
      (fun j => List.mem_range.mp) fun j mem found => ?_
  · exact written.written.grown.pins.trans pins
  · have lowA : j < entryCount a.data d n := same.count ▸ List.mem_range.mp mem
    exact named.entry_unique lowA ((same.entryIdx mapped lowA).symm.trans found)

/-- **`k_unlink`** of anything but a directory. -/
theorem wp_kUnlink {env : FsEnv} {name : CString} {files : KSet File maxFiles}
    (tree : TreeOk a d live ∅) (unmounted : env.mtab = []) (atRoot : env.fsRoot = ⟨d, rootIdx⟩)
    (atHome : env.cwd = ⟨d, rootIdx⟩) (free : a.pins.length + 3 < room) (tolerated : ok .wild)
    (dirs : DirPath a.data d name.chars rootIdx)
    (plain : (walk a.data d name.chars rootIdx).1 = .ok →
      ¬ IsDir a.data d (walk a.data d name.chars rootIdx).2) (enough : 2 ≤ freeBlocks a d) :
    wp (FsShows drv base room) ok (kUnlink drv env name)
      (fun _ v => Intact a v.1 d ∧ v.2 = files) (a, files) := by
  unfold kUnlink
  refine wp_onBlk (wp_bind (wp_fsLookup tree unmounted atRoot atHome (by omega) (fun _ => tolerated)
    name.nonzero dirs fun r looked => ?_))
  obtain ⟨rv, parent, res⟩ := r
  cases rv with
  | noDir => exact wp_pure ⟨tree.intact, rfl⟩
  | notADir => exact looked.elim
  | fileExists => exact looked.elim
  | noFile => exact wp_pure ⟨tree.intact, rfl⟩
  | ok =>
    obtain ⟨walked, n, mem, x, self, rfl, rfl, dir, link⟩ := looked
    rw [walked] at plain
    have notDir := plain rfl
    have dirOk := (tree.node n mem).dir dir fun raw => raw
    rcases link with same | ⟨i, low, here⟩
    · exact absurd (same ▸ dir) notDir
    have names : Names a.data d n i x := by
      refine ⟨low, here, ne_zero_of_high (tree.node x self).file.high, fun dots => notDir ?_⟩
      exact here ▸ (dirOk.dots i low dots).2
    exact wp_unlinkNode ⟨tree, mem, dir, self, notDir, names⟩ free enough fun b c buf deleted pins =>
      ⟨⟨pins, live \ {x}, deleted.treeDeleted⟩, rfl⟩

end Rules

end RlCpu.Kernel
