/-
**`k_open`, `k_read`, `k_write` and `k_close` in a well-formed tree.**

* `wp_kOpen`: any mode but exactly `O_WRONLY`, for which `fs_open` calls `fs_reset` and gives the blocks
  of the file back, and the node, with the entry left in place.
* `wp_kWrite`: to a regular file of the tree.
* `wp_kRead`, `wp_kClose`: the tree is as it was.
-/

import RlCpu.Kernel.Unlink

namespace RlCpu.Kernel

open RlCpu.Lib

variable {δ : Type} {drv : BlkDriver δ} {a b : DiskView} {d n x : Word} {live raw : Set Word}
  {base : BlockPtr → Nat} {room : Nat} {ok : Fault → Prop} {files : KSet File maxFiles}

/-! ### Open files -/

section Files

variable {fd : FilePtr} {f : File}

theorem wp_insertFile {post : FilePtr → DiskView × KSet File maxFiles → Prop}
    (tolerated : (∃ e, files.insert f = .error e) → ok .panic)
    (rest : ∀ fp files', files.insert f = .ok (fp, files') → post fp (a, files')) :
    wp (FsShows drv base room) ok (insertFile f) post (a, files) := by
  rintro s ⟨shows, same⟩
  unfold insertFile
  rw [same]
  cases result : files.insert f with
  | error e => exact (KSet.insert_error result) ▸ tolerated ⟨e, result⟩
  | ok v => exact ⟨(a, v.2), ⟨shows, rfl⟩, rest v.1 v.2 result⟩

theorem wp_getFile {post : File → DiskView × KSet File maxFiles → Prop}
    (rest : post (files.el fd) (a, files)) :
    wp (FsShows drv base room) ok (getFile fd) post (a, files) := by
  rintro s ⟨shows, same⟩
  exact ⟨(a, files), ⟨shows, same⟩, same ▸ rest⟩

theorem wp_setFile {post : Unit → DiskView × KSet File maxFiles → Prop}
    (rest : post () (a, files.assign fd f)) :
    wp (FsShows drv base room) ok (setFile fd f) post (a, files) := by
  rintro s ⟨shows, same⟩
  exact ⟨(a, files.assign fd f), ⟨shows, congrArg (·.assign fd f) same⟩, rest⟩

end Files

/-! ### `k_open` -/

/-- `fs_open`, where it does not call `fs_reset`. -/
theorem wp_fsOpen {mode : Word} {post : FilePtr → DiskView × KSet File maxFiles → Prop}
    (free : a.pins.length < room) (hard : (d, x) ∉ a.soft) (kept : mode = oWronly → IsDev a.data d x)
    (tolerated : ok .wild) (tolerated' : ok .panic)
    (rest : ∀ fp files', files.insert (openedFile ⟨d, x⟩ mode (statOf a.data d x)) = .ok (fp, files') →
      post fp (a, files')) :
    wp (FsShows drv base room) ok (fsOpen drv ⟨d, x⟩ mode) post (a, files) := by
  unfold fsOpen
  refine wp_bind (wp_onBlk (wp_fsStat free hard ?_))
  dsimp only
  rw [statOf_mode]
  have no : ¬ (mode = oWronly ∧
      (sIschr (nodeMode a.data d x) || sIsblk (nodeMode a.data d x)) = false) := by
    rintro ⟨wronly, plain⟩
    have dev := kept wronly
    unfold IsDev at dev
    rw [plain] at dev
    cases dev
  refine wp_bind (wp_neg no (wp_pure (wp_bind (wp_insertFile (fun _ => tolerated') fun fp files' inserted => ?_))))
  split
  · exact wp_throw tolerated
  · exact wp_pure (rest fp files' inserted)

/-- `k_open` does not call `fs_reset`: the mode is not exactly `O_WRONLY`, or the path leads to a device
or nowhere. -/
def OpenKeeps (data : BlockKey → BlockData) (d : Word) (path : CString) (mode : Word) : Prop :=
  mode = oWronly → (walk data d path.chars rootIdx).1 = .noDir ∨
    ((walk data d path.chars rootIdx).1 = .ok ∧ IsDev data d (walk data d path.chars rootIdx).2)

/-- **`k_open`** that does not call `fs_reset`. -/
theorem wp_kOpen {env : FsEnv} {name : CString} {mode : Word} (tree : TreeOk a d live ∅)
    (unmounted : env.mtab = []) (atRoot : env.fsRoot = ⟨d, rootIdx⟩)
    (atHome : env.cwd = ⟨d, rootIdx⟩) (free : a.pins.length + 3 < room) (tolerated : ok .wild)
    (tolerated' : ok .panic) (dirs : DirPath a.data d name.chars rootIdx)
    (fits : Room a.data d name) (enough : 3 ≤ freeBlocks a d) (keeps : OpenKeeps a.data d name mode) :
    wp (FsShows drv base room) ok (kOpen drv env name mode) (fun _ v => Intact a v.1 d)
      (a, files) := by
  unfold kOpen
  refine wp_bind (wp_onBlk (wp_fsLookup tree unmounted atRoot atHome (by omega) (fun _ => tolerated)
    name.nonzero dirs fun r looked => ?_))
  obtain ⟨rv, parent, res⟩ := r
  cases rv with
  | noDir => exact wp_pure tree.intact
  | notADir => exact looked.elim
  | fileExists => exact looked.elim
  | ok =>
    obtain ⟨walked, n, mem, x, self, rfl, rfl, -⟩ := looked
    refine wp_map (wp_fsOpen (by omega) (tree.node x self).hard (fun wronly => ?_) tolerated tolerated'
      fun _ _ _ => tree.intact)
    have here := keeps wronly
    rw [walked] at here
    exact (here.resolve_left fun clash => by cases clash).2
  | noFile =>
    obtain ⟨n, mem, walked, rfl, rfl, dir, missing⟩ := looked
    have other : mode ≠ oWronly := fun wronly => by
      have here := keeps wronly
      rw [walked] at here
      rcases here with clash | ⟨clash, -⟩ <;> cases clash
    dsimp only
    split
    · refine wp_bind (wp_onBlk (wp_fsCreate tree unmounted free mem dir missing (fits.of_walk walked)
        enough fun x e created => ?_))
      have pins := created.pins
      have notDir : unfinished x sIfreg = ∅ :=
        Set.eq_empty_of_forall_notMem fun m inside => absurd inside.2 (by decide)
      refine wp_map (wp_fsOpen (by rw [pins]; omega)
        (created.tree.node x (Set.mem_insert x live)).hard (fun wronly => absurd wronly other)
        tolerated tolerated' fun _ _ _ => ⟨pins, _, notDir ▸ created.tree⟩)
    · exact wp_pure tree.intact

/-! ### `k_write` -/

/-- A regular file written: the tree stays well formed. -/
theorem TreeOk.write {offset size : Nat} {buf : Nat → Word}
    (tree : TreeOk a d live ∅) (self : x ∈ live) (notDir : ¬ IsDir a.data d x)
    (plain : ¬ IsDev a.data d x) (inside : offset ≤ fileSize a.data d x)
    (fits : offset + size < maxFileSize)
    (written : FileWritten a b d x (Covers 0 (fileSize a.data d x)) offset size buf) :
    TreeOk b d live ∅ :=
  (tree.grow written self plain inside fits).settle_plain self
    fun dir => notDir (written.isDir.mp dir)

/-- `fd` is a file of the tree, `size` words can be written to it, and there are blocks for them. -/
structure Writable (a : DiskView) (d : Word) (f : File) (size : Nat) (x : Word) : Prop where
  node : f.node = ⟨d, x⟩
  notDir : ¬ IsDir a.data d x
  plain : ¬ IsDev a.data d x
  inside : f.pos ≤ fileSize a.data d x
  fits : f.pos + size < maxFileSize
  enough : missing a d x (touched f.pos size) ≤ freeBlocks a d

/-- **`k_write`** to a regular file of the tree, or to a character device. -/
theorem wp_kWrite {env : FsEnv} {fd : FilePtr} {buf : Nat → Word} {size : Nat}
    (tree : TreeOk a d live ∅) (free : a.pins.length + 3 < room) (tolerated : ok .wild)
    (notBlk : sIsblk (files.el fd).flags = false)
    (writable : sIschr (files.el fd).flags = false →
      ∃ x ∈ live, Writable a d (files.el fd) size x) :
    wp (FsShows drv base room) ok (kWrite drv env fd buf size) (fun _ v => Intact a v.1 d)
      (a, files) := by
  unfold kWrite
  refine wp_bind (wp_getFile (wp_neg (by rw [notBlk]; exact Bool.false_ne_true) ?_))
  by_cases chr : sIschr (files.el fd).flags = true
  · refine wp_pos chr ?_
    split
    · exact wp_throw tolerated
    · exact wp_pure tree.intact
  · refine wp_neg chr ?_
    obtain ⟨x, self, writable⟩ := writable ((Bool.not_eq_true _).mp chr)
    have node := tree.node x self
    rw [writable.node]
    refine wp_bind (wp_onBlk (wp_fsWrite free tree.vol node.file node.hard writable.inside
      ((Nat.div_lt_iff_lt_mul (by decide)).mpr writable.fits) writable.enough
      (node.mapped writable.plain).kept fun b written => ?_))
    refine wp_bind (wp_setFile (wp_pure ⟨written.written.grown.pins, live, ?_⟩))
    exact tree.write self writable.notDir writable.plain writable.inside
      writable.fits written

/-! ### `k_read` -/

/-- **Blocks at risk are none the tree is about.** -/
theorem TreeOk.agree (tree : TreeOk a d live raw) (soft : b.soft = a.soft)
    (same : ∀ key, key ∉ a.soft → b.data key = a.data key) : TreeOk b d live raw := by
  have bits : ∀ c, isMarked b.data d c = isMarked a.data d c :=
    isMarked_congr fun c => same _ (tree.vol.bitmap c)
  refine tree.same (tree.vol.congr bits fun _ mem => soft ▸ mem) fun m mem => ?_
  have node := tree.node m mem
  have refs : ∀ p, ref b.data d m p = ref a.data d m p :=
    ref_congr (fun i _ => by rw [same _ node.hard]) fun j here => same _ (node.file.index j here)
  refine ⟨same _ node.hard, refs, fun p low here => ?_,
    fun p here => (bits _).trans (node.file.refs p here).2.1, (bits m).trans node.file.marked,
    fun inside => soft ▸ inside, fun _ inside _ => soft ▸ inside⟩
  have block : blockAt b.data d m (p / 256) = blockAt a.data d m (p / 256) := refs (.data _)
  by_cases dev : IsDev a.data d m
  · exact absurd ((node.device dev).2 (.data _)) here
  · unfold wordAt
    rw [block, same _ (node.mapped dev p (Nat.zero_le p) (by omega)).2.2]

/-- **`k_read`** of a regular file or a directory of the tree, or of a device. -/
theorem wp_kRead {env : FsEnv} {fd : FilePtr} {size : Nat} (tree : TreeOk a d live ∅)
    (free : a.pins.length + 3 < room) (tolerated : ok .wild) (small : size < 2 ^ 16)
    (readable : sIsblk (files.el fd).flags = false → sIschr (files.el fd).flags = false →
      ∃ x ∈ live, (files.el fd).node = ⟨d, x⟩ ∧ ¬ IsDev a.data d x ∧
        (files.el fd).pos ≤ fileSize a.data d x) :
    wp (FsShows drv base room) ok (kRead drv env fd size) (fun _ v => Intact a v.1 d)
      (a, files) := by
  unfold kRead
  refine wp_bind (wp_getFile ?_)
  by_cases blk : sIsblk (files.el fd).flags = true
  · refine wp_pos blk ?_
    unfold blkdevRead
    refine wp_bind (wp_getFile (wp_bind (wp_onBlk (wp_bread (by omega) fun i data same => ?_))))
    split
    · exact wp_throw tolerated
    · have held := (a.put ((files.el fd).device, BitVec.ofNat 16 ((files.el fd).pos / 256)) data).mem_pin i
        ((files.el fd).device, BitVec.ofNat 16 ((files.el fd).pos / 256))
      refine wp_bind (wp_onBlk (wp_data held (wp_bind (wp_onBlk (wp_bfree_pin
        (wp_bind (wp_setFile (wp_pure ⟨rfl, live, ?_⟩))))))))
      by_cases soft : ((files.el fd).device, BitVec.ofNat 16 ((files.el fd).pos / 256)) ∈ a.soft
      · exact tree.agree rfl fun key hard => DiskView.put_data_ne _ _ _ fun equal => hard (equal ▸ soft)
      · rw [same (Or.inl soft), DiskView.put, Function.update_eq_self]
        exact tree
  refine wp_neg blk ?_
  by_cases chr : sIschr (files.el fd).flags = true
  · refine wp_pos chr ?_
    split
    · exact wp_pure tree.intact
    · split
      · exact wp_pure tree.intact
      · exact wp_pure tree.intact
  refine wp_neg chr ?_
  obtain ⟨x, self, node, plain, inside⟩ :=
    readable ((Bool.not_eq_true _).mp blk) ((Bool.not_eq_true _).mp chr)
  rw [node]
  refine wp_bind (wp_onBlk (wp_fsRead_node (by omega) (tree.node x self) plain ?_ inside
    (wp_bind (wp_setFile (wp_pure tree.intact)))))
  split
  · exact Nat.mod_lt _ (by decide)
  · exact small

/-! ### `k_close` -/

/-- **`k_close`** leaves the disk alone. -/
theorem wp_kClose {fd : FilePtr} (tree : TreeOk a d live ∅) :
    wp (FsShows drv base room) ok (kClose fd) (fun _ v => Intact a v.1 d) (a, files) := by
  unfold kClose
  refine wp_bind (wp_getFile (wp_bind (wp_setFile ?_)))
  split
  · rintro s ⟨shows, -⟩
    exact ⟨(a, s.openFiles.removeByElement fd), ⟨shows, rfl⟩, tree.intact⟩
  · exact wp_pure tree.intact

end RlCpu.Kernel
