/-
**`k_mkdir` and `k_mknod` in a well-formed tree.**

Both look the path up and call `fs_create`. `k_mkdir` then writes the two dots, with which the new
directory is finished (`DirOk.of_dots`); `k_mknod` writes the device number into the new node.

* `wp_writeDots`: the four writes of the dots, as `fs_mkfs` makes them too.
* `wp_kMkdir`, `wp_kMknod`: the tree stays well formed, with at most one more node.
-/

import RlCpu.Kernel.Create

namespace RlCpu.Kernel

open RlCpu.Lib

variable {δ : Type} {drv : BlkDriver δ} {a b : DiskView} {d n x flags : Word} {live raw : Set Word}
  {base : BlockPtr → Nat} {room : Nat} {ok : Fault → Prop}

/-! ### The dots -/

/-- The words of `.` and `..` in a new directory. -/
def dotsOf (env : FsEnv) (self parent : Word) (p : Nat) : Word :=
  if p < 31 then (CString.dotName env).mem p
  else if p < 32 then self
  else if p < 63 then (CString.dotDotName env).mem (p - 32)
  else parent

theorem dotsOf_words (env : FsEnv) (self parent : Word) :
    (∀ j < 31, (CString.dotName env).mem j = dotsOf env self parent j) ∧
      (∀ j < 1, self = dotsOf env self parent (31 + j)) ∧
      (∀ j < 31, (CString.dotDotName env).mem j = dotsOf env self parent (32 + j)) ∧
      ∀ j < 1, parent = dotsOf env self parent (63 + j) := by
  refine ⟨fun j low => ?_, fun j low => ?_, fun j low => ?_, fun j low => ?_⟩
  · unfold dotsOf
    rw [if_pos low]
  · unfold dotsOf
    rw [if_neg (by omega), if_pos (by omega)]
  · unfold dotsOf
    rw [if_neg (by omega), if_neg (by omega), if_pos (by omega), Nat.add_sub_cancel_left]
  · unfold dotsOf
    rw [if_neg (by omega), if_neg (by omega), if_neg (by omega)]

/-- The first block of a file is a direct one. -/
theorem touched_first : touched 0 64 = {.data 0} := by decide

/-- **The four writes of the dots are one.** -/
theorem wp_writeDots {α : Type} {env : FsEnv} {parent : Word} {keep : Nat → Prop} {k : BlkM δ α}
    {post : α → DiskView → Prop} (free : a.pins.length + 3 < room) (vol : VolumeOk a d)
    (file : FileOk a d n) (node : (d, n) ∉ a.soft) (enough : 1 ≤ freeBlocks a d)
    (kept : Kept a d n keep)
    (rest : ∀ b, FileWritten a b d n keep 0 64 (dotsOf env n parent) →
      wp (Shows drv base room) ok k post b) :
    wp (Shows drv base room) ok (do
      let _ ← fsWrite drv ⟨d, n⟩ 0 31 (CString.dotName env).mem
      let _ ← fsWrite drv ⟨d, n⟩ 31 1 fun _ => n
      let _ ← fsWrite drv ⟨d, n⟩ 32 31 (CString.dotDotName env).mem
      let _ ← fsWrite drv ⟨d, n⟩ 63 1 fun _ => parent
      k) post a := by
  obtain ⟨dot, self, dotDot, up⟩ := dotsOf_words env n parent
  have need : missing a d n (touched 0 64) ≤ freeBlocks a d := by
    refine ((Finset.card_filter_le _ _).trans ?_).trans enough
    rw [touched_first]
    exact (Finset.card_singleton _).le
  have inRange : (0 + 64) / 256 < dataSlots := by decide
  refine wp_bind (wp_fsWrite free vol file node (Nat.zero_le _) (by decide)
    ((missing_mono (touched_mono (by decide))).trans need) kept fun b first => ?_)
  have first' := first.congr dot
  refine wp_bind (wp_fsWrite_more free first' file node kept self inRange
    (by decide) need fun b second => ?_)
  refine wp_bind (wp_fsWrite_more free second file node kept dotDot inRange
    (by decide) need fun b third => ?_)
  exact wp_bind (wp_fsWrite_more free third file node kept up inRange
    (by decide) need fun b fourth => rest b fourth)

section Dots

variable {env : FsEnv} {parent : Word} {keep : Nat → Prop}
  (written : FileWritten a b d n keep 0 64 (dotsOf env n parent))
  (small : fileSize a.data d n ≤ 64)
include written

theorem dots_words {i j : Nat} (entry : i < 2) (low : j < 32) :
    wordAt b.data d n (i * 32 + j) = dotsOf env n parent (i * 32 + j) :=
  written.written.words _ (Nat.zero_le _) (by omega)

theorem dots_entryWords {i : Nat} (entry : i < 2) :
    entryWords b.data d n i = (List.range 32).map fun j => dotsOf env n parent (i * 32 + j) :=
  List.map_congr_left fun _ mem => dots_words written entry (List.mem_range.mp mem)

/-- The two entries are read as the dots. -/
theorem dots_isDots : strcmpEq (entryWords b.data d n 0) [dot, 0] = true ∧
    strcmpEq (entryWords b.data d n 1) [dot, dot, 0] = true := by
  rw [dots_entryWords written (by decide), dots_entryWords written (by decide)]
  exact ⟨rfl, rfl⟩

include small

theorem dots_size : fileSize b.data d n = 64 := by
  have size := written.size
  unfold fileSize at *
  omega

theorem dots_count : entryCount b.data d n = 2 := by
  unfold entryCount
  rw [dots_size written small]

theorem dots_entry {i : Nat} (low : i < entryCount b.data d n) :
    IsDots (entryWords b.data d n i) ∧
      (entryIdx b.data d n i = n ∨ entryIdx b.data d n i = parent) := by
  obtain ⟨first, second⟩ := dots_isDots written
  rw [dots_count written small] at low
  match i, low with
  | 0, _ => exact ⟨Or.inl first, Or.inl (dots_words written (by decide) (by decide))⟩
  | 1, _ => exact ⟨Or.inr second, Or.inr (dots_words written (by decide) (by decide))⟩

/-- The dots name no node of their own. -/
theorem dots_names {i : Nat} {y : Word} : ¬ Names b.data d n i y :=
  fun here => here.2.2.2 (dots_entry written small here.1).1

/-- **A directory with the two dots.** -/
theorem DirOk.of_dots (self : n ∈ live) (up : parent ∈ live) (dir : IsDir b.data d n)
    (dir' : IsDir b.data d parent) (nonzero : n ≠ 0) (nonzero' : parent ≠ 0) : DirOk b d live n := by
  have size := dots_size written small
  have count := dots_count written small
  obtain ⟨first, second⟩ := dots_isDots written
  refine ⟨by rw [size], ?_, ⟨by omega, first⟩, ⟨by omega, second⟩, fun i low zero => ?_, fun i low _ => ?_,
    fun i y here => absurd here (dots_names written small)⟩
  · rw [size]
    exact written.written.grown.filled (.data 0) (by rw [touched_first]; exact Finset.mem_singleton_self _)
  · rcases (dots_entry written small low).2 with same | same
    · exact absurd (same.symm.trans zero) nonzero
    · exact absurd (same.symm.trans zero) nonzero'
  · rcases (dots_entry written small low).2 with same | same
    · rw [same]
      exact ⟨self, dir⟩
    · rw [same]
      exact ⟨up, dir'⟩

end Dots

/-! ### Calls on the filesystem -/

/-- What the calls see: the disk, and the set of open files. -/
def FsShows (drv : BlkDriver δ) (base : BlockPtr → Nat) (room : Nat) (s : FsState δ)
    (v : DiskView × KSet File maxFiles) : Prop :=
  Shows drv base room s.blk v.1 ∧ s.openFiles = v.2

theorem wp_onBlk {α : Type} {p : BlkM δ α} {files : KSet File maxFiles}
    {post : α → DiskView × KSet File maxFiles → Prop}
    (rest : wp (Shows drv base room) ok p (fun r b => post r (b, files)) a) :
    wp (FsShows drv base room) ok (onBlk p) post (a, files) := by
  rintro s ⟨shows, same⟩
  have step := rest s.blk shows
  unfold onBlk
  cases result : p s.blk with
  | error e =>
    rw [result] at step
    exact step
  | ok v =>
    rw [result] at step
    obtain ⟨b, shows', holds⟩ := step
    exact ⟨(b, files), ⟨shows', same⟩, holds⟩

/-! ### `k_mkdir` -/

/-- Where a missing file would be created there is room for one more entry below the largest size. -/
def Room (data : BlockKey → BlockData) (d : Word) (path : CString) : Prop :=
  (walk data d path.chars rootIdx).1 = .noFile →
    fileSize data d (walk data d path.chars rootIdx).2 + 32 < maxFileSize

theorem Room.of_walk {data : BlockKey → BlockData} {path : CString} (room : Room data d path)
    (walked : walk data d path.chars rootIdx = (.noFile, n)) : fileSize data d n + 32 < maxFileSize := by
  have here := room (by rw [walked])
  rwa [walked] at here

/-- What a call leaves behind: a well-formed tree, and nothing held. -/
structure Intact (a b : DiskView) (d : Word) : Prop where
  pins : b.pins = a.pins
  tree : ∃ live, TreeOk b d live ∅

theorem TreeOk.intact (tree : TreeOk a d live ∅) : Intact a a d := ⟨rfl, live, tree⟩

theorem Created.isDir {e : DiskView} (created : Created a e d live n x sIfdir) : IsDir e.data d x := by
  unfold IsDir nodeMode
  rw [created.node, newNode_mode]
  decide

/-- A directory whose dots were just written is finished. -/
theorem Created.finish {env : FsEnv} {e : DiskView} (created : Created a e d live n x sIfdir)
    (mem : n ∈ live)
    (written : FileWritten e b d x (Covers 0 (fileSize e.data d x)) 0 64 (dotsOf env x n)) :
    TreeOk b d (insert x live) ∅ := by
  have tree := created.tree
  have self : x ∈ insert x live := Set.mem_insert x live
  have up : n ∈ insert x live := Set.mem_insert_of_mem x mem
  have ne : n ≠ x := fun same => created.fresh (same ▸ mem)
  have small : fileSize e.data d x ≤ 64 := by
    unfold fileSize
    rw [created.node, newNode_size]
    exact Nat.zero_le _
  have isDir := created.isDir
  have grown : TreeOk b d (insert x live) (insert x ∅) := by
    have raw : insert x (unfinished x sIfdir) = insert x ∅ := by
      refine Set.Subset.antisymm (Set.insert_subset (Set.mem_insert x ∅) fun m inside => ?_)
        (Set.insert_subset_insert (Set.empty_subset _))
      exact Or.inl inside.1
    exact raw ▸ tree.grow written self isDir.not_isDev (Nat.zero_le _) (by decide)
  have isDir' : IsDir b.data d n := ((written.written.grown.sameNode (tree.node n up).file
    (tree.apart x self n up ne)).isDir).mpr created.dir
  refine grown.settle self (fun dir => ?_) fun _ m _ _ _ i j y here => ?_
  · exact DirOk.of_dots written small self up dir isDir'
      (ne_zero_of_high (tree.node x self).file.high) (ne_zero_of_high (tree.node n up).file.high)
  · exact absurd here (dots_names written small)

/-- **`k_mkdir`** -/
theorem wp_kMkdir {env : FsEnv} {path : CString} {files : KSet File maxFiles}
    (tree : TreeOk a d live ∅) (unmounted : env.mtab = []) (atRoot : env.fsRoot = ⟨d, rootIdx⟩)
    (here : env.cwd = ⟨d, rootIdx⟩) (free : a.pins.length + 3 < room)
    (tolerated : path.chars = [] ∨ 31 < path.trimmed.chars.length → ok .wild)
    (dirs : DirPath a.data d path.trimmed.chars rootIdx) (fits : Room a.data d path.trimmed) (enough : 4 ≤ freeBlocks a d) :
    wp (FsShows drv base room) ok (kMkdir drv env path)
      (fun _ v => Intact a v.1 d ∧ v.2 = files) (a, files) := by
  unfold kMkdir
  refine wp_onBlk ?_
  by_cases empty : path.chars = []
  · exact wp_pos empty (wp_throw (tolerated (Or.inl empty)))
  refine wp_neg empty (wp_bind (wp_fsLookup tree unmounted atRoot here (by omega)
    (fun long => tolerated (Or.inr long)) path.trimmed.nonzero dirs fun r looked => ?_))
  obtain ⟨rv, parent, res⟩ := r
  cases rv with
  | ok => exact wp_pure ⟨tree.intact, rfl⟩
  | noDir => exact wp_pure ⟨tree.intact, rfl⟩
  | notADir => exact looked.elim
  | fileExists => exact looked.elim
  | noFile =>
    obtain ⟨n, mem, walked, rfl, rfl, dir, missing⟩ := looked
    refine wp_bind (wp_fsCreate tree unmounted free mem dir missing (fits.of_walk walked) (by omega)
      fun x e created => ?_)
    have pins := created.pins
    have left := created.enough
    have node := created.tree.node x (Set.mem_insert x live)
    have kept := (node.dirMapped created.isDir).kept
    have some : 1 ≤ freeBlocks e d := by omega
    refine wp_writeDots (by rw [pins]; exact free) created.tree.vol node.file node.hard some kept
      fun b written => wp_pure ⟨⟨?_, _, created.finish mem written⟩, rfl⟩
    exact written.written.grown.pins.trans pins

/-! ### `k_mknod` -/

/-- **A node that is no directory is written**, and refers to the same blocks as before. -/
theorem TreeOk.patch (tree : TreeOk a d live raw) (vol : VolumeOk b d) (mem : x ∈ live)
    (node : NodeOk b d live raw x) (plain : ¬ IsDir a.data d x) (plain' : ¬ IsDir b.data d x)
    (refs : ∀ p, ref b.data d x p = ref a.data d x p)
    (same : ∀ m ∈ live, m ≠ x → SameNode a b d m) : TreeOk b d live raw := by
  have dirs : ∀ m ∈ live, IsDir b.data d m ↔ IsDir a.data d m := fun m mem' => by
    by_cases here : m = x
    · subst here
      exact iff_of_false plain' plain
    · exact (same m mem' here).isDir
  have ne : ∀ m, IsDir b.data d m → m ≠ x := fun m dir equal => plain' (equal ▸ dir)
  have all : ∀ m ∈ live, ∀ p, ref b.data d m p = ref a.data d m p := fun m mem' p => by
    by_cases here : m = x
    · subst here
      exact refs p
    · exact (same m mem' here).refs p
  refine ⟨vol, tree.root, (dirs _ tree.root).mpr tree.rootDir, fun m mem' => ?_,
    fun m mem' m' mem'' differ => ?_, fun m mem' done dir m' mem'' done' dir' i j y here here' => ?_⟩
  · by_cases here : m = x
    · exact here ▸ node
    · refine (same m mem' here).nodeOk (tree.node m mem') fun dir done => ?_
      have ok := (tree.node m mem').dir dir done
      refine (same m mem' here).dirOk ((tree.node m mem').dirMapped dir) ok (fun i low dots => ?_)
        fun i y names => (ok.named i y names).1
      obtain ⟨inside, isDir⟩ := ok.dots i low dots
      exact ⟨inside, (dirs _ inside).mpr isDir⟩
  · have apart := tree.apart m mem' m' mem'' differ
    refine ⟨differ, fun p q => ?_, fun p => ?_, fun q => ?_⟩
    · rw [all m mem', all m' mem'']
      exact apart.blocks p q
    · rw [all m mem']
      exact apart.node p
    · rw [all m' mem'']
      exact apart.node' q
  · have isDir := (dirs m mem').mp dir
    have isDir' := (dirs m' mem'').mp dir'
    refine tree.names m mem' done isDir m' mem'' done' isDir' i j y ?_ ?_
    · exact ((same m mem' (ne m dir)).names ((tree.node m mem').dirMapped isDir)).mp here
    · exact ((same m' mem'' (ne m' dir')).names ((tree.node m' mem'').dirMapped isDir')).mp here'

/-- The device number of a new device node is written. -/
theorem Created.device {e : DiskView} {v : Word} (created : Created a e d live n x flags)
    (dev : (sIschr flags || sIsblk flags) = true) :
    TreeOk (e.put (d, x) ((newNode flags).put 1 v)) d (insert x live) ∅ := by
  have tree := created.tree
  have self : x ∈ insert x live := Set.mem_insert x live
  have node := tree.node x self
  have file := node.file
  have notDir : ¬ sIsdir flags = true := by
    intro dir
    unfold sIsdir at dir
    unfold sIschr sIsblk at dev
    rw [beq_iff_eq] at dir
    rw [dir] at dev
    exact absurd dev (by decide)
  have raw : unfinished x flags = ∅ := Set.eq_empty_of_forall_notMem fun m inside => notDir inside.2
  have put : (e.put (d, x) ((newNode flags).put 1 v)).data (d, x) = (newNode flags).put 1 v :=
    DiskView.put_data_self _ _ _
  have away : ∀ key, key ≠ (d, x) → (e.put (d, x) ((newNode flags).put 1 v)).data key = e.data key :=
    fun key ne => DiskView.put_data_ne _ _ _ ne
  have bits : ∀ c, isMarked (e.put (d, x) ((newNode flags).put 1 v)).data d c = isMarked e.data d c :=
    isMarked_congr fun c => away _ (file.node_ne_bit c).symm
  have words : ∀ i, i ≠ 1 → ((newNode flags).put 1 v).word i = (e.data (d, x)).word i := fun i ne => by
    rw [created.node]
    exact BlockData.word_put_ne _ _ ne
  have refs : ∀ p, ref (e.put (d, x) ((newNode flags).put 1 v)).data d x p = ref e.data d x p := by
    refine ref_congr (fun i high => ?_) fun j here => absurd (newNode_ref created.node (.index j)) here
    rw [put]
    exact words i (by omega)
  have mode : nodeMode (e.put (d, x) ((newNode flags).put 1 v)).data d x = flags := by
    unfold nodeMode
    rw [put, words 0 (by decide), created.node, newNode_mode]
  have isDev : IsDev (e.put (d, x) ((newNode flags).put 1 v)).data d x := by
    unfold IsDev
    rw [mode]
    exact dev
  have notDir' : ¬ IsDir (e.put (d, x) ((newNode flags).put 1 v)).data d x := by
    unfold IsDir
    rw [mode]
    exact notDir
  have same : ∀ m ∈ insert x live, m ≠ x → SameNode e (e.put (d, x) ((newNode flags).put 1 v)) d m := by
    intro m mem ne
    have other := (tree.node m mem).file
    have apart := tree.apart x self m mem ne
    refine SameNode.of_data (away _ fun equal => ne (congrArg Prod.snd equal))
      (fun p _ => away _ fun equal => apart.node' p (congrArg Prod.snd equal))
      ((bits m).trans other.marked) (fun p here => (bits _).trans (other.refs p here).2.1)
      fun _ _ soft => soft
  have file' := file.congr (b := e.put (d, x) ((newNode flags).put 1 v)) bits refs fun _ _ soft => soft
  have vol := tree.vol.congr (b := e.put (d, x) ((newNode flags).put 1 v)) bits fun _ soft => soft
  rw [raw] at tree
  refine tree.patch vol self ⟨file', node.hard, fun _ => ⟨?_, fun p => (refs p).trans (newNode_ref created.node p)⟩,
    fun plain => absurd isDev plain, fun plain => absurd isDev plain,
    fun dir => absurd dir notDir'⟩ (fun dir => ?_) notDir' refs same
  · unfold fileSize BlockData.size
    rw [put, words 2 (by decide), created.node, newNode_word flags (by decide)]
    exact (((newNode flags).put 1 v).word 1).isLt
  unfold IsDir nodeMode at dir
  rw [created.node, newNode_mode] at dir
  exact notDir dir

/-- **`k_mknod`** -/
theorem wp_kMknod {env : FsEnv} {path : CString} {isChr : Bool} {major minor : Word}
    {files : KSet File maxFiles} (tree : TreeOk a d live ∅) (unmounted : env.mtab = [])
    (atRoot : env.fsRoot = ⟨d, rootIdx⟩) (here : env.cwd = ⟨d, rootIdx⟩)
    (free : a.pins.length + 3 < room) (tolerated : ok .wild)
    (dirs : DirPath a.data d path.chars rootIdx) (fits : Room a.data d path) (enough : 3 ≤ freeBlocks a d) :
    wp (FsShows drv base room) ok (kMknod drv env path isChr major minor)
      (fun _ v => Intact a v.1 d ∧ v.2 = files) (a, files) := by
  unfold kMknod
  refine wp_onBlk (wp_bind (wp_fsLookup tree unmounted atRoot here (by omega) (fun _ => tolerated)
    path.nonzero dirs fun r looked => ?_))
  obtain ⟨rv, parent, res⟩ := r
  cases rv with
  | ok => exact wp_pure ⟨tree.intact, rfl⟩
  | noDir => exact wp_pure ⟨tree.intact, rfl⟩
  | notADir => exact looked.elim
  | fileExists => exact looked.elim
  | noFile =>
    obtain ⟨n, mem, walked, rfl, rfl, dir, missing⟩ := looked
    refine wp_bind (wp_fsCreate tree unmounted free mem dir missing (fits.of_walk walked) enough fun x e created => ?_)
    have pins := created.pins
    have hard := (created.tree.node x (Set.mem_insert x live)).hard
    refine wp_bind (wp_bread_hard (by rw [pins]; omega) hard fun i => ?_)
    refine wp_bind (wp_data (e.mem_pin i _) (wp_bind (wp_setData (e.mem_pin i _) ?_)))
    refine wp_bind (wp_setModified (e.mem_pin i _) (wp_bind (wp_bfree (e.mem_pin i _) (wp_pure ?_))))
    have view := DiskView.pin_store_settle_unpin_hard e i (d, x)
    dsimp only
    rw [view _ hard, DiskView.pin_data, created.node]
    refine ⟨⟨pins, _, created.device ?_⟩, rfl⟩
    cases isChr <;> rfl

end RlCpu.Kernel
