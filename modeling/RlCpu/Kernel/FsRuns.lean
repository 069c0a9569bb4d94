/-
**Allocation soundness over runs of filesystem calls.**

`diskOf drv s` is the disk as the kernel sees it: what is in the cache, and what is on the device where
the cache has nothing. `Reachable data d n`: node `n` is the root or named by an entry of a reachable
directory. `AllocationSound data d`: every block that a reachable node refers to, and every reachable
node, has its bit set, and no block is referred to from two places.

`FsOp.exec` are the calls, and `FsOp.Safe` is what a call must meet in the state it is made in for the
disk to stay sound: above all, no file is opened with the mode exactly `O_WRONLY`.

* `fsRun_allocationSound`: every run of safe calls after `fs_mkfs`.
* `kOpen_wronly_unsound`: a file created with `O_WRONLY` loses the bit of its node.
-/

import RlCpu.Kernel.Mkfs

namespace RlCpu.Kernel

open RlCpu.Lib

variable {δ : Type} (drv : BlkDriver δ)

/-! ### The disk under the cache -/

/-- The disk as the kernel sees it. -/
def diskOf (s : BlkState δ) (key : BlockKey) : BlockData :=
  match s.findSlot (·.holds key) with
  | some i => (s.blockCache i).data
  | none => (drv.read key s.device).1

section Disk

variable {drv} {soft : Set BlockKey} {last : BlockKey → BlockData} {s : BlkState δ}

/-- The slot of a block has its data. -/
theorem diskOf_slot (inv : CacheInv drv soft last s) {i : BlockPtr}
    (used : (s.blockCache i).flags ≠ .free) : diskOf drv s (s.blockCache i).key = (s.blockCache i).data := by
  have holds : (s.blockCache i).holds (s.blockCache i).key = true := Block.holds_iff.mpr ⟨used, rfl⟩
  obtain ⟨j, found⟩ := BlkState.findSlot_isSome (p := fun b => b.holds (s.blockCache i).key) holds
  obtain ⟨used', same⟩ := Block.holds_iff.mp (BlkState.findSlot_some found)
  have here : j = i := inv.distinct j i used' used same
  unfold diskOf
  rw [found]
  exact congrArg (fun i => (s.blockCache i).data) here

/-- Where nothing is at risk, the disk is what was last stored. -/
theorem CacheInv.diskOf_eq (inv : CacheInv drv soft last s) {key : BlockKey} (hard : key ∉ soft) :
    diskOf drv s key = last key := by
  cases found : s.findSlot (·.holds key) with
  | some i =>
    obtain ⟨used, rfl⟩ := Block.holds_iff.mp (BlkState.findSlot_some found)
    rw [diskOf_slot inv used]
    exact inv.shown i used (Or.inr hard)
  | none =>
    unfold diskOf
    rw [found]
    exact inv.absent key hard fun i => BlkState.findSlot_none found i

/-- **The cache shows the disk.** -/
theorem CacheInv.disk (inv : CacheInv drv soft last s) : CacheInv drv soft (diskOf drv s) s where
  distinct := inv.distinct
  idle := inv.idle
  shown _ used _ := (diskOf_slot inv used).symm
  clean := inv.clean
  absent key hard missing := (inv.absent key hard missing).trans (inv.diskOf_eq hard).symm

end Disk

/-! ### What is in use -/

/-- Node `n` is reachable from the root directory. -/
inductive Reachable (data : BlockKey → BlockData) (d : Word) : Word → Prop
  | root : Reachable data d rootIdx
  | entry {n x : Word} {i : Nat} :
      Reachable data d n → IsDir data d n → Names data d n i x → Reachable data d x

/-- A place in which a block is referred to. -/
inductive Site
  | root
  /-- Entry `i` of directory `n`. -/
  | entry (n : Word) (i : Nat)
  /-- A slot or an index word of node `n`. -/
  | place (n : Word) (p : Place)
  deriving DecidableEq

namespace Site

/-- The block referred to. -/
def block (data : BlockKey → BlockData) (d : Word) : Site → Word
  | root => rootIdx
  | entry n i => entryIdx data d n i
  | place n p => ref data d n p

/-- The place is reachable, and refers to a block. -/
def InUse (data : BlockKey → BlockData) (d : Word) : Site → Prop
  | root => True
  | entry n i => Reachable data d n ∧ IsDir data d n ∧ ∃ x, Names data d n i x
  | place n p => Reachable data d n ∧ ¬ IsDev data d n ∧ ref data d n p ≠ 0

end Site

/-- **Allocation soundness of a disk.** -/
structure AllocationSound (data : BlockKey → BlockData) (d : Word) : Prop where
  marked : ∀ site : Site, site.InUse data d → isMarked data d (site.block data d) = true
  distinct : ∀ site other : Site, site.InUse data d → other.InUse data d →
    site.block data d = other.block data d → site = other

section Sound

variable {a : DiskView} {d : Word} {live : Set Word}

theorem TreeOk.reachable (tree : TreeOk a d live ∅) {n : Word} (reach : Reachable a.data d n) :
    n ∈ live := by
  induction reach with
  | root => exact tree.root
  | entry _ dir names mem => exact (((tree.node _ mem).dir dir fun raw => raw).named _ _ names).1

/-- The block of an entry is a node other than the root. -/
theorem TreeOk.entry (tree : TreeOk a d live ∅) {n : Word} {i : Nat}
    (used : (Site.entry n i).InUse a.data d) : n ∈ live ∧ IsDir a.data d n ∧
      Names a.data d n i (entryIdx a.data d n i) ∧ entryIdx a.data d n i ∈ live ∧
      entryIdx a.data d n i ≠ rootIdx := by
  obtain ⟨reach, dir, x, names⟩ := used
  have mem := tree.reachable reach
  have same := names.2.1
  subst same
  exact ⟨mem, dir, names, ((tree.node n mem).dir dir fun raw => raw).named i _ names⟩

/-- **A well-formed tree is sound.** -/
theorem TreeOk.sound (tree : TreeOk a d live ∅) : AllocationSound a.data d where
  marked site used := by
    cases site with
    | root => exact (tree.node _ tree.root).file.marked
    | entry n i => exact (tree.node _ (tree.entry used).2.2.2.1).file.marked
    | place n p => exact ((tree.node n (tree.reachable used.1)).file.refs p used.2.2).2.1
  distinct site other used used' same := by
    have node_ne : ∀ {n p}, (Site.place n p).InUse a.data d → ∀ m ∈ live, ref a.data d n p ≠ m := by
      intro n p used m mem
      have mem' := tree.reachable used.1
      by_cases here : m = n
      · exact here ▸ ((tree.node n mem').file.refs p used.2.2).2.2
      · exact (tree.apart n mem' m mem here).node p
    cases site with
    | root =>
      cases other with
      | root => rfl
      | entry m j => exact absurd same.symm (tree.entry used').2.2.2.2
      | place m q => exact absurd same.symm (node_ne used' _ tree.root)
    | entry n i =>
      obtain ⟨mem, dir, names, live', ne⟩ := tree.entry used
      cases other with
      | root => exact absurd same ne
      | entry m j =>
        obtain ⟨mem', dir', names', -, -⟩ := tree.entry used'
        have equal : entryIdx a.data d n i = entryIdx a.data d m j := same
        rw [← equal] at names'
        obtain ⟨rfl, rfl⟩ := tree.names n mem (fun raw => raw) dir m mem' (fun raw => raw) dir' i j _
          names names'
        rfl
      | place m q => exact absurd same.symm (node_ne used' _ live')
    | place n p =>
      cases other with
      | root => exact absurd same (node_ne used _ tree.root)
      | entry m j => exact absurd same (node_ne used _ (tree.entry used').2.2.2.1)
      | place m q =>
        have equal : ref a.data d n p = ref a.data d m q := same
        have mem := tree.reachable used.1
        have mem' := tree.reachable used'.1
        by_cases here : m = n
        · subst here
          rw [(tree.node m mem).file.inj p q equal used.2.2]
        · exact absurd equal ((tree.apart n mem m mem' here).blocks p q used.2.2)

end Sound

/-! ### Runs -/

/-- A call on the filesystem. -/
inductive FsOp
  | mkdir (path : CString)
  | mknod (path : CString) (isChr : Bool) (major minor : Word)
  | open (name : CString) (mode : Word)
  | write (fd : FilePtr) (buf : Nat → Word) (size : Word)
  | read (fd : FilePtr) (size : Word)
  | close (fd : FilePtr)
  | unlink (name : CString)

namespace FsOp

/-- The call. -/
def exec (env : FsEnv) : FsOp → FsM δ Unit
  | mkdir path => discard (kMkdir drv env path)
  | mknod path isChr major minor => discard (kMknod drv env path isChr major minor)
  | .open name mode => discard (kOpen drv env name mode)
  | write fd buf size => discard (kWrite drv env fd buf size.toNat)
  | read fd size => discard (kRead drv env fd size.toNat)
  | close fd => kClose fd
  | unlink name => discard (kUnlink drv env name)

/-- What keeps the disk sound. Paths are walked through directories, there are free blocks, and no file
or directory would grow past the largest size. No file is opened with the mode exactly `O_WRONLY`, and
what is read and written through an open file is still what was opened: a reachable file, for a write
one that is no directory and no block device, with the position not past its end. -/
def Safe (data : BlockKey → BlockData) (files : KSet File maxFiles) (d : Word) : FsOp → Prop
  | mkdir path => DirPath data d path.trimmed.chars rootIdx ∧ Room data d path.trimmed ∧
      4 ≤ freeBlocks (viewOf data) d
  | mknod path _ _ _ => DirPath data d path.chars rootIdx ∧ Room data d path ∧
      3 ≤ freeBlocks (viewOf data) d
  | .open name mode => DirPath data d name.chars rootIdx ∧ Room data d name ∧
      3 ≤ freeBlocks (viewOf data) d ∧ OpenKeeps data d name mode
  | write fd _ size => sIsblk (files.el fd).flags = false ∧ (sIschr (files.el fd).flags = false →
      ∃ x, Reachable data d x ∧ Writable (viewOf data) d (files.el fd) size.toNat x)
  | read fd _ => sIsblk (files.el fd).flags = false → sIschr (files.el fd).flags = false →
      ∃ x, Reachable data d x ∧ (files.el fd).node = ⟨d, x⟩ ∧ ¬ IsDev data d x ∧
        (files.el fd).pos ≤ fileSize data d x
  | close _ => True
  | unlink name => DirPath data d name.chars rootIdx ∧
      ((walk data d name.chars rootIdx).1 = .ok → ¬ IsDir data d (walk data d name.chars rootIdx).2) ∧
      2 ≤ freeBlocks (viewOf data) d

end FsOp

/-- A safe call that returns. -/
def SafeStep (env : FsEnv) (d : Word) (s : FsState δ) (op : FsOp) (t : FsState δ) : Prop :=
  op.Safe (diskOf drv s.blk) s.openFiles d ∧ op.exec drv env s = .ok ((), t)

/-- The environment of the calls: the filesystem is the root, nothing is mounted on it, and the caller's
working directory is the root. -/
structure AtRoot (env : FsEnv) (d : Word) : Prop where
  unmounted : env.mtab = []
  fsRoot : env.fsRoot = ⟨d, rootIdx⟩
  cwd : env.cwd = ⟨d, rootIdx⟩

/-- **The invariant of the runs**: the cache shows a well-formed tree, and slot `i` is held `base i`
times. -/
def FsInv (d : Word) (base : BlockPtr → Nat) (s : FsState δ) : Prop :=
  ∃ soft live, Shows drv base 4 s.blk ⟨diskOf drv s.blk, [], soft⟩ ∧
    TreeOk ⟨diskOf drv s.blk, [], soft⟩ d live ∅

section Runs

variable {drv} {d : Word} {base : BlockPtr → Nat} {s t : FsState δ} {env : FsEnv}

/-- A cache that shows a tree, with nothing held, is in the invariant. -/
theorem FsInv.of_tree {b : DiskView} {live : Set Word} (shows : Shows drv base 4 s.blk b)
    (pins : b.pins = []) (tree : TreeOk b d live ∅) : FsInv drv d base s := by
  have cache := shows.cache.disk
  refine ⟨b.soft, live, ⟨cache, fun i => ?_, fun p mem => absurd mem List.not_mem_nil,
    Nat.zero_le 4, shows.spare, shows.small⟩,
    tree.agree rfl fun key hard => shows.cache.diskOf_eq hard⟩
  rw [shows.count i, pins]

/-- A call keeps the invariant if it leaves every tree intact, and it does not hang. -/
theorem FsInv.call {α : Type} {p : FsM δ α} (inv : FsInv drv d base s)
    (keeps : ∀ (a : DiskView) (live : Set Word), a.data = diskOf drv s.blk → a.pins = [] →
      TreeOk a d live ∅ → wp (FsShows drv base 4) (fun e => e ≠ .hang) p
        (fun _ v => Intact a v.1 d) (a, s.openFiles)) :
    match p s with
    | .ok (_, t) => FsInv drv d base t
    | .error e => e ≠ .hang := by
  obtain ⟨soft, live, shows, tree⟩ := inv
  have step := keeps _ live rfl rfl tree s ⟨shows, rfl⟩
  cases result : p s with
  | error e =>
    rw [result] at step
    exact step
  | ok v =>
    rw [result] at step
    obtain ⟨b, ⟨shows', -⟩, intact⟩ := step
    obtain ⟨live', tree'⟩ := intact.tree
    exact FsInv.of_tree shows' intact.pins tree'

/-- The result of a call does not matter. -/
theorem wp_discard {α : Type} {p : FsM δ α} {ok : Fault → Prop} {room : Nat}
    {post : DiskView × KSet File maxFiles → Prop}
    {v : DiskView × KSet File maxFiles} (first : wp (FsShows drv base room) ok p (fun _ w => post w) v) :
    wp (FsShows drv base room) ok (discard p) (fun _ w => post w) v := wp_map first

/-- **A safe call keeps every tree intact**, one case for each call. -/
theorem wp_exec {a : DiskView} {live : Set Word} {files : KSet File maxFiles} {op : FsOp}
    (atRoot : AtRoot env d) (tree : TreeOk a d live ∅) (pins : a.pins = [])
    (safe : op.Safe a.data files d) :
    wp (FsShows drv base 4) (fun e => e ≠ .hang) (op.exec drv env) (fun _ v => Intact a v.1 d)
      (a, files) := by
  have free : a.pins.length + 3 < 4 := by
    rw [pins]
    decide
  have wild : Fault.wild ≠ .hang := by decide
  have panic : Fault.panic ≠ .hang := by decide
  cases op with
  | mkdir path =>
    obtain ⟨dirs, fits, enough⟩ := safe
    exact wp_discard (wp_mono (wp_kMkdir tree atRoot.unmounted atRoot.fsRoot atRoot.cwd free (fun _ => wild) dirs
      fits enough) fun _ _ both => both.1)
  | mknod path isChr major minor =>
    obtain ⟨dirs, fits, enough⟩ := safe
    exact wp_discard (wp_mono (wp_kMknod tree atRoot.unmounted atRoot.fsRoot atRoot.cwd free wild dirs
      fits enough) fun _ _ both => both.1)
  | «open» name mode =>
    obtain ⟨dirs, fits, enough, keeps⟩ := safe
    exact wp_discard (wp_kOpen tree atRoot.unmounted atRoot.fsRoot atRoot.cwd free wild panic dirs fits
      enough keeps)
  | write fd buf size =>
    obtain ⟨notBlk, writable⟩ := safe
    refine wp_discard (wp_kWrite tree free wild notBlk fun notChr => ?_)
    obtain ⟨x, reach, writable⟩ := writable notChr
    exact ⟨x, tree.reachable reach, writable.node, writable.notDir, writable.plain, writable.inside,
      writable.fits, writable.enough⟩
  | read fd size =>
    refine wp_discard (wp_kRead tree free wild size.isLt fun notBlk notChr => ?_)
    obtain ⟨x, reach, readable⟩ := safe notBlk notChr
    exact ⟨x, tree.reachable reach, readable⟩
  | close fd => exact wp_kClose tree
  | unlink name =>
    obtain ⟨dirs, plain, enough⟩ := safe
    exact wp_discard (wp_mono (wp_kUnlink tree atRoot.unmounted atRoot.fsRoot atRoot.cwd free wild dirs
      plain enough) fun _ _ both => both.1)

/-- One safe call keeps the invariant. -/
theorem FsInv.step {op : FsOp} (atRoot : AtRoot env d) (inv : FsInv drv d base s)
    (step : SafeStep drv env d s op t) : FsInv drv d base t := by
  obtain ⟨safe, returns⟩ := step
  have kept := inv.call (p := op.exec drv env) fun a live same pins tree =>
    wp_exec atRoot tree pins (same ▸ safe)
  rwa [returns] at kept

/-- `fs_mkfs` establishes the invariant. -/
theorem FsInv.of_mkfs {data : BlockKey → BlockData} (coherent : Coherent drv s.blk data)
    (made : onBlk (fsMkfs drv env d) s = .ok ((), t)) :
    FsInv drv d (fun i => (s.blk.blockCache i).cnt.toNat) t := by
  obtain ⟨r, u, b, returns, shows, pins, tree⟩ := coherent.returns (fsMkfs drv env d)
    (fun _ b => b.pins = [] ∧ TreeOk b d {rootIdx} ∅)
    fun base => wp_fsMkfs (show 0 + 3 < 4 by decide) fun b made => ⟨made.pins, made.tree⟩
  unfold onBlk at made
  rw [returns] at made
  obtain ⟨-, rfl⟩ := Prod.mk.inj (Except.ok.inj made)
  exact FsInv.of_tree shows pins tree

/-- A block with a clear bit is not in use, so `fs_allocBlock` hands out none that is. -/
theorem FsInv.alloc {c : Word} {u : BlkState δ} (inv : FsInv drv d base s)
    (some : ∃ b, isMarked (diskOf drv s.blk) d b = false)
    (returns : fsAllocBlock drv d s.blk = .ok (c, u)) {site : Site}
    (used : site.InUse (diskOf drv s.blk) d) : site.block (diskOf drv s.blk) d ≠ c := by
  obtain ⟨soft, live, shows, tree⟩ := inv
  have clear : wp (Shows drv base 4) (fun _ => False) (fsAllocBlock drv d)
      (fun c _ => isMarked (diskOf drv s.blk) d c = false) ⟨diskOf drv s.blk, [], soft⟩ :=
    wp_fsAllocBlock (show 0 < 4 by decide) tree.vol.bitmap some fun b clear => clear
  obtain ⟨c', u', -, returns', -, clear⟩ := clear.returns shows
  rw [returns] at returns'
  obtain ⟨rfl, -⟩ := Prod.mk.inj (Except.ok.inj returns')
  rintro rfl
  have set := tree.sound.marked site used
  rw [clear] at set
  cases set

/-- **Allocation soundness over runs.** -/
theorem fsRun_allocationSound {s₀ : FsState δ} {data : BlockKey → BlockData} {ops : List FsOp}
    (coherent : Coherent drv s₀.blk data) (atRoot : AtRoot env d)
    (made : onBlk (fsMkfs drv env d) s₀ = .ok ((), s)) (run : Run (SafeStep drv env d) s ops t) :
    AllocationSound (diskOf drv t.blk) d ∧
      ∀ c u, (∃ b, isMarked (diskOf drv t.blk) d b = false) →
        fsAllocBlock drv d t.blk = .ok (c, u) →
        ∀ site : Site, site.InUse (diskOf drv t.blk) d → site.block (diskOf drv t.blk) d ≠ c := by
  have inv := run.preserves (fun _ _ _ inv step => FsInv.step atRoot inv step)
    (FsInv.of_mkfs coherent made)
  refine ⟨?_, fun c u some returns site used => inv.alloc some returns used⟩
  obtain ⟨soft, live, -, tree⟩ := inv
  exact tree.sound

end Runs

/-! ### A new file opened with `O_WRONLY` -/

section Wronly

variable {drv} {d n x : Word} {base : BlockPtr → Nat} {room : Nat} {env : FsEnv} {a e : DiskView}
  {live : Set Word} {files : KSet File maxFiles}

/-- The disk after `fs_reset` of a node that was just created. -/
structure Orphaned (b : DiskView) (d n x : Word) (i : Nat) : Prop where
  dir : IsDir b.data d n
  names : Names b.data d n i x
  clear : isMarked b.data d x = false

theorem Created.orphaned (created : Created a e d live n x sIfreg) (mem : n ∈ live) :
    Orphaned (e.clear d (resetList e.data d x)) d n x (entryCount a.data d n) := by
  have self := Set.mem_insert_of_mem x mem
  have node := created.tree.node n self
  have notNew : n ≠ x := fun same => created.fresh (same ▸ mem)
  have gone : x ∈ resetList e.data d x := List.mem_append_right _ (List.mem_singleton_self x)
  have high := node.file.high
  have data : ∀ c : Word, 34 ≤ c.toNat →
      (e.clear d (resetList e.data d x)).data (d, c) = e.data (d, c) :=
    fun c high => DiskView.clear_data _ _ (key_ne_bit high)
  have words : ∀ p, p < fileSize e.data d n →
      wordAt (e.clear d (resetList e.data d x)).data d n p = wordAt e.data d n p := by
    intro p low
    have here := (node.dirMapped created.dir p (Nat.zero_le p) (by omega)).2.1
    have block : blockAt (e.clear d (resetList e.data d x)).data d n (p / 256) =
        blockAt e.data d n (p / 256) := node.file.ref_clear _ (.data _)
    have high' := (node.file.refs (.data (p / 256)) here).1
    unfold wordAt
    rw [block]
    exact congrArg (·.word (p % 256)) (data (blockAt e.data d n (p / 256)) (Nat.le_of_succ_le high'))
  obtain ⟨low, idx, nonzero, notDots⟩ := created.named
  have size : fileSize (e.clear d (resetList e.data d x)).data d n = fileSize e.data d n := by
    unfold fileSize
    rw [data n high]
  have inside : ∀ j < 32, entryCount a.data d n * 32 + j < fileSize e.data d n := fun j small => by
    unfold entryCount at low ⊢
    omega
  refine ⟨?_, ⟨?_, ?_, nonzero, ?_⟩, ?_⟩
  · have dir := created.dir
    unfold IsDir nodeMode at dir ⊢
    rwa [data n high]
  · unfold entryCount at low ⊢
    rwa [size]
  · exact (words _ (inside 31 (by decide))).trans idx
  · have same : entryWords (e.clear d (resetList e.data d x)).data d n (entryCount a.data d n) =
        entryWords e.data d n (entryCount a.data d n) :=
      List.map_congr_left fun j mem => words _ (inside j (List.mem_range.mp mem))
    rwa [same]
  · have set := DiskView.isMarked_clear e d x (resetList e.data d x)
    exact (Bool.not_eq_true _).mp fun marked => (set.mp marked).2 gone

/-- **`k_open` of a name that is not there, with the mode `O_WRONLY`**: it returns a file whose node is
free, and the directory names that node. -/
theorem wp_kOpen_wronly {name : CString} (tree : TreeOk a d live ∅) (atRoot : AtRoot env d)
    (free : a.pins.length + 3 < room) (short : name.chars.length ≤ 31)
    (dirs : DirPath a.data d name.chars rootIdx) (fits : Room a.data d name)
    (enough : 3 ≤ freeBlocks a d) (missing : walk a.data d name.chars rootIdx = (.noFile, n))
    (slots : ∀ f, ∃ v, files.insert f = .ok v) :
    wp (FsShows drv base room) (fun _ => False) (kOpen drv env name oWronly)
      (fun _ v => v.1.soft ⊆ a.soft ∧ ∃ x i, Orphaned v.1 d n x i) (a, files) := by
  unfold kOpen
  refine wp_bind (wp_onBlk (wp_fsLookup tree atRoot.unmounted atRoot.fsRoot atRoot.cwd (by omega)
    (fun long => absurd short (by omega)) name.nonzero dirs fun r looked => ?_))
  obtain ⟨rv, parent, res⟩ := r
  cases rv with
  | noDir =>
    have here : (walk a.data d name.chars rootIdx).1 = .noDir := looked
    rw [missing] at here
    cases here
  | notADir => exact looked.elim
  | fileExists => exact looked.elim
  | ok =>
    have here := looked.1
    rw [missing] at here
    cases here
  | noFile =>
    obtain ⟨m, mem, walked, rfl, rfl, dir, absent⟩ := looked
    obtain ⟨-, rfl⟩ := Prod.mk.inj (missing.symm.trans walked)
    dsimp only
    refine wp_pos (by decide) (wp_bind (wp_onBlk (wp_fsCreate tree atRoot.unmounted free mem dir absent
      (fits.of_walk walked) enough fun x e created => ?_)))
    have node := created.tree.node x (Set.mem_insert x live)
    have pins := created.pins
    have mode : nodeMode e.data d x = sIfreg := by
      unfold nodeMode
      rw [created.node, newNode_mode]
    have plain : (sIschr (nodeMode e.data d x) || sIsblk (nodeMode e.data d x)) = false := by
      rw [mode]
      decide
    have notDev : ¬ IsDev e.data d x := by
      unfold IsDev
      rw [plain]
      exact Bool.false_ne_true
    dsimp only
    unfold fsOpen
    refine wp_map (wp_bind (wp_onBlk (wp_fsStat (by rw [pins]; omega) node.hard ?_)))
    dsimp only
    rw [statOf_mode]
    refine wp_bind (wp_pos ⟨rfl, plain⟩ (wp_onBlk (wp_fsReset_mapped (by rw [pins]; omega)
      created.tree.vol node.file node.hard (node.mapped notDev) ?_)))
    refine wp_bind (wp_insertFile (fun ⟨e, full⟩ => ?_) fun fp files' _ => ?_)
    · obtain ⟨v, room⟩ := slots _
      rw [room] at full
      cases full
    · rw [plain]
      refine wp_neg (fun clash => by cases clash.1) (wp_pure ⟨?_, x, _, created.orphaned mem⟩)
      show (e.clear d (resetList e.data d x)).soft ⊆ a.soft
      rw [DiskView.clear_soft]
      exact created.soft

/-- The first word of a string decides. -/
theorem strcmpEq_ne {c c' : Word} {words rest rest' : List Word} (ne : c ≠ c')
    (same : strcmpEq words (c :: rest) = true) : strcmpEq words (c' :: rest') = false := by
  cases words with
  | nil => rfl
  | cons w words =>
    have first : w = c := by
      by_contra other
      unfold strcmpEq at same
      rw [if_pos other] at same
      cases same
    unfold strcmpEq
    rw [if_pos (first ▸ ne)]

/-- A directory with no entries but dots has no other name. -/
theorem findEntry_onlyDots {data : BlockKey → BlockData} {c : Word} {rest : List Word}
    (dots : ∀ i < entryCount data d n, IsDots (entryWords data d n i)) (ne : dot ≠ c) :
    findEntry data d n (c :: rest) = none := by
  refine List.find?_eq_none.mpr fun i mem => ?_
  rw [Bool.not_eq_true]
  rcases dots i (List.mem_range.mp mem) with same | same
  · exact strcmpEq_ne ne same
  · exact strcmpEq_ne ne same

end Wronly

/-- A kernel with no mounts and no devices, whose root filesystem is on device 0. -/
def ramEnv : FsEnv where
  fsRoot := ⟨0, rootIdx⟩
  cwd := ⟨0, rootIdx⟩
  mtab := []
  devs := ⟨fun _ => false, fun _ _ _ => 0, fun _ _ _ => []⟩
  literals := fun _ => 0
  stack := fun _ _ => 0

theorem ramEnv_atRoot : AtRoot ramEnv 0 := ⟨rfl, rfl, rfl⟩

/-- An empty RAM disk, with no file open. -/
def ramBoot : FsState (BlockKey → BlockData) where
  blk := (Client.boot ramDriver fun _ _ => 0).cache
  openFiles := ⟨fun _ => false, fun _ => ⟨0, ⟨0, 0⟩, 0, 0, 0, 0, 0⟩, 0⟩

theorem ramBoot_coherent : Coherent ramDriver ramBoot.blk fun _ _ => 0 :=
  ⟨(Client.boot_inv _).cache, by decide, by decide⟩

/-- The name `"f"`. -/
def nameF : CString := ⟨[102], by simp, fun _ => 0⟩

/-- The only component of `"f"`. -/
theorem nameF_part : (nameF.chars.dropWhile (· = slash)) ≠ [] ∧
    (nameF.chars.dropWhile (· = slash)).takeWhile (· ≠ slash) ++ [0] = [102, 0] ∧
    (nameF.chars.dropWhile (· = slash)).dropWhile (· ≠ slash) = [] := by decide

/-- Looking `"f"` up in a fresh filesystem. -/
theorem EmptyFs.nameF_missing {a b : DiskView} {d : Word} (made : EmptyFs a b d) :
    walk b.data d nameF.chars rootIdx = (.noFile, rootIdx) ∧ DirPath b.data d nameF.chars rootIdx := by
  obtain ⟨some, part, last⟩ := nameF_part
  have absent : findEntry b.data d rootIdx [102, 0] = none :=
    findEntry_onlyDots made.dots (by decide)
  constructor
  · rw [walk, if_neg some, part, absent, if_pos last]
  · rw [DirPath, if_neg some, part, absent]
    exact ⟨made.tree.rootDir, trivial⟩

theorem EmptyFs.nameF_room {a b : DiskView} {d : Word} (made : EmptyFs a b d) :
    Room b.data d nameF := fun _ => by
  rw [made.nameF_missing.1, made.size]
  decide

/-- The RAM disk after `fs_mkfs`. -/
theorem ramBoot_made : ∃ s b, onBlk (fsMkfs ramDriver ramEnv 0) ramBoot = .ok ((), s) ∧
    FsShows ramDriver (fun i => (ramBoot.blk.blockCache i).cnt.toNat) 4 s (b, ramBoot.openFiles) ∧
    EmptyFs (viewOf fun _ _ => 0) b 0 := by
  obtain ⟨r, u, b, returns, shows, made⟩ := ramBoot_coherent.returns (fsMkfs ramDriver ramEnv 0)
    (fun _ b => EmptyFs (viewOf fun _ _ => 0) b 0)
    fun base => wp_fsMkfs (show 0 + 3 < 4 by decide) fun b made => made
  refine ⟨⟨u, ramBoot.openFiles⟩, b, ?_, ⟨shows, rfl⟩, made⟩
  unfold onBlk
  rw [returns]

/-- **One call makes a fresh filesystem unsound**: `k_open` with the mode `O_WRONLY`. -/
theorem kOpen_wronly_unsound : ∃ s t : FsState (BlockKey → BlockData),
    onBlk (fsMkfs ramDriver ramEnv 0) ramBoot = .ok ((), s) ∧
      Run (fun s op t => FsOp.exec ramDriver ramEnv op s = .ok ((), t)) s [.open nameF oWronly] t ∧
      ¬ AllocationSound (diskOf ramDriver t.blk) 0 := by
  obtain ⟨s, b, made, shows, empty⟩ := ramBoot_made
  obtain ⟨walked, dirs⟩ := empty.nameF_missing
  have slots : ∀ f, ∃ v, ramBoot.openFiles.insert f = .ok v :=
    KSet.insert_returns (i := 0) (by decide) rfl
  obtain ⟨fp, t, v, opened, ⟨shows', -⟩, soft, x, i, orphaned⟩ :=
    (wp_kOpen_wronly empty.tree ramEnv_atRoot (by rw [empty.pins]; decide) (by decide) dirs
      empty.nameF_room (by have enough := empty.enough; omega) walked slots).returns shows
  have shown : diskOf ramDriver t.blk = v.1.data := funext fun key =>
    shows'.cache.diskOf_eq fun mem => empty.soft (soft mem)
  refine ⟨s, t, made, .single ?_, fun sound => ?_⟩
  · show discard (kOpen ramDriver ramEnv nameF oWronly) _ = _
    show (kOpen ramDriver ramEnv nameF oWronly _).map _ = _
    rw [opened]
    rfl
  · rw [shown] at sound
    have idx := orphaned.names.2.1
    have set : isMarked v.1.data 0 (entryIdx v.1.data 0 rootIdx i) = true :=
      sound.marked (.entry rootIdx i) ⟨.root, orphaned.dir, x, orphaned.names⟩
    rw [idx, orphaned.clear] at set
    cases set

/-- A directory made in a fresh filesystem. -/
theorem fsRun_allocationSound_mkdir : ∃ s t : FsState (BlockKey → BlockData),
    onBlk (fsMkfs ramDriver ramEnv 0) ramBoot = .ok ((), s) ∧
      Run (SafeStep ramDriver ramEnv 0) s [.mkdir nameF] t ∧
      AllocationSound (diskOf ramDriver t.blk) 0 := by
  obtain ⟨s, b, made, shows, empty⟩ := ramBoot_made
  have shown : diskOf ramDriver s.blk = b.data := funext fun key =>
    shows.1.cache.diskOf_eq fun mem => empty.soft mem
  have whole : nameF.trimmed = nameF := by
    unfold CString.trimmed
    rw [if_neg (by decide)]
  have dirs : DirPath b.data 0 nameF.trimmed.chars rootIdx := whole ▸ empty.nameF_missing.2
  have fits : Room b.data 0 nameF.trimmed := whole ▸ empty.nameF_room
  obtain ⟨rv, t, -, returns, -⟩ :=
    (wp_kMkdir empty.tree ramEnv_atRoot.unmounted ramEnv_atRoot.fsRoot ramEnv_atRoot.cwd
      (by rw [empty.pins]; decide) (by rw [whole]; decide) dirs fits empty.enough).returns shows
  have run : Run (SafeStep ramDriver ramEnv 0) s [.mkdir nameF] t := by
    refine .single ⟨?_, ?_⟩
    · rw [shown]
      exact ⟨dirs, fits, empty.enough⟩
    · show (kMkdir ramDriver ramEnv nameF _).map _ = _
      rw [returns]
      rfl
  exact ⟨s, t, made, run, (fsRun_allocationSound ramBoot_coherent ramEnv_atRoot made run).1⟩

end RlCpu.Kernel
