/-
**A filesystem without free blocks.**

`fs_findFreeSector` returns 0 when it finds no clear bit, and a number cut to 16 bits when it finds one
past the blocks a `blk_t` can name. `fs_allocBlock` passes either on, and no caller looks at it.

* `wp_fsAllocBlock_full`: with every bit set, the block handed out is one in use.
* `outOfSpace_unreported`: no call that needs a block reports a failure.
-/

import RlCpu.Kernel.FsRuns

namespace RlCpu.Kernel

open RlCpu.Lib

variable {δ : Type} (drv : BlkDriver δ)

/-! ### The allocator -/

/-- Every block number is marked as used. -/
def Full (data : BlockKey → BlockData) (d : Word) : Prop := ∀ b, isMarked data d b = true

section Rules

variable {drv} {base : BlockPtr → Nat} {room : Nat} {ok : Fault → Prop} {a : DiskView} {d : Word}

/-- Setting a bit that is set. -/
theorem DiskView.mark_marked {b : Word} (set : isMarked a.data d b = true) : a.mark d b true = a := by
  have bit : setBit ((a.data (d, bitBlock b)).word (bitWord b)) (bitPos b) true =
      (a.data (d, bitBlock b)).word (bitWord b) := by
    refine BitVec.eq_of_getLsbD_eq fun i _ => ?_
    rw [getLsbD_setBit _ _ (bitPos_lt b)]
    split
    case isTrue here =>
      rw [here]
      exact set.symm
    case isFalse => rfl
  have word : (a.data (d, bitBlock b)).put (bitWord b)
      (setBit ((a.data (d, bitBlock b)).word (bitWord b)) (bitPos b) true) =
      a.data (d, bitBlock b) := by
    refine BlockData.ext_word fun i _ => ?_
    rw [BlockData.word_put _ _ _ _ (bitWord_lt b), bit]
    split
    case isTrue here => rw [here]
    case isFalse => rfl
  unfold DiskView.mark
  rw [word, DiskView.put, Function.update_eq_self]

/-- The search reads the bitmap only, whatever it finds. -/
theorem wp_findFreeSectorLoop_any {post : Word → DiskView → Prop} (free : a.pins.length < room)
    (rest : ∀ r, post r a) : ∀ cs : List Nat,
    (∀ c ∈ cs, (d, BitVec.ofNat 16 (c + 1)) ∉ a.soft) →
    wp (Shows drv base room) ok (findFreeSectorLoop drv d cs) post a := by
  intro cs
  induction cs with
  | nil => exact fun _ => wp_pure (rest 0)
  | cons c cs ih =>
    intro hard
    unfold findFreeSectorLoop
    refine wp_bind (wp_bread_hard free (hard c List.mem_cons_self) fun i => ?_)
    refine wp_bind (wp_data List.mem_cons_self ?_)
    split
    · exact wp_bind (wp_bfree_pin (wp_pure (rest _)))
    · exact wp_bind (wp_bfree_pin (ih fun e mem => hard e (List.mem_cons_of_mem c mem)))

/-- **`fs_allocBlock` with every bit set**: a block in use is handed out, and nothing is marked. -/
theorem wp_fsAllocBlock_full {post : Word → DiskView → Prop} (free : a.pins.length < room)
    (full : Full a.data d) (hard : ∀ c < 32, (d, BitVec.ofNat 16 (c + 1)) ∉ a.soft)
    (rest : ∀ r, isMarked a.data d r = true → post r a) :
    wp (Shows drv base room) ok (fsAllocBlock drv d) post a := by
  have bitmap : BitmapHard a d := fun b => by
    have here := hard (b.toNat / 4096) (by have := b.isLt; omega)
    have key : BitVec.ofNat 16 (b.toNat / 4096 + 1) = bitBlock b := by
      refine BitVec.eq_of_toNat_eq ?_
      rw [bitBlock_toNat, BitVec.toNat_ofNat]
      have := b.isLt
      omega
    rwa [key] at here
  unfold fsAllocBlock fsFindFreeSector
  refine wp_bind (wp_findFreeSectorLoop_any free (fun r => ?_) _ fun c mem => hard c (List.mem_range.mp mem))
  refine wp_bind (wp_fsMarkSector free bitmap (wp_pure ?_))
  rw [DiskView.mark_marked (full r)]
  exact rest r (full r)

end Rules

/-! ### The calls -/

/-- A call that can need a block. -/
inductive SpaceOp
  | «open» (name : CString) (mode : Word)
  | mkdir (path : CString)
  | mknod (path : CString) (isChr : Bool) (major minor : Word)
  | write (fd : FilePtr) (buf : Nat → Word) (size : Word)
  | fsWrite (node : FsNode) (offset : Nat) (buf : Nat → Word) (size : Word)

namespace SpaceOp

/-- The call, and whether it reports a failure: `NULL`, a code other than `FS_OK`, or a count that is
short of the size. -/
def exec (env : FsEnv) : SpaceOp → FsM δ Bool
  | .open name mode => Option.isNone <$> kOpen drv env name mode
  | mkdir path => (fun rv => decide (rv ≠ .ok)) <$> kMkdir drv env path
  | mknod path isChr major minor =>
      (fun rv => decide (rv ≠ .ok)) <$> kMknod drv env path isChr major minor
  | write fd buf size => (fun n => decide (n < size.toNat)) <$> kWrite drv env fd buf size.toNat
  | fsWrite node offset buf size =>
      (fun n => decide (n < size.toNat)) <$> onBlk (Kernel.fsWrite drv node offset size.toNat buf)

/-- A path that leads to a directory without its last component. -/
def IsNew (env : FsEnv) (s : FsState δ) (path : CString) : Prop :=
  ∃ parent file t, fsLookup drv env path.chars s.blk = .ok ((.noFile, parent, file), t)

/-- Words `offset` to `offset + size` of file `n` extend it, and one of them has no block yet. -/
structure Grows (data : BlockKey → BlockData) (d n : Word) (offset size : Nat) : Prop where
  reach : Reachable data d n
  plain : ¬ IsDev data d n
  inside : offset ≤ fileSize data d n
  hole : ∃ p, offset ≤ p ∧ p < offset + size ∧ blockAt data d n (p / 256) = 0

/-- The call needs a block. -/
def Needs (env : FsEnv) (d : Word) (s : FsState δ) : SpaceOp → Prop
  | .open name mode => mode &&& oCreat ≠ 0 ∧ IsNew drv env s name
  | mkdir path => path.chars ≠ [] ∧ IsNew drv env s path.trimmed
  | mknod path _ _ _ => IsNew drv env s path
  | write fd _ size => sIsblk (s.openFiles.el fd).flags = false ∧
      sIschr (s.openFiles.el fd).flags = false ∧ (s.openFiles.el fd).node.dev = d ∧
      Grows (diskOf drv s.blk) d (s.openFiles.el fd).node.idx (s.openFiles.el fd).pos size.toNat
  | fsWrite node offset _ size => node.dev = d ∧
      Grows (diskOf drv s.blk) d node.idx offset size.toNat

/-- The file a call may change. -/
def target (s : FsState δ) : SpaceOp → Option Word
  | write fd _ _ => some (s.openFiles.el fd).node.idx
  | fsWrite node _ _ _ => some node.idx
  | _ => none

end SpaceOp

/-- The superblock, the bitmap, every directory and every file but `target` are as they were. -/
structure Untouched (data after : BlockKey → BlockData) (d : Word) (target : Option Word) : Prop where
  superblock : after (d, 0) = data (d, 0)
  bitmap : ∀ b, isMarked after d b = isMarked data d b
  nodes : ∀ n, Reachable data d n → IsDir data d n ∨ some n ≠ target →
    ∀ p, contents after d n p = contents data d n p

/-- What is asked of a call that needs a block where none is free. -/
def FailsCleanly (env : FsEnv) (d : Word) (s : FsState δ) (op : SpaceOp) : Prop :=
  ∃ t, op.exec drv env s = .ok (true, t) ∧
    Untouched (diskOf drv s.blk) (diskOf drv t.blk) d (op.target s)

/-- A well-formed filesystem without free blocks, and a call that needs one. -/
structure OutOfSpace (env : FsEnv) (d : Word) (base : BlockPtr → Nat) (s : FsState δ) (op : SpaceOp) :
    Prop where
  inv : FsInv drv d base s
  full : Full (diskOf drv s.blk) d
  needs : op.Needs drv env d s

section Calls

variable {drv} {env : FsEnv} {d n : Word} {base : BlockPtr → Nat} {s : FsState δ}

/-- The loop of `fs_write` goes through all words. -/
theorem fsWriteLoop_yields {i : BlockPtr} (size : Nat) : ∀ (cBlock : Word) (offset : Nat)
    (buf : Nat → Word), Yields (fsWriteLoop drv d i cBlock offset size buf) (· = offset + size) := by
  induction size using Nat.strong_induction_on with
  | _ size ih =>
  intro cBlock offset buf
  rw [fsWriteLoop]
  split
  case isTrue none => exact .of_pure (by omega)
  case isFalse some =>
    have small := Nat.mod_lt offset (show 0 < 256 by decide)
    refine .of_bind fun _ => .of_bind fun _ => .of_bind fun _ => .of_bind fun cBlock' =>
      .of_bind fun _ => .of_bind fun _ => ?_
    intro u x t returns
    have reached := ih _ (by omega) _ _ _ u x t returns
    omega

/-- **`fs_write` never falls short** where the offset is in the file. -/
theorem fsWrite_count {soft : Set BlockKey} {data : BlockKey → BlockData} {u t : BlkState δ}
    {offset size r : Nat} {buf : Nat → Word} (shows : Shows drv base 4 u ⟨data, [], soft⟩)
    (hard : (d, n) ∉ soft) (inside : offset ≤ fileSize data d n)
    (returns : fsWrite drv ⟨d, n⟩ offset size buf u = .ok (r, t)) : r = size := by
  have free : (⟨data, [], soft⟩ : DiskView).pins.length < 4 := show 0 < 4 by decide
  have first : wp (Shows drv base 4) (fun _ => False)
      (do let i ← BlkM.bread drv d n; let b ← BlkM.data i; pure (i, b))
      (fun v _ => v.2 = data (d, n)) ⟨data, [], soft⟩ :=
    wp_bind (wp_bread_hard free hard fun i => wp_bind (wp_data (DiskView.mem_pin _ i _) (wp_pure rfl)))
  obtain ⟨⟨i, b⟩, v, -, ran, -, rfl⟩ := first.returns shows
  have whole : ∀ k : BlockPtr × BlockData → BlkM δ Nat,
      (do let i ← BlkM.bread drv d n; let b ← BlkM.data i; k (i, b)) u = k (i, data (d, n)) v := by
    intro k
    have assoc : (do let i ← BlkM.bread drv d n; let b ← BlkM.data i; k (i, b)) =
        ((do let i ← BlkM.bread drv d n; let b ← BlkM.data i; pure (i, b)) >>= k) := by
      simp only [bind_assoc, pure_bind]
    rw [assoc]
    exact bind_run ran
  have rest := whole fun v => do
    if v.2.size < offset then pure 0
    else
      let cBlock ← getOrAllocBlockByOffset drv d v.1 offset
      let reached ← fsWriteLoop drv d v.1 cBlock offset size buf
      let data ← BlkM.data v.1
      (if v.2.size < reached then BlkM.setData v.1 (data.setSize reached) else pure ())
      BlkM.setModified v.1
      BlkM.bfree v.1
      pure (reached - offset)
  have same := rest.symm.trans returns
  dsimp only at same
  unfold fileSize at inside
  rw [if_neg (Nat.not_lt.mpr inside)] at same
  have yields : Yields (do
      let cBlock ← getOrAllocBlockByOffset drv d i offset
      let reached ← fsWriteLoop drv d i cBlock offset size buf
      let later ← BlkM.data i
      (if (data (d, n)).size < reached then BlkM.setData i (later.setSize reached) else pure ())
      BlkM.setModified i
      BlkM.bfree i
      pure (reached - offset)) (· = size) := by
    refine .of_bind fun cBlock => .of_bind' (fsWriteLoop_yields size cBlock offset buf)
      fun reached total => .of_bind fun _ => ?_
    have last : reached - offset = size := by omega
    split
    · exact .of_bind fun _ => .of_bind fun _ => .of_bind fun _ => .of_pure last
    · exact .of_bind fun _ => .of_bind fun _ => .of_bind fun _ => .of_pure last
  exact yields v r t same

theorem onBlk_run {α : Type} {p : BlkM δ α} {x : α} {t : BlkState δ} (ran : p s.blk = .ok (x, t)) :
    onBlk p s = .ok (x, { s with blk := t }) := by
  unfold onBlk
  rw [ran]

/-- A call that never returns `true` reports no failure. -/
theorem not_failsCleanly {op : SpaceOp} (yields : ∀ t, op.exec drv env s ≠ .ok (true, t)) :
    ¬ FailsCleanly drv env d s op := fun ⟨t, returns, _⟩ => yields t returns

/-- `k_open` makes a `FILE` of whatever `fs_create` left. -/
theorem kOpen_new {name : CString} {mode : Word} (creat : mode &&& oCreat ≠ 0)
    (new : SpaceOp.IsNew drv env s name) {r : Option FilePtr} {t : FsState δ}
    (returns : kOpen drv env name mode s = .ok (r, t)) : r ≠ none := by
  obtain ⟨parent, file, u, looked⟩ := new
  unfold kOpen at returns
  rw [bind_run (onBlk_run looked)] at returns
  dsimp only at returns
  rw [if_pos (Or.inr (Or.inr creat))] at returns
  refine (?_ : Yields _ (· ≠ none)) _ r t returns
  refine .of_bind fun made => ?_
  obtain ⟨rv, parent, file⟩ := made
  refine .of_map fun _ _ _ _ => ?_
  exact Option.some_ne_none _

theorem onBlk_ok {α : Type} {p : BlkM δ α} {x : α} {t : FsState δ} (returns : onBlk p s = .ok (x, t)) :
    ∃ u, p s.blk = .ok (x, u) := by
  unfold onBlk at returns
  split at returns
  case h_1 y u ran =>
    obtain ⟨rfl, -⟩ := Prod.mk.inj (Except.ok.inj returns)
    exact ⟨u, ran⟩
  case h_2 => cases returns

/-- `k_mkdir` does not look at what `fs_create` returned. -/
theorem kMkdir_new {path : CString} (named : path.chars ≠ []) (new : SpaceOp.IsNew drv env s path.trimmed)
    {r : FsRv} {t : FsState δ} (returns : kMkdir drv env path s = .ok (r, t)) : r = .ok := by
  obtain ⟨parent, file, u, looked⟩ := new
  obtain ⟨v, ran⟩ := onBlk_ok returns
  rw [if_neg named] at ran
  dsimp only at ran
  rw [bind_run looked] at ran
  -- the node is made, its two entries are written, and the answer does not depend on either
  refine (?_ : Yields _ (· = .ok)) _ r v ran
  exact .of_bind fun _ => .of_bind fun _ => .of_bind fun _ => .of_bind fun _ => .of_bind fun _ => .of_pure rfl

/-- `k_mknod` does not look at what `fs_create` returned. -/
theorem kMknod_new {path : CString} {isChr : Bool} {major minor : Word} (new : SpaceOp.IsNew drv env s path)
    {r : FsRv} {t : FsState δ} (returns : kMknod drv env path isChr major minor s = .ok (r, t)) :
    r = .ok := by
  obtain ⟨parent, file, u, looked⟩ := new
  obtain ⟨v, ran⟩ := onBlk_ok returns
  rw [bind_run looked] at ran
  -- the number of the device is written into the node, and the answer does not depend on it
  refine (?_ : Yields _ (· = .ok)) _ r v ran
  exact .of_bind fun _ => .of_bind fun _ => .of_bind fun _ => .of_bind fun _ => .of_bind fun _ => .of_bind fun _ =>
    .of_pure rfl

/-- `k_write` to a file returns what `fs_write` returns. -/
theorem kWrite_plain {fd : FilePtr} {buf : Nat → Word} {size r : Nat} {t : FsState δ}
    (notBlk : sIsblk (s.openFiles.el fd).flags = false)
    (notChr : sIschr (s.openFiles.el fd).flags = false)
    (returns : kWrite drv env fd buf size s = .ok (r, t)) :
    ∃ u, fsWrite drv (s.openFiles.el fd).node (s.openFiles.el fd).pos size buf s.blk = .ok (r, u) := by
  unfold kWrite at returns
  rw [bind_run (show getFile fd s = .ok (s.openFiles.el fd, s) from rfl), notBlk, notChr,
    if_neg Bool.false_ne_true, if_neg Bool.false_ne_true] at returns
  obtain ⟨v, wrote, later⟩ := bind_ok
    (x := onBlk (fsWrite drv (s.openFiles.el fd).node (s.openFiles.el fd).pos size buf) s)
    (g := fun v => (do
      setFile fd { s.openFiles.el fd with pos := (s.openFiles.el fd).pos + v.1 }
      pure v.1 : FsM δ Nat) v.2) returns
  have same : v.1 = r := congrArg Prod.fst (Except.ok.inj later)
  obtain ⟨u, ran⟩ := onBlk_ok (x := v.1) (t := v.2) wrote
  exact ⟨u, same ▸ ran⟩

/-- A result that was mapped. -/
theorem map_ok {α β : Type} {p : FsM δ α} {g : α → β} {y : β} {t : FsState δ}
    (returns : (g <$> p) s = .ok (y, t)) : ∃ x, p s = .ok (x, t) ∧ g x = y := by
  obtain ⟨v, ran, same⟩ := bind_ok (x := p s) (g := fun v => .ok (g v.1, v.2)) returns
  obtain ⟨rfl, rfl⟩ := Prod.mk.inj (Except.ok.inj same)
  exact ⟨v.1, ran, rfl⟩

/-- A file that grows is written to its end, blocks or none. -/
theorem grows_count {offset size r : Nat} {buf : Nat → Word} {u : BlkState δ}
    (inv : FsInv drv d base s) (grows : SpaceOp.Grows (diskOf drv s.blk) d n offset size)
    (returns : fsWrite drv ⟨d, n⟩ offset size buf s.blk = .ok (r, u)) : r = size := by
  obtain ⟨soft, live, shows, tree⟩ := inv
  exact fsWrite_count shows (tree.node n (tree.reachable grows.reach)).hard grows.inside returns

/-- **Out of space, no call reports a failure.** -/
theorem outOfSpace_unreported {op : SpaceOp} (out : OutOfSpace drv env d base s op) :
    ¬ FailsCleanly drv env d s op := by
  obtain ⟨inv, -, needs⟩ := out
  refine not_failsCleanly fun t returns => ?_
  cases op with
  | «open» name mode =>
    obtain ⟨r, opened, failed⟩ := map_ok returns
    exact kOpen_new needs.1 needs.2 opened (Option.isNone_iff_eq_none.mp failed)
  | mkdir path =>
    obtain ⟨r, made, failed⟩ := map_ok returns
    exact of_decide_eq_true failed (kMkdir_new needs.1 needs.2 made)
  | mknod path isChr major minor =>
    obtain ⟨r, made, failed⟩ := map_ok returns
    exact of_decide_eq_true failed (kMknod_new needs made)
  | write fd buf size =>
    obtain ⟨notBlk, notChr, dev, grows⟩ := needs
    obtain ⟨r, wrote, failed⟩ := map_ok returns
    obtain ⟨u, ran⟩ := kWrite_plain notBlk notChr wrote
    have node : (s.openFiles.el fd).node = ⟨d, (s.openFiles.el fd).node.idx⟩ := by
      rw [← dev]
    rw [node] at ran
    exact absurd (of_decide_eq_true failed) (Nat.not_lt.mpr (grows_count inv grows ran).ge)
  | fsWrite node offset buf size =>
    obtain ⟨rfl, grows⟩ := needs
    obtain ⟨r, wrote, failed⟩ := map_ok returns
    obtain ⟨u, ran⟩ := onBlk_ok wrote
    exact absurd (of_decide_eq_true failed) (Nat.not_lt.mpr (grows_count inv grows ran).ge)

end Calls

/-! ### A disk whose bitmap is all ones -/

/-- The disk `data` with every bit of the bitmap set. -/
def filledDisk (data : BlockKey → BlockData) (key : BlockKey) : BlockData :=
  if 1 ≤ key.2.toNat ∧ key.2.toNat ≤ 32 then BlockData.ofFn fun _ => 0xffff else data key

theorem filledDisk_high (data : BlockKey → BlockData) {d c : Word} (high : 34 ≤ c.toNat) :
    filledDisk data (d, c) = data (d, c) := if_neg fun low => absurd (show c.toNat ≤ 32 from low.2) (by omega)

theorem filledDisk_full (data : BlockKey → BlockData) (d : Word) : Full (filledDisk data) d := by
  intro b
  have small := b.isLt
  have block : filledDisk data (d, bitBlock b) = BlockData.ofFn fun _ => 0xffff :=
    if_pos (by rw [bitBlock_toNat]; omega)
  have ones : ∀ k : Fin 16, (0xffff : Word).getLsbD k = true := by decide
  unfold isMarked
  rw [block, BlockData.word_ofFn _ (bitWord_lt b)]
  exact ones ⟨bitPos b, bitPos_lt b⟩

/-- A node is as it was. -/
theorem filledDisk_same {a : DiskView} {d n : Word} (file : FileOk a d n) :
    SameNode a (viewOf (filledDisk a.data)) d n :=
  SameNode.of_data (filledDisk_high a.data file.high)
    (fun p here => filledDisk_high a.data (Nat.le_of_succ_le (file.refs p here).1))
    (filledDisk_full a.data d n) (fun _ _ => filledDisk_full a.data d _) fun _ _ inside => inside.elim

/-- The tree of a disk does not depend on the bits that are set besides. -/
theorem TreeOk.filled {a : DiskView} {d : Word} {live : Set Word} (tree : TreeOk a d live ∅) :
    TreeOk (viewOf (filledDisk a.data)) d live ∅ :=
  tree.same ⟨fun c _ => filledDisk_full a.data d c, fun _ inside => inside.elim⟩ fun n mem =>
    filledDisk_same (tree.node n mem).file

/-- A kernel just started on a disk. -/
def bootOn (data : BlockKey → BlockData) : FsState (BlockKey → BlockData) :=
  { ramBoot with blk := (Client.boot ramDriver data).cache }

theorem bootOn_coherent (data : BlockKey → BlockData) : Coherent ramDriver (bootOn data).blk data :=
  ⟨(Client.boot_inv _).cache, ramBoot_coherent.spare, ramBoot_coherent.small⟩

/-- A fresh filesystem with its bitmap filled, and `k_mkdir` of a new name. -/
theorem outOfSpace_filled : ∃ base, ∃ s : FsState (BlockKey → BlockData),
    OutOfSpace ramDriver ramEnv 0 base s (.mkdir nameF) := by
  obtain ⟨-, b, -, -, empty⟩ := ramBoot_made
  have coherent := bootOn_coherent (filledDisk b.data)
  have shown : diskOf ramDriver (bootOn (filledDisk b.data)).blk = filledDisk b.data :=
    funext fun key => coherent.cache.diskOf_eq fun inside => inside.elim
  have tree := empty.tree.filled
  have same := filledDisk_same (empty.tree.node rootIdx rfl).file
  have mapped := (empty.tree.node rootIdx rfl).dirMapped empty.tree.rootDir
  have absent : findEntry (filledDisk b.data) 0 rootIdx [102, 0] = none := by
    refine findEntry_onlyDots (fun i low => ?_) (by decide)
    have old : i < entryCount b.data 0 rootIdx := same.count ▸ low
    have words := same.entryWords mapped old
    exact words ▸ empty.dots i old
  obtain ⟨named, part, last⟩ := nameF_part
  have walked : walk (filledDisk b.data) 0 nameF.chars rootIdx = (.noFile, rootIdx) := by
    rw [walk, if_neg named, part, absent, if_pos last]
  have dirs : DirPath (filledDisk b.data) 0 nameF.chars rootIdx := by
    rw [DirPath, if_neg named, part, absent]
    exact ⟨tree.rootDir, trivial⟩
  have new : SpaceOp.IsNew ramDriver ramEnv (bootOn (filledDisk b.data)) nameF := by
    have look : wp (Shows ramDriver (fun i => ((bootOn (filledDisk b.data)).blk.blockCache i).cnt.toNat) 4)
        (fun _ => False) (fsLookup ramDriver ramEnv nameF.chars)
        (fun r _ => Looked (viewOf (filledDisk b.data)) 0 {rootIdx} nameF.chars rootIdx r)
        (viewOf (filledDisk b.data)) :=
      wp_fsLookup tree ramEnv_atRoot.unmounted ramEnv_atRoot.fsRoot ramEnv_atRoot.cwd
        (show 0 + 1 < 4 by decide) (fun long => absurd long (by decide)) nameF.nonzero dirs
        fun _ looked => looked
    obtain ⟨⟨rv, parent, file⟩, t, -, looked, -, result⟩ := look.returns coherent.shows
    have found : rv = .noFile := result.code.trans (congrArg Prod.fst walked)
    exact ⟨parent, file, t, found ▸ looked⟩
  have whole : nameF.trimmed = nameF := by
    unfold CString.trimmed
    rw [if_neg (by decide)]
  exact ⟨_, bootOn (filledDisk b.data), FsInv.of_tree coherent.shows rfl tree, shown.symm ▸ filledDisk_full _ _,
    by decide, whole.symm ▸ new⟩

/-- `k_mkdir` in a full filesystem returns `FS_OK`. -/
theorem outOfSpace_mkdir : ∃ base, ∃ s : FsState (BlockKey → BlockData),
    OutOfSpace ramDriver ramEnv 0 base s (.mkdir nameF) ∧
      ¬ FailsCleanly ramDriver ramEnv 0 s (.mkdir nameF) := by
  obtain ⟨base, s, out⟩ := outOfSpace_filled
  refine ⟨base, s, out, not_failsCleanly fun t returns => ?_⟩
  obtain ⟨r, made, failed⟩ := map_ok returns
  exact of_decide_eq_true failed (kMkdir_new out.needs.1 out.needs.2 made)

/-- The filled disk is such a state. -/
theorem outOfSpace_unreported_filled : ∃ s : FsState (BlockKey → BlockData),
    ¬ FailsCleanly ramDriver ramEnv 0 s (.mkdir nameF) := by
  obtain ⟨base, s, out⟩ := outOfSpace_filled
  exact ⟨s, outOfSpace_unreported out⟩

end RlCpu.Kernel
