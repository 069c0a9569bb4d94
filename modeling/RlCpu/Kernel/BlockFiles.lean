/-
**Files of block devices (`blkdev_read` and `blkdev_write` of `rlfs3.c`).**

`blkdev_write` neither sets `BLOCK_MODIFIED` nor gives its block back. The block stays in the cache, where it is
read back, and `block_sync` never writes it.

* `bread_known`: what `bread` does, where it returns, and what it leaves of the devices.
* `RawClient.Inv`: what was accepted is shown, is on its device, and stays in a block that is held.
* `blkdev_durable`: this is kept exactly by writes of what the device has already.
-/

import RlCpu.Kernel.FsRuns

namespace RlCpu.Kernel

open RlCpu.Lib

variable {δ : Type} {drv : BlkDriver δ}

/-! ### The devices -/

section Devices

variable {last : BlockKey → BlockData} {s t : BlkState δ} {key : BlockKey} {i : Fin blockCacheSize}

/-- Every slot that has the block is held. -/
def AllHeld (s : BlkState δ) (key : BlockKey) : Prop :=
  ∀ j, (s.blockCache j).holds key = true → (s.blockCache j).cnt ≠ 0#16

theorem AllHeld.blockSyncSlot (kept : AllHeld s key) (i : Fin blockCacheSize) :
    AllHeld (blockSyncSlot drv s i) key := by
  intro j
  by_cases same : j = i
  · subst same
    rw [blockSyncSlot_self, Block.synced_cnt]
    by_cases idle : (s.blockCache j).cnt = 0#16
    · rw [Block.synced_idle idle]
      exact fun here => absurd rfl (Block.holds_iff.mp here).1
    · exact fun _ => idle
  · rw [blockSyncSlot_ne drv s same]
    exact kept j

theorem foldl_kept (l : List (Fin blockCacheSize)) (kept : AllHeld s key) :
    (drv.read key (l.foldl (blockSyncSlot drv) s).device).1 = (drv.read key s.device).1 := by
  induction l generalizing s with
  | nil => rfl
  | cons i l ih =>
    rw [List.foldl_cons, ih (kept.blockSyncSlot i), blockSyncSlot_read, if_neg]
    rintro ⟨idle, modified, rfl⟩
    refine kept i (Block.holds_iff.mpr ⟨?_, rfl⟩) idle
    rw [modified]
    exact fun clash => by cases clash

theorem foldl_device (inv : CacheInv drv ∅ last s) (l : List (Fin blockCacheSize)) (key : BlockKey) :
    (drv.read key (l.foldl (blockSyncSlot drv) s).device).1 = (drv.read key s.device).1 ∨
      (drv.read key (l.foldl (blockSyncSlot drv) s).device).1 = last key := by
  induction l generalizing s with
  | nil => exact Or.inl rfl
  | cons i l ih =>
    have here := @blockSyncSlot_read _ drv s i key
    have rest := ih (blockSyncSlot_keeps inv i)
    rw [List.foldl_cons]
    rw [here] at rest
    split at rest
    case isTrue dirty =>
      obtain ⟨-, modified, rfl⟩ := dirty
      have inUse : (s.blockCache i).flags ≠ .free := by
        rw [modified]
        exact fun clash => by cases clash
      rw [inv.shown i inUse (Or.inr (Set.notMem_empty _))] at rest
      exact Or.inr (rest.elim id id)
    case isFalse => exact rest

/-- **`block_sync` leaves what the device has of a block that is held.** -/
theorem blockSync_kept (kept : AllHeld s key) :
    (drv.read key (blockSync drv s).device).1 = (drv.read key s.device).1 := foldl_kept _ kept

/-- **`block_sync` leaves what the device has of a block**, or puts there what was last stored. -/
theorem blockSync_device (inv : CacheInv drv ∅ last s) (key : BlockKey) :
    (drv.read key (blockSync drv s).device).1 = (drv.read key s.device).1 ∨
      (drv.read key (blockSync drv s).device).1 = last key := foldl_device inv _ key

theorem breadScan_device (found : breadScan drv key s = some (i, t)) (other : BlockKey) :
    (drv.read other t.device).1 = (drv.read other s.device).1 := by
  cases resident : s.findSlot (Block.holds key) with
  | some k =>
    rw [breadScan_resident resident] at found
    obtain ⟨rfl, rfl⟩ := Prod.mk.inj (Option.some.inj found)
    rfl
  | none =>
    cases free : s.findSlot Block.isFree with
    | none =>
      rw [breadScan_none resident free] at found
      cases found
    | some k =>
      rw [breadScan_fetch resident free] at found
      obtain ⟨rfl, rfl⟩ := Prod.mk.inj (Option.some.inj found)
      exact drv.read_read key other s.device

/-- A block of which no pass finds a slot is in no slot. -/
theorem breadScan_missing (none : breadScan drv key s = none) : AllHeld s key := by
  cases resident : s.findSlot (Block.holds key) with
  | some k =>
    rw [breadScan_resident resident] at none
    cases none
  | none =>
    intro j here
    rw [BlkState.findSlot_none resident j] at here
    cases here

/-- **`bread`, where it returns.** -/
structure Known (drv : BlkDriver δ) (last : BlockKey → BlockData) (key : BlockKey) (s : BlkState δ)
    (i : Fin blockCacheSize) (t : BlkState δ) : Prop where
  result : BreadResult key s i t
  cache : CacheInv drv ∅ last t
  own : (drv.read key t.device).1 = (drv.read key s.device).1
  others : ∀ other, (drv.read other t.device).1 = (drv.read other s.device).1 ∨
    (drv.read other t.device).1 = last other
  kept : ∀ other, AllHeld s other → (drv.read other t.device).1 = (drv.read other s.device).1

theorem Known.data (known : Known drv last key s i t) : (t.blockCache i).data = last key := by
  obtain ⟨inUse, same⟩ := known.result.holds
  rw [known.cache.shown i inUse (Or.inr (Set.notMem_empty _)), same]

theorem bread_known (inv : CacheInv drv ∅ last s) (found : bread drv key s = some (i, t)) :
    Known drv last key s i t := by
  have hard : ∀ {u : BlkState δ}, CacheInv drv ∅ last u → Seen drv u key (last key) := fun inv =>
    inv.seen (Or.inl (Set.notMem_empty key))
  unfold bread breadLoop at found
  cases first : breadScan drv key s with
  | some pass =>
    rw [first] at found
    obtain rfl := Option.some.inj found
    exact ⟨breadScan_spec inv first, breadScan_keeps inv (hard inv) first, breadScan_device first key,
      fun other => Or.inl (breadScan_device first other), fun other _ => breadScan_device first other⟩
  | none =>
    rw [first] at found
    simp only [breadLoop] at found
    cases second : breadScan drv key (blockSync drv s) with
    | none =>
      rw [second] at found
      cases found
    | some pass =>
      rw [second] at found
      obtain rfl := Option.some.inj found
      have synced := blockSync_keeps inv
      refine ⟨(breadScan_spec synced second).of_sync, breadScan_keeps synced (hard synced) second, ?_,
        fun other => ?_, fun other kept => ?_⟩
      · exact (breadScan_device second key).trans (blockSync_kept (breadScan_missing first))
      · rw [breadScan_device second other]
        exact blockSync_device inv other
      · exact (breadScan_device second other).trans (blockSync_kept kept)

/-- A block that the cache has is found at once. -/
theorem bread_resident (drv : BlkDriver δ) (here : ∃ j, (s.blockCache j).holds key = true) :
    ∃ i t, bread drv key s = some (i, t) := by
  obtain ⟨j, here⟩ := here
  obtain ⟨k, found⟩ := BlkState.findSlot_isSome here
  refine ⟨k, s.setSlot k { s.blockCache k with cnt := (s.blockCache k).cnt + 1 }, ?_⟩
  unfold bread breadLoop
  rw [breadScan_resident found]

end Devices

/-! ### The calls -/

/-- The block of the position of a file. -/
def File.place (f : File) : BlockKey := (f.device, BitVec.ofNat 16 (f.pos / 256))

/-- `fd->pos` moved on. -/
def File.advance (f : File) (n : Nat) : File := { f with pos := f.pos + n }

section Calls

variable {env : FsEnv} {s t : FsState δ} {fd : FilePtr} {size n : Nat} {buf : Nat → Word}

theorem bind_returns {α β : Type} {p : FsM δ α} {g : α → FsM δ β} {a : α} (first : p s = .ok (a, t)) :
    (p >>= g) s = g a t := by
  show (p s >>= fun x => g x.1 x.2) = _
  rw [first]
  rfl

theorem bind_stops {α β : Type} {p : FsM δ α} {g : α → FsM δ β} {e : Fault} (first : p s = .error e) :
    (p >>= g) s = .error e := by
  show (p s >>= fun x => g x.1 x.2) = _
  rw [first]
  rfl

theorem onBlk_bread {device block : Word} {i : BlockPtr} {u : BlkState δ}
    (found : bread drv (device, block) s.blk = some (i, u)) :
    onBlk (BlkM.bread drv device block) s = .ok (i, { s with blk := u }) := by
  unfold onBlk BlkM.bread
  rw [found]

theorem onBlk_bread_hangs {device block : Word} (none : bread drv (device, block) s.blk = none) :
    onBlk (BlkM.bread drv device block) s = .error .hang := by
  unfold onBlk BlkM.bread
  rw [none]

/-- **`k_write` on a block device**, where it returns: the words are in the cache, and the block is not given
back. -/
theorem kWrite_blk (blk : sIsblk (s.openFiles.el fd).flags = true)
    (run : kWrite drv env fd buf size s = .ok (n, t)) :
    ∃ i u, bread drv (s.openFiles.el fd).place s.blk = some (i, u) ∧
      n = blkdevSize (s.openFiles.el fd).pos size ∧ (s.openFiles.el fd).pos % 256 + n ≤ 256 ∧
      t = ⟨u.setSlot i { u.blockCache i with
          data := (u.blockCache i).data.blit ((s.openFiles.el fd).pos % 256) n buf },
        s.openFiles.assign fd ((s.openFiles.el fd).advance n)⟩ := by
  have same : kWrite drv env fd buf size s = blkdevWrite drv fd buf size s := by
    show (if sIsblk (s.openFiles.el fd).flags = true then blkdevWrite drv fd buf size else _) s = _
    rw [if_pos blk]
  rw [same] at run
  unfold blkdevWrite at run
  rw [bind_returns (show getFile fd s = .ok (s.openFiles.el fd, s) from rfl)] at run
  cases found : bread drv (s.openFiles.el fd).place s.blk with
  | none =>
    rw [bind_stops (onBlk_bread_hangs found)] at run
    cases run
  | some pass =>
    rw [bind_returns (onBlk_bread found)] at run
    split at run
    case isTrue => cases run
    case isFalse inside =>
      obtain ⟨rfl, rfl⟩ := Prod.mk.inj (Except.ok.inj run)
      exact ⟨pass.1, pass.2, rfl, rfl, by omega, rfl⟩

theorem kRead_blkdev (blk : sIsblk (s.openFiles.el fd).flags = true) :
    kRead drv env fd size s = blkdevRead drv fd size s := by
  show (if sIsblk (s.openFiles.el fd).flags = true then blkdevRead drv fd size else _) s = _
  rw [if_pos blk]

/-- `k_read` on a block device, once `bread` returns and the copy stays in the block. -/
theorem kRead_blk (blk : sIsblk (s.openFiles.el fd).flags = true) {i : BlockPtr} {u : BlkState δ}
    (found : bread drv (s.openFiles.el fd).place s.blk = some (i, u))
    (inside : (s.openFiles.el fd).pos % 256 + blkdevSize (s.openFiles.el fd).pos size ≤ 256) :
    kRead drv env fd size s = .ok ((u.blockCache i).data.slice ((s.openFiles.el fd).pos % 256)
      (blkdevSize (s.openFiles.el fd).pos size), ⟨bfree i u,
        s.openFiles.assign fd ((s.openFiles.el fd).advance (blkdevSize (s.openFiles.el fd).pos size))⟩) := by
  rw [kRead_blkdev blk]
  unfold blkdevRead
  rw [bind_returns (show getFile fd s = .ok (s.openFiles.el fd, s) from rfl), bind_returns (onBlk_bread found),
    if_neg (by omega)]
  rfl

/-- `k_read` on a block device, where it returns. -/
theorem kRead_blk_returns {words : List Word} (blk : sIsblk (s.openFiles.el fd).flags = true)
    (run : kRead drv env fd size s = .ok (words, t)) :
    ∃ i u, bread drv (s.openFiles.el fd).place s.blk = some (i, u) ∧ t.blk = bfree i u := by
  rw [kRead_blkdev blk] at run
  unfold blkdevRead at run
  rw [bind_returns (show getFile fd s = .ok (s.openFiles.el fd, s) from rfl)] at run
  cases found : bread drv (s.openFiles.el fd).place s.blk with
  | none =>
    rw [bind_stops (onBlk_bread_hangs found)] at run
    cases run
  | some pass =>
    rw [bind_returns (onBlk_bread found)] at run
    split at run
    case isTrue => cases run
    case isFalse =>
      obtain ⟨-, rfl⟩ := Prod.mk.inj (Except.ok.inj run)
      exact ⟨pass.1, pass.2, rfl, rfl⟩

end Calls

/-! ### Files of block devices among other traffic -/

/-- What is asked of files of block devices, and of the cache by the rest of the kernel. -/
inductive RawOp
  | write (fd : FilePtr) (buf : Nat → Word) (size : Nat)
  | read (fd : FilePtr) (size : Nat)
  | seek (fd : FilePtr) (pos : Nat)
  | other (op : CacheOp)
  /-- `k_open` and `k_close`, up to what they ask of the cache. -/
  | files (openFiles : KSet File maxFiles)

/-- The words that were accepted at the places of the devices. -/
abbrev Accepted := BlockKey → Nat → Option Word

namespace Accepted

/-- Words accepted by `k_write`. -/
def accept (a : Accepted) (key : BlockKey) (start n : Nat) (buf : Nat → Word) : Accepted := fun other j =>
  if other = key ∧ start ≤ j ∧ j < start + n then some (buf (j - start)) else a other j

/-- A block stored by the rest of the kernel: its words that differ are no longer the accepted ones. -/
def overwrite (a : Accepted) (key : BlockKey) (data : BlockData) : Accepted := fun other j =>
  if other = key then (a other j).filter fun w => data.word j = w else a other j

end Accepted

/-- The client of the cache, with the open files. -/
structure RawClient (δ : Type) where
  client : Client δ
  openFiles : KSet File maxFiles
  /-- The holds that `blkdev_write` keeps. -/
  leaked : List (Fin blockCacheSize)
  /-- The words that `k_write` accepted and nothing else replaced. -/
  accepted : Accepted

namespace RawClient

/-- The state the calls run in. -/
abbrev fs (c : RawClient δ) : FsState δ := ⟨c.client.cache, c.openFiles⟩

/-- What the device of a block has. -/
abbrev device (drv : BlkDriver δ) (c : RawClient δ) (key : BlockKey) : BlockData :=
  (drv.read key c.client.cache.device).1

/-- One operation that returns. -/
inductive Step (drv : BlkDriver δ) (env : FsEnv) : RawClient δ → RawOp → RawClient δ → Prop
  | write {c : RawClient δ} {fd : FilePtr} {buf : Nat → Word} {size n : Nat} {t : FsState δ} {i : BlockPtr}
      {u : BlkState δ} (blk : sIsblk (c.openFiles.el fd).flags = true)
      (run : kWrite drv env fd buf size c.fs = .ok (n, t))
      (slot : bread drv (c.openFiles.el fd).place c.client.cache = some (i, u)) :
      Step drv env c (.write fd buf size)
        { client :=
            { cache := t.blk
              held := i :: c.client.held
              last := Function.update c.client.last (c.openFiles.el fd).place
                ((c.client.last (c.openFiles.el fd).place).blit ((c.openFiles.el fd).pos % 256) n buf) }
          openFiles := t.openFiles
          leaked := i :: c.leaked
          accepted := c.accepted.accept (c.openFiles.el fd).place ((c.openFiles.el fd).pos % 256) n buf }
  | read {c : RawClient δ} {fd : FilePtr} {size : Nat} {words : List Word} {t : FsState δ}
      (blk : sIsblk (c.openFiles.el fd).flags = true)
      (run : kRead drv env fd size c.fs = .ok (words, t)) :
      Step drv env c (.read fd size)
        { c with client := { c.client with cache := t.blk }, openFiles := t.openFiles }
  | seek {c : RawClient δ} {fd : FilePtr} {pos : Nat} {t : FsState δ} (run : kSeek fd pos c.fs = .ok ((), t)) :
      Step drv env c (.seek fd pos)
        { c with client := { c.client with cache := t.blk }, openFiles := t.openFiles }
  | store {c : RawClient δ} {i : Fin blockCacheSize} {data : BlockData} {client : Client δ}
      (own : c.leaked.count i < c.client.held.count i)
      (run : Client.Step drv c.client (.store i data) client) :
      Step drv env c (.other (.store i data))
        { c with client := client, accepted := c.accepted.overwrite (c.client.cache.blockCache i).key data }
  | bfree {c : RawClient δ} {i : Fin blockCacheSize} {client : Client δ}
      (own : c.leaked.count i < c.client.held.count i) (run : Client.Step drv c.client (.bfree i) client) :
      Step drv env c (.other (.bfree i)) { c with client := client }
  | bread {c : RawClient δ} {key : BlockKey} {client : Client δ} (few : c.client.held.length + 1 < 2 ^ 16)
      (run : c.client.step drv (.bread key) = some client) :
      Step drv env c (.other (.bread key)) { c with client := client }
  | blockSync {c : RawClient δ} {client : Client δ} (run : Client.Step drv c.client .blockSync client) :
      Step drv env c (.other .blockSync) { c with client := client }
  | files {c : RawClient δ} (openFiles : KSet File maxFiles) :
      Step drv env c (.files openFiles) { c with openFiles := openFiles }

/-- The words that a `k_write` would accept are on the device already, and there are fewer holds than a count
can tell apart. -/
def Durable (drv : BlkDriver δ) (c : RawClient δ) : RawOp → Prop
  | .write fd buf size =>
    (∀ j < blkdevSize (c.openFiles.el fd).pos size,
      (c.device drv (c.openFiles.el fd).place).word ((c.openFiles.el fd).pos % 256 + j) = buf j) ∧
    c.client.held.length + 1 < 2 ^ 16
  | _ => True

/-- One operation that meets the condition. -/
def DurableStep (drv : BlkDriver δ) (env : FsEnv) (c : RawClient δ) (op : RawOp) (d : RawClient δ) : Prop :=
  Durable drv c op ∧ Step drv env c op d

/-- The holds are those of the counts, and every accepted word is the one last stored, is on its device, and is in
a block that `blkdev_write` keeps. -/
structure Inv (drv : BlkDriver δ) (c : RawClient δ) : Prop where
  client : Client.Inv drv c.client
  leaked : ∀ i, c.leaked.count i ≤ c.client.held.count i
  accepted : ∀ key j w, c.accepted key j = some w → j < 256 ∧ (c.client.last key).word j = w ∧
    (c.device drv key).word j = w ∧ ∃ i ∈ c.leaked, (c.client.cache.blockCache i).holds key = true

end RawClient

/-! ### What the steps keep -/

theorem accept_some {a : Accepted} {key other : BlockKey} {start n j : Nat} {buf : Nat → Word} {w : Word}
    (found : a.accept key start n buf other j = some w) :
    (other = key ∧ start ≤ j ∧ j < start + n ∧ buf (j - start) = w) ∨
      (¬ (other = key ∧ start ≤ j ∧ j < start + n) ∧ a other j = some w) := by
  unfold Accepted.accept at found
  split at found
  case isTrue inside => exact Or.inl ⟨inside.1, inside.2.1, inside.2.2, Option.some.inj found⟩
  case isFalse outside => exact Or.inr ⟨outside, found⟩

theorem overwrite_some {a : Accepted} {key other : BlockKey} {j : Nat} {data : BlockData} {w : Word}
    (found : a.overwrite key data other j = some w) : a other j = some w ∧ (other = key → data.word j = w) := by
  unfold Accepted.overwrite at found
  split at found
  case isTrue =>
    obtain ⟨was, same⟩ := Option.filter_eq_some_iff.mp found
    exact ⟨was, fun _ => by simpa using same⟩
  case isFalse ne => exact ⟨found, fun same => absurd same ne⟩

/-- One more hold. -/
theorem Client.Inv.hold {c : Client δ} (inv : Client.Inv drv c) {key : BlockKey} {i : Fin blockCacheSize}
    {u : BlkState δ} (known : Known drv c.last key c.cache i u) (few : c.held.length + 1 < 2 ^ 16) :
    Client.Inv drv { c with cache := u, held := i :: c.held } := by
  refine ⟨known.cache, fun j => ?_, fun j => lt_of_le_of_lt List.count_le_length few⟩
  by_cases same : j = i
  · subst same
    rw [known.result.count, inv.count, List.count_cons_self]
    exact (BitVec.ofNat_add _ _).symm
  · rw [known.result.counts j same, inv.count, List.count_cons_of_ne (fun equal => same equal.symm)]

/-- A held slot keeps its block. -/
theorem Known.holds {last : BlockKey → BlockData} {key other : BlockKey} {s u : BlkState δ}
    {i j : Fin blockCacheSize} (known : Known drv last key s i u) (held : (s.blockCache j).cnt ≠ 0#16)
    (here : (s.blockCache j).holds other = true) : (u.blockCache j).holds other = true := by
  rw [known.result.held j held]
  exact here

/-- Only the data of a slot change. -/
theorem setData_frame (i : Fin blockCacheSize) (u : BlkState δ) (data : BlockData) (j : Fin blockCacheSize) :
    ((u.setSlot i { u.blockCache i with data := data }).blockCache j).cnt = (u.blockCache j).cnt ∧
      ∀ key, ((u.setSlot i { u.blockCache i with data := data }).blockCache j).holds key =
        (u.blockCache j).holds key := by
  by_cases same : j = i
  · subst same
    rw [BlkState.setSlot_self]
    exact ⟨rfl, fun _ => rfl⟩
  · rw [BlkState.setSlot_ne _ _ same]
    exact ⟨rfl, fun _ => rfl⟩

/-- Words that the device has already, put into the block: what is shown is still shown. -/
theorem Known.blit {last : BlockKey → BlockData} {key : BlockKey} {s u : BlkState δ} {i : Fin blockCacheSize}
    (known : Known drv last key s i u) {start n : Nat} {buf : Nat → Word}
    (present : ∀ j < n, (drv.read key s.device).1.word (start + j) = buf j) :
    CacheInv drv ∅ (Function.update last key ((last key).blit start n buf))
      (u.setSlot i { u.blockCache i with data := (u.blockCache i).data.blit start n buf }) := by
  obtain ⟨inUse, same⟩ := known.result.holds
  have shown := known.data
  rw [shown]
  cases flags : (u.blockCache i).flags with
  | free => exact absurd flags inUse
  | used =>
    have clean := known.cache.clean i flags (Set.notMem_empty _)
    rw [same, known.own, shown] at clean
    have unchanged : (last key).blit start n buf = last key := by
      refine BlockData.ext_word fun j small => ?_
      rw [BlockData.word_blit _ _ _ _ small]
      split
      case isTrue range =>
        rw [← present (j - start) (by omega), clean, Nat.add_sub_cancel' range.1]
      case isFalse => rfl
    have slot : { u.blockCache i with data := last key } = u.blockCache i := by rw [← shown]
    rw [unchanged, Function.update_eq_self, slot]
    have state : u.setSlot i (u.blockCache i) = u := by
      unfold BlkState.setSlot
      rw [Function.update_eq_self]
    rw [state]
    exact known.cache
  | modified =>
    have stored := store_keeps known.cache inUse ((last key).blit start n buf)
    rw [same, ← flags] at stored
    exact stored

namespace RawClient

variable {env : FsEnv} {c d : RawClient δ} {op : RawOp}

theorem Inv.pinned (inv : Inv drv c) {i : Fin blockCacheSize} (mem : i ∈ c.leaked) :
    (c.client.cache.blockCache i).cnt ≠ 0#16 :=
  inv.client.cnt_ne_zero (List.count_pos_iff.mp ((List.count_pos_iff.mpr mem).trans_le (inv.leaked i)))

/-- The blocks of accepted words stay in the cache. -/
theorem Inv.allHeld (inv : Inv drv c) {key : BlockKey} {j : Nat} {w : Word} (found : c.accepted key j = some w) :
    AllHeld c.client.cache key := by
  obtain ⟨-, -, -, i, mem, here⟩ := inv.accepted key j w found
  intro k there
  have here := Block.holds_iff.mp here
  have there := Block.holds_iff.mp there
  obtain rfl := inv.client.cache.distinct i k here.1 there.1 (here.2.trans there.2.symm)
  exact inv.pinned mem

/-- Words accepted that the device has already. -/
theorem Inv.accept (inv : Inv drv c) {key : BlockKey} {i : Fin blockCacheSize} {u : BlkState δ} {start n : Nat}
    {buf : Nat → Word} {files : KSet File maxFiles} (known : Known drv c.client.last key c.client.cache i u)
    (present : ∀ j < n, (c.device drv key).word (start + j) = buf j) (inside : start + n ≤ 256)
    (few : c.client.held.length + 1 < 2 ^ 16) :
    Inv drv
      { client :=
          { cache := u.setSlot i { u.blockCache i with data := (u.blockCache i).data.blit start n buf }
            held := i :: c.client.held
            last := Function.update c.client.last key ((c.client.last key).blit start n buf) }
        openFiles := files
        leaked := i :: c.leaked
        accepted := c.accepted.accept key start n buf } := by
  have held := inv.client.hold known few
  have leaked : ∀ j, (i :: c.leaked).count j ≤ (i :: c.client.held).count j := fun j => by
    have fewer := inv.leaked j
    rw [List.count_cons, List.count_cons]
    omega
  have frame := setData_frame i u ((u.blockCache i).data.blit start n buf)
  refine ⟨⟨known.blit present, fun j => (frame j).1.trans (held.count j), held.bounded⟩, leaked,
    fun other j w found => ?_⟩
  rcases accept_some found with ⟨rfl, low, high, word⟩ | ⟨outside, was⟩
  · refine ⟨by omega, ?_, ?_, i, List.mem_cons_self, ?_⟩
    · dsimp only
      rw [Function.update_self, BlockData.word_blit _ _ _ _ (by omega), if_pos ⟨low, high⟩, word]
    · have there := present (j - start) (by omega)
      rw [Nat.add_sub_cancel' low, word] at there
      rw [← there]
      exact congrArg (fun data => data.word j) known.own
    · exact ((frame i).2 _).trans (Block.holds_iff.mpr known.result.holds)
  · obtain ⟨small, shown, onDevice, k, mem, here⟩ := inv.accepted other j w was
    refine ⟨small, ?_, ?_, k, List.mem_cons_of_mem _ mem, ?_⟩
    · dsimp only
      by_cases same : other = key
      · subst same
        rw [Function.update_self, BlockData.word_blit _ _ _ _ small, if_neg (fun range => outside ⟨rfl, range⟩)]
        exact shown
      · rw [Function.update_of_ne same]
        exact shown
    · rw [← onDevice]
      exact congrArg (fun data => data.word j) (known.kept other (inv.allHeld was))
    · exact ((frame k).2 _).trans (known.holds (inv.pinned mem) here)

theorem Inv.write (inv : Inv drv c) {fd : FilePtr} {buf : Nat → Word} {size : Nat}
    (durable : Durable drv c (.write fd buf size)) (step : Step drv env c (.write fd buf size) d) : Inv drv d := by
  cases step with
  | write blk run slot =>
    obtain ⟨i, u, found, rfl, inside, rfl⟩ := kWrite_blk blk run
    obtain ⟨rfl, rfl⟩ := Prod.mk.inj (Option.some.inj (found.symm.trans slot))
    exact inv.accept (bread_known inv.client.cache slot) durable.1 inside durable.2

/-- A step that changes no count for good and stores nothing keeps the accepted words, if it leaves the blocks that
are held and what their devices have. -/
theorem Inv.transport (inv : Inv drv c) {client : Client δ} {files : KSet File maxFiles}
    (kept : Client.Inv drv client) (leaked : ∀ i, c.leaked.count i ≤ client.held.count i)
    (last : client.last = c.client.last)
    (device : ∀ key, AllHeld c.client.cache key →
      (drv.read key client.cache.device).1 = (drv.read key c.client.cache.device).1)
    (slots : ∀ i key, (c.client.cache.blockCache i).cnt ≠ 0#16 → (c.client.cache.blockCache i).holds key = true →
      (client.cache.blockCache i).holds key = true) :
    Inv drv { c with client := client, openFiles := files } := by
  refine ⟨kept, leaked, fun key j w found => ?_⟩
  obtain ⟨small, shown, onDevice, i, mem, here⟩ := inv.accepted key j w found
  refine ⟨small, ?_, ?_, i, mem, slots i key (inv.pinned mem) here⟩
  · rw [last]
    exact shown
  · rw [← onDevice]
    exact congrArg (fun data => data.word j) (device key (inv.allHeld found))

theorem Inv.read (inv : Inv drv c) {fd : FilePtr} {size : Nat} (step : Step drv env c (.read fd size) d) :
    Inv drv d := by
  cases step with
  | read blk run =>
    rename_i words t
    obtain ⟨i, u, found, freed⟩ := kRead_blk_returns blk run
    have known := bread_known inv.client.cache found
    have frame : ∀ j key, ((bfree i u).blockCache j).holds key = (u.blockCache j).holds key := fun j key => by
      by_cases same : j = i
      · subst same
        rw [bfree_self]
        rfl
      · rw [bfree_ne u same]
    have count : ∀ j, ((bfree i u).blockCache j).cnt = (c.client.cache.blockCache j).cnt := fun j => by
      by_cases same : j = i
      · subst same
        rw [bfree_self]
        show (u.blockCache j).cnt - 1 = _
        rw [known.result.count]
        exact BitVec.add_sub_cancel _ _
      · rw [bfree_ne u same, known.result.counts j same]
    refine inv.transport ⟨?_, fun j => ?_, inv.client.bounded⟩ inv.leaked rfl (fun key held => ?_)
      fun j key held here => ?_
    · rw [freed]
      exact bfree_keeps known.cache known.result.holds.1 (Or.inr (Set.notMem_empty _))
    · rw [freed, count j]
      exact inv.client.count j
    · rw [freed]
      exact known.kept key held
    · rw [freed, frame]
      exact known.holds held here

theorem Inv.store (inv : Inv drv c) {i : Fin blockCacheSize} {data : BlockData}
    (step : Step drv env c (.other (.store i data)) d) : Inv drv d := by
  cases step with
  | store own run =>
    have kept := inv.client.step run
    obtain ⟨-, moved⟩ := run
    obtain rfl := Option.some.inj moved
    refine ⟨kept, inv.leaked, fun key j w found => ?_⟩
    obtain ⟨was, agrees⟩ := overwrite_some found
    obtain ⟨small, shown, onDevice, k, mem, here⟩ := inv.accepted key j w was
    refine ⟨small, ?_, onDevice, k, mem, ?_⟩
    · dsimp only
      by_cases same : key = (c.client.cache.blockCache i).key
      · rw [same, Function.update_self]
        exact agrees same
      · rw [Function.update_of_ne same]
        exact shown
    · dsimp only
      by_cases same : k = i
      · subst same
        rw [BlkState.setSlot_self]
        exact Block.holds_iff.mpr ⟨fun clash => (by cases clash), (Block.holds_iff.mp here).2⟩
      · rw [BlkState.setSlot_ne _ _ same]
        exact here

theorem Inv.step (inv : Inv drv c) (step : DurableStep drv env c op d) : Inv drv d := by
  obtain ⟨durable, step⟩ := step
  cases op with
  | write fd buf size => exact inv.write durable step
  | read fd size => exact inv.read step
  | seek fd pos =>
    cases step with
    | seek run =>
      obtain ⟨-, rfl⟩ := Prod.mk.inj (Except.ok.inj run)
      exact inv.transport inv.client inv.leaked rfl (fun _ _ => rfl) fun _ _ _ here => here
  | files openFiles =>
    cases step with
    | files => exact inv.transport inv.client inv.leaked rfl (fun _ _ => rfl) fun _ _ _ here => here
  | other op =>
    cases step with
    | store own run => exact inv.store (@Step.store _ drv env _ _ _ _ own run)
    | bfree own run =>
      rename_i i client
      have kept := inv.client.step run
      obtain ⟨-, moved⟩ := run
      obtain rfl := Option.some.inj moved
      refine inv.transport kept (fun j => ?_) rfl (fun _ _ => rfl) fun j key held here => ?_
      · dsimp only
        by_cases same : j = i
        · subst same
          rw [List.count_erase_self]
          omega
        · rw [List.count_erase_of_ne same]
          exact inv.leaked j
      · dsimp only
        by_cases same : j = i
        · subst same
          rw [bfree_self]
          exact here
        · rw [bfree_ne _ same]
          exact here
    | bread few run =>
      obtain ⟨⟨i, u⟩, found, rfl⟩ := Option.map_eq_some_iff.mp run
      have known := bread_known inv.client.cache found
      refine inv.transport (inv.client.hold known few) (fun j => ?_) rfl known.kept
        fun j key held here => known.holds held here
      exact (inv.leaked j).trans (List.count_le_count_cons)
    | blockSync run =>
      have kept := inv.client.step run
      obtain ⟨-, moved⟩ := run
      obtain rfl := Option.some.inj moved
      refine inv.transport kept inv.leaked rfl (fun key held => ?_) fun j key held here => ?_
      · show (drv.read key (Kernel.blockSync drv c.client.cache).device).1 = _
        exact blockSync_kept held
      · dsimp only
        rw [blockSync_slot, Block.synced_held held]
        exact here

/-! ### The results -/

/-- **Reading back.** A `k_read` that touches accepted words returns them. -/
theorem Inv.reads (inv : Inv drv c) {fd : FilePtr} {size : Nat} (blk : sIsblk (c.openFiles.el fd).flags = true)
    (small : (c.openFiles.el fd).pos % 256 + size < 2 ^ 16) {j : Nat} {w : Word}
    (touched : c.accepted (c.openFiles.el fd).place ((c.openFiles.el fd).pos % 256 + j) = some w) :
    ∃ words t, kRead drv env fd size c.fs = .ok (words, t) ∧
      words.length = blkdevSize (c.openFiles.el fd).pos size ∧ ∀ (j : Nat) (inside : j < words.length) (w : Word),
        c.accepted (c.openFiles.el fd).place ((c.openFiles.el fd).pos % 256 + j) = some w → words[j] = w := by
  obtain ⟨-, -, -, k, mem, here⟩ := inv.accepted _ _ _ touched
  obtain ⟨i, u, found⟩ := bread_resident drv ⟨k, here⟩
  have known := bread_known inv.client.cache found
  have inside : (c.openFiles.el fd).pos % 256 + blkdevSize (c.openFiles.el fd).pos size ≤ 256 := by
    unfold blkdevSize
    rw [Nat.mod_eq_of_lt small]
    split <;> omega
  have run : kRead drv env fd size c.fs = .ok ((u.blockCache i).data.slice ((c.openFiles.el fd).pos % 256)
      (blkdevSize (c.openFiles.el fd).pos size), ⟨bfree i u,
        c.openFiles.assign fd ((c.openFiles.el fd).advance (blkdevSize (c.openFiles.el fd).pos size))⟩) :=
    kRead_blk blk found inside
  refine ⟨_, _, run, (List.length_map _).trans List.length_range, fun j inside w found => ?_⟩
  obtain ⟨-, shown, -⟩ := inv.accepted _ _ _ found
  rw [← shown, ← known.data]
  exact (List.getElem_map _).trans (congrArg _ (congrArg _ (List.getElem_range _)))

/-- **Durability.** -/
theorem Inv.synced (inv : Inv drv c) {key : BlockKey} {j : Nat} {w : Word} (found : c.accepted key j = some w) :
    (drv.read key (blockSync drv c.client.cache).device).1.word j = w := by
  rw [blockSync_kept (inv.allHeld found)]
  exact (inv.accepted key j w found).2.2.1

/-- The block of a `k_write` is held afterwards, so `block_sync` leaves its device alone. -/
theorem Inv.write_lost (inv : Inv drv c) {fd : FilePtr} {buf : Nat → Word} {size : Nat}
    (few : c.client.held.length + 1 < 2 ^ 16) (step : Step drv env c (.write fd buf size) d) :
    (drv.read (c.openFiles.el fd).place (blockSync drv d.client.cache).device).1 =
      c.device drv (c.openFiles.el fd).place := by
  cases step with
  | write blk run slot =>
    obtain ⟨i, u, found, rfl, -, rfl⟩ := kWrite_blk blk run
    obtain ⟨rfl, rfl⟩ := Prod.mk.inj (Option.some.inj (found.symm.trans slot))
    have known := bread_known inv.client.cache found
    have held := inv.client.hold known few
    refine (blockSync_kept fun j here => ?_).trans known.own
    have frame := setData_frame i u ((u.blockCache i).data.blit ((c.openFiles.el fd).pos % 256)
      (blkdevSize (c.openFiles.el fd).pos size) buf) j
    have here := Block.holds_iff.mp ((frame.2 _).symm.trans here)
    obtain rfl := known.cache.distinct i j known.result.holds.1 here.1 (known.result.holds.2.trans here.2.symm)
    exact fun zero => held.cnt_ne_zero List.mem_cons_self (frame.1.symm.trans zero)


/-- What a step leaves of the devices: a block is left or is what was last stored. -/
theorem Inv.others (inv : Inv drv c) (step : Step drv env c op d) (key : BlockKey) :
    d.device drv key = c.device drv key ∨ d.device drv key = c.client.last key := by
  cases step with
  | write blk run slot =>
    obtain ⟨i, u, found, rfl, -, rfl⟩ := kWrite_blk blk run
    exact (bread_known inv.client.cache found).others key
  | read blk run =>
    obtain ⟨i, u, found, freed⟩ := kRead_blk_returns blk run
    unfold RawClient.device
    rw [freed]
    exact (bread_known inv.client.cache found).others key
  | seek run =>
    obtain ⟨-, rfl⟩ := Prod.mk.inj (Except.ok.inj run)
    exact Or.inl rfl
  | store own run =>
    obtain rfl := Option.some.inj run.2
    exact Or.inl rfl
  | bfree own run =>
    obtain rfl := Option.some.inj run.2
    exact Or.inl rfl
  | bread few run =>
    obtain ⟨⟨i, u⟩, found, rfl⟩ := Option.map_eq_some_iff.mp run
    exact (bread_known inv.client.cache found).others key
  | blockSync run =>
    obtain rfl := Option.some.inj run.2
    exact blockSync_device inv.client.cache key
  | files => exact Or.inl rfl

/-- What is shown changes at words accepted, and where the rest of the kernel stores. -/
theorem Step.shown (step : Step drv env c op d) (raw : ∀ i data, op ≠ .other (.store i data)) {key : BlockKey}
    {j : Nat} (small : j < 256) : (d.client.last key).word j = (c.client.last key).word j ∨
      d.accepted key j = some ((d.client.last key).word j) := by
  cases step with
  | write blk run slot =>
    rename_i fd _ _ _ _ _ _
    unfold Accepted.accept
    dsimp only
    by_cases same : key = (c.openFiles.el fd).place
    · subst same
      rw [Function.update_self, BlockData.word_blit _ _ _ _ small]
      split
      case isTrue range => exact Or.inr (if_pos ⟨rfl, range⟩)
      case isFalse => exact Or.inl rfl
    · rw [Function.update_of_ne same]
      exact Or.inl rfl
  | store own run => exact absurd rfl (raw _ _)
  | bfree own run =>
    obtain rfl := Option.some.inj run.2
    exact Or.inl rfl
  | bread few run =>
    obtain ⟨⟨i, u⟩, found, rfl⟩ := Option.map_eq_some_iff.mp run
    exact Or.inl rfl
  | blockSync run =>
    obtain rfl := Option.some.inj run.2
    exact Or.inl rfl
  | _ => exact Or.inl rfl

end RawClient

open RawClient in
/-- **Files of block devices.** In a run whose `k_write` calls accept only what the devices have already, accepted
words are read back and are on their device after a `block_sync`, and a step changes no other word. A `k_write` of
anything else is not on its device after a `block_sync`. -/
theorem blkdev_durable {env : FsEnv} {c₀ c : RawClient δ} {ops : List RawOp} (start : Client.Inv drv c₀.client)
    (fresh : c₀.leaked = [] ∧ ∀ key j, c₀.accepted key j = none) (run : Run (DurableStep drv env) c₀ ops c) :
    (∀ (fd : FilePtr) (size : Nat), sIsblk (c.openFiles.el fd).flags = true →
      (c.openFiles.el fd).pos % 256 + size < 2 ^ 16 →
      (∃ j w, c.accepted (c.openFiles.el fd).place ((c.openFiles.el fd).pos % 256 + j) = some w) →
      ∃ words t, kRead drv env fd size c.fs = .ok (words, t) ∧
        words.length = blkdevSize (c.openFiles.el fd).pos size ∧
        ∀ (j : Nat) (inside : j < words.length) (w : Word),
          c.accepted (c.openFiles.el fd).place ((c.openFiles.el fd).pos % 256 + j) = some w → words[j] = w) ∧
    (∀ key j w, c.accepted key j = some w →
      (drv.read key (blockSync drv c.client.cache).device).1.word j = w) ∧
    (∀ op d, DurableStep drv env c op d → ∀ key,
      (d.device drv key = c.device drv key ∨ d.device drv key = c.client.last key) ∧
      ((∀ i data, op ≠ .other (.store i data)) → ∀ j < 256,
        (d.client.last key).word j = (c.client.last key).word j ∨
          d.accepted key j = some ((d.client.last key).word j))) ∧
    (∀ fd buf size d, Step drv env c (.write fd buf size) d → c.client.held.length + 1 < 2 ^ 16 →
      ((∀ j < blkdevSize (c.openFiles.el fd).pos size,
        (drv.read (c.openFiles.el fd).place (blockSync drv d.client.cache).device).1.word
          ((c.openFiles.el fd).pos % 256 + j) = buf j) ↔
        Durable drv c (.write fd buf size))) := by
  have inv : Inv drv c := by
    refine run.preserves (fun _ _ _ holds step => holds.step step) ⟨start, fun i => ?_, fun key j w found => ?_⟩
    · rw [fresh.1]
      exact Nat.zero_le _
    · rw [fresh.2] at found
      cases found
  refine ⟨fun fd size blk small ⟨j, w, touched⟩ => inv.reads blk small touched, fun key j w => inv.synced,
    fun op d step key => ⟨inv.others step.2 key, fun raw j small => step.2.shown raw small⟩,
    fun fd buf size d step few => ?_⟩
  rw [inv.write_lost few step]
  exact ⟨fun present => ⟨present, few⟩, fun durable => durable.1⟩

/-! ### A run -/

namespace RawClient

variable {env : FsEnv} {c d : RawClient δ}

/-- A step that meets the condition, performed; `none` where there is none. -/
def perform (drv : BlkDriver δ) (env : FsEnv) (c : RawClient δ) : RawOp → Option (RawClient δ)
  | .write fd buf size =>
    if sIsblk (c.openFiles.el fd).flags = true ∧
        (∀ j < blkdevSize (c.openFiles.el fd).pos size,
          (c.device drv (c.openFiles.el fd).place).word ((c.openFiles.el fd).pos % 256 + j) = buf j) ∧
        c.client.held.length + 1 < 2 ^ 16 then
      match kWrite drv env fd buf size c.fs, bread drv (c.openFiles.el fd).place c.client.cache with
      | .ok (n, t), some (i, _) =>
        some
          { client :=
              { cache := t.blk
                held := i :: c.client.held
                last := Function.update c.client.last (c.openFiles.el fd).place
                  ((c.client.last (c.openFiles.el fd).place).blit ((c.openFiles.el fd).pos % 256) n buf) }
            openFiles := t.openFiles
            leaked := i :: c.leaked
            accepted := c.accepted.accept (c.openFiles.el fd).place ((c.openFiles.el fd).pos % 256) n buf }
      | _, _ => none
    else none
  | .read fd size =>
    if sIsblk (c.openFiles.el fd).flags = true then
      match kRead drv env fd size c.fs with
      | .ok (_, t) => some { c with client := { c.client with cache := t.blk }, openFiles := t.openFiles }
      | .error _ => none
    else none
  | .seek fd pos =>
    match kSeek fd pos c.fs with
    | .ok ((), t) => some { c with client := { c.client with cache := t.blk }, openFiles := t.openFiles }
    | .error _ => none
  | .other (.bread key) =>
    if c.client.held.length + 1 < 2 ^ 16 then
      (c.client.step drv (.bread key)).map fun client => { c with client := client }
    else none
  | .other (.store i data) =>
    if c.leaked.count i < c.client.held.count i then
      (c.client.step drv (.store i data)).map fun client =>
        { c with client := client, accepted := c.accepted.overwrite (c.client.cache.blockCache i).key data }
    else none
  | .other (.bfree i) =>
    if c.leaked.count i < c.client.held.count i then
      (c.client.step drv (.bfree i)).map fun client => { c with client := client }
    else none
  | .other .blockSync => (c.client.step drv .blockSync).map fun client => { c with client := client }
  | .files openFiles => some { c with openFiles := openFiles }

theorem perform_step {op : RawOp} (performed : perform drv env c op = some d) : DurableStep drv env c op d := by
  have mine : ∀ i, c.leaked.count i < c.client.held.count i → i ∈ c.client.held := fun i own =>
    List.count_pos_iff.mp (Nat.zero_lt_of_lt own)
  cases op with
  | write fd buf size =>
    dsimp only [perform] at performed
    split at performed
    case isFalse => cases performed
    case isTrue may =>
      obtain ⟨blk, present, few⟩ := may
      split at performed
      case h_2 => cases performed
      case h_1 run slot =>
        obtain rfl := Option.some.inj performed
        exact ⟨⟨present, few⟩, .write blk run slot⟩
  | read fd size =>
    dsimp only [perform] at performed
    split at performed
    case isFalse => cases performed
    case isTrue blk =>
      split at performed
      case h_2 => cases performed
      case h_1 run =>
        obtain rfl := Option.some.inj performed
        exact ⟨trivial, .read blk run⟩
  | seek fd pos =>
    dsimp only [perform] at performed
    split at performed
    case h_2 => cases performed
    case h_1 run =>
      obtain rfl := Option.some.inj performed
      exact ⟨trivial, .seek run⟩
  | other op =>
    refine ⟨trivial, ?_⟩
    cases op with
    | bread key =>
      dsimp only [perform] at performed
      split at performed
      case isFalse => cases performed
      case isTrue few =>
        obtain ⟨client, run, rfl⟩ := Option.map_eq_some_iff.mp performed
        exact .bread few run
    | store i data =>
      dsimp only [perform] at performed
      split at performed
      case isFalse => cases performed
      case isTrue own =>
        obtain ⟨client, run, rfl⟩ := Option.map_eq_some_iff.mp performed
        exact .store own ⟨⟨mine i own, trivial⟩, run⟩
    | bfree i =>
      dsimp only [perform] at performed
      split at performed
      case isFalse => cases performed
      case isTrue own =>
        obtain ⟨client, run, rfl⟩ := Option.map_eq_some_iff.mp performed
        exact .bfree own ⟨⟨mine i own, trivial⟩, run⟩
    | blockSync =>
      dsimp only [perform] at performed
      obtain ⟨client, run, rfl⟩ := Option.map_eq_some_iff.mp performed
      exact .blockSync ⟨⟨trivial, trivial⟩, run⟩
  | files openFiles =>
    obtain rfl := Option.some.inj performed
    exact ⟨trivial, .files openFiles⟩

end RawClient

/-- Word `j` of block `n` is `1000 * n + j`. -/
def numberedDisk (key : BlockKey) : BlockData := .ofFn fun j => 1000 * key.2 + BitVec.ofNat 16 j

/-- A block device on a RAM disk, open at its start. -/
def rawBoot (disk : BlockKey → BlockData) : RawClient (BlockKey → BlockData) where
  client := Client.boot ramDriver disk
  openFiles := ⟨fun i => i == 0, fun _ => ⟨0x72, ⟨0, 5⟩, 1000, 0, 0, sIfblk, 1⟩, 1⟩
  leaked := []
  accepted := fun _ _ => none

/-- A block read, changed and given back: the cache gives the slots 1 to 15 in turn. -/
def visit (k : Nat) : List RawOp :=
  let i : Fin blockCacheSize := ⟨k % 15 + 1, Nat.succ_lt_succ (Nat.mod_lt k (Nat.succ_pos 14))⟩
  [.other (.bread (0, 10 + BitVec.ofNat 16 k)), .other (.store i fun _ => 7), .other (.bfree i)]

/-- Three words of block 2 are written over themselves. Then more blocks are visited than the cache has slots. -/
def rawOps : List RawOp :=
  [.seek 0 515, .write 0 (fun j => 2003 + BitVec.ofNat 16 j) 3] ++ (List.range 20).flatMap visit ++ [.seek 0 515]

/-- The block that came first is out of the cache, with its change on the device; the words accepted are read back,
and are on the device after a `block_sync`. -/
theorem blkdev_durable_evicted : ∃ c, Run (RawClient.DurableStep ramDriver ramEnv) (rawBoot numberedDisk) rawOps c ∧
    (∀ i, (c.client.cache.blockCache i).holds (0, 10) = false) ∧ (c.device ramDriver (0, 10)).word 0 = 7 ∧
    (∃ words t, kRead ramDriver ramEnv 0 3 c.fs = .ok (words, t) ∧ words = [2003, 2004, 2005]) ∧
    ∀ j < 3, (ramDriver.read (0, 2) (blockSync ramDriver c.client.cache).device).1.word (3 + j) =
      2003 + BitVec.ofNat 16 j := by
  have check : (performAll (RawClient.perform ramDriver ramEnv) (rawBoot numberedDisk) rawOps).any (fun c =>
      decide ((∀ i, (c.client.cache.blockCache i).holds (0, 10) = false) ∧ (c.device ramDriver (0, 10)).word 0 = 7 ∧
        ((c.openFiles.el 0).pos = 515 ∧ (c.openFiles.el 0).place = (0, 2) ∧
          sIsblk (c.openFiles.el 0).flags = true) ∧
        ∀ j < 3, c.accepted (0, 2) (3 + j) = some (2003 + BitVec.ofNat 16 j))) = true := by decide +kernel
  obtain ⟨c, run, check⟩ := Run.of_check (fun _ _ _ => RawClient.perform_step) check
  obtain ⟨evicted, changed, ⟨pos, place, blk⟩, accepted⟩ := of_decide_eq_true check
  obtain ⟨reads, synced, -, -⟩ := blkdev_durable (Client.boot_inv numberedDisk) ⟨rfl, fun _ _ => rfl⟩ run
  have back := reads 0 3 blk
  rw [pos, place] at back
  obtain ⟨words, t, read, length, values⟩ := back (by decide) ⟨0, 2003, accepted 0 (by decide)⟩
  have length : words.length = 3 := length
  refine ⟨c, run, evicted, changed, ⟨words, t, read, ?_⟩, fun j low => synced _ _ _ (accepted j low)⟩
  refine List.ext_getElem length fun j low low' => ?_
  obtain rfl | rfl | rfl : j = 0 ∨ j = 1 ∨ j = 2 := by omega
  · exact values 0 low 2003 (accepted 0 (by decide))
  · exact values 1 low 2004 (accepted 1 (by decide))
  · exact values 2 low 2005 (accepted 2 (by decide))

/-- A 7 written over a 0 is not on the device after a `block_sync`. -/
theorem blkdev_lost : ∃ c, RawClient.Step ramDriver ramEnv (rawBoot fun _ _ => 0) (.write 0 (fun _ => 7) 1) c ∧
    c.accepted (0, 0) 0 = some 7 ∧
      (ramDriver.read (0, 0) (blockSync ramDriver c.client.cache).device).1.word 0 = 0 := by
  refine ⟨_, .write rfl rfl rfl, rfl, ?_⟩
  rfl

end RlCpu.Kernel
