/-
**What the cache shows, and that every operation keeps it.**

`CacheInv drv soft last s`: the cache `s` and the devices under it together show `last`, the data last
stored in every block. `soft` lists the blocks whose cached data were changed without setting
`BLOCK_MODIFIED`: those may fall back to the device's data as soon as nobody holds them, so nothing is
said about them unless they are held. With `soft` empty this is the whole abstract disk.

* `blockSync_keeps`: write-back and eviction do not change what is shown.
* `bread_returns`: with one slot nobody holds, `bread` returns after at most one `blockSync`; it returns
  a slot of the block asked for, adds one to its count, and leaves every held slot where it is.
* `breadLoop_stable`: a third pass of the loop of `bread` would find what the second one found.
-/

import RlCpu.Kernel.Blk

namespace RlCpu.Kernel

variable {δ : Type} (drv : BlkDriver δ)

/-- The cache over the devices shows `last`, up to the `soft` blocks nobody holds. -/
structure CacheInv (soft : Set BlockKey) (last : BlockKey → BlockData) (s : BlkState δ) :
    Prop where
  /-- No two slots in use hold the same block. -/
  distinct : ∀ i j, (s.blockCache i).flags ≠ .free → (s.blockCache j).flags ≠ .free →
    (s.blockCache i).key = (s.blockCache j).key → i = j
  /-- Nobody holds a free slot. -/
  idle : ∀ i, (s.blockCache i).flags = .free → (s.blockCache i).cnt = 0#16
  shown : ∀ i, (s.blockCache i).flags ≠ .free →
    ((s.blockCache i).cnt ≠ 0#16 ∨ (s.blockCache i).key ∉ soft) →
    (s.blockCache i).data = last (s.blockCache i).key
  /-- A slot that is not to be written back agrees with its device. -/
  clean : ∀ i, (s.blockCache i).flags = .used → (s.blockCache i).key ∉ soft →
    (drv.read (s.blockCache i).key s.device).1 = (s.blockCache i).data
  absent : ∀ key, key ∉ soft → (∀ i, (s.blockCache i).holds key = false) →
    (drv.read key s.device).1 = last key

/-- A slot after `block_sync` has passed it. -/
def Block.synced (b : Block) : Block :=
  if b.cnt = 0#16 then { b with flags := .free } else b

@[simp] theorem Block.synced_cnt (b : Block) : b.synced.cnt = b.cnt := by
  unfold Block.synced
  split <;> rfl

theorem Block.synced_held {b : Block} (held : b.cnt ≠ 0#16) : b.synced = b := if_neg held

theorem Block.synced_idle {b : Block} (idle : b.cnt = 0#16) : b.synced = { b with flags := .free } :=
  if_pos idle

theorem blockSyncSlot_self (s : BlkState δ) (i : Fin blockCacheSize) :
    (blockSyncSlot drv s i).blockCache i = (s.blockCache i).synced := by
  unfold blockSyncSlot
  by_cases idle : (s.blockCache i).cnt = 0#16
  · simp [idle, Block.synced_idle idle]
  · simp [idle, Block.synced_held idle]

theorem blockSyncSlot_ne (s : BlkState δ) {i j : Fin blockCacheSize} (ne : j ≠ i) :
    (blockSyncSlot drv s i).blockCache j = s.blockCache j := by
  unfold blockSyncSlot
  by_cases idle : (s.blockCache i).cnt = 0#16
  · simp only [idle, if_true]
    rw [BlkState.setSlot_ne _ _ ne]
    split <;> rfl
  · simp [idle]

theorem foldl_blockSyncSlot (l : List (Fin blockCacheSize)) (s : BlkState δ)
    (i : Fin blockCacheSize) :
    (l.foldl (blockSyncSlot drv) s).blockCache i =
      if i ∈ l then (s.blockCache i).synced else s.blockCache i := by
  induction l generalizing s with
  | nil => simp
  | cons j l ih =>
    rw [List.foldl_cons, ih]
    by_cases same : i = j
    · subst same
      rw [blockSyncSlot_self]
      by_cases inside : i ∈ l
      · simp only [inside, if_true, List.mem_cons, true_or]
        by_cases idle : (s.blockCache i).cnt = 0#16
        · simp [Block.synced, idle]
        · simp [Block.synced, idle]
      · simp [inside]
    · rw [blockSyncSlot_ne drv s same]
      simp [same]

/-- **`block_sync` frees exactly the slots nobody holds.** -/
theorem blockSync_slot (s : BlkState δ) (i : Fin blockCacheSize) :
    (blockSync drv s).blockCache i = (s.blockCache i).synced := by
  unfold blockSync
  rw [foldl_blockSyncSlot, if_pos (List.mem_finRange i)]

section Keep

variable {drv} {soft : Set BlockKey} {last : BlockKey → BlockData} {s : BlkState δ}

/-- The devices after one slot was passed: its block was written back if it was modified. -/
theorem blockSyncSlot_read (i : Fin blockCacheSize) (key : BlockKey) :
    (drv.read key (blockSyncSlot drv s i).device).1 =
      if (s.blockCache i).cnt = 0#16 ∧ (s.blockCache i).flags = .modified ∧
        key = (s.blockCache i).key
      then (s.blockCache i).data else (drv.read key s.device).1 := by
  unfold blockSyncSlot
  by_cases idle : (s.blockCache i).cnt = 0#16
  · by_cases dirty : (s.blockCache i).flags = .modified
    · by_cases same : key = (s.blockCache i).key
      · subst same
        simp [idle, dirty, drv.read_write_self]
      · simp [idle, dirty, same, drv.read_write_other _ _ _ _ same]
    · simp [idle, dirty]
  · simp [idle]

theorem blockSyncSlot_keeps (inv : CacheInv drv soft last s) (i : Fin blockCacheSize) :
    CacheInv drv soft last (blockSyncSlot drv s i) := by
  by_cases held : (s.blockCache i).cnt = 0#16
  swap
  · have same : blockSyncSlot drv s i = s := by
      unfold blockSyncSlot
      simp [held]
    rw [same]
    exact inv
  have here : (blockSyncSlot drv s i).blockCache i = { s.blockCache i with flags := .free } := by
    rw [blockSyncSlot_self, Block.synced_idle held]
  have other : ∀ j, (((blockSyncSlot drv s i).blockCache j).flags ≠ .free) →
      j ≠ i ∧ (blockSyncSlot drv s i).blockCache j = s.blockCache j := by
    intro j inUse
    have ne : j ≠ i := by
      rintro rfl
      rw [here] at inUse
      exact inUse rfl
    exact ⟨ne, blockSyncSlot_ne drv s ne⟩
  refine ⟨fun j k first second same => ?_, fun j free => ?_, fun j inUse visible => ?_,
    fun j clean hard => ?_, fun key hard missing => ?_⟩
  · rw [(other j first).2, (other k second).2] at same
    rw [(other j first).2] at first
    rw [(other k second).2] at second
    exact inv.distinct j k first second same
  · by_cases same : j = i
    · rw [same, here]
      exact held
    · rw [blockSyncSlot_ne drv s same] at free ⊢
      exact inv.idle j free
  · have frame := (other j inUse).2
    rw [frame] at inUse visible ⊢
    exact inv.shown j inUse visible
  · have inUse : ((blockSyncSlot drv s i).blockCache j).flags ≠ .free := by
      rw [clean]
      exact fun clash => by cases clash
    obtain ⟨ne, frame⟩ := other j inUse
    rw [frame] at clean hard ⊢
    rw [blockSyncSlot_read, if_neg]
    · exact inv.clean j clean hard
    · rintro ⟨-, dirty, same⟩
      refine ne (inv.distinct j i ?_ ?_ same)
      · rw [clean]
        exact fun clash => by cases clash
      · rw [dirty]
        exact fun clash => by cases clash
  · by_cases resident : (s.blockCache i).holds key = true
    · obtain ⟨inUse, same⟩ := Block.holds_iff.mp resident
      have now := inv.shown i inUse (Or.inr (by rw [same]; exact hard))
      rw [same] at now
      rw [blockSyncSlot_read]
      by_cases dirty : (s.blockCache i).flags = .modified
      · rw [if_pos ⟨held, dirty, same.symm⟩]
        exact now
      · have used : (s.blockCache i).flags = .used := by
          cases flags : (s.blockCache i).flags with
          | free => exact absurd flags inUse
          | used => rfl
          | modified => exact absurd flags dirty
        rw [if_neg (fun both => dirty both.2.1)]
        have agree := inv.clean i used (by rw [same]; exact hard)
        rw [same] at agree
        rw [agree, now]
    · have before : ∀ j, (s.blockCache j).holds key = false := by
        intro j
        by_cases same : j = i
        · rw [same]
          exact (Bool.not_eq_true _).mp resident
        · rw [← blockSyncSlot_ne drv s same]
          exact missing j
      rw [blockSyncSlot_read, if_neg]
      · exact inv.absent key hard before
      · rintro ⟨-, dirty, same⟩
        refine resident (Block.holds_iff.mpr ⟨?_, same.symm⟩)
        rw [dirty]
        exact fun clash => by cases clash

/-- **Write-back and eviction do not change what the cache shows.** -/
theorem blockSync_keeps (inv : CacheInv drv soft last s) :
    CacheInv drv soft last (blockSync drv s) := by
  unfold blockSync
  induction List.finRange blockCacheSize generalizing s with
  | nil => exact inv
  | cons i l ih => exact ih (blockSyncSlot_keeps inv i)

/-- A count one up in a resident slot: what `bread` does to a block the cache has. -/
theorem breadScan_resident {key : BlockKey} {i : Fin blockCacheSize}
    (found : s.findSlot (Block.holds key) = some i) :
    breadScan drv key s =
      some (i, s.setSlot i { s.blockCache i with cnt := (s.blockCache i).cnt + 1 }) := by
  unfold breadScan
  rw [found]

/-- The slot `bread` fills when the block is not in the cache. -/
theorem breadScan_fetch {key : BlockKey} {i : Fin blockCacheSize}
    (missing : s.findSlot (Block.holds key) = none) (found : s.findSlot Block.isFree = some i) :
    breadScan drv key s =
      some (i, { s with device := (drv.read key s.device).2 }.setSlot i
        { flags := .used, device := key.1, n := key.2, cnt := 1,
          data := (drv.read key s.device).1 }) := by
  unfold breadScan
  rw [missing]
  simp only [found]

theorem breadScan_none {key : BlockKey} (missing : s.findSlot (Block.holds key) = none)
    (full : s.findSlot Block.isFree = none) : breadScan drv key s = none := by
  unfold breadScan
  rw [missing]
  simp only [full]

/-- **What one successful pass of `bread` does**: it returns a slot of the block, one more count in
that slot, and every slot that was held is where it was. -/
structure BreadResult (key : BlockKey) (s : BlkState δ) (i : Fin blockCacheSize)
    (t : BlkState δ) : Prop where
  holds : (t.blockCache i).flags ≠ .free ∧ (t.blockCache i).key = key
  count : (t.blockCache i).cnt = (s.blockCache i).cnt + 1
  counts : ∀ j, j ≠ i → (t.blockCache j).cnt = (s.blockCache j).cnt
  /-- A held slot keeps its block, its data and its flags. -/
  held : ∀ j, (s.blockCache j).cnt ≠ 0#16 →
    t.blockCache j = { s.blockCache j with cnt := (t.blockCache j).cnt }

theorem breadScan_spec (inv : CacheInv drv soft last s) {key : BlockKey}
    {i : Fin blockCacheSize} {t : BlkState δ} (found : breadScan drv key s = some (i, t)) :
    BreadResult key s i t := by
  cases resident : s.findSlot (Block.holds key) with
  | some k =>
    rw [breadScan_resident resident] at found
    obtain ⟨rfl, rfl⟩ := Prod.mk.inj (Option.some.inj found)
    have here := Block.holds_iff.mp (BlkState.findSlot_some resident)
    refine ⟨?_, ?_, fun j ne => ?_, fun j held => ?_⟩
    · rw [BlkState.setSlot_self]
      exact here
    · rw [BlkState.setSlot_self]
    · rw [BlkState.setSlot_ne _ _ ne]
    · by_cases same : j = k
      · subst same
        rw [BlkState.setSlot_self]
      · rw [BlkState.setSlot_ne _ _ same]
  | none =>
    cases free : s.findSlot Block.isFree with
    | none =>
      rw [breadScan_none resident free] at found
      cases found
    | some k =>
      rw [breadScan_fetch resident free] at found
      obtain ⟨rfl, rfl⟩ := Prod.mk.inj (Option.some.inj found)
      have idle := inv.idle k (Block.isFree_iff.mp (BlkState.findSlot_some free))
      refine ⟨?_, ?_, fun j ne => ?_, fun j held => ?_⟩
      · rw [BlkState.setSlot_self]
        exact ⟨fun clash => (by cases clash), rfl⟩
      · rw [BlkState.setSlot_self, idle]
        rfl
      · rw [BlkState.setSlot_ne _ _ ne]
      · have ne : j ≠ k := by
          rintro rfl
          exact held idle
        rw [BlkState.setSlot_ne _ _ ne]

/-- `data` is what a `bread` of the block finds now: in the slot that has it, else on its device. -/
def Seen (drv : BlkDriver δ) (s : BlkState δ) (key : BlockKey) (data : BlockData) : Prop :=
  (∀ i, (s.blockCache i).holds key = true → (s.blockCache i).data = data) ∧
    ((∀ i, (s.blockCache i).holds key = false) → (drv.read key s.device).1 = data)

/-- A block that is held, or not `soft`, is seen as it was last stored. -/
theorem CacheInv.seen (inv : CacheInv drv soft last s) {key : BlockKey}
    (known : key ∉ soft ∨ ∃ i, (s.blockCache i).holds key = true ∧ (s.blockCache i).cnt ≠ 0#16) :
    Seen drv s key (last key) := by
  refine ⟨fun i here => ?_, fun nowhere => ?_⟩
  · obtain ⟨inUse, same⟩ := Block.holds_iff.mp here
    rw [← same]
    refine inv.shown i inUse ?_
    rcases known with hard | ⟨j, there, held⟩
    · exact Or.inr (by rw [same]; exact hard)
    · obtain ⟨inUse', same'⟩ := Block.holds_iff.mp there
      exact Or.inl (inv.distinct j i inUse' inUse (same'.trans same.symm) ▸ held)
  · rcases known with hard | ⟨j, there, -⟩
    · exact inv.absent key hard nowhere
    · rw [nowhere j] at there
      cases there

/-- Every block is seen with some data. -/
theorem CacheInv.exists_seen (inv : CacheInv drv soft last s) (key : BlockKey) :
    ∃ data, Seen drv s key data := by
  by_cases resident : ∃ i, (s.blockCache i).holds key = true
  · obtain ⟨i, here⟩ := resident
    refine ⟨(s.blockCache i).data, fun j there => ?_, fun nowhere => ?_⟩
    · have first := Block.holds_iff.mp here
      have second := Block.holds_iff.mp there
      rw [inv.distinct j i second.1 first.1 (second.2.trans first.2.symm)]
    · rw [nowhere i] at here
      cases here
  · refine ⟨(drv.read key s.device).1, fun j there => absurd ⟨j, there⟩ resident, fun _ => rfl⟩

/-- What is said about a `soft` block nobody holds is free to change. -/
theorem CacheInv.relabel (inv : CacheInv drv soft last s) {key : BlockKey} (changed : key ∈ soft)
    (loose : ∀ i, (s.blockCache i).holds key = true → (s.blockCache i).cnt = 0#16)
    (data : BlockData) : CacheInv drv soft (Function.update last key data) s := by
  refine ⟨inv.distinct, inv.idle, fun i inUse visible => ?_, inv.clean, fun other hard nowhere => ?_⟩
  · have away : (s.blockCache i).key ≠ key := by
      intro same
      rcases visible with held | hard
      · exact held (loose i (Block.holds_iff.mpr ⟨inUse, same⟩))
      · exact hard (same ▸ changed)
    rw [Function.update_of_ne away]
    exact inv.shown i inUse visible
  · have away : other ≠ key := by
      rintro rfl
      exact hard changed
    rw [Function.update_of_ne away]
    exact inv.absent other hard nowhere

/-- **One pass of `bread` keeps what the cache shows**, if the block asked for is seen as it is
shown. -/
theorem breadScan_keeps (inv : CacheInv drv soft last s) {key : BlockKey}
    (seen : Seen drv s key (last key))
    {i : Fin blockCacheSize} {t : BlkState δ} (found : breadScan drv key s = some (i, t)) :
    CacheInv drv soft last t := by
  cases resident : s.findSlot (Block.holds key) with
  | some k =>
    rw [breadScan_resident resident] at found
    obtain ⟨rfl, rfl⟩ := Prod.mk.inj (Option.some.inj found)
    have holds := BlkState.findSlot_some resident
    have here := Block.holds_iff.mp holds
    refine ⟨fun j l => ?_, fun j => ?_, fun j => ?_, fun j => ?_, fun other hard missing => ?_⟩
    · by_cases first : j = k <;> by_cases second : l = k
      · exact fun _ _ _ => first.trans second.symm
      · subst first
        rw [BlkState.setSlot_self, BlkState.setSlot_ne _ _ second]
        exact inv.distinct j l
      · subst second
        rw [BlkState.setSlot_self, BlkState.setSlot_ne _ _ first]
        exact inv.distinct j l
      · rw [BlkState.setSlot_ne _ _ first, BlkState.setSlot_ne _ _ second]
        exact inv.distinct j l
    · by_cases same : j = k
      · subst same
        rw [BlkState.setSlot_self]
        exact fun free => absurd free here.1
      · rw [BlkState.setSlot_ne _ _ same]
        exact inv.idle j
    · by_cases same : j = k
      · subst same
        rw [BlkState.setSlot_self]
        intro _ _
        show (s.blockCache j).data = last (s.blockCache j).key
        rw [here.2]
        exact seen.1 j holds
      · rw [BlkState.setSlot_ne _ _ same]
        exact inv.shown j
    · by_cases same : j = k
      · subst same
        rw [BlkState.setSlot_self]
        exact inv.clean j
      · rw [BlkState.setSlot_ne _ _ same]
        exact inv.clean j
    · refine inv.absent other hard fun j => ?_
      by_cases same : j = k
      · subst same
        have now := missing j
        rw [BlkState.setSlot_self] at now
        exact now
      · rw [← BlkState.setSlot_ne s _ same]
        exact missing j
  | none =>
    cases free : s.findSlot Block.isFree with
    | none =>
      rw [breadScan_none resident free] at found
      cases found
    | some k =>
      rw [breadScan_fetch resident free] at found
      obtain ⟨rfl, rfl⟩ := Prod.mk.inj (Option.some.inj found)
      have fetched := seen.2 fun j => BlkState.findSlot_none resident j
      have nowhere : ∀ j, (s.blockCache j).flags ≠ .free → (s.blockCache j).key ≠ key := by
        intro j inUse same
        have absent := BlkState.findSlot_none resident j
        rw [Block.holds_iff.mpr ⟨inUse, same⟩] at absent
        cases absent
      refine ⟨fun j l => ?_, fun j => ?_, fun j => ?_, fun j => ?_, fun other hard' missing => ?_⟩
      · by_cases first : j = k <;> by_cases second : l = k
        · exact fun _ _ _ => first.trans second.symm
        · subst first
          rw [BlkState.setSlot_self, BlkState.setSlot_ne _ _ second]
          exact fun _ inUse same => absurd same.symm (nowhere l inUse)
        · subst second
          rw [BlkState.setSlot_self, BlkState.setSlot_ne _ _ first]
          exact fun inUse _ same => absurd same (nowhere j inUse)
        · rw [BlkState.setSlot_ne _ _ first, BlkState.setSlot_ne _ _ second]
          exact inv.distinct j l
      · by_cases same : j = k
        · subst same
          rw [BlkState.setSlot_self]
          exact fun clash => by cases clash
        · rw [BlkState.setSlot_ne _ _ same]
          exact inv.idle j
      · by_cases same : j = k
        · subst same
          rw [BlkState.setSlot_self]
          exact fun _ _ => fetched
        · rw [BlkState.setSlot_ne _ _ same]
          exact inv.shown j
      · by_cases same : j = k
        · subst same
          rw [BlkState.setSlot_self, BlkState.setSlot_device]
          exact fun _ _ => drv.read_read _ _ _
        · rw [BlkState.setSlot_ne _ _ same, BlkState.setSlot_device]
          intro used outside
          rw [drv.read_read]
          exact inv.clean j used outside
      · rw [BlkState.setSlot_device, drv.read_read]
        refine inv.absent other hard' fun j => ?_
        by_cases same : j = k
        · subst same
          simp [Block.holds, Block.isFree_iff.mp (BlkState.findSlot_some free)]
        · have now := missing j
          rw [BlkState.setSlot_ne _ _ same] at now
          exact now

/-- After `block_sync` a slot nobody holds is free, so the next pass of `bread` succeeds. -/
theorem breadScan_sync_isSome (drv : BlkDriver δ) {s : BlkState δ} (key : BlockKey)
    {i : Fin blockCacheSize}
    (idle : (s.blockCache i).cnt = 0#16) :
    ∃ found, breadScan drv key (blockSync drv s) = some found := by
  cases resident : (blockSync drv s).findSlot (Block.holds key) with
  | some k => exact ⟨_, breadScan_resident resident⟩
  | none =>
    have free : ((blockSync drv s).blockCache i).isFree = true := by
      rw [blockSync_slot, Block.synced_idle idle]
      rfl
    obtain ⟨k, found⟩ := BlkState.findSlot_isSome free
    exact ⟨_, breadScan_fetch resident found⟩

/-- A held slot of a block is still one after `block_sync`. -/
theorem blockSync_held {key : BlockKey}
    (held : ∃ i, (s.blockCache i).holds key = true ∧ (s.blockCache i).cnt ≠ 0#16) :
    ∃ i, ((blockSync drv s).blockCache i).holds key = true ∧
      ((blockSync drv s).blockCache i).cnt ≠ 0#16 := by
  obtain ⟨i, holds, pinned⟩ := held
  refine ⟨i, ?_, ?_⟩ <;> rw [blockSync_slot, Block.synced_held pinned] <;> assumption

/-- `block_sync` takes no held slot and no count. -/
theorem BreadResult.of_sync {key : BlockKey} {i : Fin blockCacheSize} {t : BlkState δ}
    (after : BreadResult key (blockSync drv s) i t) : BreadResult key s i t := by
  refine ⟨after.holds, ?_, fun j ne => ?_, fun j held => ?_⟩
  · rw [after.count, blockSync_slot, Block.synced_cnt]
  · rw [after.counts j ne, blockSync_slot, Block.synced_cnt]
  · have frame := after.held j (by rw [blockSync_slot, Block.synced_cnt]; exact held)
    rw [blockSync_slot, Block.synced_held held] at frame
    exact frame

/-- **`bread` returns** as soon as one slot is not held, and then does what `BreadResult` says. The
data it finds in a `soft` block nobody holds may be old; any other block is as it was last stored. -/
theorem bread_returns (inv : CacheInv drv soft last s) (key : BlockKey)
    (room : ∃ i, (s.blockCache i).cnt = 0#16) :
    ∃ i t data, bread drv key s = some (i, t) ∧ BreadResult key s i t ∧
      CacheInv drv soft (Function.update last key data) t ∧
      ((key ∉ soft ∨ ∃ i, (s.blockCache i).holds key = true ∧ (s.blockCache i).cnt ≠ 0#16) →
        data = last key) := by
  classical
  -- what the pass that succeeds finds, in the state `u` it starts from
  have pass : ∀ u : BlkState δ, CacheInv drv soft last u →
      ((key ∉ soft ∨ ∃ i, (s.blockCache i).holds key = true ∧ (s.blockCache i).cnt ≠ 0#16) →
        key ∉ soft ∨ ∃ i, (u.blockCache i).holds key = true ∧ (u.blockCache i).cnt ≠ 0#16) →
      ∀ i t, breadScan drv key u = some (i, t) →
        ∃ data, CacheInv drv soft (Function.update last key data) t ∧
          ((key ∉ soft ∨ ∃ i, (s.blockCache i).holds key = true ∧ (s.blockCache i).cnt ≠ 0#16) →
            data = last key) := by
    intro u invU moves i t found
    by_cases known : key ∉ soft ∨
        ∃ i, (u.blockCache i).holds key = true ∧ (u.blockCache i).cnt ≠ 0#16
    · refine ⟨last key, ?_, fun _ => rfl⟩
      rw [Function.update_eq_self]
      exact breadScan_keeps invU (invU.seen known) found
    · obtain ⟨data, seen⟩ := invU.exists_seen key
      have changed : key ∈ soft := by
        by_contra hard
        exact known (Or.inl hard)
      have loose : ∀ i, (u.blockCache i).holds key = true → (u.blockCache i).cnt = 0#16 := by
        intro j here
        by_contra held
        exact known (Or.inr ⟨j, here, held⟩)
      refine ⟨data, ?_, fun before => absurd (moves before) known⟩
      refine breadScan_keeps (invU.relabel changed loose data) ?_ found
      rw [Function.update_self]
      exact seen
  unfold bread breadLoop
  cases first : breadScan drv key s with
  | some found =>
    obtain ⟨i, t⟩ := found
    obtain ⟨data, after, same⟩ := pass s inv id i t first
    exact ⟨i, t, data, rfl, breadScan_spec inv first, after, same⟩
  | none =>
    obtain ⟨idle, hIdle⟩ := room
    obtain ⟨⟨i, t⟩, second⟩ := breadScan_sync_isSome drv key hIdle
    obtain ⟨data, after, same⟩ := pass _ (blockSync_keeps inv)
      (fun known => known.imp id blockSync_held) i t second
    refine ⟨i, t, data, ?_, (breadScan_spec (blockSync_keeps inv) second).of_sync, after, same⟩
    simp only [breadLoop, second]

/-- `bread` of a block whose data are known. -/
theorem bread_spec (inv : CacheInv drv soft last s) {key : BlockKey}
    (known : key ∉ soft ∨ ∃ i, (s.blockCache i).holds key = true ∧ (s.blockCache i).cnt ≠ 0#16)
    (room : ∃ i, (s.blockCache i).cnt = 0#16) :
    ∃ i t, bread drv key s = some (i, t) ∧ BreadResult key s i t ∧ CacheInv drv soft last t := by
  classical
  obtain ⟨i, t, data, returns, result, after, same⟩ := bread_returns inv key room
  rw [same known, Function.update_eq_self] at after
  exact ⟨i, t, returns, result, after⟩

/-- **The retry loop is settled after two passes**: if the second one finds no slot, every slot is
held, `block_sync` changes nothing, and no later pass finds one. -/
theorem breadLoop_stable (key : BlockKey) (fuel : Nat) :
    breadLoop drv key (fuel + 2) s = bread drv key s := by
  unfold bread
  cases first : breadScan drv key s with
  | some found => simp [breadLoop, first]
  | none =>
    cases second : breadScan drv key (blockSync drv s) with
    | some found => simp [breadLoop, first, second]
    | none =>
      have allHeld : ∀ i, (s.blockCache i).cnt ≠ 0#16 := by
        intro i idle
        obtain ⟨found, some⟩ := breadScan_sync_isSome drv key idle
        rw [second] at some
        cases some
      have fixed : blockSync drv s = s := by
        unfold blockSync
        induction List.finRange blockCacheSize with
        | nil => rfl
        | cons i l ih =>
          have skip : blockSyncSlot drv s i = s := by
            unfold blockSyncSlot
            exact if_neg (allHeld i)
          rw [List.foldl_cons, skip, ih]
      have stuck : ∀ n, breadLoop drv key n s = none := by
        intro n
        induction n with
        | zero => rfl
        | succ n ih => rw [breadLoop, first, fixed, ih]
      rw [stuck, stuck]

end Keep

end RlCpu.Kernel
