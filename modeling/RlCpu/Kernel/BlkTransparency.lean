/-
**Buffer-cache transparency.**

A client of the cache calls `bread`, changes the data of a block it holds and sets
`BLOCK_MODIFIED`, gives blocks back with `bfree`, and calls `block_sync`, in any order and on any
devices. `Client.last` remembers the data last stored in every block; `Client.held` lists the
pointers `bread` returned and `bfree` has not given back.

`Client.Transparent`: `bread` returns, and returns the data last stored; no two slots in use hold the same
block; a held slot is not evicted or reassigned by any operation; and a `block_sync` with nothing held
leaves the last stored data on the devices.

* `bufferCache_transparent`: so it is in every state that a client reaches which holds no block 65536 times.
* `bufferCache_overheld`: at the 65536th hold of a block the 16-bit count is 0 again.
-/

import RlCpu.Kernel.BlkInvariant
import RlCpu.Lib.Runs
import Mathlib.Data.Fintype.Card
import Mathlib.Data.Finset.Card
import Mathlib.Tactic.NormNum

namespace RlCpu.Kernel

open RlCpu.Lib

variable {δ : Type} (drv : BlkDriver δ)

/-! ### The other operations keep the cache -/

section Keep

variable {drv} {soft : Set BlockKey} {last : BlockKey → BlockData} {s : BlkState δ}

/-- `b->data` changed and `b->flags = BLOCK_MODIFIED` set, on a slot in use. -/
theorem store_keeps (inv : CacheInv drv soft last s) {i : Fin blockCacheSize}
    (inUse : (s.blockCache i).flags ≠ .free) (data : BlockData) :
    CacheInv drv soft (Function.update last (s.blockCache i).key data)
      (s.setSlot i { s.blockCache i with data := data, flags := .modified }) := by
  refine ⟨fun j l => ?_, fun j => ?_, fun j => ?_, fun j => ?_, fun other hard missing => ?_⟩
  · by_cases first : j = i <;> by_cases second : l = i
    · exact fun _ _ _ => first.trans second.symm
    · subst first
      rw [BlkState.setSlot_self, BlkState.setSlot_ne _ _ second]
      exact fun _ => inv.distinct j l inUse
    · subst second
      rw [BlkState.setSlot_self, BlkState.setSlot_ne _ _ first]
      exact fun busy _ => inv.distinct j l busy inUse
    · rw [BlkState.setSlot_ne _ _ first, BlkState.setSlot_ne _ _ second]
      exact inv.distinct j l
  · by_cases same : j = i
    · subst same
      rw [BlkState.setSlot_self]
      exact fun clash => by cases clash
    · rw [BlkState.setSlot_ne _ _ same]
      exact inv.idle j
  · by_cases same : j = i
    · subst same
      rw [BlkState.setSlot_self]
      exact fun _ _ => (Function.update_self (s.blockCache j).key data last).symm
    · rw [BlkState.setSlot_ne _ _ same]
      intro busy visible
      rw [Function.update_of_ne (fun equal => same (inv.distinct j i busy inUse equal))]
      exact inv.shown j busy visible
  · by_cases same : j = i
    · subst same
      rw [BlkState.setSlot_self]
      exact fun clash => by cases clash
    · rw [BlkState.setSlot_ne _ _ same]
      exact inv.clean j
  · have away : other ≠ (s.blockCache i).key := by
      rintro rfl
      have now := missing i
      rw [BlkState.setSlot_self] at now
      simp [Block.holds] at now
    rw [Function.update_of_ne away]
    refine inv.absent other hard fun j => ?_
    by_cases same : j = i
    · subst same
      simp [Block.holds, away.symm]
    · rw [← BlkState.setSlot_ne s _ same]
      exact missing j

/-- `bfree` on a slot in use: only a count changes. -/
theorem bfree_keeps (inv : CacheInv drv soft last s) {i : Fin blockCacheSize}
    (inUse : (s.blockCache i).flags ≠ .free)
    (hard : (s.blockCache i).cnt ≠ 0#16 ∨ (s.blockCache i).key ∉ soft) :
    CacheInv drv soft last (bfree i s) := by
  have frame : ∀ j, ((bfree i s).blockCache j).flags = (s.blockCache j).flags ∧
      ((bfree i s).blockCache j).key = (s.blockCache j).key ∧
      ((bfree i s).blockCache j).data = (s.blockCache j).data := by
    intro j
    by_cases same : j = i
    · subst same
      rw [bfree_self]
      exact ⟨rfl, rfl, rfl⟩
    · rw [bfree_ne s same]
      exact ⟨rfl, rfl, rfl⟩
  have counts : ∀ j, j ≠ i → ((bfree i s).blockCache j).cnt = (s.blockCache j).cnt :=
    fun j ne => by rw [bfree_ne s ne]
  refine ⟨fun j l => ?_, fun j free => ?_, fun j busy visible => ?_, fun j => ?_,
    fun other outside missing => ?_⟩
  · rw [(frame j).1, (frame l).1, (frame j).2.1, (frame l).2.1]
    exact inv.distinct j l
  · rw [(frame j).1] at free
    rw [counts j (fun same => inUse (same ▸ free))]
    exact inv.idle j free
  · rw [(frame j).1] at busy
    rw [(frame j).2.1, (frame j).2.2]
    refine inv.shown j busy ?_
    by_cases same : j = i
    · subst same
      exact hard
    · rw [(frame j).2.1, counts j same] at visible
      exact visible
  · rw [(frame j).1, (frame j).2.1, (frame j).2.2]
    exact inv.clean j
  · refine inv.absent other outside fun j => ?_
    have now := missing j
    simp only [Block.holds] at now ⊢
    rw [(frame j).1, (frame j).2.1] at now
    exact now

end Keep

/-! ### The client -/

/-- What a client asks of the cache. -/
inductive CacheOp
  | bread (key : BlockKey)
  /-- Change the data of a held block and set `BLOCK_MODIFIED`. -/
  | store (i : Fin blockCacheSize) (data : BlockData)
  | bfree (i : Fin blockCacheSize)
  | blockSync

/-- The cache, the pointers its client holds, and the data last stored in every block. -/
structure Client (δ : Type) where
  cache : BlkState δ
  held : List (Fin blockCacheSize)
  last : BlockKey → BlockData

/-- The blocks pinned at once. -/
def pinnedBlocks (s : BlkState δ) : Nat :=
  (Finset.univ.filter fun i => (s.blockCache i).cnt ≠ 0#16).card

namespace Client

/-- Zeroed memory after `block_init`, over any device contents. -/
def boot (dev : δ) : Client δ where
  cache := blockInit
    { blockCache := fun _ => ⟨.free, 0, 0, 0, fun _ => 0⟩, device := dev }
  held := []
  last := fun key => (drv.read key dev).1

/-- One operation. -/
def step (c : Client δ) : CacheOp → Option (Client δ)
  | .bread key =>
      (Kernel.bread drv key c.cache).map fun found =>
        { c with cache := found.2, held := found.1 :: c.held }
  | .store i data =>
      some { c with
        cache := c.cache.setSlot i
          { c.cache.blockCache i with data := data, flags := .modified }
        last := Function.update c.last (c.cache.blockCache i).key data }
  | .bfree i => some { c with cache := Kernel.bfree i c.cache, held := c.held.erase i }
  | .blockSync => some { c with cache := Kernel.blockSync drv c.cache }

/-- What a client asks: fewer than `BLOCK_CACHE_SIZE` blocks are pinned at a `bread`, and only held blocks
are changed or given back. -/
def Asked (c : Client δ) : CacheOp → Prop
  | .bread _ => pinnedBlocks c.cache < blockCacheSize
  | .store i _ => i ∈ c.held
  | .bfree i => i ∈ c.held
  | .blockSync => True

/-- There are no more holds of a block than the 16-bit count can tell apart. -/
def Bounded (c : Client δ) : CacheOp → Prop
  | .bread key => ∀ i, (c.cache.blockCache i).key = key → c.held.count i + 1 < 2 ^ 16
  | _ => True

/-- The client's side of the contract. -/
def Allowed (c : Client δ) (op : CacheOp) : Prop := c.Asked op ∧ c.Bounded op

/-- One operation within a contract. -/
def StepIn (contract : Client δ → CacheOp → Prop) (c : Client δ) (op : CacheOp) (d : Client δ) : Prop :=
  contract c op ∧ c.step drv op = some d

/-- One operation within the contract of the cache. -/
abbrev Step : Client δ → CacheOp → Client δ → Prop := StepIn drv Allowed

/-- **Transparency** towards a client that keeps to a contract. -/
structure Transparent (contract : Client δ → CacheOp → Prop) (c : Client δ) : Prop where
  returns : ∀ key, contract c (.bread key) → ∃ i t, Kernel.bread drv key c.cache = some (i, t) ∧
    (t.blockCache i).key = key ∧ (t.blockCache i).data = c.last key
  distinct : ∀ i j, (c.cache.blockCache i).flags ≠ .free → (c.cache.blockCache j).flags ≠ .free →
    (c.cache.blockCache i).key = (c.cache.blockCache j).key → i = j
  stays : ∀ op d, StepIn drv contract c op d → ∀ i, (c.cache.blockCache i).cnt ≠ 0#16 →
    (d.cache.blockCache i).flags ≠ .free ∧ (d.cache.blockCache i).key = (c.cache.blockCache i).key
  synced : (∀ i, (c.cache.blockCache i).cnt = 0#16) →
    ∀ key, (drv.read key (Kernel.blockSync drv c.cache).device).1 = c.last key

/-- The invariant: the cache shows what was last stored, and the counts are the holds. -/
structure Inv (c : Client δ) : Prop where
  cache : CacheInv drv ∅ c.last c.cache
  count : ∀ i, (c.cache.blockCache i).cnt = BitVec.ofNat 16 (c.held.count i)
  bounded : ∀ i, c.held.count i < 2 ^ 16

variable {drv} {c d : Client δ}

theorem boot_inv (dev : δ) : Inv drv (boot drv dev) := by
  refine ⟨⟨?_, ?_, ?_, ?_, ?_⟩, fun i => rfl, fun i => by simp [boot]⟩
  · intro i j inUse
    exact absurd rfl inUse
  · exact fun i _ => rfl
  · intro i inUse
    exact absurd rfl inUse
  · intro i used
    cases used
  · exact fun key _ _ => rfl

/-- The count of a slot is the number of its holds. -/
theorem Inv.cnt_toNat (inv : Inv drv c) (i : Fin blockCacheSize) :
    (c.cache.blockCache i).cnt.toNat = c.held.count i := by
  rw [inv.count, BitVec.toNat_ofNat, Nat.mod_eq_of_lt (inv.bounded i)]

theorem Inv.cnt_ne_zero (inv : Inv drv c) {i : Fin blockCacheSize} (held : i ∈ c.held) :
    (c.cache.blockCache i).cnt ≠ 0#16 := by
  intro zero
  have positive := List.count_pos_iff.mpr held
  have value := inv.cnt_toNat i
  rw [zero] at value
  exact Nat.ne_of_lt positive value

theorem Inv.inUse (inv : Inv drv c) {i : Fin blockCacheSize}
    (held : (c.cache.blockCache i).cnt ≠ 0#16) : (c.cache.blockCache i).flags ≠ .free :=
  fun free => held (inv.cache.idle i free)

/-- Fewer than sixteen pinned blocks leave a slot nobody holds. -/
theorem exists_idle {s : BlkState δ} (few : pinnedBlocks s < blockCacheSize) :
    ∃ i, (s.blockCache i).cnt = 0#16 := by
  by_contra none
  have all : ∀ i, (s.blockCache i).cnt ≠ 0#16 := fun i idle => none ⟨i, idle⟩
  unfold pinnedBlocks at few
  rw [Finset.filter_true_of_mem fun i _ => all i, Finset.card_univ, Fintype.card_fin] at few
  exact lt_irrefl _ few

/-- **`bread` within the contract**: it returns a slot of the block with the data last stored. -/
theorem Inv.bread (inv : Inv drv c) {key : BlockKey} (allowed : Allowed c (.bread key)) :
    ∃ i t, Kernel.bread drv key c.cache = some (i, t) ∧ BreadResult key c.cache i t ∧
      CacheInv drv ∅ c.last t ∧ (t.blockCache i).data = c.last key := by
  obtain ⟨i, t, returns, result, after⟩ :=
    bread_spec inv.cache (Or.inl (Set.notMem_empty key)) (exists_idle allowed.1)
  refine ⟨i, t, returns, result, after, ?_⟩
  rw [after.shown i result.holds.1 (Or.inr (Set.notMem_empty _)), result.holds.2]

/-- The slot that `bread` returns has room for one more hold: it had the block before, or nobody held it. -/
theorem Inv.hold_bounded (inv : Inv drv c) {key : BlockKey} {i : Fin blockCacheSize} {t : BlkState δ}
    (bounded : c.Bounded (.bread key)) (result : BreadResult key c.cache i t) : c.held.count i + 1 < 2 ^ 16 := by
  by_cases idle : (c.cache.blockCache i).cnt = 0#16
  · have none := inv.cnt_toNat i
    rw [idle] at none
    rw [← none]
    decide
  · have here := result.holds.2
    rw [result.held i idle] at here
    exact bounded i here

theorem Inv.step (inv : Inv drv c) {op : CacheOp} (step : Step drv c op d) : Inv drv d := by
  obtain ⟨⟨asked, bounded⟩, moved⟩ := step
  cases op with
  | bread key =>
    obtain ⟨i, t, returns, result, after, -⟩ := inv.bread ⟨asked, bounded⟩
    simp only [Client.step, returns, Option.map_some, Option.some.injEq] at moved
    subst moved
    refine ⟨after, fun j => ?_, fun j => ?_⟩
    · by_cases same : j = i
      · subst same
        rw [result.count, inv.count, List.count_cons_self]
        exact (BitVec.ofNat_add _ _).symm
      · rw [result.counts j same, inv.count, List.count_cons_of_ne (fun equal => same equal.symm)]
    · by_cases same : j = i
      · subst same
        rw [List.count_cons_self]
        exact inv.hold_bounded bounded result
      · rw [List.count_cons_of_ne (fun equal => same equal.symm)]
        exact inv.bounded j
  | store i data =>
    simp only [Client.step, Option.some.injEq] at moved
    subst moved
    have inUse := inv.inUse (inv.cnt_ne_zero asked)
    refine ⟨store_keeps inv.cache inUse data, fun j => ?_, inv.bounded⟩
    by_cases same : j = i
    · subst same
      rw [BlkState.setSlot_self]
      exact inv.count j
    · rw [BlkState.setSlot_ne _ _ same]
      exact inv.count j
  | bfree i =>
    simp only [Client.step, Option.some.injEq] at moved
    subst moved
    have inUse := inv.inUse (inv.cnt_ne_zero asked)
    refine ⟨bfree_keeps inv.cache inUse (Or.inr (Set.notMem_empty _)), fun j => ?_, fun j => ?_⟩
    · by_cases same : j = i
      · subst same
        have positive := List.count_pos_iff.mpr asked
        simp only [bfree_self, inv.count, List.count_erase_self]
        exact (BitVec.ofNat_sub_ofNat_of_le _ 1 (by norm_num) positive)
      · simp only [bfree_ne _ same, List.count_erase_of_ne same]
        exact inv.count j
    · exact lt_of_le_of_lt (List.erase_sublist.count_le j) (inv.bounded j)
  | blockSync =>
    simp only [Client.step, Option.some.injEq] at moved
    subst moved
    refine ⟨?_, fun j => ?_, inv.bounded⟩ <;> dsimp only
    · exact blockSync_keeps inv.cache
    · rw [blockSync_slot, Block.synced_cnt]
      exact inv.count j

/-- **A held slot stays where it is**, whatever the operation. -/
theorem Inv.held_stays (inv : Inv drv c) {op : CacheOp} (step : Step drv c op d)
    {i : Fin blockCacheSize} (held : (c.cache.blockCache i).cnt ≠ 0#16) :
    (d.cache.blockCache i).flags ≠ .free ∧
      (d.cache.blockCache i).key = (c.cache.blockCache i).key := by
  have inUse := inv.inUse held
  obtain ⟨allowed, moved⟩ := step
  cases op with
  | bread key =>
    obtain ⟨k, t, returns, result, -, -⟩ := inv.bread allowed
    simp only [Client.step, returns, Option.map_some, Option.some.injEq] at moved
    subst moved
    rw [result.held i held]
    exact ⟨inUse, rfl⟩
  | store k data =>
    simp only [Client.step, Option.some.injEq] at moved
    subst moved
    by_cases same : i = k
    · subst same
      rw [BlkState.setSlot_self]
      exact ⟨fun clash => (by cases clash), rfl⟩
    · rw [BlkState.setSlot_ne _ _ same]
      exact ⟨inUse, rfl⟩
  | bfree k =>
    simp only [Client.step, Option.some.injEq] at moved
    subst moved
    by_cases same : i = k
    · subst same
      rw [bfree_self]
      exact ⟨inUse, rfl⟩
    · rw [bfree_ne _ same]
      exact ⟨inUse, rfl⟩
  | blockSync =>
    simp only [Client.step, Option.some.injEq] at moved
    subst moved
    rw [blockSync_slot, Block.synced_held held]
    exact ⟨inUse, rfl⟩

/-- **A `block_sync` with nothing held puts everything on the devices.** -/
theorem Inv.synced (inv : Inv drv c) (idle : ∀ i, (c.cache.blockCache i).cnt = 0#16)
    (key : BlockKey) : (drv.read key (Kernel.blockSync drv c.cache).device).1 = c.last key := by
  refine (blockSync_keeps inv.cache).absent key (Set.notMem_empty key) fun i => ?_
  rw [blockSync_slot, Block.synced_idle (idle i)]
  simp [Block.holds]

end Client

/-- **Buffer-cache transparency**, in every state a client within its contract reaches from boot. -/
theorem bufferCache_transparent (dev : δ) {ops : List CacheOp} {c : Client δ}
    (run : Run (Client.Step drv) (Client.boot drv dev) ops c) : Client.Transparent drv Client.Allowed c := by
  have inv : Client.Inv drv c :=
    run.preserves (fun _ _ _ holds step => holds.step step) (Client.boot_inv dev)
  refine ⟨fun key allowed => ?_, inv.cache.distinct, fun op d step i held => ?_, inv.synced⟩
  · obtain ⟨i, t, returns, result, -, data⟩ := inv.bread allowed
    exact ⟨i, t, returns, result.holds.2, data⟩
  · exact inv.held_stays step held

/-- A RAM disk: the simplest faithful driver. -/
def ramDriver : BlkDriver (BlockKey → BlockData) where
  read key dev := (dev key, dev)
  write key data dev := Function.update dev key data
  read_write_self _ _ _ := Function.update_self _ _ _
  read_write_other _ _ _ _ ne := Function.update_of_ne ne _ _
  read_read _ _ _ := rfl

/-- Block 5 of an empty RAM disk read, changed and given back: after a `block_sync` the device has the
change. -/
theorem bufferCache_transparent_ram : ∃ c : Client (BlockKey → BlockData),
    Run (Client.Step ramDriver) (Client.boot ramDriver fun _ _ => 0)
      [.bread (0, 5), .store 0 (fun _ => 7), .bfree 0] c ∧
      (ramDriver.read (0, 5) (blockSync ramDriver c.cache).device).1 = fun _ => 7 := by
  obtain ⟨c, run, idle, last⟩ : ∃ c : Client (BlockKey → BlockData),
      Run (Client.Step ramDriver) (Client.boot ramDriver fun _ _ => 0)
        [.bread (0, 5), .store 0 (fun _ => 7), .bfree 0] c ∧
        (∀ i, (c.cache.blockCache i).cnt = 0#16) ∧ c.last (0, 5) = fun _ => 7 := by
    refine ⟨_, .cons ⟨⟨?_, fun _ _ => Nat.one_lt_two_pow (by decide)⟩, rfl⟩
      (.cons ⟨⟨?_, trivial⟩, rfl⟩ (.single ⟨⟨?_, trivial⟩, rfl⟩)), ?_, ?_⟩
    · show pinnedBlocks _ < _
      decide
    · exact List.mem_singleton_self (0 : Fin blockCacheSize)
    · exact List.mem_singleton_self (0 : Fin blockCacheSize)
    · decide
    · rfl
  refine ⟨c, run, ?_⟩
  rw [(bufferCache_transparent ramDriver _ run).synced idle, last]

/-! ### A block held too often -/

namespace Client

variable {drv} {c : Client δ} {key : BlockKey} {i : Fin blockCacheSize}

/-- `n` more holds of the block in slot `i`. -/
def reread (c : Client δ) (i : Fin blockCacheSize) (n : Nat) : Client δ where
  cache := c.cache.setSlot i { c.cache.blockCache i with cnt := (c.cache.blockCache i).cnt + BitVec.ofNat 16 n }
  held := List.replicate n i ++ c.held
  last := c.last

theorem reread_reread (n : Nat) : (c.reread i 1).reread i n = c.reread i (n + 1) := by
  have count : (c.cache.blockCache i).cnt + BitVec.ofNat 16 1 + BitVec.ofNat 16 n =
      (c.cache.blockCache i).cnt + BitVec.ofNat 16 (n + 1) := by
    rw [BitVec.add_assoc, ← BitVec.ofNat_add, Nat.add_comm]
  unfold reread
  simp only [BlkState.setSlot_self, count, List.replicate_succ', List.append_assoc]
  unfold BlkState.setSlot
  simp only [Function.update_idem]
  rfl

theorem reread_findSlot (n : Nat) :
    (c.reread i n).cache.findSlot (Block.holds key) = c.cache.findSlot (Block.holds key) := by
  have same : ∀ j, ((c.reread i n).cache.blockCache j).holds key = (c.cache.blockCache j).holds key := fun j => by
    unfold reread
    by_cases here : j = i
    · subst here
      rw [BlkState.setSlot_self]
      rfl
    · rw [BlkState.setSlot_ne _ _ here]
  unfold BlkState.findSlot
  simp only [same]

/-- Where nobody holds another slot, at most one block is pinned. -/
theorem reread_pinned (alone : ∀ j, j ≠ i → (c.cache.blockCache j).cnt = 0#16) :
    pinnedBlocks c.cache < blockCacheSize := by
  unfold pinnedBlocks
  have one : Finset.univ.filter (fun j => (c.cache.blockCache j).cnt ≠ 0#16) ⊆ {i} := fun j pinned => by
    by_contra other
    exact (Finset.mem_filter.mp pinned).2 (alone j fun same => other (Finset.mem_singleton.mpr same))
  refine lt_of_le_of_lt (Finset.card_le_card one) ?_
  rw [Finset.card_singleton]
  decide

/-- **A block in the cache is read `n` times**, by induction on `n`. -/
theorem reread_run (n : Nat) (found : c.cache.findSlot (Block.holds key) = some i)
    (alone : ∀ j, j ≠ i → (c.cache.blockCache j).cnt = 0#16) :
    Run (StepIn drv Asked) c (List.replicate n (.bread key)) (c.reread i n) := by
  induction n generalizing c with
  | zero =>
    have same : c.reread i 0 = c := by
      unfold reread
      simp [BlkState.setSlot]
    rw [same]
    exact .nil c
  | succ n ih =>
    have returns : Kernel.bread drv key c.cache = some (i, (c.reread i 1).cache) := by
      unfold Kernel.bread breadLoop
      rw [breadScan_resident found]
      rfl
    have step : c.step drv (.bread key) = some (c.reread i 1) := by
      unfold Client.step
      dsimp only
      rw [returns]
      rfl
    rw [List.replicate_succ, ← reread_reread]
    refine .cons ⟨reread_pinned alone, step⟩ (ih ((reread_findSlot 1).trans found) fun j ne => ?_)
    exact (congrArg Block.cnt (BlkState.setSlot_ne _ _ ne)).trans (alone j ne)

end Client

/-- Block 5 of an empty RAM disk, read once. -/
def heldOnce : Client (BlockKey → BlockData) where
  cache := (Client.boot ramDriver fun _ _ => 0).cache.setSlot 0 ⟨.used, 0, 5, 1, fun _ => 0⟩
  held := [0]
  last := fun _ _ => 0

/-- **A block that is held 65536 times.** Its count is 0, `block_sync` frees its slot, and after a `bfree` the count
is 65535: the slot is pinned and free, and the next `bread` fills it with another block. -/
theorem bufferCache_overheld : ∃ ops c, Run (Client.StepIn ramDriver Client.Asked)
      (Client.boot ramDriver fun _ _ => 0) ops c ∧ ¬ Client.Transparent ramDriver Client.Asked c := by
  have first : (Client.boot ramDriver fun _ _ => 0).step ramDriver (.bread (0, 5)) = some heldOnce := rfl
  have asked : (Client.boot ramDriver fun _ _ => 0).Asked (.bread (0, 5)) := by
    show pinnedBlocks _ < _
    decide
  have found : heldOnce.cache.findSlot (Block.holds (0, 5)) = some 0 := by decide
  have again := @Client.reread_run _ ramDriver heldOnce (0, 5) 0 65535 found (by decide)
  have sync : Client.StepIn ramDriver Client.Asked (heldOnce.reread 0 65535) .blockSync
      { heldOnce.reread 0 65535 with cache := blockSync ramDriver (heldOnce.reread 0 65535).cache } :=
    ⟨trivial, rfl⟩
  have held : (0 : Fin blockCacheSize) ∈ (heldOnce.reread 0 65535).held :=
    List.mem_append_left _ (List.mem_replicate.mpr ⟨by decide, rfl⟩)
  have back : Client.StepIn ramDriver Client.Asked
      { heldOnce.reread 0 65535 with cache := blockSync ramDriver (heldOnce.reread 0 65535).cache } (.bfree 0) _ :=
    ⟨held, rfl⟩
  refine ⟨_, _, .cons ⟨asked, first⟩ (again.append (.cons sync (.single back))), fun transparent => ?_⟩
  have moved := transparent.stays (.bread (0, 6)) _ ⟨?_, rfl⟩ 0 ?_
  · exact absurd moved.2 (by decide)
  · show pinnedBlocks _ < _
    decide
  · decide

end RlCpu.Kernel
