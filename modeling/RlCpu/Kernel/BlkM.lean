/-
**Programs over the block cache, and what they see.**

`BlkM δ` is the monad of the filesystem code: the cache and the devices under it, with the ways a
kernel function can fail to return. Its primitives are `bread`, `bfree`, `block_sync` and the accesses
to `b->data` and `b->flags`.

`DiskView` is the disk as such a program sees it: the data of every block, the pointers it holds, and
the blocks it changed without setting `BLOCK_MODIFIED`. `Shows drv base room s a` ties a cache `s` to a
view `a`: `base` are the holds of everybody else, and `room` bounds the holds of the program. The rules
`wp_bread`, `wp_bfree`, `wp_data`, `wp_setData`, `wp_setModified` are all the later modules use.
-/

import RlCpu.Kernel.BlkTransparency
import RlCpu.Lib.Refine

namespace RlCpu.Kernel

open RlCpu.Lib

/-- How a kernel function can fail to return. -/
inductive Fault
  /-- `bread` loops for ever: every slot is held. -/
  | hang
  /-- An access outside an array. -/
  | wild
  /-- `panic` -/
  | panic
  deriving DecidableEq, Repr

/-- Kernel code over the block cache. -/
abbrev BlkM (δ : Type) := StateT (BlkState δ) (Except Fault)

/-- `struct Block *` -/
abbrev BlockPtr := Fin blockCacheSize

variable {δ : Type} (drv : BlkDriver δ)

namespace BlkM

/-- `bread` -/
def bread (device n : Word) : BlkM δ BlockPtr := fun s =>
  match Kernel.bread drv (device, n) s with
  | some found => .ok found
  | none => .error .hang

/-- `bfree` -/
def bfree (b : BlockPtr) : BlkM δ Unit := fun s => .ok ((), Kernel.bfree b s)

/-- `b->data` -/
def data (b : BlockPtr) : BlkM δ BlockData := fun s => .ok ((s.blockCache b).data, s)

/-- Assign to `b->data`. -/
def setData (b : BlockPtr) (data : BlockData) : BlkM δ Unit := fun s =>
  .ok ((), s.setSlot b { s.blockCache b with data := data })

/-- `b->flags = BLOCK_MODIFIED` -/
def setModified (b : BlockPtr) : BlkM δ Unit := fun s =>
  .ok ((), s.setSlot b { s.blockCache b with flags := .modified })

/-- `block_sync` -/
def blockSync : BlkM δ Unit := fun s => .ok ((), Kernel.blockSync drv s)

end BlkM

/-! ### Stores without `BLOCK_MODIFIED` -/

section Keep

variable {drv} {soft : Set BlockKey} {last : BlockKey → BlockData} {s : BlkState δ}

/-- `b->data` changed, `b->flags` left alone. -/
theorem setData_keeps (inv : CacheInv drv soft last s) {i : BlockPtr}
    (inUse : (s.blockCache i).flags ≠ .free) (data : BlockData) :
    CacheInv drv (insert (s.blockCache i).key soft)
      (Function.update last (s.blockCache i).key data)
      (s.setSlot i { s.blockCache i with data := data }) := by
  refine ⟨fun j l => ?_, fun j => ?_, fun j => ?_, fun j => ?_, fun other hard missing => ?_⟩
  · by_cases first : j = i <;> by_cases second : l = i
    · exact fun _ _ _ => first.trans second.symm
    · subst first
      rw [BlkState.setSlot_self, BlkState.setSlot_ne _ _ second]
      exact inv.distinct j l
    · subst second
      rw [BlkState.setSlot_self, BlkState.setSlot_ne _ _ first]
      exact inv.distinct j l
    · rw [BlkState.setSlot_ne _ _ first, BlkState.setSlot_ne _ _ second]
      exact inv.distinct j l
  · by_cases same : j = i
    · subst same
      rw [BlkState.setSlot_self]
      exact inv.idle j
    · rw [BlkState.setSlot_ne _ _ same]
      exact inv.idle j
  · by_cases same : j = i
    · subst same
      rw [BlkState.setSlot_self]
      exact fun _ _ => (Function.update_self (s.blockCache j).key data last).symm
    · rw [BlkState.setSlot_ne _ _ same]
      intro busy visible
      rw [Function.update_of_ne (fun equal => same (inv.distinct j i busy inUse equal))]
      exact inv.shown j busy (visible.imp id fun hard changed => hard (Or.inr changed))
  · by_cases same : j = i
    · subst same
      rw [BlkState.setSlot_self]
      exact fun _ hard => absurd (Or.inl rfl) hard
    · rw [BlkState.setSlot_ne _ _ same]
      exact fun used hard => inv.clean j used fun changed => hard (Or.inr changed)
  · have away : other ≠ (s.blockCache i).key := fun same => hard (Or.inl same)
    rw [Function.update_of_ne away]
    refine inv.absent other (fun changed => hard (Or.inr changed)) fun j => ?_
    by_cases same : j = i
    · subst same
      simp [Block.holds, away.symm]
    · rw [← BlkState.setSlot_ne s _ same]
      exact missing j

/-- `BLOCK_MODIFIED` set on a held slot: its data are no longer at risk. -/
theorem setModified_keeps (inv : CacheInv drv soft last s) {i : BlockPtr}
    (held : (s.blockCache i).cnt ≠ 0#16) :
    CacheInv drv (soft \ {(s.blockCache i).key}) last
      (s.setSlot i { s.blockCache i with flags := .modified }) := by
  have inUse : (s.blockCache i).flags ≠ .free := fun free => held (inv.idle i free)
  have others : ∀ j, j ≠ i → (s.blockCache j).flags ≠ .free →
      (s.blockCache j).key ≠ (s.blockCache i).key :=
    fun j ne busy same => ne (inv.distinct j i busy inUse same)
  refine ⟨fun j l => ?_, fun j => ?_, fun j => ?_, fun j => ?_, fun other hard missing => ?_⟩
  · by_cases first : j = i <;> by_cases second : l = i
    · exact fun _ _ _ => first.trans second.symm
    · subst first
      rw [BlkState.setSlot_self, BlkState.setSlot_ne _ _ second]
      exact fun _ => inv.distinct j l inUse
    · subst second
      rw [BlkState.setSlot_self, BlkState.setSlot_ne _ _ first]
      exact fun busy _ => inv.distinct j l busy inUse
    · rw [BlkState.setSlot_ne _ _ first, BlkState.setSlot_ne _ _ second]
      exact inv.distinct j l
  · by_cases same : j = i
    · subst same
      rw [BlkState.setSlot_self]
      exact fun clash => by cases clash
    · rw [BlkState.setSlot_ne _ _ same]
      exact inv.idle j
  · by_cases same : j = i
    · subst same
      rw [BlkState.setSlot_self]
      exact fun _ _ => inv.shown j inUse (Or.inl held)
    · rw [BlkState.setSlot_ne _ _ same]
      intro busy visible
      exact inv.shown j busy
        (visible.imp id fun hard changed => hard ⟨changed, others j same busy⟩)
  · by_cases same : j = i
    · subst same
      rw [BlkState.setSlot_self]
      exact fun clash => by cases clash
    · rw [BlkState.setSlot_ne _ _ same]
      intro used hard
      refine inv.clean j used fun changed => hard ⟨changed, others j same ?_⟩
      rw [used]
      exact fun clash => by cases clash
  · have away : other ≠ (s.blockCache i).key := by
      rintro rfl
      have now := missing i
      rw [BlkState.setSlot_self] at now
      simp [Block.holds] at now
    refine inv.absent other (fun changed => hard ⟨changed, away⟩) fun j => ?_
    by_cases same : j = i
    · subst same
      simp [Block.holds, away.symm]
    · rw [← BlkState.setSlot_ne s _ same]
      exact missing j

end Keep

/-! ### What a program sees -/

/-- The disk as a program sees it through the cache. -/
structure DiskView where
  data : BlockKey → BlockData
  /-- The pointers the program holds, with the blocks they were read for. -/
  pins : List (BlockPtr × BlockKey)
  /-- The blocks changed without `BLOCK_MODIFIED`. -/
  soft : Set BlockKey

namespace DiskView

/-- One more hold. -/
def pin (a : DiskView) (i : BlockPtr) (key : BlockKey) : DiskView :=
  { a with pins := (i, key) :: a.pins }

/-- One hold less. -/
def unpin (a : DiskView) (i : BlockPtr) (key : BlockKey) : DiskView :=
  { a with pins := a.pins.erase (i, key) }

/-- The data of one block replaced. -/
def put (a : DiskView) (key : BlockKey) (data : BlockData) : DiskView :=
  { a with data := Function.update a.data key data }

/-- The data of one block replaced, without `BLOCK_MODIFIED`. -/
def store (a : DiskView) (key : BlockKey) (data : BlockData) : DiskView :=
  { a.put key data with soft := insert key a.soft }

/-- `BLOCK_MODIFIED` set. -/
def settle (a : DiskView) (key : BlockKey) : DiskView := { a with soft := a.soft \ {key} }

variable (a : DiskView) (i : BlockPtr) (key : BlockKey) (data : BlockData)

@[simp] theorem pin_pins : (a.pin i key).pins = (i, key) :: a.pins := rfl
@[simp] theorem pin_data : (a.pin i key).data = a.data := rfl
@[simp] theorem pin_soft : (a.pin i key).soft = a.soft := rfl
@[simp] theorem put_pins : (a.put key data).pins = a.pins := rfl
@[simp] theorem put_soft : (a.put key data).soft = a.soft := rfl
@[simp] theorem put_data_self : (a.put key data).data key = data := Function.update_self _ _ _
@[simp] theorem store_pins : (a.store key data).pins = a.pins := rfl
@[simp] theorem store_soft : (a.store key data).soft = insert key a.soft := rfl
@[simp] theorem store_data_self : (a.store key data).data key = data := Function.update_self _ _ _
@[simp] theorem settle_pins : (a.settle key).pins = a.pins := rfl
@[simp] theorem settle_data : (a.settle key).data = a.data := rfl
@[simp] theorem settle_soft : (a.settle key).soft = a.soft \ {key} := rfl

theorem put_data_ne {other : BlockKey} (ne : other ≠ key) :
    (a.put key data).data other = a.data other := Function.update_of_ne ne _ _

theorem store_data_ne {other : BlockKey} (ne : other ≠ key) :
    (a.store key data).data other = a.data other := Function.update_of_ne ne _ _

theorem mem_pin : (i, key) ∈ (a.pin i key).pins := List.mem_cons_self

/-- A hold given back at once. -/
@[simp] theorem pin_unpin : (a.pin i key).unpin i key = a := by
  simp [pin, unpin]

/-- A block read, changed, marked `BLOCK_MODIFIED` and given back. -/
theorem pin_store_settle_unpin :
    (((a.pin i key).store key data).settle key).unpin i key =
      { a.put key data with soft := a.soft \ {key} } := by
  simp [pin, unpin, store, settle, put]

/-- The same, for a block that was not at risk before. -/
theorem pin_store_settle_unpin_hard (hard : key ∉ a.soft) :
    (((a.pin i key).store key data).settle key).unpin i key = a.put key data := by
  rw [pin_store_settle_unpin, Set.sdiff_singleton_eq_self hard]
  rfl

end DiskView

/-- The cache `s` shows the view `a` to a program that holds at most `room` blocks at once, while
everybody else holds slot `i` `base i` times. -/
structure Shows (drv : BlkDriver δ) (base : BlockPtr → Nat) (room : Nat) (s : BlkState δ)
    (a : DiskView) : Prop where
  cache : CacheInv drv a.soft a.data s
  count : ∀ i, (s.blockCache i).cnt = BitVec.ofNat 16 (base i + (a.pins.map Prod.fst).count i)
  pinned : ∀ p ∈ a.pins, (s.blockCache p.1).key = p.2
  few : a.pins.length ≤ room
  spare : (Finset.univ.filter fun i => base i ≠ 0).card + room ≤ blockCacheSize
  small : ∀ i, base i + room < 2 ^ 16

namespace Shows

variable {drv} {base : BlockPtr → Nat} {room : Nat} {s : BlkState δ} {a : DiskView}

/-- A count is zero only where nobody holds the slot. -/
theorem cnt_eq_zero (shows : Shows drv base room s a) (i : BlockPtr) :
    (s.blockCache i).cnt = 0#16 ↔ base i + (a.pins.map Prod.fst).count i = 0 := by
  have few : (a.pins.map Prod.fst).count i ≤ a.pins.length := by
    have bound := List.count_le_length (a := i) (l := a.pins.map Prod.fst)
    rwa [List.length_map] at bound
  have bound := shows.small i
  have little := shows.few
  rw [shows.count]
  constructor
  · intro zero
    have value := congrArg BitVec.toNat zero
    rw [BitVec.toNat_ofNat, Nat.mod_eq_of_lt (by omega)] at value
    exact value
  · intro zero
    rw [zero]

theorem held (shows : Shows drv base room s a) {i : BlockPtr} {key : BlockKey}
    (pinned : (i, key) ∈ a.pins) : (s.blockCache i).cnt ≠ 0#16 := by
  rw [Ne, shows.cnt_eq_zero]
  have positive : 0 < (a.pins.map Prod.fst).count i :=
    List.count_pos_iff.mpr (List.mem_map_of_mem (f := Prod.fst) pinned)
  omega

theorem inUse (shows : Shows drv base room s a) {i : BlockPtr}
    (held : (s.blockCache i).cnt ≠ 0#16) : (s.blockCache i).flags ≠ .free :=
  fun free => held (shows.cache.idle i free)

/-- Below `room` holds there is a slot nobody holds. -/
theorem exists_idle (shows : Shows drv base room s a) (free : a.pins.length < room) :
    ∃ i, (s.blockCache i).cnt = 0#16 := by
  by_contra none
  have covered : (Finset.univ : Finset BlockPtr) ⊆
      (Finset.univ.filter fun i => base i ≠ 0) ∪ (a.pins.map Prod.fst).toFinset := by
    intro i _
    have busy : base i + (a.pins.map Prod.fst).count i ≠ 0 :=
      fun zero => none ⟨i, (shows.cnt_eq_zero i).mpr zero⟩
    by_cases theirs : base i = 0
    · have positive : 0 < (a.pins.map Prod.fst).count i := by omega
      exact Finset.mem_union_right _ (List.mem_toFinset.mpr (List.count_pos_iff.mp positive))
    · exact Finset.mem_union_left _ (Finset.mem_filter.mpr ⟨Finset.mem_univ i, theirs⟩)
  have bound := (Finset.card_le_card covered).trans (Finset.card_union_le _ _)
  have ours := List.toFinset_card_le (a.pins.map Prod.fst)
  rw [List.length_map] at ours
  rw [Finset.card_univ, Fintype.card_fin] at bound
  have spare := shows.spare
  omega

/-- The data in a held slot are those of the view. -/
theorem data_eq (shows : Shows drv base room s a) {i : BlockPtr} {key : BlockKey}
    (pinned : (i, key) ∈ a.pins) : (s.blockCache i).data = a.data key := by
  have held := shows.held pinned
  have data := shows.cache.shown i (shows.inUse held) (Or.inl held)
  rwa [shows.pinned _ pinned] at data

end Shows

/-! ### The rules -/

section Rules

variable {drv} {base : BlockPtr → Nat} {room : Nat} {ok : Fault → Prop} {a : DiskView}

/-- **`bread`**: with room for one more hold it returns a pointer to the block. The data are those of
the view unless the block was changed without `BLOCK_MODIFIED` and is not held. -/
theorem wp_bread {device n : Word} {post : BlockPtr → DiskView → Prop}
    (free : a.pins.length < room)
    (rest : ∀ i data, ((device, n) ∉ a.soft ∨ (∃ j, (j, (device, n)) ∈ a.pins) →
      data = a.data (device, n)) → post i ((a.put (device, n) data).pin i (device, n))) :
    wp (Shows drv base room) ok (BlkM.bread drv device n) post a := by
  intro s shows
  obtain ⟨i, t, data, returns, result, after, same⟩ :=
    bread_returns shows.cache (device, n) (shows.exists_idle free)
  simp only [BlkM.bread, returns]
  refine ⟨(a.put (device, n) data).pin i (device, n),
    ⟨after, fun j => ?_, fun p pinned => ?_, free, shows.spare, shows.small⟩,
    rest i data fun known => same ?_⟩
  · show (t.blockCache j).cnt =
      BitVec.ofNat 16 (base j + ((i :: a.pins.map Prod.fst).count j))
    by_cases here : j = i
    · subst here
      rw [result.count, shows.count, List.count_cons_self, ← Nat.add_assoc]
      exact (BitVec.ofNat_add _ _).symm
    · rw [result.counts j here, shows.count, List.count_cons_of_ne (fun equal => here equal.symm)]
  · rcases List.mem_cons.mp pinned with rfl | before
    · exact result.holds.2
    · rw [result.held p.1 (shows.held before)]
      exact shows.pinned p before
  · refine known.imp id ?_
    rintro ⟨j, pinned⟩
    have held := shows.held pinned
    exact ⟨j, Block.holds_iff.mpr ⟨shows.inUse held, shows.pinned _ pinned⟩, held⟩

/-- `bread` of a block that is not at risk. -/
theorem wp_bread_hard {device n : Word} {post : BlockPtr → DiskView → Prop}
    (free : a.pins.length < room) (hard : (device, n) ∉ a.soft)
    (rest : ∀ i, post i (a.pin i (device, n))) :
    wp (Shows drv base room) ok (BlkM.bread drv device n) post a := by
  refine wp_bread free fun i data same => ?_
  have unchanged : a.put (device, n) data = a := by
    rw [same (Or.inl hard), DiskView.put, Function.update_eq_self]
  rw [unchanged]
  exact rest i

/-- **`bfree`** of a held pointer. -/
theorem wp_bfree {i : BlockPtr} {key : BlockKey} {post : Unit → DiskView → Prop}
    (pinned : (i, key) ∈ a.pins) (rest : post () (a.unpin i key)) :
    wp (Shows drv base room) ok (BlkM.bfree i) post a := by
  intro s shows
  have held := shows.held pinned
  refine ⟨a.unpin i key, ⟨bfree_keeps shows.cache (shows.inUse held) (Or.inl held), fun j => ?_,
    fun p mem => ?_, ?_, shows.spare, shows.small⟩, rest⟩
  · show ((bfree i s).blockCache j).cnt =
      BitVec.ofNat 16 (base j + (((a.pins.erase (i, key)).map Prod.fst).count j))
    have counts : (a.pins.map Prod.fst).count j =
        ((a.pins.erase (i, key)).map Prod.fst).count j + if j = i then 1 else 0 := by
      rw [((List.perm_cons_erase pinned).map Prod.fst).count_eq j, List.map_cons]
      by_cases here : j = i
      · rw [here, List.count_cons_self, if_pos rfl]
      · rw [List.count_cons_of_ne (fun equal => here equal.symm), if_neg here, Nat.add_zero]
    by_cases here : j = i
    · subst here
      rw [bfree_self]
      show (s.blockCache j).cnt - 1 = _
      rw [if_pos rfl] at counts
      rw [shows.count, counts, ← Nat.add_assoc, BitVec.ofNat_add]
      exact BitVec.add_sub_cancel _ _
    · rw [bfree_ne s here, shows.count, counts, if_neg here, Nat.add_zero]
  · have before := shows.pinned p (List.mem_of_mem_erase mem)
    by_cases here : p.1 = i
    · rw [here, bfree_self, ← before, here]
    · rw [bfree_ne s here, before]
  · have shorter := List.length_erase_le (a := (i, key)) (l := a.pins)
    exact shorter.trans shows.few

/-- `bfree` of the pointer read last. -/
theorem wp_bfree_pin {i : BlockPtr} {key : BlockKey} {post : Unit → DiskView → Prop}
    (rest : post () a) : wp (Shows drv base room) ok (BlkM.bfree i) post (a.pin i key) := by
  refine wp_bfree (a.mem_pin i key) ?_
  rw [DiskView.pin_unpin]
  exact rest

/-- **`b->data`** of a held pointer. -/
theorem wp_data {i : BlockPtr} {key : BlockKey} {post : BlockData → DiskView → Prop}
    (pinned : (i, key) ∈ a.pins) (rest : post (a.data key) a) :
    wp (Shows drv base room) ok (BlkM.data i) post a := by
  intro s shows
  refine ⟨a, shows, ?_⟩
  rw [shows.data_eq pinned]
  exact rest

/-- **A store** through a held pointer. -/
theorem wp_setData {i : BlockPtr} {key : BlockKey} {data : BlockData}
    {post : Unit → DiskView → Prop} (pinned : (i, key) ∈ a.pins)
    (rest : post () (a.store key data)) :
    wp (Shows drv base room) ok (BlkM.setData i data) post a := by
  intro s shows
  have kept := setData_keeps shows.cache (shows.inUse (shows.held pinned)) data
  have same := shows.pinned _ pinned
  rw [same] at kept
  refine ⟨a.store key data, ⟨kept, fun j => ?_, fun p mem => ?_, shows.few, shows.spare,
    shows.small⟩, rest⟩
  · by_cases here : j = i
    · subst here
      rw [BlkState.setSlot_self]
      exact shows.count j
    · rw [BlkState.setSlot_ne _ _ here]
      exact shows.count j
  · have before := shows.pinned p mem
    by_cases here : p.1 = i
    · rw [here, BlkState.setSlot_self, ← before, here]
    · rw [BlkState.setSlot_ne _ _ here, before]

/-- **`BLOCK_MODIFIED`** through a held pointer. -/
theorem wp_setModified {i : BlockPtr} {key : BlockKey} {post : Unit → DiskView → Prop}
    (pinned : (i, key) ∈ a.pins) (rest : post () (a.settle key)) :
    wp (Shows drv base room) ok (BlkM.setModified i) post a := by
  intro s shows
  have kept := setModified_keeps shows.cache (shows.held pinned)
  have same := shows.pinned _ pinned
  rw [same] at kept
  refine ⟨a.settle key, ⟨kept, fun j => ?_, fun p mem => ?_, shows.few, shows.spare,
    shows.small⟩, rest⟩
  · by_cases here : j = i
    · subst here
      rw [BlkState.setSlot_self]
      exact shows.count j
    · rw [BlkState.setSlot_ne _ _ here]
      exact shows.count j
  · have before := shows.pinned p mem
    by_cases here : p.1 = i
    · rw [here, BlkState.setSlot_self, ← before, here]
    · rw [BlkState.setSlot_ne _ _ here, before]

/-- **`block_sync`** changes nothing that is seen. -/
theorem wp_blockSync {post : Unit → DiskView → Prop} (rest : post () a) :
    wp (Shows drv base room) ok (BlkM.blockSync drv) post a := by
  intro s shows
  have slot := blockSync_slot drv s
  refine ⟨a, ⟨blockSync_keeps shows.cache, fun j => ?_, fun p mem => ?_, shows.few, shows.spare,
    shows.small⟩, rest⟩
  · rw [slot, Block.synced_cnt]
    exact shows.count j
  · rw [slot, Block.synced_held (shows.held mem)]
    exact shows.pinned p mem

end Rules

end RlCpu.Kernel
