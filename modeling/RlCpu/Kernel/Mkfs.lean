/-
**`fs_mkfs` makes a well-formed filesystem**, from any disk and any state of the cache: the root is its
only node.
-/

import RlCpu.Kernel.Calls

namespace RlCpu.Kernel

open RlCpu.Lib

variable {δ : Type} {drv : BlkDriver δ} {a b : DiskView} {d : Word} {base : BlockPtr → Nat}
  {room : Nat} {ok : Fault → Prop}

/-- The blocks `is` of device `d` were cleared. -/
structure Cleared (a b : DiskView) (d : Word) (is : List Nat) : Prop where
  pins : b.pins = a.pins
  zero : ∀ i ∈ is, b.data (d, BitVec.ofNat 16 i) = BlockData.zero ∧ (d, BitVec.ofNat 16 i) ∉ b.soft
  frame : ∀ key, (∀ i ∈ is, key ≠ (d, BitVec.ofNat 16 i)) → b.data key = a.data key
  soft : b.soft ⊆ a.soft

/-- The loop of `fs_mkfs` that clears blocks. -/
theorem wp_clearBlocks {post : Unit → DiskView → Prop} : ∀ (is : List Nat) {a : DiskView},
    a.pins.length < room → (∀ b, Cleared a b d is → post () b) →
    wp (Shows drv base room) ok (clearBlocks drv d is) post a := by
  intro is
  induction is with
  | nil => exact fun _ rest => wp_pure (rest _ ⟨rfl, fun i mem => absurd mem List.not_mem_nil,
      fun _ _ => rfl, le_rfl⟩)
  | cons i is ih =>
    intro a free rest
    unfold clearBlocks
    refine wp_bind (wp_bread free fun p x _ => ?_)
    have held := (a.put (d, BitVec.ofNat 16 i) x).mem_pin p (d, BitVec.ofNat 16 i)
    refine wp_bind (wp_setData held (wp_bind (wp_setModified held (wp_bind (wp_bfree held ?_)))))
    rw [DiskView.pin_store_settle_unpin]
    refine ih free fun b cleared => rest b ⟨cleared.pins, fun j mem => ?_, fun key away => ?_, ?_⟩
    · by_cases later : j ∈ is
      · exact cleared.zero j later
      · have same : j = i := (List.mem_cons.mp mem).resolve_right later
        subst same
        by_cases again : ∃ l ∈ is, (d, BitVec.ofNat 16 j) = (d, BitVec.ofNat 16 l)
        · obtain ⟨l, inside, equal⟩ := again
          rw [equal]
          exact cleared.zero l inside
        · refine ⟨?_, fun mem => (cleared.soft mem).2 rfl⟩
          rw [cleared.frame _ fun l inside equal => again ⟨l, inside, equal⟩]
          exact DiskView.put_data_self _ _ _
    · rw [cleared.frame key fun l inside => away l (List.mem_cons_of_mem i inside)]
      have ne := away i List.mem_cons_self
      exact (DiskView.put_data_ne _ _ _ ne).trans (DiskView.put_data_ne _ _ _ ne)
    · exact cleared.soft.trans fun key mem => mem.1

/-- The first bitmap block of an empty filesystem. -/
abbrev firstBitmap : BlockData := ((BlockData.zero.put 0 0xffff).put 1 0xffff).put 2 0x0007

/-- The root node before its dots are written. -/
abbrev rootBlock : BlockData := (BlockData.zero.put 0 sIfdir).put 1 64

/-- The bits of the blocks 0 to 34 are set. -/
theorem firstBitmap_reserved {data : BlockKey → BlockData} (first : data (d, 1) = firstBitmap) {c : Word}
    (low : c.toNat < 35) : isMarked data d c = true := by
  have all : ∀ i : Fin 35, bitBlock (BitVec.ofNat 16 i) = 1 ∧
      (firstBitmap.word (bitWord (BitVec.ofNat 16 i))).getLsbD (bitPos (BitVec.ofNat 16 i)) = true := by
    decide
  have here := all ⟨c.toNat, low⟩
  dsimp only at here
  rw [BitVec.ofNat_toNat, BitVec.setWidth_eq] at here
  unfold isMarked
  rw [here.1, first]
  exact here.2

/-- The bits of the blocks 35 to 39 are not. -/
theorem firstBitmap_free {data : BlockKey → BlockData} (first : data (d, 1) = firstBitmap) {c : Word}
    (low : 35 ≤ c.toNat) (high : c.toNat < 40) : isMarked data d c = false := by
  have all : ∀ i : Fin 5, bitBlock (BitVec.ofNat 16 (35 + i)) = 1 ∧ (firstBitmap.word
      (bitWord (BitVec.ofNat 16 (35 + i)))).getLsbD (bitPos (BitVec.ofNat 16 (35 + i))) = false := by
    decide
  have here := all ⟨c.toNat - 35, by omega⟩
  dsimp only at here
  rw [Nat.add_sub_cancel' low, BitVec.ofNat_toNat, BitVec.setWidth_eq] at here
  unfold isMarked
  rw [here.1, first]
  exact here.2

theorem rootBlock_word {i : Nat} (high : 2 ≤ i) : rootBlock.word i = 0 := by
  rw [BlockData.word_put_ne _ _ (by omega), BlockData.word_put_ne _ _ (by omega)]
  unfold BlockData.word
  split <;> rfl

/-- The disk before the dots of the root are written. -/
structure Formatted (a : DiskView) (d : Word) : Prop where
  first : a.data (d, 1) = firstBitmap
  root : a.data (d, rootIdx) = rootBlock
  hard : ∀ c : Word, 1 ≤ c.toNat → c.toNat < 35 → (d, c) ∉ a.soft

namespace Formatted

variable (formatted : Formatted a d)
include formatted

theorem vol : VolumeOk a d where
  reserved _ low := firstBitmap_reserved formatted.first low
  bitmap c := by
    refine formatted.hard _ ?_ ?_ <;> rw [bitBlock_toNat]
    · omega
    · have small := c.isLt
      omega

theorem ref (p : Place) : ref a.data d rootIdx p = 0 := by
  have none : ∀ i, 2 ≤ i → (a.data (d, rootIdx)).word i = 0 := fun i high => by
    rw [formatted.root]
    exact rootBlock_word high
  cases p with
  | index j => exact none _ (by omega)
  | data k =>
    show blockAt a.data d rootIdx k = 0
    unfold blockAt
    split
    case isTrue => exact none _ (by omega)
    case isFalse => exact if_pos (none _ (by omega))

theorem file : FileOk a d rootIdx where
  high := by decide
  marked := firstBitmap_reserved formatted.first (by decide)
  refs p here := absurd (formatted.ref p) here
  inj p _ _ here := absurd (formatted.ref p) here
  index j here := absurd (formatted.ref (.index j)) here

theorem free : 5 ≤ freeBlocks a d := by
  have five : (({35, 36, 37, 38, 39} : Finset Word) : Set Word).ncard = 5 := by
    rw [Set.ncard_coe_finset]
    rfl
  rw [← five]
  refine Set.ncard_le_ncard (fun c mem => ?_) (Set.toFinite _)
  simp only [Finset.coe_insert, Finset.coe_singleton, Set.mem_insert_iff, Set.mem_singleton_iff] at mem
  refine firstBitmap_free formatted.first ?_ ?_ <;>
    rcases mem with rfl | rfl | rfl | rfl | rfl <;> decide

theorem size : fileSize a.data d rootIdx = 64 := by
  unfold fileSize
  rw [formatted.root]
  decide

/-- **The tree of an empty filesystem.** -/
theorem tree {env : FsEnv} (written : FileWritten a b d rootIdx (fun _ => False) 0 64
    (dotsOf env rootIdx rootIdx)) : TreeOk b d {rootIdx} ∅ := by
  have grown := written.written.grown
  have small : fileSize a.data d rootIdx ≤ 64 := formatted.size.le
  have size := dots_size written small
  have mode : nodeMode b.data d rootIdx = sIfdir := by
    unfold nodeMode
    rw [grown.mode, formatted.root]
    decide
  have dir : IsDir b.data d rootIdx := by
    unfold IsDir
    rw [mode]
    decide
  have self : rootIdx ∈ ({rootIdx} : Set Word) := Set.mem_singleton _
  refine ⟨grown.vol, self, dir, fun n mem => ?_, fun n mem m mem' ne => ?_,
    fun n mem _ _ m _ _ _ i j x here => ?_⟩
  · rw [Set.mem_singleton_iff.mp mem]
    refine ⟨grown.file, fun soft => formatted.hard rootIdx (by decide) (by decide) (written.soft soft),
      fun dev => absurd dev dir.not_isDev, fun _ => ?_, fun _ p low high => ?_, fun _ _ => ?_⟩
    · rw [size]
      decide
    · rw [size] at high
      have first : p / 256 = 0 := by omega
      refine ⟨by rw [first]; decide, ?_, written.written.hard p low high⟩
      rw [first]
      exact grown.filled (.data 0) (by rw [touched_first]; exact Finset.mem_singleton_self _)
    · exact DirOk.of_dots written small self self dir dir (by decide) (by decide)
  · exact absurd ((Set.mem_singleton_iff.mp mem').trans (Set.mem_singleton_iff.mp mem).symm) ne
  · rw [Set.mem_singleton_iff.mp mem] at here
    exact absurd here (dots_names written small)

end Formatted

/-- The disk that `fs_mkfs` leaves: a tree with the root alone, that has the dots and nothing else. -/
structure EmptyFs (a b : DiskView) (d : Word) : Prop where
  pins : b.pins = a.pins
  soft : b.soft ⊆ a.soft
  tree : TreeOk b d {rootIdx} ∅
  size : fileSize b.data d rootIdx = 64
  dots : ∀ i < entryCount b.data d rootIdx, IsDots (entryWords b.data d rootIdx i)
  enough : 4 ≤ freeBlocks b d

/-- **`fs_mkfs`** -/
theorem wp_fsMkfs {env : FsEnv} {post : Unit → DiskView → Prop} (free : a.pins.length + 3 < room)
    (rest : ∀ b, EmptyFs a b d → post () b) :
    wp (Shows drv base room) ok (fsMkfs drv env d) post a := by
  unfold fsMkfs
  refine wp_bind (wp_bread (by omega) fun p x _ => ?_)
  have held := (a.put (d, 0) x).mem_pin p (d, 0)
  refine wp_bind (wp_data held (wp_bind (wp_setData held (wp_bind (wp_setModified held
    (wp_bind (wp_bfree held ?_)))))))
  rw [DiskView.pin_store_settle_unpin]
  refine wp_bind (wp_clearBlocks _ (show a.pins.length < room by omega) fun b cleared => ?_)
  have pins : b.pins = a.pins := cleared.pins
  have low : ∀ c : Word, 1 ≤ c.toNat → c.toNat < 35 → b.data (d, c) = BlockData.zero ∧ (d, c) ∉ b.soft := by
    intro c positive small
    have here := cleared.zero c.toNat (by rw [List.mem_range'_1]; omega)
    rwa [BitVec.ofNat_toNat, BitVec.setWidth_eq] at here
  have hard : (d, (1 : Word)) ∉ b.soft := (low 1 (by decide) (by decide)).2
  have hard' : (d, (34 : Word)) ∉ b.soft := (low 34 (by decide) (by decide)).2
  refine wp_bind (wp_bread_hard (by rw [pins]; omega) hard fun q => ?_)
  have held₁ := b.mem_pin q (d, 1)
  refine wp_bind (wp_data held₁ (wp_bind (wp_setData held₁ (wp_bind (wp_setModified held₁
    (wp_bind (wp_bfree held₁ ?_)))))))
  rw [DiskView.pin_store_settle_unpin_hard _ _ _ _ hard, DiskView.pin_data,
    (low 1 (by decide) (by decide)).1]
  refine wp_bind (wp_bread_hard (by rw [DiskView.put_pins, pins]; omega) hard' fun r => ?_)
  have held₂ := (b.put (d, 1) firstBitmap).mem_pin r (d, 34)
  refine wp_bind (wp_setData held₂ (wp_bind (wp_setModified held₂ (wp_bind (wp_bfree held₂ ?_)))))
  have hard₂ : (d, (34 : Word)) ∉ (b.put (d, 1) firstBitmap).soft := hard'
  rw [DiskView.pin_store_settle_unpin_hard _ _ _ _ hard₂]
  have ne : (1 : Word) ≠ 34 := by decide
  have formatted : Formatted ((b.put (d, 1) firstBitmap).put (d, 34) rootBlock) d := by
    refine ⟨?_, DiskView.put_data_self _ _ _, fun c positive small => (low c positive small).2⟩
    rw [DiskView.put_data_ne, DiskView.put_data_self]
    exact fun same => ne (congrArg Prod.snd same)
  have none : Kept ((b.put (d, 1) firstBitmap).put (d, 34) rootBlock) d rootIdx fun _ => False :=
    fun _ clash => clash.elim
  have pins₂ : ((b.put (d, 1) firstBitmap).put (d, 34) rootBlock).pins = a.pins := pins
  refine wp_writeDots (by rw [pins₂]; exact free) formatted.vol formatted.file
    (formatted.hard rootIdx (by decide) (by decide)) ((by decide : 1 ≤ 5).trans formatted.free) none
    fun e written => ?_
  have one : missing ((b.put (d, 1) firstBitmap).put (d, 34) rootBlock) d rootIdx (touched 0 64) ≤ 1 :=
    (Finset.card_filter_le _ _).trans (by rw [touched_first, Finset.card_singleton])
  have took := formatted.free.trans (written.written.grown.free_le.trans (Nat.add_le_add_left one _))
  have soft : e.soft ⊆ a.soft := written.soft.trans (cleared.soft.trans fun _ mem => mem.1)
  exact wp_blockSync (rest e ⟨written.written.grown.pins.trans pins₂, soft, formatted.tree written,
    dots_size written formatted.size.le, fun i low => (dots_entry written formatted.size.le low).1,
    by omega⟩)

end RlCpu.Kernel
