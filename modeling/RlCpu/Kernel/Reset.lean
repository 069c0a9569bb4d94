/-
**`fs_reset` gives the blocks of a node back.**

For a file without holes nothing but bits change, and the bits cleared are `resetList`: the data blocks
below the size, the index blocks up to the first index word that is 0, and the node. A device node has a
device number where a file has its size; for it `fs_reset` allocates blocks and gives them back at once
(`Scratch`).

* `wp_fsReset_mapped`: a file without holes.
* `wp_fsReset_device`: a device node.
* `Released`: what both have in common, and all that the rest of the tree needs.
-/

import RlCpu.Kernel.MakeNode

namespace RlCpu.Kernel

open RlCpu.Lib

variable {δ : Type} {drv : BlkDriver δ} {a b : DiskView} {d n x : Word} {live raw : Set Word}

/-! ### Many bits cleared -/

/-- The view with the bits of the blocks in `l` cleared. -/
def DiskView.clear (a : DiskView) (d : Word) (l : List Word) : DiskView :=
  l.foldl (fun a c => a.mark d c false) a

namespace DiskView

@[simp] theorem clear_nil (a : DiskView) (d : Word) : a.clear d [] = a := rfl

@[simp] theorem clear_cons (a : DiskView) (d c : Word) (l : List Word) :
    a.clear d (c :: l) = (a.mark d c false).clear d l := rfl

theorem clear_append (a : DiskView) (d : Word) (l l' : List Word) :
    a.clear d (l ++ l') = (a.clear d l).clear d l' := List.foldl_append

@[simp] theorem clear_pins (a : DiskView) (d : Word) (l : List Word) : (a.clear d l).pins = a.pins := by
  induction l generalizing a with
  | nil => rfl
  | cons c l ih => exact ih _

@[simp] theorem clear_soft (a : DiskView) (d : Word) (l : List Word) : (a.clear d l).soft = a.soft := by
  induction l generalizing a with
  | nil => rfl
  | cons c l ih => exact ih _

/-- Only bitmap blocks change. -/
theorem clear_data (a : DiskView) (l : List Word) {key : BlockKey}
    (away : ∀ c, key ≠ (d, bitBlock c)) : (a.clear d l).data key = a.data key := by
  induction l generalizing a with
  | nil => rfl
  | cons c l ih => exact (ih _).trans (mark_data_ne _ _ _ _ (away c))

/-- **The bits left.** -/
theorem isMarked_clear (a : DiskView) (d c : Word) (l : List Word) :
    isMarked (a.clear d l).data d c = true ↔ isMarked a.data d c = true ∧ c ∉ l := by
  induction l generalizing a with
  | nil => simp
  | cons e l ih =>
    rw [clear_cons, ih, isMarked_mark]
    by_cases here : c = e <;> simp [here]

theorem pin_clear (a : DiskView) (i : BlockPtr) (key : BlockKey) (l : List Word) :
    (a.pin i key).clear d l = (a.clear d l).pin i key := by
  induction l generalizing a with
  | nil => rfl
  | cons c l ih => exact ih (a.mark d c false)

end DiskView

/-- What a node refers to does not depend on bits. -/
theorem FileOk.ref_clear (file : FileOk a d n) (l : List Word) (p : Place) :
    ref (a.clear d l).data d n p = ref a.data d n p :=
  ref_congr (fun i _ => by rw [DiskView.clear_data a l file.node_ne_bit])
    (fun j here => DiskView.clear_data a l (file.index_ne_bit here)) p

/-! ### A file without holes -/

/-- The index blocks `fs_reset` gives back: the last index word is not looked at. -/
def resetIndexes (data : BlockKey → BlockData) (d n : Word) : List Word :=
  ((List.range' (directIndexesCnt + 3) (255 - (directIndexesCnt + 3))).map
    fun i => (data (d, n)).word i).takeWhile (· ≠ 0)

/-- The data blocks `fs_reset` gives back. -/
def resetBlocks (data : BlockKey → BlockData) (d n : Word) : List Word :=
  (List.range ((fileSize data d n + 255) / 256)).map fun k => blockAt data d n k

/-- The slots below the size. -/
theorem Mapped.slot {k : Nat} (mapped : Mapped a d x 0 (fileSize a.data d x))
    (low : k < (fileSize a.data d x + 255) / 256) :
    k < dataSlots ∧ blockAt a.data d x k ≠ 0 ∧ (d, blockAt a.data d x k) ∉ a.soft := by
  have slot : k * 256 / 256 = k := Nat.mul_div_cancel k (by decide)
  have here := mapped (k * 256) (Nat.zero_le _) (by omega)
  rwa [slot] at here

/-- The blocks `fs_reset` gives back. -/
def resetList (data : BlockKey → BlockData) (d n : Word) : List Word :=
  resetBlocks data d n ++ resetIndexes data d n ++ [n]

section Rules

variable {base : BlockPtr → Nat} {room : Nat} {ok : Fault → Prop} {i : BlockPtr}

/-- `fs_freeBlock` after others. -/
theorem wp_fsFreeBlock {l : List Word} {c : Word} {post : Unit → DiskView → Prop}
    (free : a.pins.length < room) (hard : BitmapHard a d) (rest : post () (a.clear d (l ++ [c]))) :
    wp (Shows drv base room) ok (fsFreeBlock drv d c) post (a.clear d l) := by
  unfold fsFreeBlock
  refine wp_fsMarkSector (by rw [DiskView.clear_pins]; exact free) ?_ ?_
  · intro b
    rw [DiskView.clear_soft]
    exact hard b
  · rwa [DiskView.clear_append] at rest

/-- The first loop of `fs_reset`, over slots that have blocks. -/
theorem wp_freeDataBlocks {post : Unit → DiskView → Prop} (pinned : (i, (d, n)) ∈ a.pins)
    (free : a.pins.length < room) (hard : BitmapHard a d) (file : FileOk a d n) :
    ∀ (ks : List Nat) (l : List Word), (∀ k ∈ ks, k < dataSlots ∧ blockAt a.data d n k ≠ 0) →
      post () (a.clear d (l ++ ks.map fun k => blockAt a.data d n k)) →
      wp (Shows drv base room) ok (freeDataBlocks drv d i ks) post (a.clear d l) := by
  intro ks
  induction ks with
  | nil =>
    intro l _ rest
    rw [List.map_nil, List.append_nil] at rest
    exact wp_pure rest
  | cons k ks ih =>
    intro l inside rest
    obtain ⟨inRange, here⟩ := inside k List.mem_cons_self
    have slot : k * 256 / 256 = k := Nat.mul_div_cancel k (by decide)
    have block : blockAt (a.clear d l).data d n k = blockAt a.data d n k := file.ref_clear l (.data k)
    unfold freeDataBlocks
    refine wp_bind (wp_getOrAllocBlockByOffset_mapped (by rw [DiskView.clear_pins]; exact pinned)
      (by rw [DiskView.clear_pins]; exact free) (fun j some => ?_) (by rw [slot]; exact inRange)
      (by rw [slot, block]; exact here) ?_)
    · have same : indexAt (a.clear d l).data d n j = indexAt a.data d n j := file.ref_clear l (.index j)
      rw [same] at some ⊢
      rw [DiskView.clear_soft]
      exact file.index j some
    · rw [slot, block]
      refine wp_bind (wp_fsFreeBlock free hard (ih _ (fun l mem => inside l (List.mem_cons_of_mem k mem)) ?_))
      rwa [List.append_assoc]

/-- The second loop of `fs_reset`. -/
theorem wp_freeIndexBlocks {post : Unit → DiskView → Prop} (pinned : (i, (d, n)) ∈ a.pins)
    (free : a.pins.length < room) (hard : BitmapHard a d) (away : ∀ c, (d, n) ≠ (d, bitBlock c)) :
    ∀ (is : List Nat) (l : List Word),
      post () (a.clear d (l ++ (is.map fun i => (a.data (d, n)).word i).takeWhile (· ≠ 0))) →
      wp (Shows drv base room) ok (freeIndexBlocks drv d i is) post (a.clear d l) := by
  intro is
  induction is with
  | nil =>
    intro l rest
    rw [List.map_nil, List.takeWhile_nil, List.append_nil] at rest
    exact wp_pure rest
  | cons k is ih =>
    intro l rest
    unfold freeIndexBlocks
    refine wp_bind (wp_data (by rw [DiskView.clear_pins]; exact pinned) ?_)
    rw [DiskView.clear_data a l away]
    by_cases none : (a.data (d, n)).word k = 0
    · refine wp_pos none (wp_pure ?_)
      rwa [List.map_cons, List.takeWhile_cons, if_neg (by simpa using none), List.append_nil] at rest
    · refine wp_neg none (wp_bind (wp_fsFreeBlock free hard (ih _ ?_)))
      rw [List.map_cons, List.takeWhile_cons, if_pos (by simpa using none)] at rest
      rwa [List.append_assoc]

/-- **`fs_reset` of a file without holes** clears the bits of `resetList`, and does nothing else. -/
theorem wp_fsReset_mapped {post : Unit → DiskView → Prop} (free : a.pins.length + 1 < room)
    (vol : VolumeOk a d) (file : FileOk a d n) (node : (d, n) ∉ a.soft)
    (mapped : Mapped a d n 0 (fileSize a.data d n))
    (rest : post () (a.clear d (resetList a.data d n))) :
    wp (Shows drv base room) ok (fsReset drv ⟨d, n⟩) post a := by
  unfold fsReset
  refine wp_bind (wp_bread_hard (by omega) node fun i => ?_)
  have held := a.mem_pin i (d, n)
  have file' : FileOk (a.pin i (d, n)) d n := file.congr (fun _ => rfl) (fun _ => rfl) fun _ _ mem => mem
  refine wp_bind (wp_data held ?_)
  refine wp_bind (wp_freeDataBlocks held free vol.bitmap file' _ [] (fun k inside => ?_) ?_)
  · obtain ⟨inRange, here, -⟩ := mapped.slot (List.mem_range.mp inside)
    exact ⟨inRange, here⟩
  refine wp_bind (wp_freeIndexBlocks held free vol.bitmap file.node_ne_bit _ _ ?_)
  rw [DiskView.pin_clear]
  refine wp_bind (wp_bfree_pin (wp_fsFreeBlock (by omega) vol.bitmap rest))

end Rules

/-! ### A device node -/

/-- View `b` is view `a` after some passes of the first loop of `fs_reset` over the device node `x`,
`k` slots being done: an index block may have been allocated, and slots refer to blocks that were given
back at once. -/
structure Scratch (a b : DiskView) (d x : Word) (k : Nat) : Prop where
  pins : b.pins = a.pins
  soft : ∀ key ∈ b.soft, key ∈ a.soft ∨ key = (d, x)
  index : indexAt b.data d x 0 ≠ 0 → isMarked a.data d (indexAt b.data d x 0) = false ∧
    (d, indexAt b.data d x 0) ∉ b.soft
  marks : ∀ c, isMarked b.data d c = true ↔
    isMarked a.data d c = true ∨ (c = indexAt b.data d x 0 ∧ c ≠ 0)
  frame : ∀ c, c ≠ x → c ≠ indexAt b.data d x 0 → 34 ≤ c.toNat → b.data (d, c) = a.data (d, c)
  slots : ∀ l, k ≤ l → l < 256 → blockAt b.data d x l = 0
  rest : ∀ j, j ≠ 0 → indexAt b.data d x j = 0

/-- The data slots of a device node that are not direct hang on the first index block. -/
theorem indexOf_zero {l : Nat} (small : l < 256) : indexOf l = 0 := by
  unfold indexOf directIndexesCnt
  omega

theorem Scratch.start (empty : ∀ p, ref a.data d x p = 0) : Scratch a a d x 0 where
  pins := rfl
  soft _ mem := Or.inl mem
  index here := absurd (empty (.index 0)) here
  marks _ := ⟨Or.inl, fun known => known.elim id fun both =>
    absurd (both.1.trans (empty (.index 0))) both.2⟩
  frame _ _ _ _ := rfl
  slots l _ _ := empty (.data l)
  rest j _ := empty (.index j)

namespace Scratch

variable {f : DiskView} {k : Nat} {r : Word} (scratch : Scratch a b d x k)
include scratch

theorem volumeOk (vol : VolumeOk a d) (file : FileOk a d x) : VolumeOk b d where
  reserved c low := (scratch.marks c).mpr (Or.inl (vol.reserved c low))
  bitmap c mem := (scratch.soft _ mem).elim (vol.bitmap c) fun same => file.node_ne_bit c same.symm

/-- A block of view `a` with a clear bit, other than the index block, still has one. -/
theorem exists_clear (enough : 2 ≤ freeBlocks a d) : ∃ c, isMarked b.data d c = false := by
  obtain ⟨c, clear, ne⟩ := Set.exists_ne_of_one_lt_ncard enough (indexAt b.data d x 0)
  refine ⟨c, (Bool.not_eq_true _).mp fun set => ?_⟩
  rcases (scratch.marks c).mp set with old | ⟨same, -⟩
  · rw [show isMarked a.data d c = false from clear] at old
    cases old
  · exact ne same

theorem clear_before (clear : isMarked b.data d r = false) : isMarked a.data d r = false := by
  rw [← Bool.not_eq_true] at clear ⊢
  exact fun set => clear ((scratch.marks r).mpr (Or.inl set))

/-- A block that was just allocated is neither the node nor its index block. -/
theorem fresh_ne (file : FileOk a d x) (clear : isMarked b.data d r = false) :
    r ≠ x ∧ (indexAt b.data d x 0 ≠ 0 → r ≠ indexAt b.data d x 0) := by
  constructor
  · rintro rfl
    have before := scratch.clear_before clear
    rw [file.marked] at before
    cases before
  · rintro here rfl
    have set := (scratch.marks _).mpr (Or.inr ⟨rfl, here⟩)
    rw [clear] at set
    cases set

/-- The index block is not the node, and is no bitmap block. -/
theorem index_ne (vol : VolumeOk a d) (file : FileOk a d x) (here : indexAt b.data d x 0 ≠ 0) :
    indexAt b.data d x 0 ≠ x ∧ 34 ≤ (indexAt b.data d x 0).toNat := by
  have clear := (scratch.index here).1
  have high := vol.fresh clear
  refine ⟨fun same => ?_, by omega⟩
  rw [same, file.marked] at clear
  cases clear

/-- A direct slot was filled, and its block given back. -/
theorem direct (vol : VolumeOk a d) (file : FileOk a d x) (low : k < directIndexesCnt) (pins : f.pins = b.pins)
    (soft : ∀ key ∈ f.soft, key ∈ b.soft ∨ key = (d, x))
    (node : f.data (d, x) = (b.data (d, x)).put (k + 3) r)
    (marks : ∀ c, isMarked f.data d c = isMarked b.data d c)
    (frame : ∀ c, c ≠ x → 34 ≤ c.toNat → f.data (d, c) = b.data (d, c)) :
    Scratch a f d x (k + 1) := by
  have word : ∀ i, i ≠ k + 3 → (f.data (d, x)).word i = (b.data (d, x)).word i := fun i ne => by
    rw [node]
    exact BlockData.word_put_ne _ _ ne
  have index : ∀ j, indexAt f.data d x j = indexAt b.data d x j := fun j =>
    word _ (by unfold directIndexesCnt at *; omega)
  refine ⟨pins.trans scratch.pins, fun key mem => ?_, fun here => ?_, fun c => ?_,
    fun c node' ne high => ?_, fun l late small => ?_, fun j ne => ?_⟩
  · exact (soft key mem).elim (scratch.soft key) Or.inr
  · rw [index] at here ⊢
    obtain ⟨clear, hard⟩ := scratch.index here
    refine ⟨clear, fun mem => ?_⟩
    rcases soft _ mem with old | same
    · exact hard old
    · exact (scratch.index_ne vol file here).1 (congrArg Prod.snd same)
  · rw [marks, index]
    exact scratch.marks c
  · rw [index] at ne
    rw [frame c node' high]
    exact scratch.frame c node' ne high
  · rw [← scratch.slots l (by omega) small]
    refine blockAt_congr (fun _ => word _ (by omega)) (fun _ => index _) fun _ here => ?_
    by_cases first : indexOf l = 0
    · rw [first] at here ⊢
      obtain ⟨ne, high⟩ := scratch.index_ne vol file here
      rw [frame _ ne high]
    · exact absurd (scratch.rest _ first) here
  · rw [index]
    exact scratch.rest j ne

/-- The index block was allocated and cleared. -/
theorem grow_index (late : directIndexesCnt ≤ k)
    (none : indexAt b.data d x 0 = 0) (clear : isMarked b.data d r = false) (nonzero : r ≠ 0)
    (pins : f.pins = b.pins)
    (soft : ∀ key ∈ f.soft, (key ∈ b.soft ∨ key = (d, x)) ∧ key ≠ (d, r))
    (node : f.data (d, x) = (b.data (d, x)).put (directIndexesCnt + 3) r)
    (cleared : f.data (d, r) = BlockData.zero)
    (marks : ∀ c, isMarked f.data d c = true ↔ isMarked b.data d c = true ∨ c = r)
    (frame : ∀ c, c ≠ x → c ≠ r → 34 ≤ c.toNat → f.data (d, c) = b.data (d, c)) :
    Scratch a f d x k ∧ indexAt f.data d x 0 = r := by
  have index : indexAt f.data d x 0 = r := by
    unfold indexAt
    rw [node]
    exact BlockData.word_put_self _ _ (by decide)
  refine ⟨⟨pins.trans scratch.pins, fun key mem => ?_, fun _ => ?_, fun c => ?_,
    fun c node' ne high => ?_, fun l after small => ?_, fun j ne => ?_⟩, index⟩
  · exact (soft key mem).1.elim (scratch.soft key) Or.inr
  · rw [index]
    exact ⟨scratch.clear_before clear, fun mem => (soft _ mem).2 rfl⟩
  · rw [marks, scratch.marks, none, index]
    constructor
    · rintro ((old | ⟨rfl, zero⟩) | rfl)
      · exact Or.inl old
      · exact absurd rfl zero
      · exact Or.inr ⟨rfl, nonzero⟩
    · rintro (old | ⟨rfl, -⟩)
      · exact Or.inl (Or.inl old)
      · exact Or.inr rfl
  · rw [index] at ne
    rw [frame c node' ne high]
    refine scratch.frame c node' (fun zero => ?_) high
    rw [none] at zero
    exact ne_zero_of_high high zero
  · have high : ¬ l < directIndexesCnt := by omega
    have some : indexAt f.data d x (indexOf l) ≠ 0 := by
      rw [indexOf_zero small, index]
      exact nonzero
    rw [blockAt_indirect high some, indexOf_zero small, index, cleared]
    unfold BlockData.word
    split <;> rfl
  · refine Eq.trans ?_ (scratch.rest j ne)
    unfold indexAt
    rw [node]
    exact BlockData.word_put_ne _ _ (by omega)

/-- A slot of the index block was filled, and its block given back. -/
theorem indirect (late : directIndexesCnt ≤ k)
    (small : k < 256) (here : indexAt b.data d x 0 ≠ 0) (pins : f.pins = b.pins)
    (soft : f.soft = b.soft) (node : f.data (d, x) = b.data (d, x))
    (index : f.data (d, indexAt b.data d x 0) =
      (b.data (d, indexAt b.data d x 0)).put (slotOf k) r)
    (marks : ∀ c, isMarked f.data d c = isMarked b.data d c)
    (frame : ∀ c, c ≠ indexAt b.data d x 0 → 34 ≤ c.toNat → f.data (d, c) = b.data (d, c)) :
    Scratch a f d x (k + 1) := by
  have same : ∀ j, indexAt f.data d x j = indexAt b.data d x j := fun j => by
    unfold indexAt
    rw [node]
  refine ⟨pins.trans scratch.pins, fun key mem => scratch.soft key (soft ▸ mem), fun some => ?_,
    fun c => ?_, fun c node' ne high => ?_, fun l after low => ?_, fun j ne => ?_⟩
  · rw [same, soft]
    exact scratch.index here
  · rw [marks, same]
    exact scratch.marks c
  · rw [same] at ne
    rw [frame c ne high]
    exact scratch.frame c node' ne high
  · rw [← scratch.slots l (by omega) low]
    refine blockAt_congr (fun direct => by omega) (fun _ => same _) fun high some => ?_
    rw [indexOf_zero low] at some ⊢
    rw [index]
    refine BlockData.word_put_ne _ _ (slotOf_ne high (by omega) (by omega) ?_)
    rw [indexOf_zero low, indexOf_zero small]
  · rw [same]
    exact scratch.rest j ne

end Scratch

section Rules

variable {base : BlockPtr → Nat} {room : Nat} {ok : Fault → Prop} {i p : BlockPtr} {k : Nat}

/-- A bit set and cleared again, with one block that is no bitmap block changed in between. -/
theorem isMarked_again {key : BlockKey} {data : BlockData} {r : Word}
    (away : ∀ c, key ≠ (d, bitBlock c)) (clear : isMarked b.data d r = false) (c : Word) :
    isMarked (((b.mark d r true).put key data).mark d r false).data d c = isMarked b.data d c := by
  rw [DiskView.isMarked_mark, isMarked_put away, DiskView.isMarked_mark]
  by_cases here : c = r
  · rw [if_pos here, here, clear]
  · rw [if_neg here, if_neg here]

/-- A pass of the first loop, from the held index block on. -/
theorem wp_scratchSlot {post : Unit → DiskView → Prop} (scratch : Scratch a b d x k)
    (free : b.pins.length + 1 < room) (vol : VolumeOk a d) (file : FileOk a d x)
    (late : directIndexesCnt ≤ k) (small : k < 256) (enough : 2 ≤ freeBlocks a d)
    (here : indexAt b.data d x 0 ≠ 0) (rest : ∀ f, Scratch a f d x (k + 1) → post () f) :
    wp (Shows drv base room) ok (getOrAllocSlot drv d p (slotOf k))
      (fun blk c => wp (Shows drv base room) ok (fsFreeBlock drv d blk) post c)
      (b.pin p (d, indexAt b.data d x 0)) := by
  have vol' := scratch.volumeOk vol file
  obtain ⟨ne, high⟩ := scratch.index_ne vol file here
  have empty := scratch.slots k le_rfl small
  have notDirect : ¬ k < directIndexesCnt := by omega
  rw [blockAt_indirect notDirect (by rw [indexOf_zero small]; exact here), indexOf_zero small] at empty
  have hard := (scratch.index here).2
  have held := b.mem_pin p (d, indexAt b.data d x 0)
  unfold getOrAllocSlot
  refine wp_bind (wp_data held ?_)
  dsimp only
  refine wp_pos empty (wp_bind (wp_fsAllocBlock free vol'.bitmap (scratch.exists_clear enough)
    fun r clear => ?_))
  refine wp_bind (wp_setData held (wp_bind (wp_setModified held (wp_bind (wp_bfree held
    (wp_pure ?_))))))
  have view := DiskView.pin_store_settle_unpin_hard (b.mark d r true) p (d, indexAt b.data d x 0)
    ((b.data (d, indexAt b.data d x 0)).put (slotOf k) r) hard
  unfold fsFreeBlock
  refine (congrArg (wp (Shows drv base room) ok (fsMarkSector drv d r false) post) view).mpr
    (wp_fsMarkSector (by exact (Nat.lt_succ_self _).trans free) vol'.bitmap ?_)
  have bits := key_ne_bit (d := d) high
  refine rest _ (scratch.indirect (r := r) late small here rfl rfl ?_ ?_ (isMarked_again bits clear)
    fun c away low => ?_)
  · rw [DiskView.mark_data_ne _ _ _ _ (file.node_ne_bit r), DiskView.put_data_ne,
      DiskView.mark_data_ne _ _ _ _ (file.node_ne_bit r)]
    exact fun same => ne (congrArg Prod.snd same).symm
  · rw [DiskView.mark_data_ne _ _ _ _ (bits r), DiskView.put_data_self]
  · rw [DiskView.mark_data_ne _ _ _ _ (key_ne_bit low r), DiskView.put_data_ne,
      DiskView.mark_data_ne _ _ _ _ (key_ne_bit low r)]
    exact fun same => away (congrArg Prod.snd same)

/-- **A pass of the first loop of `fs_reset` over a device node.** -/
theorem wp_scratchPass {post : Unit → DiskView → Prop} (scratch : Scratch a b d x k)
    (pinned : (i, (d, x)) ∈ b.pins) (free : b.pins.length + 1 < room) (vol : VolumeOk a d)
    (file : FileOk a d x) (small : k < 256) (enough : 2 ≤ freeBlocks a d)
    (rest : ∀ f, Scratch a f d x (k + 1) → post () f) :
    wp (Shows drv base room) ok (getOrAllocBlockByOffset drv d i (k * 256))
      (fun blk c => wp (Shows drv base room) ok (fsFreeBlock drv d blk) post c) b := by
  have vol' := scratch.volumeOk vol file
  have slot : k * 256 / 256 = k := Nat.mul_div_cancel k (by decide)
  unfold getOrAllocBlockByOffset
  by_cases low : k * 256 < directIndexesCnt * 256
  · have direct : k < directIndexesCnt := by omega
    have empty := scratch.slots k le_rfl small
    rw [blockAt_direct direct] at empty
    refine wp_pos low (wp_bind (wp_data pinned ?_))
    dsimp only
    rw [slot, Nat.mod_eq_of_lt small]
    refine wp_pos empty (wp_bind (wp_fsAllocBlock (by omega) vol'.bitmap
      (scratch.exists_clear enough) fun r clear => ?_))
    refine wp_bind (wp_setData pinned (wp_pure (wp_fsMarkSector (by exact (Nat.lt_succ_self _).trans free) ?_ ?_)))
    · intro c mem
      rcases mem with same | old
      · exact file.node_ne_bit c same.symm
      · exact vol'.bitmap c old
    · refine rest _ (scratch.direct (r := r) vol file direct rfl (fun key mem => ?_) ?_ ?_ fun c away high => ?_)
      · exact mem.elim Or.inr Or.inl
      · rw [DiskView.mark_data_ne _ _ _ _ (file.node_ne_bit r), DiskView.store_data_self]
      · exact isMarked_again file.node_ne_bit clear
      · rw [DiskView.mark_data_ne _ _ _ _ (key_ne_bit high r), DiskView.store_data_ne,
          DiskView.mark_data_ne _ _ _ _ (key_ne_bit high r)]
        exact fun same => away (congrArg Prod.snd same)
  · have late : directIndexesCnt ≤ k := by omega
    have range : k * 256 / 256 < dataSlots := by
      rw [slot]
      unfold dataSlots
      omega
    obtain ⟨word, place, inside, -⟩ := indirect_offset low range
    rw [slot, indexOf_zero small] at word inside
    rw [slot] at place
    refine wp_neg low ?_
    dsimp only
    rw [word, place]
    refine wp_neg (by omega) (wp_bind ?_)
    unfold getOrAllocIndexBlock
    refine wp_bind (wp_data pinned ?_)
    by_cases none : indexAt b.data d x 0 = 0
    · refine wp_pos none (wp_bind (wp_fsAllocBlock (by omega) vol'.bitmap
        (scratch.exists_clear enough) fun r clear => ?_))
      have high := vol'.fresh clear
      have ne := (scratch.fresh_ne file clear).1
      have bits := key_ne_bit (d := d) (b := r) (by omega)
      refine wp_bind (wp_setData pinned (wp_bind (wp_setModified pinned ?_)))
      refine wp_bind (wp_bread (by exact (Nat.lt_succ_self _).trans free) fun p data _ => ?_)
      refine wp_bind (wp_setData List.mem_cons_self (wp_bind (wp_setModified List.mem_cons_self
        (wp_pure ?_))))
      -- the view reached, without the hold of the new index block
      set e := (((((b.mark d r true).store (d, x) ((b.data (d, x)).put (directIndexesCnt + 3 + 0)
        r)).settle (d, x)).put (d, r) data).store (d, r) BlockData.zero).settle (d, r) with he
      have away : ∀ key, key ≠ (d, x) → key ≠ (d, r) → e.data key = (b.mark d r true).data key := by
        intro key node new
        rw [he, DiskView.settle_data, DiskView.store_data_ne _ _ _ new, DiskView.put_data_ne _ _ _ new,
          DiskView.settle_data, DiskView.store_data_ne _ _ _ node]
      have new : (d, x) ≠ (d, r) := fun same => ne (congrArg Prod.snd same).symm
      have grown : Scratch a e d x k ∧ indexAt e.data d x 0 = r := by
        refine scratch.grow_index late none clear (ne_zero_of_high (by omega)) rfl (fun key mem => ?_)
          ?_ (DiskView.store_data_self _ _ _) (fun c => ?_) fun c node fresh low => ?_
        · obtain ⟨old | ⟨same | old, -⟩, ne⟩ := mem
          · exact absurd old ne
          · exact ⟨Or.inr same, ne⟩
          · exact ⟨Or.inl old, ne⟩
        · rw [he, DiskView.settle_data, DiskView.store_data_ne _ _ _ new, DiskView.put_data_ne _ _ _ new,
            DiskView.settle_data, DiskView.store_data_self]
        · rw [isMarked_congr fun c => away _ (file.node_ne_bit c).symm (bits c).symm,
            DiskView.isMarked_mark]
          by_cases same : c = r <;> simp [same]
        · rw [away _ (fun same => node (congrArg Prod.snd same))
            fun same => fresh (congrArg Prod.snd same)]
          exact DiskView.mark_data_ne _ _ _ _ (key_ne_bit low r)
      have slotPass : wp (Shows drv base room) ok (getOrAllocSlot drv d p (slotOf k)) _
          (e.pin p (d, indexAt e.data d x 0)) := wp_scratchSlot grown.1 free vol file late small
        enough (grown.2 ▸ ne_zero_of_high (by omega)) rest
      rwa [grown.2] at slotPass
    · refine wp_neg none (wp_bread_hard (by omega) (scratch.index none).2 fun p => ?_)
      exact wp_scratchSlot scratch free vol file late small enough none rest

/-- The first loop of `fs_reset` over a device node. -/
theorem wp_freeDataBlocks_device {post : Unit → DiskView → Prop} (pinned : (i, (d, x)) ∈ a.pins)
    (free : a.pins.length + 1 < room) (vol : VolumeOk a d) (file : FileOk a d x)
    (enough : 2 ≤ freeBlocks a d) : ∀ (count k : Nat) (b : DiskView), k + count ≤ 256 →
    Scratch a b d x k → (∀ f, Scratch a f d x (k + count) → post () f) →
    wp (Shows drv base room) ok (freeDataBlocks drv d i (List.range' k count)) post b := by
  intro count
  induction count with
  | zero => exact fun k b _ scratch rest => wp_pure (rest b scratch)
  | succ count ih =>
    intro k b bound scratch rest
    rw [List.range'_succ]
    unfold freeDataBlocks
    have pins := scratch.pins
    have pass : wp (Shows drv base room) ok (getOrAllocBlockByOffset drv d i (k * 256)) (fun blk c =>
        wp (Shows drv base room) ok (fsFreeBlock drv d blk) (fun _ f => wp (Shows drv base room) ok
          (freeDataBlocks drv d i (List.range' (k + 1) count)) post f) c) b := by
      refine wp_scratchPass scratch (pins ▸ pinned) (pins ▸ free) vol file (by omega) enough
        fun f next => ih (k + 1) f (by omega) next fun g done => rest g ?_
      rwa [Nat.add_assoc, Nat.add_comm 1 count] at done
    exact wp_bind (wp_mono pass fun blk c step => wp_bind step)

theorem Scratch.resetIndexes {k : Nat} (scratch : Scratch a b d x k) : resetIndexes b.data d x =
    if indexAt b.data d x 0 = 0 then [] else [indexAt b.data d x 0] := by
  have range : List.range' (directIndexesCnt + 3) (255 - (directIndexesCnt + 3)) =
      (directIndexesCnt + 3) :: (directIndexesCnt + 4) :: List.range' (directIndexesCnt + 5) 100 := rfl
  have first : (b.data (d, x)).word (directIndexesCnt + 3) = indexAt b.data d x 0 := rfl
  have second : (b.data (d, x)).word (directIndexesCnt + 4) = 0 := scratch.rest 1 (by decide)
  unfold Kernel.resetIndexes
  rw [range, List.map_cons, List.map_cons, List.takeWhile_cons, first]
  by_cases none : indexAt b.data d x 0 = 0
  · rw [if_pos none, if_neg]
    simpa using none
  · rw [if_neg none, if_pos, List.takeWhile_cons, if_neg]
    · simpa using second
    · simpa using none

end Rules

/-! ### What the rest of the tree needs -/

/-- **Node `x` was given back.** Only bits of `x` and its blocks were cleared, and no block in use
changed but the node. -/
structure Released (a b : DiskView) (d x : Word) : Prop where
  pins : b.pins = a.pins
  soft : ∀ key ∈ b.soft, key ∈ a.soft ∨ key = (d, x)
  less : ∀ c, isMarked b.data d c = true → isMarked a.data d c = true
  kept : ∀ c, isMarked a.data d c = true → c ≠ x →
    (∀ p, ref a.data d x p ≠ 0 → ref a.data d x p ≠ c) → isMarked b.data d c = true
  frame : ∀ c, c ≠ x → 34 ≤ c.toNat → isMarked a.data d c = true → b.data (d, c) = a.data (d, c)

theorem mem_resetIndexes {c : Word} (mem : c ∈ resetIndexes a.data d x) :
    c ≠ 0 ∧ ∃ j, indexAt a.data d x j = c := by
  have nonzero := List.mem_takeWhile_imp mem
  have inside := (List.takeWhile_sublist _).subset mem
  obtain ⟨i, range, rfl⟩ := List.mem_map.mp inside
  rw [List.mem_range'_1] at range
  refine ⟨by simpa using nonzero, i - (directIndexesCnt + 3), ?_⟩
  unfold indexAt
  rw [Nat.add_sub_cancel' range.1]

theorem Mapped.released (mapped : Mapped a d x 0 (fileSize a.data d x)) :
    Released a (a.clear d (resetList a.data d x)) d x where
  pins := DiskView.clear_pins _ _ _
  soft key mem := Or.inl (DiskView.clear_soft a d _ ▸ mem)
  less c set := ((DiskView.isMarked_clear _ _ _ _).mp set).1
  kept c set node away := by
    refine (DiskView.isMarked_clear _ _ _ _).mpr ⟨set, fun mem => ?_⟩
    unfold resetList at mem
    rw [List.mem_append, List.mem_append, List.mem_singleton] at mem
    rcases mem with (data | index) | rfl
    · obtain ⟨k, range, same⟩ := List.mem_map.mp data
      exact away (.data k) (mapped.slot (List.mem_range.mp range)).2.1 same
    · obtain ⟨nonzero, j, same⟩ := mem_resetIndexes index
      exact away (.index j) (fun zero => nonzero (same.symm.trans zero)) same
    · exact node rfl
  frame c _ high _ := DiskView.clear_data _ _ (key_ne_bit high)

theorem Scratch.released {k : Nat} (scratch : Scratch a b d x k) :
    Released a (b.clear d (Kernel.resetIndexes b.data d x ++ [x])) d x where
  pins := (DiskView.clear_pins _ _ _).trans scratch.pins
  soft key mem := scratch.soft key (DiskView.clear_soft b d _ ▸ mem)
  less c set := by
    obtain ⟨before, away⟩ := (DiskView.isMarked_clear _ _ _ _).mp set
    refine ((scratch.marks c).mp before).resolve_right fun ⟨same, nonzero⟩ => away ?_
    rw [scratch.resetIndexes, if_neg (same ▸ nonzero), same]
    exact List.mem_cons_self
  kept c set node _ := by
    refine (DiskView.isMarked_clear _ _ _ _).mpr ⟨(scratch.marks c).mpr (Or.inl set), fun mem => ?_⟩
    rw [scratch.resetIndexes, List.mem_append, List.mem_singleton] at mem
    rcases mem with index | same
    · split at index
      · cases index
      case isFalse some =>
        rw [List.mem_singleton.mp index, (scratch.index some).1] at set
        cases set
    · exact node same
  frame c node high set := by
    rw [DiskView.clear_data _ _ (key_ne_bit high)]
    refine scratch.frame c node (fun same => ?_) high
    have some : indexAt b.data d x 0 ≠ 0 := same ▸ ne_zero_of_high high
    rw [same, (scratch.index some).1] at set
    cases set

section Rules

variable {base : BlockPtr → Nat} {room : Nat} {ok : Fault → Prop}

/-- **`fs_reset` of a device node.** -/
theorem wp_fsReset_device {post : Unit → DiskView → Prop} (free : a.pins.length + 2 < room)
    (vol : VolumeOk a d) (file : FileOk a d x) (node : (d, x) ∉ a.soft)
    (empty : ∀ p, ref a.data d x p = 0) (small : fileSize a.data d x < 2 ^ 16)
    (enough : 2 ≤ freeBlocks a d) (rest : ∀ b, Released a b d x → post () b) :
    wp (Shows drv base room) ok (fsReset drv ⟨d, x⟩) post a := by
  unfold fsReset
  refine wp_bind (wp_bread_hard (by omega) node fun i => ?_)
  have held := a.mem_pin i (d, x)
  have file' : FileOk (a.pin i (d, x)) d x :=
    file.congr (fun _ => rfl) (fun _ => rfl) fun _ _ mem => mem
  refine wp_bind (wp_data held ?_)
  have size : ((a.pin i (d, x)).data (d, x)).size = fileSize a.data d x := rfl
  dsimp only
  rw [size, List.range_eq_range']
  refine wp_bind (wp_freeDataBlocks_device held free ⟨vol.reserved, vol.bitmap⟩ file' enough _ 0 _
    (by omega) (Scratch.start empty) fun f held' => ?_)
  -- the view reached, without the hold of the node
  obtain ⟨b, rfl⟩ : ∃ b : DiskView, f = b.pin i (d, x) :=
    ⟨⟨f.data, a.pins, f.soft⟩, congrArg (DiskView.mk f.data · f.soft) held'.pins⟩
  have scratch : Scratch a b d x _ := ⟨List.cons_injective held'.pins, held'.soft, held'.index,
    held'.marks, held'.frame, held'.slots, held'.rest⟩
  have pins := scratch.pins
  have vol' := scratch.volumeOk vol file
  refine wp_bind (wp_freeIndexBlocks (b.mem_pin i (d, x)) ?_ vol'.bitmap file.node_ne_bit _ [] ?_)
  · show b.pins.length + 1 < room
    rw [pins]
    omega
  · rw [DiskView.pin_clear]
    refine wp_bind (wp_bfree_pin (wp_fsFreeBlock ?_ vol'.bitmap (rest _ scratch.released)))
    rw [pins]
    omega

/-- **`fs_reset`** of a node of the tree that is no directory. -/
theorem wp_fsReset {post : Unit → DiskView → Prop} (free : a.pins.length + 2 < room)
    (tree : TreeOk a d live raw) (mem : x ∈ live) (enough : 2 ≤ freeBlocks a d)
    (rest : ∀ b, Released a b d x → post () b) :
    wp (Shows drv base room) ok (fsReset drv ⟨d, x⟩) post a := by
  have node := tree.node x mem
  by_cases dev : IsDev a.data d x
  · obtain ⟨small, empty⟩ := node.device dev
    exact wp_fsReset_device free tree.vol node.file node.hard empty small enough rest
  · exact wp_fsReset_mapped (by omega) tree.vol node.file node.hard (node.mapped dev)
      (rest _ (node.mapped dev).released)

end Rules

end RlCpu.Kernel
