/-
**`fs_read` returns the words of the file.**

* `wp_fsRead`: every word of a slot in `keep` is read as it is. A slot below the size may be without a
  block; `fs_read` then gives it one, as `fs_write` does, so enough blocks must be free.
* `wp_fsRead_full`: where every slot read has a block, nothing changes.
* `wp_fsRead_beyond`: an offset past the end reads nothing, and the hold of the node is not given back.
-/

import RlCpu.Kernel.FileWrite

namespace RlCpu.Kernel

open RlCpu.Lib

variable {δ : Type} {drv : BlkDriver δ}

/-- The words `[offset, offset + size)` of node `n`. -/
def wordsAt (data : BlockKey → BlockData) (d n : Word) (offset size : Nat) : List Word :=
  (List.range size).map fun j => wordAt data d n (offset + j)

@[simp] theorem wordsAt_length (data : BlockKey → BlockData) (d n : Word) (offset size : Nat) :
    (wordsAt data d n offset size).length = size := by
  unfold wordsAt
  rw [List.length_map, List.length_range]

theorem wordsAt_append (data : BlockKey → BlockData) (d n : Word) (offset first second : Nat) :
    wordsAt data d n offset first ++ wordsAt data d n (offset + first) second =
      wordsAt data d n offset (first + second) := by
  unfold wordsAt
  rw [List.range_add, List.map_append, List.map_map]
  congr 1
  refine List.map_congr_left fun j _ => ?_
  show wordAt data d n (offset + first + j) = wordAt data d n (offset + (first + j))
  rw [Nat.add_assoc]

/-- A run of words inside one block. -/
theorem slice_eq_wordsAt {data : BlockKey → BlockData} {d n : Word} {offset size : Nat}
    (fits : offset % 256 + size ≤ 256) :
    (data (d, blockAt data d n (offset / 256))).slice (offset % 256) size =
      wordsAt data d n offset size := by
  unfold BlockData.slice wordsAt
  refine List.map_congr_left fun j mem => ?_
  have small := List.mem_range.mp mem
  have slot : (offset + j) / 256 = offset / 256 := by omega
  have word : (offset + j) % 256 = offset % 256 + j := by omega
  unfold wordAt
  rw [slot, word]

/-- The places passed by a read of `[offset, offset + size)`. -/
def spanned (offset size : Nat) : Finset Place :=
  if size = 0 then ∅ else touched offset (size - 1)

theorem passed_subset_spanned {offset size p : Nat} (low : offset ≤ p) (high : p < offset + size) :
    passed (p / 256) ⊆ spanned offset size := by
  unfold spanned
  rw [if_neg (by omega)]
  exact passed_subset_touched (Nat.div_le_div_right low) (Nat.div_le_div_right (by omega))

theorem spanned_subset_spanned {offset first size : Nat} (le : first ≤ size) :
    spanned (offset + first) (size - first) ⊆ spanned offset size := by
  unfold spanned
  by_cases zero : size - first = 0
  · rw [if_pos zero]
    exact Finset.empty_subset _
  · rw [if_neg zero, if_neg (by omega)]
    refine Finset.biUnion_subset.mpr fun k mem => ?_
    rw [Finset.mem_Icc] at mem
    refine passed_subset_touched (le_trans (Nat.div_le_div_right (by omega)) mem.1)
      (mem.2.trans (Nat.div_le_div_right (by omega)))

/-- A read is the part in its first block and the rest. -/
theorem spanned_subset_union {offset first size : Nat} (fits : offset % 256 + first ≤ 256)
    (some : 0 < size) :
    spanned offset size ⊆ passed (offset / 256) ∪ spanned (offset + first) (size - first) := by
  intro p mem
  unfold spanned at mem
  rw [if_neg (by omega)] at mem
  obtain ⟨k, range, inside⟩ := Finset.mem_biUnion.mp mem
  rw [Finset.mem_Icc] at range
  rcases Nat.eq_or_lt_of_le range.1 with same | later
  · exact Finset.mem_union_left _ (same ▸ inside)
  · refine Finset.mem_union_right _ ?_
    unfold spanned
    rw [if_neg (by omega)]
    exact passed_subset_touched (by omega)
      (range.2.trans (Nat.div_le_div_right (by omega))) inside

theorem wordsAt_getElem {data : BlockKey → BlockData} {d n : Word} {offset size j : Nat}
    (small : j < (wordsAt data d n offset size).length) :
    (wordsAt data d n offset size)[j] = wordAt data d n (offset + j) := by
  simp [wordsAt]

section Rules

variable {base : BlockPtr → Nat} {room : Nat} {ok : Fault → Prop} {d n : Word}

/-! ### Files without holes -/

/-- Every slot of `[offset, offset + size)` has a block, and none is at risk. -/
def Mapped (a : DiskView) (d n : Word) (offset size : Nat) : Prop :=
  ∀ p, offset ≤ p → p < offset + size → p / 256 < dataSlots ∧
    blockAt a.data d n (p / 256) ≠ 0 ∧ (d, blockAt a.data d n (p / 256)) ∉ a.soft

/-- The loop of `fs_read` over slots that all have blocks. -/
theorem wp_fsReadLoop_full (size : Nat) : ∀ {a : DiskView} {i : BlockPtr} {offset : Nat}
    {buf : List Word} {post : List Word → DiskView → Prop},
    (i, (d, n)) ∈ a.pins → a.pins.length < room →
    (∀ j, indexAt a.data d n j ≠ 0 → (d, indexAt a.data d n j) ∉ a.soft) →
    Mapped a d n offset size → post (buf ++ wordsAt a.data d n offset size) a →
    wp (Shows drv base room) ok (fsReadLoop drv d i offset size buf) post a := by
  induction size using Nat.strong_induction_on with
  | _ size ih =>
    intro a i offset buf post pinned free index mapped rest
    unfold fsReadLoop
    by_cases done : size = 0
    · subst done
      rw [show wordsAt a.data d n offset 0 = [] from rfl, List.append_nil] at rest
      exact wp_pos rfl (wp_pure rest)
    · refine wp_neg done ?_
      have small : offset % 256 < 256 := Nat.mod_lt _ (by decide)
      have now : 0 < min size (256 - offset % 256) := by omega
      have fits : offset % 256 + min size (256 - offset % 256) ≤ 256 := by omega
      have le : min size (256 - offset % 256) ≤ size := by omega
      obtain ⟨inRange, here, hard⟩ := mapped offset le_rfl (by omega)
      refine wp_bind (wp_getOrAllocBlockByOffset_mapped pinned free index inRange here ?_)
      dsimp only
      generalize min size (256 - offset % 256) = now' at now fits le ⊢
      refine wp_bind (wp_bread_hard free hard fun q => ?_)
      refine wp_bind (wp_data (a.mem_pin q _) ?_)
      refine wp_bind (wp_bfree_pin ?_)
      rw [DiskView.pin_data, slice_eq_wordsAt fits]
      refine ih (size - now') (by omega) pinned free index
        (fun p low high => mapped p (by omega) (by omega)) ?_
      rw [List.append_assoc, wordsAt_append, show now' + (size - now') = size by omega]
      exact rest

/-- The number of words `fs_read` reads. -/
theorem clip_eq {stSize offset size : Nat} (inside : offset ≤ stSize) (small : size < 2 ^ 16)
    (bound : stSize + 2 ^ 16 ≤ 2 ^ 32) :
    (if stSize < (offset + size) % 2 ^ 32 then (stSize - offset) % 2 ^ 16 else size) =
      min size (stSize - offset) := by
  rw [Nat.mod_eq_of_lt (show offset + size < 2 ^ 32 by omega)]
  split
  · rw [Nat.mod_eq_of_lt (by omega)]
    omega
  · omega

/-- **`fs_read` of slots that all have blocks** changes nothing. -/
theorem wp_fsRead_full {a : DiskView} {offset size : Nat} {post : List Word → DiskView → Prop}
    (free : a.pins.length + 1 < room) (node : (d, n) ∉ a.soft)
    (index : ∀ j, indexAt a.data d n j ≠ 0 → (d, indexAt a.data d n j) ∉ a.soft)
    (inside : offset ≤ (a.data (d, n)).size) (small : size < 2 ^ 16)
    (bound : (a.data (d, n)).size + 2 ^ 16 ≤ 2 ^ 32)
    (mapped : Mapped a d n offset (min size ((a.data (d, n)).size - offset)))
    (rest : post (wordsAt a.data d n offset (min size ((a.data (d, n)).size - offset))) a) :
    wp (Shows drv base room) ok (fsRead drv ⟨d, n⟩ offset size) post a := by
  unfold fsRead
  refine wp_bind (wp_bread_hard (by omega) node fun i => ?_)
  refine wp_bind (wp_data (a.mem_pin i (d, n)) ?_)
  refine wp_neg (Nat.not_lt.mpr inside) ?_
  dsimp only
  rw [DiskView.pin_data, clip_eq inside small bound]
  refine wp_bind (wp_fsReadLoop_full (a := a.pin i (d, n)) _ (a.mem_pin i (d, n)) free index
    mapped ?_)
  exact wp_bind (wp_bfree_pin (wp_pure rest))

/-- **`fs_read` past the end** reads nothing, and keeps its hold of the node. -/
theorem wp_fsRead_beyond {a : DiskView} {offset size : Nat} {post : List Word → DiskView → Prop}
    (free : a.pins.length < room) (node : (d, n) ∉ a.soft)
    (beyond : (a.data (d, n)).size < offset) (rest : ∀ i, post [] (a.pin i (d, n))) :
    wp (Shows drv base room) ok (fsRead drv ⟨d, n⟩ offset size) post a := by
  unfold fsRead
  refine wp_bind (wp_bread_hard free node fun i => ?_)
  refine wp_bind (wp_data (a.mem_pin i (d, n)) ?_)
  exact wp_pos beyond (wp_pure (rest i))

/-! ### Files with holes -/

/-- What a read of a file with holes leaves: the node may have grown, the known words are the same. -/
structure ReadOver (a b : DiskView) (d n : Word) (keep : Nat → Prop) (offset size : Nat) :
    Prop where
  grown : Grown a b d n (spanned offset size)
  words : ∀ p, keep (p / 256) → wordAt b.data d n p = wordAt a.data d n p

/-- The loop of `fs_read`. The words of the slots in `keep` are read as they are. -/
theorem wp_fsReadLoop (size : Nat) : ∀ {a : DiskView} {i : BlockPtr} {keep : Nat → Prop}
    {offset : Nat} {buf : List Word} {post : List Word → DiskView → Prop},
    (i, (d, n)) ∈ a.pins → a.pins.length + 1 < room → VolumeOk a d → FileOk a d n →
    (offset + size) / 256 < dataSlots → missing a d n (spanned offset size) ≤ freeBlocks a d →
    Kept a d n keep →
    (∀ words b, ReadOver a b d n keep offset size → words.length = size →
      (∀ j (small : j < words.length), keep ((offset + j) / 256) →
        words[j] = wordAt a.data d n (offset + j)) → post (buf ++ words) b) →
    wp (Shows drv base room) ok (fsReadLoop drv d i offset size buf) post a := by
  induction size using Nat.strong_induction_on with
  | _ size ih =>
    intro a i keep offset buf post pinned free vol file inRange enough kept rest
    unfold fsReadLoop
    by_cases done : size = 0
    · subst done
      refine wp_pos rfl (wp_pure ?_)
      have result := rest [] a ⟨Grown.refl vol file fun p mem => ?_, fun _ _ => rfl⟩ rfl
        fun j small => absurd small (Nat.not_lt_zero j)
      · rwa [List.append_nil] at result
      · exact absurd mem (Finset.notMem_empty p)
    · refine wp_neg done ?_
      have small : offset % 256 < 256 := Nat.mod_lt _ (by decide)
      have now : 0 < min size (256 - offset % 256) := by omega
      have fits : offset % 256 + min size (256 - offset % 256) ≤ 256 := by omega
      have le : min size (256 - offset % 256) ≤ size := by omega
      have first : passed (offset / 256) ⊆ spanned offset size :=
        passed_subset_spanned (le_refl offset) (by omega)
      refine wp_bind (wp_getOrAllocBlockByOffset pinned free vol file (by omega)
        ((Finset.card_le_card (Finset.filter_subset_filter _ first)).trans enough)
        fun b grown quiet => ?_)
      have here := grown.filled _ (data_mem_passed (offset / 256))
      have pins : b.pins = a.pins := grown.pins
      have keptB := kept.grown file grown
      have left := grown.enough first enough
      dsimp only
      generalize min size (256 - offset % 256) = now' at now fits le ⊢
      refine wp_bind (wp_bread (by rw [pins]; omega) fun q x read => ?_)
      refine wp_bind (wp_data ((b.put _ x).mem_pin q _) ?_)
      refine wp_bind (wp_bfree_pin ?_)
      rw [DiskView.pin_data, DiskView.put_data_self]
      -- a block at risk may be found with other data: then the view changes there
      set c := b.put (d, blockAt b.data d n (offset / 256)) x with hc
      have data : ∀ key, key ≠ (d, blockAt b.data d n (offset / 256)) →
          c.data key = b.data key := fun key ne => b.put_data_ne _ _ ne
      have refs : ∀ p, ref c.data d n p = ref b.data d n p := grown.file.ref_data here data
      have marks : ∀ e, isMarked c.data d e = isMarked b.data d e :=
        grown.file.marks_data here data
      have blocks : ∀ k, blockAt c.data d n k = blockAt b.data d n k := fun k => refs (.data k)
      have wordsB : ∀ p, keep (p / 256) → wordAt b.data d n p = wordAt a.data d n p := by
        intro p inside
        obtain ⟨some, -⟩ := kept _ inside
        have same := grown.block some
        unfold wordAt
        rw [same, ← same, quiet.block grown.file (by rwa [same])]
      have wordsC : ∀ p, keep (p / 256) → wordAt c.data d n p = wordAt a.data d n p := by
        intro p inside
        rw [← wordsB p inside]
        obtain ⟨some, hard⟩ := keptB _ inside
        unfold wordAt
        rw [blocks]
        by_cases same : p / 256 = offset / 256
        · rw [same] at hard ⊢
          rw [hc, DiskView.put_data_self, read (Or.inl hard)]
        · rw [data _ (grown.file.block_ne here same)]
      have volC : VolumeOk c d := grown.vol.congr marks fun _ mem => mem
      have fileC : FileOk c d n := grown.file.congr marks refs fun _ _ mem => mem
      have grownC : Grown a c d n (passed (offset / 256)) := by
        refine ⟨volC, fileC, pins, grown.soft, fun p some => ?_, fun p mem => ?_, fun p some => ?_,
          fun p zero some => ?_, fun e => ?_, ?_, fun key node bits away => ?_⟩
        · rw [refs]
          exact grown.kept p some
        · rw [refs]
          exact grown.filled p mem
        · rw [refs] at some
          exact grown.only p some
        · rw [refs] at some ⊢
          exact grown.fresh p zero some
        · rw [marks]
          simp only [refs]
          exact grown.marks e
        · rw [data _ (grown.file.ref_ne (p := .data _) here).symm]
          exact grown.mode
        · have ne := away (.data (offset / 256))
          rw [refs] at ne
          rw [data key (ne here)]
          refine grown.frame key node bits fun p some => ?_
          rw [← refs]
          exact away p (by rwa [refs])
      have keptC : Kept c d n keep := kept.grown file grownC
      have leftC : missing c d n (spanned (offset + now') (size - now')) ≤ freeBlocks c d :=
        (Finset.card_le_card (Finset.filter_subset_filter _ (spanned_subset_spanned le))).trans
          (grownC.enough first enough)
      refine ih (size - now') (by omega) (show (i, (d, n)) ∈ c.pins by
          rw [grownC.pins]; exact pinned) (by rw [grownC.pins]; exact free) volC fileC (by omega)
        leftC keptC fun words e filled length values => ?_
      have whole : Grown a e d n (spanned offset size) := by
        refine (grownC.trans filled.grown).widen (Finset.union_subset first
          (spanned_subset_spanned le)) fun p mem => ?_
        exact (grownC.trans filled.grown).filled p (spanned_subset_union fits (by omega) mem)
      have slice : x.slice (offset % 256) now' = wordsAt c.data d n offset now' := by
        rw [← slice_eq_wordsAt fits, blocks, hc, DiskView.put_data_self]
      rw [List.append_assoc, slice]
      refine rest _ e ⟨whole, fun p inside => ?_⟩ ?_ fun j low inside => ?_
      · rw [filled.words p inside, wordsC p inside]
      · rw [List.length_append, length, wordsAt_length]
        omega
      · by_cases before : j < now'
        · rw [List.getElem_append_left (by rwa [wordsAt_length]), wordsAt_getElem, wordsC _ inside]
        · rw [List.length_append, wordsAt_length, length] at low
          have position : offset + now' + (j - now') = offset + j := by omega
          rw [List.getElem_append_right (by rw [wordsAt_length]; omega)]
          simp only [wordsAt_length]
          rw [values _ (by omega) (by rwa [position]), position, wordsC _ inside]

/-- **`fs_read`**: as many words as the file has, those of the known slots as they are. -/
theorem wp_fsRead {a : DiskView} {keep : Nat → Prop} {offset size : Nat}
    {post : List Word → DiskView → Prop} (free : a.pins.length + 2 < room) (vol : VolumeOk a d)
    (file : FileOk a d n) (node : (d, n) ∉ a.soft) (inside : offset ≤ (a.data (d, n)).size)
    (small : size < 2 ^ 16) (inRange : (a.data (d, n)).size / 256 < dataSlots)
    (enough : missing a d n (spanned offset (min size ((a.data (d, n)).size - offset))) ≤
      freeBlocks a d) (kept : Kept a d n keep)
    (rest : ∀ words b, words.length = min size ((a.data (d, n)).size - offset) →
      (∀ j (low : j < words.length), keep ((offset + j) / 256) →
        words[j] = wordAt a.data d n (offset + j)) → b.pins = a.pins → post words b) :
    wp (Shows drv base room) ok (fsRead drv ⟨d, n⟩ offset size) post a := by
  have bound : (a.data (d, n)).size + 2 ^ 16 ≤ 2 ^ 32 := by
    unfold dataSlots at inRange
    omega
  unfold fsRead
  refine wp_bind (wp_bread_hard (by omega) node fun i => ?_)
  refine wp_bind (wp_data (a.mem_pin i (d, n)) ?_)
  refine wp_neg (Nat.not_lt.mpr inside) ?_
  dsimp only
  rw [DiskView.pin_data, clip_eq inside small bound]
  refine wp_bind (wp_fsReadLoop (a := a.pin i (d, n)) _ (a.mem_pin i (d, n)) (by
    show a.pins.length + 1 + 1 < room
    omega) ⟨vol.reserved, vol.bitmap⟩ ⟨file.high, file.marked, file.refs, file.inj, file.index⟩
    (by omega) enough kept fun words b filled length values => ?_)
  have pins : b.pins = (i, (d, n)) :: a.pins := filled.grown.pins
  refine wp_bind (wp_bfree (by rw [pins]; exact List.mem_cons_self) (wp_pure ?_))
  refine rest words _ length values ?_
  show b.pins.erase (i, (d, n)) = a.pins
  rw [pins]
  exact List.erase_cons_head _ _

end Rules

end RlCpu.Kernel
