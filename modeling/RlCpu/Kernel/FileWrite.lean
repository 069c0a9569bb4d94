/-
**`fs_write` replaces the words written, and nothing else.**

`wordAt data d n p` is word `p` of node `n`. `Written a b d n keep offset size buf` relates the views
before and after a write of `buf` at `[offset, offset + size)`: the node grew by the places touched, the
words written are those of `buf`, and the words of the data slots in `keep` outside the range are as
they were.

* `Written.trans`: two writes, one after the other, are one write of both.
* `wp_fsWriteLoop`: the loop of `fs_write`, by induction on the words left.
* `wp_fsWrite`: the function; afterwards the size is the larger of the old one and the end of the write.
-/

import RlCpu.Kernel.FileAlloc

namespace RlCpu.Kernel

open RlCpu.Lib

variable {δ : Type} {drv : BlkDriver δ}

/-- Word `p` of node `n`. -/
def wordAt (data : BlockKey → BlockData) (d n : Word) (p : Nat) : Word :=
  (data (d, blockAt data d n (p / 256))).word (p % 256)

namespace BlockData

theorem word_blit (b : BlockData) (start n : Nat) (buf : Nat → Word) {i : Nat} (small : i < 256) :
    (b.blit start n buf).word i =
      if start ≤ i ∧ i < start + n then buf (i - start) else b.word i := by
  unfold word blit
  rw [dif_pos small, dif_pos small]

/-- The size written is the size read. -/
theorem size_setSize (b : BlockData) {n : Nat} (small : n < 2 ^ 32) : (b.setSize n).size = n := by
  unfold size setSize
  rw [word_put_ne _ _ (by decide), word_put_self _ _ (by decide), word_put_self _ _ (by decide),
    BitVec.toNat_ofNat, BitVec.toNat_ofNat, Nat.mod_eq_of_lt (show n / 2 ^ 16 < 2 ^ 16 by omega)]
  omega

theorem word_setSize (b : BlockData) (n : Nat) {i : Nat} (high : 3 ≤ i) :
    (b.setSize n).word i = b.word i := by
  unfold setSize
  rw [word_put_ne _ _ (by omega), word_put_ne _ _ (by omega)]

theorem mode_setSize (b : BlockData) (n : Nat) : (b.setSize n).word 0 = b.word 0 := by
  unfold setSize
  rw [word_put_ne _ _ (by decide), word_put_ne _ _ (by decide)]

end BlockData

/-! ### Changing a data block or the head of a node -/

section Same

variable {a b : DiskView} {d n : Word}

/-- Views that agree on bits and references are well formed together. -/
theorem FileOk.congr (file : FileOk a d n)
    (marks : ∀ e, isMarked b.data d e = isMarked a.data d e)
    (refs : ∀ p, ref b.data d n p = ref a.data d n p)
    (soft : ∀ j, indexAt a.data d n j ≠ 0 → (d, indexAt a.data d n j) ∈ b.soft →
      (d, indexAt a.data d n j) ∈ a.soft) : FileOk b d n where
  high := file.high
  marked := (marks n).trans file.marked
  refs p here := by
    rw [refs] at here ⊢
    rw [marks]
    exact file.refs p here
  inj p q same here := by
    rw [refs] at here
    rw [refs, refs] at same
    exact file.inj p q same here
  index j here mem := by
    have same : indexAt b.data d n j = indexAt a.data d n j := refs (.index j)
    rw [same] at here mem
    exact file.index j here (soft j here mem)

theorem VolumeOk.congr (vol : VolumeOk a d) (marks : ∀ e, isMarked b.data d e = isMarked a.data d e)
    (soft : ∀ c, (d, bitBlock c) ∈ b.soft → (d, bitBlock c) ∈ a.soft) : VolumeOk b d where
  reserved e low := (marks e).trans (vol.reserved e low)
  bitmap c mem := vol.bitmap c (soft c mem)

/-- A data block is no index block. -/
theorem FileOk.block_ne_index (file : FileOk a d n) {k j : Nat} (here : blockAt a.data d n k ≠ 0) :
    (d, indexAt a.data d n j) ≠ (d, blockAt a.data d n k) := by
  intro same
  have place := file.inj (.data k) (.index j) (congrArg Prod.snd same).symm here
  cases place

/-- Two data blocks are distinct. -/
theorem FileOk.block_ne (file : FileOk a d n) {k l : Nat} (here : blockAt a.data d n k ≠ 0)
    (ne : l ≠ k) : (d, blockAt a.data d n l) ≠ (d, blockAt a.data d n k) := by
  intro same
  have place := file.inj (.data k) (.data l) (congrArg Prod.snd same).symm here
  cases place
  exact ne rfl

/-- References do not depend on the data blocks. -/
theorem FileOk.ref_data (file : FileOk a d n) {k : Nat} (here : blockAt a.data d n k ≠ 0)
    (same : ∀ key, key ≠ (d, blockAt a.data d n k) → b.data key = a.data key) (p : Place) :
    ref b.data d n p = ref a.data d n p := by
  refine ref_congr (fun i _ => ?_) (fun j _ => same _ (file.block_ne_index here)) p
  rw [same _ (file.ref_ne (p := .data k) here).symm]

/-- Bits do not depend on the data blocks. -/
theorem FileOk.marks_data (file : FileOk a d n) {k : Nat} (here : blockAt a.data d n k ≠ 0)
    (same : ∀ key, key ≠ (d, blockAt a.data d n k) → b.data key = a.data key) (e : Word) :
    isMarked b.data d e = isMarked a.data d e :=
  isMarked_congr (fun c => same _ (file.ref_ne_bit (p := .data k) here c).symm) e

end Same

/-! ### Writes -/

/-- **The words `[offset, offset + size)` of node `n` became `buf`.** The slots in `keep` are those
whose other words are known to be as they were. -/
structure Written (a b : DiskView) (d n : Word) (keep : Nat → Prop) (offset size : Nat)
    (buf : Nat → Word) : Prop where
  grown : Grown a b d n (touched offset size)
  words : ∀ p, offset ≤ p → p < offset + size → wordAt b.data d n p = buf (p - offset)
  others : ∀ p, keep (p / 256) → (p < offset ∨ offset + size ≤ p) →
    wordAt b.data d n p = wordAt a.data d n p
  /-- The blocks written are not at risk. -/
  hard : ∀ p, offset ≤ p → p < offset + size → (d, blockAt b.data d n (p / 256)) ∉ b.soft

/-- The slots in `keep` have blocks, and none is at risk. -/
def Kept (a : DiskView) (d n : Word) (keep : Nat → Prop) : Prop :=
  ∀ k, keep k → blockAt a.data d n k ≠ 0 ∧ (d, blockAt a.data d n k) ∉ a.soft

theorem Kept.grown {a b : DiskView} {d n : Word} {keep : Nat → Prop} {ps : Finset Place}
    (kept : Kept a d n keep) (file : FileOk a d n) (grown : Grown a b d n ps) :
    Kept b d n keep := by
  intro k inside
  obtain ⟨here, hard⟩ := kept k inside
  rw [grown.block here]
  refine ⟨here, fun mem => ?_⟩
  exact (grown.soft _ mem).elim hard (file.ref_ne (p := .data k) here)

theorem mem_touched_left (offset size : Nat) : passed (offset / 256) ⊆ touched offset size :=
  passed_subset_touched le_rfl (Nat.div_le_div_right (Nat.le_add_right _ _))

theorem mem_touched_right (offset size : Nat) :
    passed ((offset + size) / 256) ⊆ touched offset size :=
  passed_subset_touched (Nat.div_le_div_right (Nat.le_add_right _ _)) le_rfl

/-- The places touched by two writes in a row. -/
theorem touched_append (offset first second : Nat) :
    touched offset first ∪ touched (offset + first) second = touched offset (first + second) := by
  ext p
  simp only [touched, Finset.mem_union, Finset.mem_biUnion, Finset.mem_Icc, ← Nat.add_assoc]
  constructor
  · rintro (⟨k, ⟨low, high⟩, mem⟩ | ⟨k, ⟨low, high⟩, mem⟩)
    · exact ⟨k, ⟨low, high.trans (Nat.div_le_div_right (Nat.le_add_right _ _))⟩, mem⟩
    · exact ⟨k, ⟨(Nat.div_le_div_right (Nat.le_add_right _ _)).trans low, high⟩, mem⟩
  · rintro ⟨k, ⟨low, high⟩, mem⟩
    rcases le_total k ((offset + first) / 256) with before | after
    · exact Or.inl ⟨k, ⟨low, before⟩, mem⟩
    · exact Or.inr ⟨k, ⟨after, high⟩, mem⟩

/-- Data slot `k` has a word of `[offset, offset + size)`. -/
def Covers (offset size k : Nat) : Prop := ∃ p, offset ≤ p ∧ p < offset + size ∧ p / 256 = k

/-- **Two writes in a row are one.** -/
theorem Written.trans {a b c : DiskView} {d n : Word} {keep : Nat → Prop} {offset first second : Nat}
    {buf : Nat → Word}
    (head : Written a b d n keep offset first buf)
    (tail : Written b c d n (fun k => keep k ∨ Covers offset first k) (offset + first)
      second fun i => buf (first + i)) :
    Written a c d n keep offset (first + second) buf where
  grown := touched_append offset first second ▸ head.grown.trans tail.grown
  words p low high := by
    by_cases before : p < offset + first
    · rw [tail.others p (Or.inr ⟨p, low, before, rfl⟩) (Or.inl before)]
      exact head.words p low before
    · rw [tail.words p (by omega) (by omega)]
      congr 1
      omega
  others p inside out := by
    rw [tail.others p (Or.inl inside) (by omega)]
    exact head.others p inside (by omega)
  hard p low high := by
    by_cases before : p < offset + first
    · have here := head.grown.filled (.data (p / 256))
        (passed_subset_touched (Nat.div_le_div_right low) (Nat.div_le_div_right before.le)
          (data_mem_passed _))
      rw [tail.grown.block here]
      intro mem
      rcases tail.grown.soft _ mem with old | node
      · exact head.hard p low before old
      · exact head.grown.file.ref_ne (p := .data _) here node
    · exact tail.hard p (by omega) (by omega)

/-- The first slot of an empty write has a block already. -/
theorem Written.refl {a : DiskView} {d n : Word} {keep : Nat → Prop} {offset : Nat}
    {buf : Nat → Word} (vol : VolumeOk a d) (file : FileOk a d n)
    (here : blockAt a.data d n (offset / 256) ≠ 0) : Written a a d n keep offset 0 buf where
  grown := Grown.refl vol file fun p mem => passed_filled here p (touched_zero offset ▸ mem)
  words p low high := by omega
  others _ _ _ := rfl
  hard p low high := by omega

/-- A block of the node, or block 0 where there is none, is not the node. -/
theorem FileOk.block_ne_node {a : DiskView} {d n : Word} (file : FileOk a d n) (k : Nat) :
    (d, blockAt a.data d n k) ≠ (d, n) := by
  by_cases here : blockAt a.data d n k = 0
  · rw [here]
    intro same
    exact ne_zero_of_high file.high (congrArg Prod.snd same).symm
  · exact file.ref_ne (p := .data k) here

/-- The size of the node may be set after a write. -/
theorem Written.finish {a c e : DiskView} {d n : Word} {i : BlockPtr} {keep : Nat → Prop}
    {offset size : Nat} {buf : Nat → Word}
    (whole : Written (a.pin i (d, n)) c d n keep offset size buf)
    (data : ∀ key, key ≠ (d, n) → e.data key = c.data key)
    (slots : ∀ j, 3 ≤ j → (e.data (d, n)).word j = (c.data (d, n)).word j)
    (mode : (e.data (d, n)).word 0 = (c.data (d, n)).word 0) (soft : e.soft ⊆ c.soft)
    (pins : e.pins = a.pins) : Written a e d n keep offset size buf := by
  have file := whole.grown.file
  have refs : ∀ p, ref e.data d n p = ref c.data d n p :=
    ref_congr slots fun j here => data _ (file.index_ne here)
  have marks : ∀ b, isMarked e.data d b = isMarked c.data d b :=
    isMarked_congr fun b => data _ (file.node_ne_bit b).symm
  have blocks : ∀ k, blockAt e.data d n k = blockAt c.data d n k := fun k => refs (.data k)
  have words : ∀ p, wordAt e.data d n p = wordAt c.data d n p := by
    intro p
    unfold wordAt
    rw [blocks, data _ (file.block_ne_node _)]
  refine ⟨⟨whole.grown.vol.congr marks fun b mem => soft mem,
    file.congr marks refs fun j _ mem => soft mem, pins, fun key mem =>
    whole.grown.soft key (soft mem), fun p here => ?_, fun p mem => ?_, fun p here => ?_,
    fun p zero here => ?_, fun b => ?_, mode.trans whole.grown.mode, fun key node bits away => ?_⟩,
    fun p low high => ?_, fun p inside out => ?_, fun p low high mem => ?_⟩
  · rw [refs]
    exact whole.grown.kept p here
  · rw [refs]
    exact whole.grown.filled p mem
  · rw [refs] at here
    exact whole.grown.only p here
  · rw [refs] at here ⊢
    exact whole.grown.fresh p zero here
  · rw [marks]
    simp only [refs]
    exact whole.grown.marks b
  · rw [data key node]
    refine whole.grown.frame key node bits fun p here => ?_
    rw [← refs]
    exact away p (by rwa [refs])
  · rw [words]
    exact whole.words p low high
  · rw [words]
    exact whole.others p inside out
  · rw [blocks] at mem
    exact whole.hard p low high (soft mem)

/-! ### The loop -/

section Rules

variable {base : BlockPtr → Nat} {room : Nat} {ok : Fault → Prop} {d n : Word}

/-- One pass of the loop of `fs_write`: a run of words in one block, and the next block. -/
theorem Written.of_pass {a b₁ : DiskView} {keep : Nat → Prop} {offset size : Nat}
    {buf : Nat → Word} {q : BlockPtr} {x : BlockData} (file : FileOk a d n)
    (kept : Kept a d n keep) (here : blockAt a.data d n (offset / 256) ≠ 0)
    (fits : offset % 256 + size ≤ 256)
    (read : (d, blockAt a.data d n (offset / 256)) ∉ a.soft →
      x = a.data (d, blockAt a.data d n (offset / 256)))
    (grown : Grown (((a.put (d, blockAt a.data d n (offset / 256)) x).pin q
        (d, blockAt a.data d n (offset / 256))).store (d, blockAt a.data d n (offset / 256))
        (x.blit (offset % 256) size buf)) b₁ d n (passed ((offset + size) / 256)))
    (quiet : Quiet (((a.put (d, blockAt a.data d n (offset / 256)) x).pin q
        (d, blockAt a.data d n (offset / 256))).store (d, blockAt a.data d n (offset / 256))
        (x.blit (offset % 256) size buf)) b₁ d n) :
    Written a ((b₁.settle (d, blockAt a.data d n (offset / 256))).unpin q
        (d, blockAt a.data d n (offset / 256))) d n keep offset size buf ∧
      (b₁.data (d, n)).size = (a.data (d, n)).size := by
  set k := offset / 256 with hk
  set c := blockAt a.data d n k with hc
  set a₁ := ((a.put (d, c) x).pin q (d, c)).store (d, c) (x.blit (offset % 256) size buf) with ha₁
  have data₁ : ∀ key, key ≠ (d, c) → a₁.data key = a.data key := by
    intro key ne
    rw [ha₁, DiskView.store_data_ne _ _ _ ne, DiskView.pin_data, DiskView.put_data_ne _ _ _ ne]
  have refs₁ : ∀ p, ref a₁.data d n p = ref a.data d n p := file.ref_data here data₁
  have marks₁ : ∀ e, isMarked a₁.data d e = isMarked a.data d e := file.marks_data here data₁
  have node₁ : a₁.data (d, n) = a.data (d, n) := data₁ _ (file.ref_ne (p := .data k) here).symm
  have block₁ : ∀ l, blockAt a₁.data d n l = blockAt a.data d n l := fun l => refs₁ (.data l)
  have kept₁ : ∀ l, blockAt a.data d n l ≠ 0 → blockAt b₁.data d n l = blockAt a.data d n l := by
    intro l some
    rw [← block₁ l]
    exact grown.block (by rwa [block₁ l])
  have stored : b₁.data (d, c) = x.blit (offset % 256) size buf := by
    have same := quiet.block grown.file (k := k) (by rwa [kept₁ k here])
    rw [kept₁ k here] at same
    exact same.trans (DiskView.store_data_self _ _ _)
  have soft₁ : ∀ key ∈ b₁.soft \ {(d, c)}, key ∈ a.soft ∨ key = (d, n) := by
    rintro key ⟨mem, ne⟩
    rcases grown.soft key mem with (same | old) | node
    · exact absurd same ne
    · exact Or.inl old
    · exact Or.inr node
  have data₂ : ((b₁.settle (d, c)).unpin q (d, c)).data = b₁.data := rfl
  refine ⟨⟨⟨grown.vol.congr (fun _ => rfl) fun e mem => mem.1,
    grown.file.congr (fun _ => rfl) (fun _ => rfl) fun j _ mem => mem.1, ?_, soft₁,
    fun p some => ?_, fun p mem => ?_, fun p some => ?_, fun p zero some => ?_, fun e => ?_,
    ?_, fun key node bits away => ?_⟩, fun p low high => ?_, fun p inside out => ?_,
    fun p low high => ?_⟩, ?_⟩
  · show b₁.pins.erase (q, (d, c)) = a.pins
    have pins : b₁.pins = (q, (d, c)) :: a.pins := grown.pins
    rw [pins]
    exact List.erase_cons_head (q, (d, c)) a.pins
  · rw [← refs₁ p]
    exact grown.kept p (by rwa [refs₁ p])
  · -- the places touched are those of the first slot, filled before, and those of the next
    obtain ⟨l, range, inside⟩ := Finset.mem_biUnion.mp mem
    rw [Finset.mem_Icc] at range
    rcases Nat.lt_or_ge l ((offset + size) / 256) with early | late
    · have same : l = k := by omega
      have full : ref a.data d n p ≠ 0 := passed_filled here p (same ▸ inside)
      rw [← refs₁ p] at full
      show ref b₁.data d n p ≠ 0
      rwa [grown.kept p full]
    · have same : l = (offset + size) / 256 := le_antisymm range.2 late
      exact grown.filled p (same ▸ inside)
  · rcases grown.only p some with old | new
    · exact Or.inl (by rwa [← refs₁ p])
    · exact Or.inr (mem_touched_right offset size new)
  · rw [← marks₁]
    exact grown.fresh p (by rwa [refs₁ p]) some
  · show isMarked b₁.data d e = true ↔ _
    rw [grown.marks, marks₁]
    simp only [refs₁]
    rfl
  · exact grown.mode.trans (by rw [node₁])
  · have ne : key ≠ (d, c) := by
      have there := away (.data k)
      have same : ref b₁.data d n (.data k) = c := kept₁ k here
      rw [show ref ((b₁.settle (d, c)).unpin q (d, c)).data d n (.data k) = c from same] at there
      exact there here
    exact (grown.frame key node bits away).trans (data₁ key ne)
  · have slot : p / 256 = k := by omega
    unfold wordAt
    rw [data₂, slot, kept₁ k here, stored, BlockData.word_blit _ _ _ _ (Nat.mod_lt _ (by decide)),
      if_pos (by omega)]
    congr 1
    omega
  · obtain ⟨some, hard⟩ := kept _ inside
    unfold wordAt
    rw [data₂, kept₁ _ some]
    by_cases slot : p / 256 = k
    · rw [slot] at hard ⊢
      rw [stored, BlockData.word_blit _ _ _ _ (Nat.mod_lt _ (by decide)), if_neg (by omega),
        read hard]
    · have ne : (d, blockAt a.data d n (p / 256)) ≠ (d, c) := file.block_ne here slot
      have same := quiet.block grown.file (k := p / 256) (by rwa [kept₁ _ some])
      rw [kept₁ _ some] at same
      rw [same, data₁ _ ne]
  · have slot : p / 256 = k := by omega
    rw [data₂, slot, kept₁ k here]
    exact fun mem => mem.2 rfl
  · rw [quiet.size, node₁]

/-- **The loop of `fs_write`.** -/
theorem wp_fsWriteLoop (size : Nat) : ∀ {a : DiskView} {i : BlockPtr} {keep : Nat → Prop}
    {offset : Nat} {buf : Nat → Word} {post : Nat → DiskView → Prop},
    (i, (d, n)) ∈ a.pins → a.pins.length + 2 < room → VolumeOk a d → FileOk a d n →
    blockAt a.data d n (offset / 256) ≠ 0 → (offset + size) / 256 < dataSlots →
    missing a d n (touched offset size) ≤ freeBlocks a d → Kept a d n keep →
    (∀ b, Written a b d n keep offset size buf → (b.data (d, n)).size = (a.data (d, n)).size →
      post (offset + size) b) →
    wp (Shows drv base room) ok
      (fsWriteLoop drv d i (blockAt a.data d n (offset / 256)) offset size buf) post a := by
  induction size using Nat.strong_induction_on with
  | _ size ih =>
    intro a i keep offset buf post pinned free vol file here inRange enough kept rest
    unfold fsWriteLoop
    by_cases done : size = 0
    · subst done
      exact wp_pos rfl (wp_pure (rest a (Written.refl vol file here) rfl))
    · refine wp_neg done ?_
      have small : offset % 256 < 256 := Nat.mod_lt _ (by decide)
      have now : 0 < min size (256 - offset % 256) := by omega
      have fits : offset % 256 + min size (256 - offset % 256) ≤ 256 := by omega
      have next : offset + min size (256 - offset % 256) + (size - min size (256 - offset % 256)) =
          offset + size := by omega
      dsimp only
      generalize min size (256 - offset % 256) = now' at now fits next ⊢
      have le : now' ≤ size := by omega
      refine wp_bind (wp_bread (by omega) fun q x read => ?_)
      have held := (a.put (d, blockAt a.data d n (offset / 256)) x).mem_pin q
        (d, blockAt a.data d n (offset / 256))
      refine wp_bind (wp_data held ?_)
      refine wp_bind (wp_setData held ?_)
      rw [DiskView.pin_data, DiskView.put_data_self]
      set a₁ := ((a.put (d, blockAt a.data d n (offset / 256)) x).pin q
        (d, blockAt a.data d n (offset / 256))).store (d, blockAt a.data d n (offset / 256))
        (x.blit (offset % 256) now' buf) with ha₁
      have data₁ : ∀ key, key ≠ (d, blockAt a.data d n (offset / 256)) →
          a₁.data key = a.data key := by
        intro key ne
        rw [ha₁, DiskView.store_data_ne _ _ _ ne, DiskView.pin_data, DiskView.put_data_ne _ _ _ ne]
      have marks₁ : ∀ e, isMarked a₁.data d e = isMarked a.data d e := file.marks_data here data₁
      have refs₁ : ∀ p, ref a₁.data d n p = ref a.data d n p := file.ref_data here data₁
      have vol₁ : VolumeOk a₁ d := by
        refine vol.congr marks₁ fun e mem => mem.elim (fun same => ?_) id
        exact absurd same (file.ref_ne_bit (p := .data _) here e).symm
      have file₁ : FileOk a₁ d n := by
        refine file.congr marks₁ refs₁ fun j some mem => mem.elim (fun same => ?_) id
        exact absurd same (file.block_ne_index here)
      have enough₁ : missing a₁ d n (passed ((offset + now') / 256)) ≤ freeBlocks a₁ d := by
        refine le_trans ?_ (le_trans enough (le_of_eq ?_))
        · unfold missing
          simp only [refs₁]
          refine Finset.card_le_card (Finset.filter_subset_filter _ ?_)
          exact passed_subset_touched (by omega) (by omega)
        · unfold freeBlocks
          simp only [marks₁]
      have pinned₁ : (i, (d, n)) ∈ a₁.pins := List.mem_cons_of_mem _ pinned
      refine wp_bind (wp_getOrAllocBlockByOffset pinned₁ (by
        show a.pins.length + 1 + 1 < room
        omega) vol₁ file₁ (by omega) enough₁ fun b₁ grown quiet => ?_)
      have held₁ : (q, (d, blockAt a.data d n (offset / 256))) ∈ b₁.pins := by
        rw [grown.pins]
        exact held
      refine wp_bind (wp_setModified held₁ ?_)
      refine wp_bind (wp_bfree held₁ ?_)
      obtain ⟨pass, sized⟩ := Written.of_pass file kept here fits
        (fun hard => read (Or.inl hard)) grown quiet
      set a₂ := (b₁.settle (d, blockAt a.data d n (offset / 256))).unpin q
        (d, blockAt a.data d n (offset / 256)) with ha₂
      have pins₂ : a₂.pins = a.pins := pass.grown.pins
      have more : touched offset now' ⊆ touched offset size := by
        have split := touched_append offset now' (size - now')
        rw [show now' + (size - now') = size by omega] at split
        rw [← split]
        exact Finset.subset_union_left
      have enough₂ : missing a₂ d n (touched (offset + now') (size - now')) ≤
          freeBlocks a₂ d := by
        refine le_trans (Finset.card_le_card (Finset.filter_subset_filter _ ?_))
          (pass.grown.enough more enough)
        have split := touched_append offset now' (size - now')
        rw [show now' + (size - now') = size by omega] at split
        rw [← split]
        exact Finset.subset_union_right
      have here₂ : blockAt a₂.data d n ((offset + now') / 256) ≠ 0 :=
        pass.grown.filled _ (mem_touched_right offset now' (data_mem_passed _))
      have kept₂ : Kept a₂ d n
          fun k => keep k ∨ Covers offset now' k := by
        rintro k (inside | ⟨p, low, high, rfl⟩)
        · exact kept.grown file pass.grown k inside
        · refine ⟨?_, pass.hard p low high⟩
          exact pass.grown.filled (.data _) (passed_subset_touched (Nat.div_le_div_right low)
            (Nat.div_le_div_right high.le) (data_mem_passed _))
      refine ih (size - now') (by omega) (pins₂ ▸ pinned) (pins₂ ▸ free) pass.grown.vol
        pass.grown.file here₂ (by omega) enough₂ kept₂ fun b tail same => ?_
      have whole := pass.trans tail
      rw [show now' + (size - now') = size by omega] at whole
      rw [next]
      exact rest b whole (same.trans sized)

/-- The effect of `fs_write`: a write, the size, and nothing left at risk that was not before. -/
structure FileWritten (a b : DiskView) (d n : Word) (keep : Nat → Prop) (offset size : Nat)
    (buf : Nat → Word) : Prop where
  written : Written a b d n keep offset size buf
  size : (b.data (d, n)).size = max (a.data (d, n)).size (offset + size)
  soft : b.soft ⊆ a.soft

/-- **`fs_write`** at an offset inside the file. -/
theorem wp_fsWrite {a : DiskView} {keep : Nat → Prop} {offset size : Nat} {buf : Nat → Word}
    {post : Nat → DiskView → Prop} (free : a.pins.length + 3 < room) (vol : VolumeOk a d)
    (file : FileOk a d n) (node : (d, n) ∉ a.soft) (inside : offset ≤ (a.data (d, n)).size)
    (inRange : (offset + size) / 256 < dataSlots)
    (enough : missing a d n (touched offset size) ≤ freeBlocks a d) (kept : Kept a d n keep)
    (rest : ∀ b, FileWritten a b d n keep offset size buf → post size b) :
    wp (Shows drv base room) ok (fsWrite drv ⟨d, n⟩ offset size buf) post a := by
  unfold fsWrite
  refine wp_bind (wp_bread_hard (by omega) node fun i => ?_)
  have held := a.mem_pin i (d, n)
  refine wp_bind (wp_data held ?_)
  refine wp_neg (Nat.not_lt.mpr inside) ?_
  have vol₀ : VolumeOk (a.pin i (d, n)) d := ⟨vol.reserved, vol.bitmap⟩
  have file₀ : FileOk (a.pin i (d, n)) d n := ⟨file.high, file.marked, file.refs, file.inj, file.index⟩
  have enough₀ : missing (a.pin i (d, n)) d n (passed (offset / 256)) ≤
      freeBlocks (a.pin i (d, n)) d :=
    (Finset.card_le_card (Finset.filter_subset_filter _ (mem_touched_left offset size))).trans enough
  refine wp_bind (wp_getOrAllocBlockByOffset held (by
    show a.pins.length + 1 + 1 < room
    omega) vol₀ file₀ (by omega) enough₀ fun b grown quiet => ?_)
  have pins : b.pins = (i, (d, n)) :: a.pins := grown.pins
  have first : Written (a.pin i (d, n)) b d n keep offset 0 buf := by
    refine ⟨grown.widen (mem_touched_left offset 0) fun p mem => ?_, fun p low high => by omega,
      fun p inside _ => ?_, fun p low high => by omega⟩
    · exact grown.filled p (touched_zero offset ▸ mem)
    · obtain ⟨some, -⟩ := kept _ inside
      have same := grown.block some
      unfold wordAt
      rw [same, ← same, quiet.block grown.file (by rwa [same])]
  have kept' : Kept b d n fun k => keep k ∨ Covers offset 0 k := by
    rintro k (inside | ⟨p, low, high, -⟩)
    · exact Kept.grown (a := a.pin i (d, n)) kept file₀ grown k inside
    · omega
  refine wp_bind (wp_fsWriteLoop size (by rw [pins]; exact List.mem_cons_self)
    (by rw [pins]; exact free) grown.vol grown.file (grown.filled _ (data_mem_passed _)) inRange
    (grown.enough (mem_touched_left offset size) enough) kept' fun c loop sized => ?_)
  have whole := first.trans (c := c) (by simpa only [Nat.add_zero, Nat.zero_add] using loop)
  rw [Nat.zero_add] at whole
  have pins' : c.pins = (i, (d, n)) :: a.pins := whole.grown.pins
  have held' : (i, (d, n)) ∈ c.pins := by
    rw [pins']
    exact List.mem_cons_self
  have size' : (c.data (d, n)).size = (a.data (d, n)).size := sized.trans quiet.size
  refine wp_bind (wp_data held' ?_)
  by_cases longer : (a.data (d, n)).size < offset + size
  · refine wp_bind (wp_pos longer (wp_setData held' ?_))
    refine wp_bind (wp_setModified held' (wp_bind (wp_bfree held' (wp_pure ?_))))
    rw [Nat.add_sub_cancel_left]
    have node : (((c.store (d, n) ((c.data (d, n)).setSize (offset + size))).settle (d, n)).unpin i
        (d, n)).data (d, n) = (c.data (d, n)).setSize (offset + size) :=
      DiskView.store_data_self _ _ _
    refine rest _ ⟨whole.finish (fun key ne => c.store_data_ne _ _ ne) (fun j high => ?_) ?_
      (fun key mem => mem.1.resolve_left mem.2) ?_, ?_, fun key mem => ?_⟩
    · rw [node, BlockData.word_setSize _ _ high]
    · rw [node, BlockData.mode_setSize]
    · show c.pins.erase (i, (d, n)) = a.pins
      rw [pins']
      exact List.erase_cons_head _ _
    · unfold dataSlots at inRange
      rw [node, BlockData.size_setSize _ (by omega), max_eq_right longer.le]
    · exact (whole.grown.soft key (mem.1.resolve_left mem.2)).resolve_right mem.2
  · refine wp_bind (wp_neg longer (wp_pure ?_))
    refine wp_bind (wp_setModified held' (wp_bind (wp_bfree held' (wp_pure ?_))))
    rw [Nat.add_sub_cancel_left]
    refine rest _ ⟨whole.finish (fun _ _ => rfl) (fun _ _ => rfl) rfl (fun key mem => mem.1) ?_, ?_,
      fun key mem => (whole.grown.soft key mem.1).resolve_right mem.2⟩
    · show c.pins.erase (i, (d, n)) = a.pins
      rw [pins']
      exact List.erase_cons_head _ _
    · rw [max_eq_left (Nat.not_lt.mp longer)]
      exact size'

end Rules

end RlCpu.Kernel
