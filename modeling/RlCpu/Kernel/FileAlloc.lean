/-
**`getOrAllocBlockByOffset` grows a node by the places it passes.**

* `Grown.of_fill`: one place filled with a block whose bit was clear is growth by that place.
* `fillDirect`, `fillIndex`, `fillIndirect`: the three stores of the function fill one place each.
* `wp_getOrAllocBlockByOffset`: with blocks for what is missing, the function returns the block of the
  data slot; `Quiet` says that it writes to the node, to the bitmap and to index blocks only.
-/

import RlCpu.Kernel.FileMap

namespace RlCpu.Kernel

open RlCpu.Lib

variable {δ : Type} {drv : BlkDriver δ}

/-! ### Bits and blocks -/

section Bits

variable {a : DiskView} {d n r : Word}

theorem key_ne_bit {b : Word} (high : 34 ≤ b.toNat) (c : Word) : (d, b) ≠ (d, bitBlock c) :=
  fun same => ne_bitBlock high c (congrArg Prod.snd same)

/-- The bits of a device are in its bitmap blocks. -/
theorem isMarked_congr {f g : BlockKey → BlockData}
    (same : ∀ c, f (d, bitBlock c) = g (d, bitBlock c)) (e : Word) :
    isMarked f d e = isMarked g d e := by
  unfold isMarked
  rw [same]

theorem isMarked_put {key : BlockKey} (away : ∀ c, key ≠ (d, bitBlock c)) (x : BlockData)
    (e : Word) : isMarked (a.put key x).data d e = isMarked a.data d e :=
  isMarked_congr (fun c => a.put_data_ne key x (away c).symm) e

theorem isMarked_store {key : BlockKey} (away : ∀ c, key ≠ (d, bitBlock c)) (x : BlockData)
    (e : Word) : isMarked (a.store key x).data d e = isMarked a.data d e :=
  isMarked_congr (fun c => a.store_data_ne key x (away c).symm) e

/-- A data slot, given the node's words and the index block. -/
theorem blockAt_congr {f g : BlockKey → BlockData} {k : Nat}
    (direct : k < directIndexesCnt → (f (d, n)).word (k + 3) = (g (d, n)).word (k + 3))
    (index : ¬ k < directIndexesCnt → indexAt f d n (indexOf k) =
      indexAt g d n (indexOf k))
    (slot : ¬ k < directIndexesCnt → indexAt g d n (indexOf k) ≠ 0 →
      (f (d, indexAt g d n (indexOf k))).word (slotOf k) =
      (g (d, indexAt g d n (indexOf k))).word (slotOf k)) :
    blockAt f d n k = blockAt g d n k := by
  unfold blockAt
  by_cases low : k < directIndexesCnt
  · rw [if_pos low, if_pos low]
    exact direct low
  · rw [if_neg low, if_neg low, index low]
    by_cases none : indexAt g d n (indexOf k) = 0
    · rw [if_pos none, if_pos none]
    · rw [if_neg none, if_neg none]
      exact slot low none

/-- References are unchanged where the node's words from 3 on and its index blocks are. -/
theorem ref_congr {f g : BlockKey → BlockData}
    (node : ∀ i, 3 ≤ i → (f (d, n)).word i = (g (d, n)).word i)
    (index : ∀ j, indexAt g d n j ≠ 0 → f (d, indexAt g d n j) = g (d, indexAt g d n j)) (p : Place) :
    ref f d n p = ref g d n p := by
  cases p with
  | data k =>
    refine blockAt_congr (fun _ => node _ (by omega)) (fun _ => node _ (by omega)) fun _ here => ?_
    rw [index _ here]
  | index j => exact node _ (by omega)

/-- A block of the node is not the node. -/
theorem FileOk.ref_ne (file : FileOk a d n) {p : Place} (here : ref a.data d n p ≠ 0) :
    (d, ref a.data d n p) ≠ (d, n) :=
  fun same => (file.refs p here).2.2 (congrArg Prod.snd same)

/-- A block of the node is not in the bitmap. -/
theorem FileOk.ref_ne_bit (file : FileOk a d n) {p : Place} (here : ref a.data d n p ≠ 0)
    (c : Word) : (d, ref a.data d n p) ≠ (d, bitBlock c) :=
  key_ne_bit (by have := (file.refs p here).1; omega) c

theorem FileOk.index_ne (file : FileOk a d n) {j : Nat} (here : indexAt a.data d n j ≠ 0) :
    (d, indexAt a.data d n j) ≠ (d, n) := file.ref_ne (p := .index j) here

theorem FileOk.index_ne_bit (file : FileOk a d n) {j : Nat} (here : indexAt a.data d n j ≠ 0)
    (c : Word) : (d, indexAt a.data d n j) ≠ (d, bitBlock c) := file.ref_ne_bit (p := .index j) here c

theorem FileOk.node_ne_bit (file : FileOk a d n) (c : Word) : (d, n) ≠ (d, bitBlock c) :=
  key_ne_bit file.high c

/-- A block with a clear bit is in no place of the node. -/
theorem FileOk.ref_ne_fresh (file : FileOk a d n) (clear : isMarked a.data d r = false) {p : Place}
    (here : ref a.data d n p ≠ 0) : ref a.data d n p ≠ r := by
  rintro rfl
  rw [(file.refs p here).2.1] at clear
  cases clear

theorem FileOk.node_ne_fresh (file : FileOk a d n) (clear : isMarked a.data d r = false) :
    n ≠ r := by
  rintro rfl
  rw [file.marked] at clear
  cases clear

end Bits

/-! ### One place filled -/

/-- **One place filled with a block whose bit was clear.** -/
theorem Grown.of_fill {a b : DiskView} {d n r : Word} {p : Place} (vol : VolumeOk a d)
    (file : FileOk a d n) (pins : b.pins = a.pins)
    (soft : ∀ key ∈ b.soft, key ∈ a.soft ∨ key = (d, n))
    (empty : ref a.data d n p = 0) (clear : isMarked a.data d r = false)
    (refs : ∀ q, ref b.data d n q = if q = p then r else ref a.data d n q)
    (marks : ∀ e, isMarked b.data d e = if e = r then true else isMarked a.data d e)
    (mode : (b.data (d, n)).word 0 = (a.data (d, n)).word 0)
    (index : ∀ j, p = .index j → (d, r) ∉ b.soft)
    (frame : ∀ key, key ≠ (d, n) → (∀ c, key ≠ (d, bitBlock c)) →
      (∀ q, ref b.data d n q ≠ 0 → key ≠ (d, ref b.data d n q)) → b.data key = a.data key) :
    Grown a b d n {p} := by
  have high := vol.fresh clear
  have nonzero : r ≠ 0 := ne_zero_of_high (by omega)
  have mono : ∀ e, isMarked a.data d e = true → isMarked b.data d e = true := by
    intro e set
    rw [marks]
    split
    · rfl
    · exact set
  have other : ∀ q, ref a.data d n q ≠ 0 → ref b.data d n q = ref a.data d n q := by
    intro q here
    rw [refs, if_neg]
    rintro rfl
    exact here empty
  refine ⟨⟨fun e low => mono e (vol.reserved e low), fun e mem => ?_⟩,
    ⟨file.high, mono n file.marked, fun q here => ?_, fun q s same here => ?_, fun j here mem => ?_⟩,
    pins, soft, other, fun q mem => ?_, fun q here => ?_, fun q zero here => ?_, fun e => ?_, mode,
    frame⟩
  · rcases soft _ mem with old | node
    · exact vol.bitmap e old
    · exact file.node_ne_bit e node.symm
  · by_cases same : q = p
    · rw [refs, if_pos same]
      exact ⟨high, by rw [marks, if_pos rfl], (file.node_ne_fresh clear).symm⟩
    · rw [refs, if_neg same] at here ⊢
      obtain ⟨above, set, ne⟩ := file.refs q here
      exact ⟨above, mono _ set, ne⟩
  · rw [refs] at here
    rw [refs, refs] at same
    by_cases first : q = p <;> by_cases second : s = p
    · rw [first, second]
    · rw [if_pos first, if_neg second] at same
      exact absurd same.symm (file.ref_ne_fresh clear (by rwa [← same]))
    · rw [if_neg first, if_pos second] at same
      rw [if_neg first] at here
      exact absurd same (file.ref_ne_fresh clear here)
    · rw [if_neg first, if_neg second] at same
      rw [if_neg first] at here
      exact file.inj q s same here
  · have value : indexAt b.data d n j = if Place.index j = p then r else indexAt a.data d n j :=
      refs (.index j)
    rw [value] at here mem
    by_cases same : Place.index j = p
    · rw [if_pos same] at mem
      exact index j same.symm mem
    · rw [if_neg same] at here mem
      rcases soft _ mem with old | node
      · exact file.index j here old
      · exact file.index_ne here node
  · rw [Finset.mem_singleton.mp mem, refs, if_pos rfl]
    exact nonzero
  · by_cases same : q = p
    · exact Or.inr (Finset.mem_singleton.mpr same)
    · rw [refs, if_neg same] at here
      exact Or.inl here
  · rw [refs] at here ⊢
    by_cases same : q = p
    · rwa [if_pos same]
    · rw [if_neg same] at here
      exact absurd zero here
  · rw [marks]
    by_cases same : e = r
    · rw [if_pos same]
      refine iff_of_true rfl (Or.inr ⟨p, empty, ?_, same ▸ nonzero⟩)
      rw [refs, if_pos rfl, same]
    · rw [if_neg same]
      refine ⟨Or.inl, fun known => known.elim id ?_⟩
      rintro ⟨q, zero, now, ne⟩
      rw [refs] at now
      by_cases first : q = p
      · rw [if_pos first] at now
        exact absurd now.symm same
      · rw [if_neg first] at now
        exact absurd (now.symm.trans zero) ne

/-- Only the node, the bitmap and index blocks of the node differ, and the size does not. -/
structure Quiet (a b : DiskView) (d n : Word) : Prop where
  size : (b.data (d, n)).size = (a.data (d, n)).size
  frame : ∀ key, key ≠ (d, n) → (∀ c, key ≠ (d, bitBlock c)) →
    (∀ j, indexAt b.data d n j ≠ 0 → key ≠ (d, indexAt b.data d n j)) → b.data key = a.data key

theorem Quiet.refl (a : DiskView) (d n : Word) : Quiet a a d n := ⟨rfl, fun _ _ _ _ => rfl⟩

theorem Quiet.trans {a b c : DiskView} {d n : Word} {ps : Finset Place} (first : Quiet a b d n)
    (second : Quiet b c d n) (grown : Grown b c d n ps) : Quiet a c d n := by
  refine ⟨second.size.trans first.size, fun key node bits away => ?_⟩
  rw [second.frame key node bits away]
  refine first.frame key node bits fun j here => ?_
  rw [← grown.index here]
  exact away j (by rwa [grown.index here])

/-- The size of a node is in words 1 and 2. -/
theorem BlockData.size_put (b : BlockData) {i : Nat} (v : Word) (high : 3 ≤ i) :
    (b.put i v).size = b.size := by
  unfold BlockData.size
  rw [BlockData.word_put_ne _ _ (by omega), BlockData.word_put_ne _ _ (by omega)]

/-- A quiet change leaves the data blocks alone. -/
theorem Quiet.block {a b : DiskView} {d n : Word} (quiet : Quiet a b d n) (file : FileOk b d n)
    {k : Nat} (here : blockAt b.data d n k ≠ 0) :
    b.data (d, blockAt b.data d n k) = a.data (d, blockAt b.data d n k) := by
  refine quiet.frame _ (file.ref_ne (p := .data k) here) (file.ref_ne_bit (p := .data k) here) ?_
  intro j some same
  have place := file.inj (.data k) (.index j) (congrArg Prod.snd same) here
  cases place

section Fill

variable {a : DiskView} {d n r : Word}

/-- The node of the view with one bit set. -/
theorem FileOk.mark_node (file : FileOk a d n) : (a.mark d r true).data (d, n) = a.data (d, n) :=
  a.mark_data_ne d r true (file.node_ne_bit r)

/-- A direct data slot filled. -/
theorem fillDirect {k : Nat} (vol : VolumeOk a d) (file : FileOk a d n)
    (low : k < directIndexesCnt) (empty : blockAt a.data d n k = 0)
    (clear : isMarked a.data d r = false) :
    Grown a ((a.mark d r true).store (d, n) ((a.data (d, n)).put (k + 3) r)) d n {.data k} ∧
      Quiet a ((a.mark d r true).store (d, n) ((a.data (d, n)).put (k + 3) r)) d n := by
  have slot : k + 3 < 256 := by
    unfold directIndexesCnt at low
    omega
  set b := (a.mark d r true).store (d, n) ((a.data (d, n)).put (k + 3) r) with hb
  have node : b.data (d, n) = (a.data (d, n)).put (k + 3) r := DiskView.store_data_self _ _ _
  have index : ∀ j, indexAt b.data d n j = indexAt a.data d n j := by
    intro j
    unfold indexAt
    rw [node, BlockData.word_put_ne]
    omega
  have frame : ∀ key, key ≠ (d, n) → key ≠ (d, bitBlock r) → b.data key = a.data key := by
    intro key ne bit
    rw [hb, DiskView.store_data_ne _ _ _ ne, DiskView.mark_data_ne _ _ _ _ bit]
  refine ⟨Grown.of_fill (r := r) vol file rfl (fun key mem => ?_) empty clear (fun q => ?_)
    (fun e => ?_) ?_ (fun j clash => by cases clash)
    (fun key ne bits _ => frame key ne (bits r)),
    ⟨by rw [node, BlockData.size_put _ _ (by omega)], fun key ne bits _ => frame key ne (bits r)⟩⟩
  · exact mem.elim Or.inr Or.inl
  · cases q with
    | index j => exact (index j).trans (if_neg (by simp)).symm
    | data k' =>
      by_cases same : k' = k
      · subst same
        rw [if_pos rfl]
        show blockAt b.data d n k' = r
        unfold blockAt
        rw [if_pos low, node, BlockData.word_put_self _ _ slot]
      · rw [if_neg (by simpa using same)]
        refine blockAt_congr (fun _ => ?_) (fun _ => index _) fun _ here => ?_
        · rw [node, BlockData.word_put_ne]
          omega
        · rw [frame _ (file.index_ne here) (file.index_ne_bit here r)]
  · rw [hb, isMarked_store (file.node_ne_bit), DiskView.isMarked_mark]
  · rw [node, BlockData.word_put_ne]
    omega

/-- An index word filled with a cleared block. -/
theorem fillIndex {j : Nat} {b : DiskView} (vol : VolumeOk a d) (file : FileOk a d n)
    (inside : directIndexesCnt + 3 + j < 256) (empty : indexAt a.data d n j = 0)
    (clear : isMarked a.data d r = false) (pins : b.pins = a.pins)
    (soft : ∀ key ∈ b.soft, key ∈ a.soft ∧ key ≠ (d, r))
    (node : b.data (d, n) = (a.data (d, n)).put (directIndexesCnt + 3 + j) r)
    (cleared : b.data (d, r) = BlockData.zero)
    (bits : ∀ c, b.data (d, bitBlock c) = (a.mark d r true).data (d, bitBlock c))
    (frame : ∀ key, key ≠ (d, n) → key ≠ (d, r) → key ≠ (d, bitBlock r) → b.data key = a.data key) :
    Grown a b d n {.index j} ∧ Quiet a b d n := by
  have high := vol.fresh clear
  have index : ∀ i, indexAt b.data d n i = if i = j then r else indexAt a.data d n i := by
    intro i
    unfold indexAt
    rw [node, BlockData.word_put _ _ _ _ inside]
    by_cases same : i = j
    · rw [if_pos same, if_pos (by rw [same])]
    · rw [if_neg same, if_neg (by omega)]
  have nonzero : r ≠ 0 := ne_zero_of_high (by omega)
  have indexNew : indexAt b.data d n j = r := by rw [index, if_pos rfl]
  have refs : ∀ q, ref b.data d n q = if q = .index j then r else ref a.data d n q := by
    intro q
    cases q with
    | index i =>
      show indexAt b.data d n i = _
      rw [index]
      by_cases same : i = j
      · rw [if_pos same, if_pos (by rw [same])]
      · rw [if_neg same, if_neg (by simpa using same)]
        rfl
    | data k =>
      rw [if_neg (by simp)]
      show blockAt b.data d n k = blockAt a.data d n k
      by_cases same : indexOf k = j
      · unfold blockAt
        by_cases low : k < directIndexesCnt
        · rw [if_pos low, if_pos low, node, BlockData.word_put_ne]
          omega
        · rw [if_neg low, if_neg low, same, indexNew, if_neg nonzero, if_pos empty, cleared]
          exact BlockData.word_ofFn _ (slotOf_lt k)
      · refine blockAt_congr (fun low => ?_) (fun _ => ?_) fun _ here => ?_
        · rw [node, BlockData.word_put_ne]
          omega
        · rw [index, if_neg same]
        · have away := file.ref_ne_fresh clear (p := .index _) here
          rw [frame _ (file.index_ne here)
            (fun equal => away (congrArg Prod.snd equal))
            (file.index_ne_bit here r)]
  refine ⟨Grown.of_fill vol file pins (fun key mem => Or.inl (soft key mem).1) empty clear refs
    (fun e => ?_) ?_ (fun _ _ mem => (soft _ mem).2 rfl) fun key ne bit away => ?_,
    ⟨by rw [node, BlockData.size_put _ _ (by omega)], fun key ne bit away => ?_⟩⟩
  · rw [isMarked_congr bits, DiskView.isMarked_mark]
  · rw [node, BlockData.word_put_ne]
    omega
  · refine frame key ne ?_ (bit r)
    have here := away (.index j)
    rw [refs, if_pos rfl] at here
    exact here nonzero
  · refine frame key ne ?_ (bit r)
    have here := away j
    rw [indexNew] at here
    exact here nonzero

/-- A slot of an index block filled. -/
theorem fillIndirect {k : Nat} (vol : VolumeOk a d) (file : FileOk a d n)
    (high : ¬ k < directIndexesCnt)
    (some : indexAt a.data d n (indexOf k) ≠ 0)
    (empty : blockAt a.data d n k = 0) (clear : isMarked a.data d r = false) :
    Grown a ((a.mark d r true).put (d, indexAt a.data d n (indexOf k))
        ((a.data (d, indexAt a.data d n (indexOf k))).put
          (slotOf k) r)) d n {.data k} ∧
      Quiet a ((a.mark d r true).put (d, indexAt a.data d n (indexOf k))
        ((a.data (d, indexAt a.data d n (indexOf k))).put
          (slotOf k) r)) d n := by
  set j := indexOf k with hj
  set ib := indexAt a.data d n j with hib
  set b := (a.mark d r true).put (d, ib) ((a.data (d, ib)).put (slotOf k) r)
    with hb
  have slot := slotOf_lt k
  have ibNode : (d, ib) ≠ (d, n) := file.index_ne some
  have ibBit : ∀ c, (d, ib) ≠ (d, bitBlock c) := file.index_ne_bit some
  have node : b.data (d, n) = a.data (d, n) := by
    rw [hb, DiskView.put_data_ne _ _ _ ibNode.symm]
    exact file.mark_node
  have changed : b.data (d, ib) = (a.data (d, ib)).put (slotOf k) r :=
    DiskView.put_data_self _ _ _
  have index : ∀ i, indexAt b.data d n i = indexAt a.data d n i := by
    intro i
    unfold indexAt
    rw [node]
  have frame : ∀ key, key ≠ (d, ib) → key ≠ (d, bitBlock r) → b.data key = a.data key := by
    intro key ne bit
    rw [hb, DiskView.put_data_ne _ _ _ ne, DiskView.mark_data_ne _ _ _ _ bit]
  have indexKey : indexAt b.data d n j ≠ 0 ∧ (d, indexAt b.data d n j) = (d, ib) := by
    rw [index]
    exact ⟨some, rfl⟩
  refine ⟨Grown.of_fill (r := r) vol file rfl (fun key mem => Or.inl mem) empty clear (fun q => ?_)
    (fun e => ?_) (by rw [node]) (fun j clash => by cases clash)
    fun key ne bits away => ?_, ⟨by rw [node], fun key ne bits away => ?_⟩⟩
  · cases q with
    | index i => exact (index i).trans (if_neg (by simp)).symm
    | data k' =>
      by_cases same : k' = k
      · subst same
        rw [if_pos rfl]
        show blockAt b.data d n k' = r
        unfold blockAt
        rw [if_neg high, index, ← hj, ← hib, if_neg some, changed, BlockData.word_put_self _ _ slot]
      · rw [if_neg (by simpa using same)]
        refine blockAt_congr (fun _ => by rw [node]) (fun _ => index _) fun high' here => ?_
        by_cases block : indexOf k' = j
        · rw [block, ← hib, changed, BlockData.word_put_ne]
          exact slotOf_ne high' high same block
        · have away : (d, indexAt a.data d n (indexOf k')) ≠ (d, ib) := by
            intro equal
            have place := file.inj (.index _) (.index j) (congrArg Prod.snd equal) here
            exact block (by simpa using place)
          rw [frame _ away (file.index_ne_bit here r)]
  · rw [hb, isMarked_put ibBit, DiskView.isMarked_mark]
  · refine frame key ?_ (bits r)
    rw [← indexKey.2]
    exact away (.index j) indexKey.1
  · refine frame key ?_ (bits r)
    rw [← indexKey.2]
    exact away j indexKey.1

end Fill

/-! ### The function -/

section Rules

variable {base : BlockPtr → Nat} {room : Nat} {ok : Fault → Prop} {a : DiskView} {d n : Word}

theorem missing_pos {ps : Finset Place} {p : Place} (inside : p ∈ ps)
    (empty : ref a.data d n p = 0) : 0 < missing a d n ps :=
  Finset.card_pos.mpr ⟨p, Finset.mem_filter.mpr ⟨inside, empty⟩⟩

/-- The index block of word `j`: read, or allocated and cleared. -/
theorem wp_getOrAllocIndexBlock {i : BlockPtr} {j : Nat} {post : BlockPtr → DiskView → Prop}
    (pinned : (i, (d, n)) ∈ a.pins) (free : a.pins.length < room) (vol : VolumeOk a d)
    (file : FileOk a d n) (inside : directIndexesCnt + 3 + j < 256)
    (enough : indexAt a.data d n j = 0 → 0 < freeBlocks a d)
    (rest : ∀ p b, Grown a b d n {.index j} → Quiet a b d n →
      post p (b.pin p (d, indexAt b.data d n j))) :
    wp (Shows drv base room) ok (getOrAllocIndexBlock drv d i (directIndexesCnt + 3 + j)) post
      a := by
  unfold getOrAllocIndexBlock
  refine wp_bind (wp_data pinned ?_)
  by_cases empty : indexAt a.data d n j = 0
  · refine wp_pos empty ?_
    refine wp_bind (wp_fsAllocBlock free vol.bitmap (exists_clear (enough empty)) fun r clear => ?_)
    refine wp_bind (wp_setData pinned ?_)
    refine wp_bind (wp_setModified pinned ?_)
    refine wp_bind (wp_bread free fun p x _ => ?_)
    refine wp_bind (wp_setData List.mem_cons_self ?_)
    refine wp_bind (wp_setModified List.mem_cons_self (wp_pure ?_))
    have high := vol.fresh clear
    have rNode : (d, r) ≠ (d, n) :=
      fun same => (file.node_ne_fresh clear).symm (congrArg Prod.snd same)
    have rBit : ∀ c, (d, r) ≠ (d, bitBlock c) := key_ne_bit (by omega)
    -- the view reached, without the hold of the new index block
    set f := (((((a.mark d r true).store (d, n) ((a.data (d, n)).put (directIndexesCnt + 3 + j)
      r)).settle (d, n)).put (d, r) x).pin p (d, r)).store (d, r) BlockData.zero with hf
    have node : f.data (d, n) = (a.data (d, n)).put (directIndexesCnt + 3 + j) r := by
      rw [hf, DiskView.store_data_ne _ _ _ rNode.symm, DiskView.pin_data,
        DiskView.put_data_ne _ _ _ rNode.symm, DiskView.settle_data, DiskView.store_data_self]
    have both : Grown a { f.settle (d, r) with pins := a.pins } d n {.index j} ∧
        Quiet a { f.settle (d, r) with pins := a.pins } d n := by
      refine fillIndex (r := r) vol file inside empty clear rfl (fun key mem => ?_) node
        (DiskView.store_data_self _ _ _) (fun c => ?_) fun key node new bit => ?_
      · obtain ⟨old | ⟨old | old, ne⟩, away⟩ := mem
        · exact absurd old away
        · exact absurd old ne
        · exact ⟨old, away⟩
      · show f.data (d, bitBlock c) = _
        rw [hf, DiskView.store_data_ne _ _ _ (rBit c).symm, DiskView.pin_data,
          DiskView.put_data_ne _ _ _ (rBit c).symm, DiskView.settle_data,
          DiskView.store_data_ne _ _ _ (file.node_ne_bit c).symm]
      · show f.data key = _
        rw [hf, DiskView.store_data_ne _ _ _ new, DiskView.pin_data, DiskView.put_data_ne _ _ _ new,
          DiskView.settle_data, DiskView.store_data_ne _ _ _ node,
          DiskView.mark_data_ne _ _ _ _ bit]
    have same : indexAt f.data d n j = r := by
      unfold indexAt
      rw [node, BlockData.word_put_self _ _ inside]
    have view : ({ f.settle (d, r) with pins := a.pins } : DiskView).pin p
        (d, indexAt f.data d n j) = f.settle (d, r) := by
      rw [same]
      rfl
    exact (congrArg (post p) view).mp (rest p _ both.1 both.2)
  · refine wp_neg empty ?_
    refine wp_bread_hard free (file.index j empty) fun p => rest p a ?_ (Quiet.refl a d n)
    refine Grown.refl vol file fun q mem => ?_
    rw [Finset.mem_singleton.mp mem]
    exact empty

/-- The arithmetic of an offset beyond the direct indexes. -/
theorem indirect_offset {offset : Nat} (high : ¬ offset < directIndexesCnt * 256)
    (inRange : offset / 256 < dataSlots) :
    ((offset - directIndexesCnt * 256) / 65536 + (directIndexesCnt + 3)) % 65536 =
        directIndexesCnt + 3 + indexOf (offset / 256) ∧
      (offset - directIndexesCnt * 256) / 256 % 256 = slotOf (offset / 256) ∧
      directIndexesCnt + 3 + indexOf (offset / 256) < 256 ∧
      ¬ offset / 256 < directIndexesCnt := by
  unfold indexOf slotOf
  unfold directIndexesCnt at *
  unfold dataSlots at inRange
  omega

theorem blockAt_direct {f : BlockKey → BlockData} {k : Nat} (low : k < directIndexesCnt) :
    blockAt f d n k = (f (d, n)).word (k + 3) := if_pos low

theorem blockAt_indirect {f : BlockKey → BlockData} {k : Nat} (high : ¬ k < directIndexesCnt)
    (some : indexAt f d n (indexOf k) ≠ 0) :
    blockAt f d n k = (f (d, indexAt f d n (indexOf k))).word
      (slotOf k) := by
  unfold blockAt
  rw [if_neg high, if_neg some]

/-- The slot of an index block that is held for it: read, or filled. -/
theorem wp_getOrAllocSlot {p : BlockPtr} {k : Nat} {post : Word → DiskView → Prop}
    (free : a.pins.length + 1 < room) (vol : VolumeOk a d) (file : FileOk a d n)
    (high : ¬ k < directIndexesCnt)
    (some : indexAt a.data d n (indexOf k) ≠ 0)
    (enough : blockAt a.data d n k = 0 → 0 < freeBlocks a d)
    (rest : ∀ b, Grown a b d n {.data k} → Quiet a b d n → post (blockAt b.data d n k) b) :
    wp (Shows drv base room) ok (getOrAllocSlot drv d p (slotOf k)) post
      (a.pin p (d, indexAt a.data d n (indexOf k))) := by
  have value := blockAt_indirect high some
  have hard := file.index _ some
  have held := DiskView.mem_pin a p (d, indexAt a.data d n (indexOf k))
  unfold getOrAllocSlot
  refine wp_bind (wp_data held ?_)
  by_cases empty : blockAt a.data d n k = 0
  · refine wp_pos (value.symm.trans empty) ?_
    refine wp_bind (wp_fsAllocBlock free vol.bitmap (exists_clear (enough empty)) fun r clear => ?_)
    refine wp_bind (wp_setData held ?_)
    refine wp_bind (wp_setModified held ?_)
    refine wp_bind (wp_bfree held (wp_pure ?_))
    obtain ⟨grown, quiet⟩ := fillIndirect vol file high some empty clear
    have result := rest _ grown quiet
    have kept := grown.index some
    rw [blockAt_indirect high (by rwa [kept]), kept, DiskView.put_data_self,
      BlockData.word_put_self _ _ (slotOf_lt k)] at result
    have view := DiskView.pin_store_settle_unpin_hard (a.mark d r true) p
      (d, indexAt a.data d n (indexOf k))
      ((a.data (d, indexAt a.data d n (indexOf k))).put
        (slotOf k) r) hard
    exact (congrArg (post r) view).mpr result
  · refine wp_neg (fun zero => empty (value.trans zero)) ?_
    refine wp_bind (wp_bfree_pin (wp_pure ?_))
    have full : ∀ q ∈ ({.data k} : Finset Place), ref a.data d n q ≠ 0 := by
      intro q mem
      rw [Finset.mem_singleton.mp mem]
      exact empty
    have result := rest a (Grown.refl vol file full) (Quiet.refl a d n)
    rw [value] at result
    exact result

/-- **`getOrAllocBlockByOffset`** returns the block of the data slot, which it fills if it has to. -/
theorem wp_getOrAllocBlockByOffset {i : BlockPtr} {offset : Nat} {post : Word → DiskView → Prop}
    (pinned : (i, (d, n)) ∈ a.pins) (free : a.pins.length + 1 < room) (vol : VolumeOk a d)
    (file : FileOk a d n) (inRange : offset / 256 < dataSlots)
    (enough : missing a d n (passed (offset / 256)) ≤ freeBlocks a d)
    (rest : ∀ b, Grown a b d n (passed (offset / 256)) → Quiet a b d n →
      post (blockAt b.data d n (offset / 256)) b) :
    wp (Shows drv base room) ok (getOrAllocBlockByOffset drv d i offset) post a := by
  unfold getOrAllocBlockByOffset
  by_cases low : offset < directIndexesCnt * 256
  · have direct : offset / 256 < directIndexesCnt := by
      unfold directIndexesCnt at *
      omega
    have inside : offset / 256 + 3 < 256 := by
      unfold directIndexesCnt at direct
      omega
    have slot : offset / 256 % 256 + 3 = offset / 256 + 3 := by omega
    have single : passed (offset / 256) = {.data (offset / 256)} := if_pos direct
    have value : blockAt a.data d n (offset / 256) = _ := blockAt_direct direct
    refine wp_pos low (wp_bind (wp_data pinned ?_))
    dsimp only
    rw [slot]
    by_cases empty : blockAt a.data d n (offset / 256) = 0
    · refine wp_pos (value.symm.trans empty) ?_
      have some : 0 < freeBlocks a d :=
        (missing_pos (data_mem_passed _) empty).trans_le enough
      refine wp_bind (wp_fsAllocBlock (by omega) vol.bitmap (exists_clear some)
        fun r clear => ?_)
      refine wp_bind (wp_setData pinned (wp_pure ?_))
      obtain ⟨grown, quiet⟩ := fillDirect vol file direct empty clear
      have result := rest _ (single ▸ grown) quiet
      rw [blockAt_direct direct, DiskView.store_data_self, BlockData.word_put_self _ _ inside]
        at result
      exact result
    · refine wp_neg (fun zero => empty (value.trans zero)) (wp_pure ?_)
      have result := rest a (Grown.refl vol file fun p mem => ?_) (Quiet.refl a d n)
      · rw [value] at result
        exact result
      · rw [single, Finset.mem_singleton] at mem
        rw [mem]
        exact empty
  · obtain ⟨word, slot, inside, high⟩ := indirect_offset low inRange
    have union : passed (offset / 256) =
        {.index (indexOf (offset / 256))} ∪ {.data (offset / 256)} := if_neg high
    refine wp_neg low ?_
    dsimp only
    rw [word, slot]
    refine wp_neg (by omega) ?_
    refine wp_bind (wp_getOrAllocIndexBlock pinned (by omega) vol file inside (fun empty => ?_)
      fun p b grown quiet => ?_)
    · refine (missing_pos (p := .index (indexOf (offset / 256))) ?_ empty).trans_le
        enough
      rw [union]
      exact Finset.mem_union_left _ (Finset.mem_singleton_self _)
    have left : missing b d n (passed (offset / 256)) ≤ freeBlocks b d :=
      grown.enough (by rw [union]; exact Finset.subset_union_left) enough
    refine wp_getOrAllocSlot (by rw [grown.pins]; exact free) grown.vol grown.file high
      (grown.filled _ (Finset.mem_singleton_self _)) (fun empty => ?_) fun c grown' quiet' => ?_
    · exact (missing_pos (data_mem_passed _) empty).trans_le left
    · exact rest c (union ▸ grown.trans grown') (quiet.trans quiet' grown')

/-- `getOrAllocBlockByOffset` of a slot that has a block changes nothing. -/
theorem wp_getOrAllocBlockByOffset_mapped {i : BlockPtr} {offset : Nat}
    {post : Word → DiskView → Prop} (pinned : (i, (d, n)) ∈ a.pins) (free : a.pins.length < room)
    (index : ∀ j, indexAt a.data d n j ≠ 0 → (d, indexAt a.data d n j) ∉ a.soft)
    (inRange : offset / 256 < dataSlots) (mapped : blockAt a.data d n (offset / 256) ≠ 0)
    (rest : post (blockAt a.data d n (offset / 256)) a) :
    wp (Shows drv base room) ok (getOrAllocBlockByOffset drv d i offset) post a := by
  unfold getOrAllocBlockByOffset
  by_cases low : offset < directIndexesCnt * 256
  · have direct : offset / 256 < directIndexesCnt := by
      unfold directIndexesCnt at *
      omega
    have slot : offset / 256 % 256 + 3 = offset / 256 + 3 := by
      unfold directIndexesCnt at direct
      omega
    rw [blockAt_direct direct] at mapped rest
    refine wp_pos low (wp_bind (wp_data pinned ?_))
    dsimp only
    rw [slot]
    exact wp_neg mapped (wp_pure rest)
  · obtain ⟨word, slot, inside, high⟩ := indirect_offset low inRange
    have some := index_ne_zero high mapped
    rw [blockAt_indirect high some] at mapped rest
    refine wp_neg low ?_
    dsimp only
    rw [word, slot]
    refine wp_neg (by omega) ?_
    refine wp_bind ?_
    unfold getOrAllocIndexBlock
    refine wp_bind (wp_data pinned ?_)
    refine wp_neg some (wp_bread_hard free (index _ some) fun p => ?_)
    unfold getOrAllocSlot
    have held := DiskView.mem_pin a p
      (d, indexAt a.data d n (indexOf (offset / 256)))
    refine wp_bind (wp_data held ?_)
    refine wp_neg mapped ?_
    exact wp_bind (wp_bfree_pin (wp_pure rest))

end Rules

end RlCpu.Kernel
