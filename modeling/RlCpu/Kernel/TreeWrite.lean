/-
**Writes to a node of the tree.**

`TreeOk.grow`: after a write to node `n` every other node is as it was, and `n` is a well-formed file;
as a directory it counts as unfinished. What a write of one entry does to a directory is
`FileWritten.names`, and the writes the kernel makes keep the directory well formed.

* `DirOk.write`: a new entry at the end, or one with its name and its number cleared.
* `FileWritten.trans`: an entry is written as a name and a number.
-/

import RlCpu.Kernel.Tree

namespace RlCpu.Kernel

open RlCpu.Lib

variable {a b : DiskView} {d n m : Word} {live raw : Set Word} {keep : Nat → Prop}
  {offset size : Nat} {buf : Nat → Word} {ps : Finset Place}

/-! ### The other nodes -/

/-- **Growth of one node leaves the others alone.** -/
theorem Grown.sameNode (grown : Grown a b d n ps) (file : FileOk a d m)
    (apart : Apart a.data d n m) : SameNode a b d m := by
  obtain ⟨node, refs, blocks⟩ := grown.others file apart
  refine ⟨node, refs, fun p _ here => ?_, fun p here => grown.marked_mono (file.refs p here).2.1,
    grown.marked_mono file.marked, fun mem => ?_, fun p mem _ => ?_⟩
  · have block : blockAt b.data d m (p / 256) = blockAt a.data d m (p / 256) := refs (.data _)
    unfold wordAt
    rw [block, blocks _ here]
  · exact (grown.soft _ mem).resolve_right fun same => apart.ne (congrArg Prod.snd same)
  · exact (grown.soft _ mem).resolve_right fun same => apart.node' p (congrArg Prod.snd same)

/-- Growth of one node keeps it apart from the others. -/
theorem Grown.apart (grown : Grown a b d n ps) (file : FileOk a d m)
    (apart : Apart a.data d n m) : Apart b.data d n m := by
  have refs : ∀ q, ref b.data d m q = ref a.data d m q := (grown.others file apart).2.1
  refine ⟨apart.ne, fun p q here same => ?_, fun p same => ?_, fun q => ?_⟩
  · rw [refs] at same
    by_cases old : ref a.data d n p = 0
    · have clear := grown.fresh p old here
      rw [same, (file.refs q (same ▸ here)).2.1] at clear
      cases clear
    · rw [grown.kept p old] at same
      exact apart.blocks p q old same
  · by_cases old : ref a.data d n p = 0
    · have clear := grown.fresh p old (same ▸ ne_zero_of_high file.high)
      rw [same, file.marked] at clear
      cases clear
    · rw [grown.kept p old] at same
      exact apart.node p same
  · rw [refs]
    exact apart.node' q

/-! ### The node written -/

/-- The slots below the size of a file without holes. -/
theorem Mapped.kept (mapped : Mapped a d n 0 size) : Kept a d n (Covers 0 size) := by
  rintro k ⟨p, low, high, rfl⟩
  exact (mapped p low high).2

section Written

variable (written : FileWritten a b d n (Covers 0 (fileSize a.data d n)) offset size buf)
include written

theorem FileWritten.newSize :
    fileSize b.data d n = max (fileSize a.data d n) (offset + size) := written.size

theorem FileWritten.isDev : IsDev b.data d n ↔ IsDev a.data d n := by
  unfold IsDev nodeMode
  rw [written.written.grown.mode]

theorem FileWritten.isDir : IsDir b.data d n ↔ IsDir a.data d n := by
  unfold IsDir nodeMode
  rw [written.written.grown.mode]

/-- A word that was not written. -/
theorem FileWritten.wordAt_old {p : Nat} (low : p < fileSize a.data d n)
    (out : p < offset ∨ offset + size ≤ p) : wordAt b.data d n p = wordAt a.data d n p :=
  written.written.others p ⟨p, Nat.zero_le p, by omega, rfl⟩ out

/-- A file without holes stays one. -/
theorem FileWritten.mapped (mapped : Mapped a d n 0 (fileSize a.data d n))
    (inside : offset ≤ fileSize a.data d n) (fits : offset + size < maxFileSize) :
    Mapped b d n 0 (fileSize b.data d n) := by
  rw [written.newSize]
  intro p low high
  by_cases new : offset ≤ p ∧ p < offset + size
  · refine ⟨(Nat.div_lt_iff_lt_mul (by decide)).mpr (new.2.trans fits), ?_,
      written.written.hard p new.1 new.2⟩
    exact written.written.grown.filled (.data _) (passed_subset_touched
      (Nat.div_le_div_right new.1) (Nat.div_le_div_right new.2.le) (data_mem_passed _))
  · obtain ⟨inRange, here, hard⟩ := mapped p low (by omega)
    rw [written.written.grown.block here]
    exact ⟨inRange, here, fun mem => hard (written.soft mem)⟩

/-- **A write to a node of the tree.** -/
theorem TreeOk.grow (tree : TreeOk a d live raw) (mem : n ∈ live) (plain : ¬ IsDev a.data d n)
    (inside : offset ≤ fileSize a.data d n) (fits : offset + size < maxFileSize) :
    TreeOk b d live (insert n raw) := by
  have grown := written.written.grown
  have node := tree.node n mem
  have plain' : ¬ IsDev b.data d n := fun dev => plain (written.isDev.mp dev)
  have same : ∀ m ∈ live, m ≠ n → SameNode a b d m := fun m mem' ne =>
    grown.sameNode (tree.node m mem').file (tree.apart n mem m mem' ne)
  have dirs : ∀ m ∈ live, IsDir b.data d m ↔ IsDir a.data d m := fun m mem' => by
    by_cases here : m = n
    · subst here
      exact written.isDir
    · exact (same m mem' here).isDir
  refine ⟨grown.vol, tree.root, (dirs _ tree.root).mpr tree.rootDir, fun m mem' => ?_,
    fun m mem' m' mem'' ne => ?_, fun m mem' done dir m' mem'' done' dir' i j x here here' => ?_⟩
  · by_cases here : m = n
    · subst here
      refine ⟨grown.file, fun soft => node.hard (written.soft soft),
        fun dev => absurd dev plain', fun _ => ?_, fun _ => ?_,
        fun _ done => absurd (Set.mem_insert m raw) done⟩
      · have bounded := node.bounded plain
        rw [written.newSize]
        exact max_lt bounded fits
      · exact written.mapped (node.mapped plain) inside fits
    · refine (same m mem' here).nodeOk (tree.node m mem') fun dir done => ?_
      have ok := (tree.node m mem').dir dir fun inside => done (Set.mem_insert_of_mem n inside)
      refine (same m mem' here).dirOk ((tree.node m mem').dirMapped dir) ok (fun i low dots => ?_)
        fun i x names => (ok.named i x names).1
      obtain ⟨mem'', isDir⟩ := ok.dots i low dots
      exact ⟨mem'', (dirs _ mem'').mpr isDir⟩
  · by_cases first : m = n
    · subst first
      exact grown.apart (tree.node m' mem'').file (tree.apart m mem m' mem'' ne)
    by_cases second : m' = n
    · subst second
      exact (grown.apart (tree.node m mem').file (tree.apart m' mem m mem' first)).symm
    · exact (same m mem' first).apart (same m' mem'' second) (tree.apart m mem' m' mem'' ne)
  · have away : m ≠ n := fun equal => done (equal ▸ Set.mem_insert m raw)
    have away' : m' ≠ n := fun equal => done' (equal ▸ Set.mem_insert m' raw)
    have isDir := (dirs m mem').mp dir
    have isDir' := (dirs m' mem'').mp dir'
    refine tree.names m mem' (fun inside => done (Set.mem_insert_of_mem n inside)) isDir m' mem''
      (fun inside => done' (Set.mem_insert_of_mem n inside)) isDir' i j x ?_ ?_
    · exact ((same m mem' away).names ((tree.node m mem').dirMapped isDir)).mp here
    · exact ((same m' mem'' away').names ((tree.node m' mem'').dirMapped isDir')).mp here'

end Written

/-! ### Entries -/

section Entry

variable {i : Nat} (written : FileWritten a b d n (Covers 0 (fileSize a.data d n)) (i * 32) 32 buf)
include written

/-- The entry written. -/
theorem FileWritten.entryWords_self : entryWords b.data d n i = (List.range 32).map buf := by
  refine List.map_congr_left fun j mem => ?_
  have small := List.mem_range.mp mem
  rw [written.written.words _ (Nat.le_add_right _ _) (by omega), Nat.add_sub_cancel_left]

theorem FileWritten.entryIdx_self : entryIdx b.data d n i = buf 31 := by
  unfold entryIdx
  rw [written.written.words _ (Nat.le_add_right _ _) (by omega), Nat.add_sub_cancel_left]

/-- Words of the other entries. -/
theorem FileWritten.wordAt_entry {j k : Nat} (low : j < entryCount a.data d n) (ne : j ≠ i)
    (small : k < 32) : wordAt b.data d n (j * 32 + k) = wordAt a.data d n (j * 32 + k) := by
  unfold entryCount at low
  exact written.wordAt_old (by omega) (by omega)

theorem FileWritten.entryWords_ne {j : Nat} (low : j < entryCount a.data d n) (ne : j ≠ i) :
    entryWords b.data d n j = entryWords a.data d n j :=
  List.map_congr_left fun _ mem => written.wordAt_entry low ne (List.mem_range.mp mem)

theorem FileWritten.entryIdx_ne {j : Nat} (low : j < entryCount a.data d n) (ne : j ≠ i) :
    entryIdx b.data d n j = entryIdx a.data d n j :=
  written.wordAt_entry low ne (by decide)

/-- The number of entries, for an entry written at the end or before it. -/
theorem FileWritten.newCount (whole : fileSize a.data d n % 32 = 0) :
    entryCount b.data d n = max (entryCount a.data d n) (i + 1) := by
  unfold entryCount
  rw [written.newSize]
  omega

/-- **What a directory names after one entry was written.** -/
theorem FileWritten.names (whole : fileSize a.data d n % 32 = 0) (low : i ≤ entryCount a.data d n)
    {j : Nat} {x : Word} : Names b.data d n j x ↔
      (j ≠ i ∧ Names a.data d n j x) ∨
        (j = i ∧ buf 31 = x ∧ x ≠ 0 ∧ ¬ IsDots ((List.range 32).map buf)) := by
  unfold Names
  rw [written.newCount whole]
  by_cases here : j = i
  · subst here
    rw [written.entryIdx_self, written.entryWords_self]
    simp
  · constructor
    · rintro ⟨inside, rest⟩
      have old : j < entryCount a.data d n := by omega
      rw [written.entryIdx_ne old here, written.entryWords_ne old here] at rest
      exact Or.inl ⟨here, old, rest⟩
    · rintro (⟨-, old, rest⟩ | ⟨same, -⟩)
      · rw [written.entryIdx_ne old here, written.entryWords_ne old here]
        exact ⟨by omega, rest⟩
      · exact absurd same here

/-- Dots are entries from before. -/
theorem FileWritten.dots_old (whole : fileSize a.data d n % 32 = 0)
    (low : i ≤ entryCount a.data d n) (notDots : ¬ IsDots ((List.range 32).map buf)) {j : Nat}
    (inside : j < entryCount b.data d n) (here : IsDots (entryWords b.data d n j)) :
    j < entryCount a.data d n ∧ IsDots (entryWords a.data d n j) ∧
      entryIdx b.data d n j = entryIdx a.data d n j := by
  rw [written.newCount whole] at inside
  by_cases same : j = i
  · subst same
    rw [written.entryWords_self] at here
    exact absurd here notDots
  · have old : j < entryCount a.data d n := by omega
    rw [written.entryWords_ne old same] at here
    exact ⟨old, here, written.entryIdx_ne old same⟩

/-- **One entry of a directory written.** It is a new one at the end or an old one other than the two
dots, and now it is deleted or names `buf 31`. -/
theorem DirOk.write {live' : Set Word} (ok : DirOk a d live n)
    (low : i ≤ entryCount a.data d n) (late : 2 ≤ i) (cleared : buf 31 = 0 → buf 0 = 0)
    (notDots : ¬ IsDots ((List.range 32).map buf))
    (new : buf 31 ≠ 0 → buf 31 ∈ live' ∧ buf 31 ≠ rootIdx)
    (dots : ∀ j < entryCount a.data d n, IsDots (entryWords a.data d n j) →
      entryIdx a.data d n j ∈ live' ∧ IsDir b.data d (entryIdx a.data d n j))
    (named : ∀ j x, j ≠ i → Names a.data d n j x → x ∈ live') : DirOk b d live' n where
  whole := by
    have whole := ok.whole
    rw [written.newSize]
    omega
  ahead := by
    have here := ok.ahead
    rw [written.newSize]
    rcases le_total (fileSize a.data d n) (i * 32 + 32) with short | long
    · rw [max_eq_right short]
      exact written.written.grown.filled (.data _) (mem_touched_right _ _ (data_mem_passed _))
    · rw [max_eq_left long, written.written.grown.block here]
      exact here
  first := by
    obtain ⟨inside, same⟩ := ok.first
    rw [written.newCount ok.whole, written.entryWords_ne inside (by omega)]
    exact ⟨by omega, same⟩
  second := by
    obtain ⟨inside, same⟩ := ok.second
    rw [written.newCount ok.whole, written.entryWords_ne inside (by omega)]
    exact ⟨by omega, same⟩
  deleted j inside zero := by
    rw [written.newCount ok.whole] at inside
    by_cases here : j = i
    · subst here
      rw [written.entryIdx_self] at zero
      rw [written.written.words _ le_rfl (by omega), Nat.sub_self]
      exact cleared zero
    · have old : j < entryCount a.data d n := by omega
      rw [written.entryIdx_ne old here] at zero
      rw [show j * 32 = j * 32 + 0 from rfl, written.wordAt_entry old here (by decide)]
      exact ok.deleted j old zero
  dots j inside here := by
    obtain ⟨old, dot, same⟩ := written.dots_old ok.whole low notDots inside here
    rw [same]
    exact dots j old dot
  named j x here := by
    rcases (written.names ok.whole low).mp here with ⟨ne, old⟩ | ⟨-, rfl, ne, -⟩
    · exact ⟨named j x ne old, (ok.named j x old).2⟩
    · exact new ne

end Entry

/-! ### Writes in a row -/

/-- Only the words written matter. -/
theorem FileWritten.congr {whole : Nat → Word} (written : FileWritten a b d n keep offset size buf)
    (same : ∀ j < size, buf j = whole j) : FileWritten a b d n keep offset size whole where
  written := ⟨written.written.grown, fun p low high =>
    (written.written.words p low high).trans (same _ (by omega)), written.written.others,
    written.written.hard⟩
  size := written.size
  soft := written.soft

/-- The slots known after a write. -/
theorem FileWritten.kept (written : FileWritten a b d n keep offset size buf) (file : FileOk a d n)
    (kept : Kept a d n keep) : Kept b d n fun k => keep k ∨ Covers offset size k := by
  rintro k (old | ⟨p, low, high, rfl⟩)
  · exact kept.grown file written.written.grown k old
  · exact ⟨written.written.grown.filled (.data _) (passed_subset_touched (Nat.div_le_div_right low)
      (Nat.div_le_div_right high.le) (data_mem_passed _)), written.written.hard p low high⟩

/-- **Two calls of `fs_write` in a row are one.** -/
theorem FileWritten.trans {c : DiskView} {first second : Nat}
    (head : FileWritten a b d n keep offset first buf)
    (tail : FileWritten b c d n (fun k => keep k ∨ Covers offset first k) (offset + first) second
      fun j => buf (first + j)) : FileWritten a c d n keep offset (first + second) buf where
  written := head.written.trans tail.written
  size := by
    have first := head.size
    have second := tail.size
    omega
  soft := tail.soft.trans head.soft

/-- Blocks that are enough for more places are enough for fewer. -/
theorem missing_mono {qs : Finset Place} (sub : ps ⊆ qs) : missing a d n ps ≤ missing a d n qs :=
  Finset.card_le_card (Finset.filter_subset_filter _ sub)

theorem touched_mono {first total : Nat} (le : first ≤ total) :
    touched offset first ⊆ touched offset total := by
  obtain ⟨second, rfl⟩ := Nat.exists_eq_add_of_le le
  rw [← touched_append]
  exact Finset.subset_union_left

section Rules

variable {δ : Type} {drv : BlkDriver δ} {base : BlockPtr → Nat} {room : Nat} {ok : Fault → Prop}

/-- **`fs_write` right after what was written.** `buf` are all the words written in a row, and `total`
is their number in the end. -/
theorem wp_fsWrite_more {first second total : Nat} {more : Nat → Word}
    {post : Nat → DiskView → Prop} (free : a.pins.length + 3 < room)
    (head : FileWritten a b d n keep offset first buf) (file : FileOk a d n) (node : (d, n) ∉ a.soft)
    (kept : Kept a d n keep) (same : ∀ j < second, more j = buf (first + j))
    (fits : (offset + total) / 256 < dataSlots) (le : first + second ≤ total)
    (enough : missing a d n (touched offset total) ≤ freeBlocks a d)
    (rest : ∀ c, FileWritten a c d n keep offset (first + second) buf → post second c) :
    wp (Shows drv base room) ok (fsWrite drv ⟨d, n⟩ (offset + first) second more) post b := by
  have grown := head.written.grown
  have left := grown.enough (touched_mono (show first ≤ total by omega)) enough
  have inside : offset + first ≤ (b.data (d, n)).size := by
    rw [head.size]
    exact le_max_right _ _
  have inRange : (offset + first + second) / 256 ≤ (offset + total) / 256 :=
    Nat.div_le_div_right (by omega)
  have sub : touched (offset + first) second ⊆ touched offset total := by
    refine subset_trans ?_ (touched_mono le)
    rw [← touched_append]
    exact Finset.subset_union_right
  refine wp_fsWrite (by rw [grown.pins]; exact free) grown.vol grown.file
    (fun mem => node (head.soft mem)) inside (by omega) ((missing_mono sub).trans left)
    (head.kept file kept) fun c tail => rest c (head.trans (tail.congr same))

end Rules

/-! ### Counting free blocks -/

/-- What a growth took. -/
theorem Grown.free_le (grown : Grown a b d n ps) :
    freeBlocks a d ≤ freeBlocks b d + missing a d n ps := by
  have total := grown.free_add (Finset.Subset.refl ps)
  have le : (ps.filter fun p => ref a.data d n p = 0 ∧ ref b.data d n p ≠ 0).card ≤
      missing a d n ps :=
    Finset.card_le_card fun p mem => by
      rw [Finset.mem_filter] at mem ⊢
      exact ⟨mem.1, mem.2.1⟩
  omega

theorem passed_card (k : Nat) : (passed k).card ≤ 2 := by
  unfold passed
  split
  · exact (Finset.card_singleton _).le.trans (by decide)
  · exact Finset.card_le_two

/-- A write within a block that is there and the next one needs at most two blocks. -/
theorem missing_touched_le (here : blockAt a.data d n (offset / 256) ≠ 0) (small : size ≤ 256) :
    missing a d n (touched offset size) ≤ 2 := by
  have sub : (touched offset size).filter (fun p => ref a.data d n p = 0) ⊆
      passed ((offset + size) / 256) := by
    intro p mem
    obtain ⟨inside, zero⟩ := Finset.mem_filter.mp mem
    obtain ⟨k, range, place⟩ := Finset.mem_biUnion.mp inside
    rw [Finset.mem_Icc] at range
    rcases Nat.eq_or_lt_of_le range.1 with first | later
    · exact absurd zero (passed_filled (first ▸ here) p place)
    · have last : k = (offset + size) / 256 := by omega
      exact last ▸ place
  exact (Finset.card_le_card sub).trans (passed_card _)

theorem freeBlocks_congr (same : ∀ c, isMarked b.data d c = isMarked a.data d c) :
    freeBlocks b d = freeBlocks a d := by
  unfold freeBlocks
  simp only [same]

/-- One bit set takes one block. -/
theorem freeBlocks_mark (clear : isMarked a.data d n = false) :
    freeBlocks a d = freeBlocks (a.mark d n true) d + 1 := by
  have split : {b : Word | isMarked a.data d b = false} =
      insert n {b : Word | isMarked (a.mark d n true).data d b = false} := by
    ext b
    rw [Set.mem_insert_iff, Set.mem_ofPred_eq, Set.mem_ofPred_eq, DiskView.isMarked_mark]
    by_cases same : b = n
    · simp [same, clear]
    · simp [same]
  unfold freeBlocks
  rw [split, Set.ncard_insert_of_notMem _ (Set.toFinite _)]
  rw [Set.mem_ofPred_eq, DiskView.isMarked_mark, if_pos rfl]
  exact fun clash => by cases clash

end RlCpu.Kernel
