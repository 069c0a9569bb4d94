/-
**File contents, on the cache.**

`contents data d n p` is word `p` of the file with node `n`: none past the end, and none where a data
slot below the size has no block. `Coherent drv s data`: the cache `s` over its devices shows the disk
`data`, with the four slots to spare that a write needs.

`fsWrite_contents`: for every well-formed file, every offset inside it and every length,
`fs_write` replaces the words written and extends the size, `fs_read` afterwards returns the contents,
and every other file is as it was.
-/

import RlCpu.Kernel.FileRead

namespace RlCpu.Kernel

open RlCpu.Lib

variable {δ : Type} (drv : BlkDriver δ)

/-- The disk with nothing held and nothing at risk. -/
def viewOf (data : BlockKey → BlockData) : DiskView := ⟨data, [], ∅⟩

/-- The cache shows the disk `data`, and four more blocks can be held at once. -/
structure Coherent (s : BlkState δ) (data : BlockKey → BlockData) : Prop where
  cache : CacheInv drv ∅ data s
  spare : pinnedBlocks s + 4 ≤ blockCacheSize
  small : ∀ i, (s.blockCache i).cnt.toNat + 4 < 2 ^ 16

namespace Coherent

variable {drv} {s t : BlkState δ} {data : BlockKey → BlockData}

theorem shows (coherent : Coherent drv s data) :
    Shows drv (fun i => (s.blockCache i).cnt.toNat) 4 s (viewOf data) where
  cache := coherent.cache
  count i := by
    show _ = BitVec.ofNat 16 ((s.blockCache i).cnt.toNat + 0)
    rw [Nat.add_zero, BitVec.ofNat_toNat, BitVec.setWidth_eq]
  pinned _ mem := absurd mem List.not_mem_nil
  few := Nat.zero_le _
  spare := by
    have same : (Finset.univ.filter fun i => (s.blockCache i).cnt.toNat ≠ 0) =
        Finset.univ.filter fun i => (s.blockCache i).cnt ≠ 0#16 := by
      refine Finset.filter_congr fun i _ => not_congr ⟨fun zero => ?_, fun zero => ?_⟩
      · exact BitVec.eq_of_toNat_eq zero
      · rw [zero]
        rfl
    rw [same]
    exact coherent.spare
  small := coherent.small

/-- A correct program runs on a coherent cache. -/
theorem returns {α : Type} (coherent : Coherent drv s data) (p : BlkM δ α)
    (post : α → DiskView → Prop)
    (correct : ∀ base, wp (Shows drv base 4) (fun _ => False) p post (viewOf data)) :
    ∃ x t b, p s = .ok (x, t) ∧ Shows drv (fun i => (s.blockCache i).cnt.toNat) 4 t b ∧
      post x b :=
  (correct _).returns coherent.shows

/-- With every hold given back, the counts are what they were. -/
theorem of_shows {b : DiskView} (coherent : Coherent drv s data)
    (shows : Shows drv (fun i => (s.blockCache i).cnt.toNat) 4 t b) (pins : b.pins = [])
    (soft : b.soft ⊆ ∅) : Coherent drv t b.data ∧
      ∀ i, (t.blockCache i).cnt = (s.blockCache i).cnt := by
  have counts : ∀ i, (t.blockCache i).cnt = (s.blockCache i).cnt := by
    intro i
    rw [shows.count i, pins]
    show BitVec.ofNat 16 ((s.blockCache i).cnt.toNat + 0) = _
    rw [Nat.add_zero, BitVec.ofNat_toNat, BitVec.setWidth_eq]
  have cache := shows.cache
  rw [Set.subset_empty_iff.mp soft] at cache
  refine ⟨⟨cache, ?_, fun i => ?_⟩, counts⟩
  · have same : pinnedBlocks t = pinnedBlocks s := by
      unfold pinnedBlocks
      simp only [counts]
    rw [same]
    exact coherent.spare
  · rw [counts]
    exact coherent.small i

end Coherent

/-! ### Contents -/

/-- `st_size` of node `n`. -/
def fileSize (data : BlockKey → BlockData) (d n : Word) : Nat := (data (d, n)).size

/-- The largest size the direct and the indirect indexes can address. -/
abbrev maxFileSize : Nat := dataSlots * 256

/-- Word `p` of the file with node `n`. -/
def contents (data : BlockKey → BlockData) (d n : Word) (p : Nat) : Option Word :=
  if p < fileSize data d n ∧ blockAt data d n (p / 256) ≠ 0 then some (wordAt data d n p) else none

theorem contents_some {data : BlockKey → BlockData} {d n : Word} {p : Nat} {w : Word} :
    contents data d n p = some w ↔
      (p < fileSize data d n ∧ blockAt data d n (p / 256) ≠ 0) ∧ wordAt data d n p = w := by
  unfold contents
  split
  case isTrue here => exact ⟨fun same => ⟨here, Option.some.inj same⟩, fun both => congrArg some both.2⟩
  case isFalse none =>
    refine iff_of_false (fun clash => by cases clash) fun both => none both.1

/-- **A well-formed file**: its index slots are 0 or point to distinct allocated blocks, and its size is
one the indexes can address. -/
structure WellFormedFile (data : BlockKey → BlockData) (d n : Word) : Prop where
  volume : VolumeOk (viewOf data) d
  file : FileOk (viewOf data) d n
  bounded : fileSize data d n < maxFileSize

/-- Two files without a common block. -/
structure Apart (data : BlockKey → BlockData) (d n m : Word) : Prop where
  ne : m ≠ n
  blocks : ∀ p q, ref data d n p ≠ 0 → ref data d n p ≠ ref data d m q
  node : ∀ p, ref data d n p ≠ m
  node' : ∀ q, ref data d m q ≠ n

/-- Every slot below the size has a block. -/
def NoHoles (data : BlockKey → BlockData) (d n : Word) : Prop :=
  ∀ p < fileSize data d n, blockAt data d n (p / 256) ≠ 0

section NoHoles

variable {data : BlockKey → BlockData} {d n : Word}

/-- Places that are filled are not missing. -/
theorem missing_zero {ps : Finset Place} (filled : ∀ p ∈ ps, ref data d n p ≠ 0) :
    missing (viewOf data) d n ps = 0 := by
  unfold missing
  rw [Finset.card_eq_zero, Finset.filter_eq_empty_iff]
  exact fun p mem empty => filled p mem empty

/-- The blocks below the size are there. -/
theorem NoHoles.filled (noHoles : NoHoles data d n) {k : Nat} (low : k * 256 < fileSize data d n) :
    ∀ p ∈ passed k, ref data d n p ≠ 0 := by
  have mapped := noHoles (k * 256) low
  rw [Nat.mul_div_cancel _ (by decide)] at mapped
  exact passed_filled mapped

/-- A read below the size asks for no block. -/
theorem NoHoles.spanned (noHoles : NoHoles data d n) {offset size : Nat} (inside : offset + size ≤ fileSize data d n) :
    missing (viewOf data) d n (spanned offset size) = 0 := by
  refine missing_zero fun p mem => ?_
  unfold RlCpu.Kernel.spanned touched at mem
  split at mem
  case isTrue => cases mem
  case isFalse some =>
    obtain ⟨k, between, mem⟩ := Finset.mem_biUnion.mp mem
    have last := (Finset.mem_Icc.mp between).2
    exact noHoles.filled (by omega) p mem

end NoHoles

section Law

variable {a b : DiskView} {d n m : Word} {ps : Finset Place}

/-- A marked block that is not the node's is left alone. -/
theorem Grown.marked_data (grown : Grown a b d n ps) {c : Word} (high : 34 ≤ c.toNat)
    (marked : isMarked a.data d c = true) (ne : c ≠ n) (apart : ∀ p, ref a.data d n p ≠ c) :
    b.data (d, c) = a.data (d, c) := by
  refine grown.frame _ (fun same => ne (congrArg Prod.snd same)) (key_ne_bit high) ?_
  intro p here same
  have value : c = ref b.data d n p := congrArg Prod.snd same
  by_cases old : ref a.data d n p = 0
  · have clear := grown.fresh p old here
    rw [← value, marked] at clear
    cases clear
  · rw [grown.kept p old] at value
    exact apart p value.symm

/-- **Growth of one file leaves the others alone.** -/
theorem Grown.others (grown : Grown a b d n ps) (file : FileOk a d m)
    (apart : Apart a.data d n m) :
    b.data (d, m) = a.data (d, m) ∧ (∀ p, ref b.data d m p = ref a.data d m p) ∧
      ∀ k, blockAt a.data d m k ≠ 0 →
        b.data (d, blockAt a.data d m k) = a.data (d, blockAt a.data d m k) := by
  have node : b.data (d, m) = a.data (d, m) :=
    grown.marked_data file.high file.marked apart.ne apart.node
  have blocks : ∀ q, ref a.data d m q ≠ 0 →
      b.data (d, ref a.data d m q) = a.data (d, ref a.data d m q) := by
    intro q here
    obtain ⟨high, marked, -⟩ := file.refs q here
    refine grown.marked_data (by omega) marked (apart.node' q) fun p same => ?_
    exact apart.blocks p q (same ▸ here) same
  refine ⟨node, ref_congr (fun i _ => by rw [node]) fun j here => blocks (.index j) here,
    fun k here => blocks (.data k) here⟩

/-- The contents of a file are unchanged where its node and its blocks are. -/
theorem contents_congr {f g : BlockKey → BlockData} (node : f (d, m) = g (d, m))
    (refs : ∀ p, ref f d m p = ref g d m p)
    (blocks : ∀ k, blockAt g d m k ≠ 0 → f (d, blockAt g d m k) = g (d, blockAt g d m k)) :
    contents f d m = contents g d m := by
  funext p
  have block : blockAt f d m (p / 256) = blockAt g d m (p / 256) := refs (.data _)
  have size : fileSize f d m = fileSize g d m := by
    unfold fileSize
    rw [node]
  unfold contents
  rw [size, block]
  by_cases here : p < fileSize g d m ∧ blockAt g d m (p / 256) ≠ 0
  · rw [if_pos here, if_pos here]
    unfold wordAt
    rw [block, blocks _ here.2]
  · rw [if_neg here, if_neg here]

end Law

/-- **The effect of `fs_write` on the disk.** -/
structure WriteEffect (data after : BlockKey → BlockData) (d n : Word) (offset size : Nat)
    (buf : Nat → Word) : Prop where
  wellFormed : WellFormedFile after d n
  newSize : fileSize after d n = max (fileSize data d n) (offset + size)
  inside : ∀ p, offset ≤ p → p < offset + size → contents after d n p = some (buf (p - offset))
  outside : ∀ p w, (p < offset ∨ offset + size ≤ p) → contents data d n p = some w →
    contents after d n p = some w
  noHoles : NoHoles data d n → NoHoles after d n
  others : ∀ m, WellFormedFile data d m → Apart data d n m →
    fileSize after d m = fileSize data d m ∧ contents after d m = contents data d m

section Law

variable {drv} {s t : BlkState δ} {data : BlockKey → BlockData} {d n : Word} {offset size : Nat}
  {buf : Nat → Word}

/-- The view after a write, as an effect on the disk. -/
theorem FileWritten.effect {b : DiskView} (written : FileWritten (viewOf data) b d n
    (fun k => blockAt data d n k ≠ 0) offset size buf) (wellFormed : WellFormedFile data d n)
    (inside : offset ≤ fileSize data d n) (fits : offset + size < maxFileSize) :
    WriteEffect data b.data d n offset size buf := by
  have soft : b.soft = ∅ := Set.subset_empty_iff.mp written.soft
  have grown := written.written.grown
  have covered : ∀ p, offset ≤ p → p < offset + size → blockAt b.data d n (p / 256) ≠ 0 :=
    fun p low high => grown.filled (.data _) (passed_subset_touched (Nat.div_le_div_right low)
      (Nat.div_le_div_right high.le) (data_mem_passed _))
  have fresh : ∀ key, key ∉ (viewOf b.data).soft := fun _ mem => mem
  have bounded := wellFormed.bounded
  have size' : fileSize b.data d n = max (fileSize data d n) (offset + size) := written.size
  refine ⟨⟨⟨grown.vol.reserved, fun _ => fresh _⟩, ⟨grown.file.high, grown.file.marked,
    grown.file.refs, grown.file.inj, fun _ _ => fresh _⟩, by omega⟩, size',
    fun p low high => ?_, fun p w out before => ?_, fun none p low => ?_, fun m other apart => ?_⟩
  · rw [contents_some]
    exact ⟨⟨by omega, covered p low high⟩, written.written.words p low high⟩
  · obtain ⟨⟨below, here⟩, word⟩ := contents_some.mp before
    rw [contents_some]
    refine ⟨⟨by omega, ?_⟩, ?_⟩
    · rw [grown.block here]
      exact here
    · rw [written.written.others p here out]
      exact word
  · by_cases old : p < fileSize data d n
    · rw [grown.block (none p old)]
      exact none p old
    · exact covered p (by omega) (by omega)
  · obtain ⟨node, refs, blocks⟩ := grown.others other.file apart
    refine ⟨?_, contents_congr node refs blocks⟩
    unfold fileSize
    rw [node]
    rfl

/-- **`fs_write` on the cache**: it returns the number of words, the cache stays coherent and no count
changes, and its effect on the disk is `WriteEffect`. -/
theorem fsWrite_effect (buf : Nat → Word) (coherent : Coherent drv s data) (wellFormed : WellFormedFile data d n)
    (inside : offset ≤ fileSize data d n) (fits : offset + size < maxFileSize)
    (enough : missing (viewOf data) d n (touched offset size) ≤ freeBlocks (viewOf data) d) :
    ∃ t after, fsWrite drv ⟨d, n⟩ offset size buf s = .ok (size, t) ∧ Coherent drv t after ∧
      (∀ i, (t.blockCache i).cnt = (s.blockCache i).cnt) ∧
      WriteEffect data after d n offset size buf := by
  obtain ⟨r, t, b, returns, shows, rfl, written⟩ := coherent.returns
    (fsWrite drv ⟨d, n⟩ offset size buf) (fun r b => r = size ∧ FileWritten (viewOf data) b d n
      (fun k => blockAt data d n k ≠ 0) offset size buf)
    fun base => wp_fsWrite (show 0 + 3 < 4 by decide) wellFormed.volume wellFormed.file
      (fun mem => mem) inside ((Nat.div_lt_iff_lt_mul (by decide)).mpr fits) enough
      (fun k here => ⟨here, fun mem => mem⟩) fun b written => ⟨rfl, written⟩
  obtain ⟨after, counts⟩ := coherent.of_shows shows written.written.grown.pins written.soft
  exact ⟨t, b.data, returns, after, counts, written.effect wellFormed inside fits⟩

/-- **`fs_read` on the cache**: as many words as the file has from `offset` on, each word of the
contents as it is. -/
theorem fsRead_contents (coherent : Coherent drv s data) (wellFormed : WellFormedFile data d n)
    (small : size < 2 ^ 16)
    (enough : missing (viewOf data) d n (spanned offset (min size (fileSize data d n - offset))) ≤
      freeBlocks (viewOf data) d) :
    ∃ words t, fsRead drv ⟨d, n⟩ offset size s = .ok (words, t) ∧
      words.length = min size (fileSize data d n - offset) ∧
      ∀ j w, j < words.length → contents data d n (offset + j) = some w → words[j]? = some w := by
  by_cases beyond : fileSize data d n < offset
  · obtain ⟨words, t, b, returns, -, rfl⟩ := coherent.returns (fsRead drv ⟨d, n⟩ offset size)
      (fun words _ => words = []) fun base => wp_fsRead_beyond (show 0 < 4 by decide)
        (fun mem => mem) beyond fun _ => rfl
    refine ⟨[], t, returns, ?_, fun j w low => absurd low (Nat.not_lt_zero j)⟩
    rw [List.length_nil]
    omega
  · obtain ⟨words, t, b, returns, -, length, values⟩ := coherent.returns
      (fsRead drv ⟨d, n⟩ offset size)
      (fun words _ => words.length = min size (fileSize data d n - offset) ∧
        ∀ j w, j < words.length → contents data d n (offset + j) = some w →
          words[j]? = some w)
      fun base => wp_fsRead (show 0 + 2 < 4 by decide) wellFormed.volume wellFormed.file
        (fun mem => mem) (Nat.not_lt.mp beyond) small
        ((Nat.div_lt_iff_lt_mul (by decide)).mpr wellFormed.bounded) enough
        (fun k here => ⟨here, fun mem => mem⟩) fun words b length values _ =>
        ⟨length, fun j w low here => by
          obtain ⟨⟨-, some⟩, word⟩ := contents_some.mp here
          rw [List.getElem?_eq_getElem low, values j low some]
          exact congrArg Option.some word⟩
    exact ⟨words, t, returns, length, values⟩

/-- **The file content law.** -/
theorem fsWrite_contents (buf : Nat → Word) (coherent : Coherent drv s data) (wellFormed : WellFormedFile data d n)
    (inside : offset ≤ fileSize data d n) (fits : offset + size < maxFileSize)
    (enough : missing (viewOf data) d n (touched offset size) ≤ freeBlocks (viewOf data) d) :
    ∃ t after, fsWrite drv ⟨d, n⟩ offset size buf s = .ok (size, t) ∧
      WriteEffect data after d n offset size buf ∧
      ∀ offset' size', size' < 2 ^ 16 →
        missing (viewOf after) d n (spanned offset' (min size' (fileSize after d n - offset'))) ≤
          freeBlocks (viewOf after) d →
        ∃ words u, fsRead drv ⟨d, n⟩ offset' size' t = .ok (words, u) ∧
          words.length = min size' (fileSize after d n - offset') ∧
          ∀ j w, j < words.length → contents after d n (offset' + j) = some w →
            words[j]? = some w := by
  obtain ⟨t, after, returns, later, -, effect⟩ :=
    fsWrite_effect buf coherent wellFormed inside fits enough
  exact ⟨t, after, returns, effect, fun offset' size' small left =>
    fsRead_contents later effect.wellFormed small left⟩

end Law

/-! ### A disk with a file of 150 blocks -/

/-- The node of a regular file whose direct indexes are the blocks 36 to 185. -/
def directNode : BlockData :=
  .ofFn fun i =>
    if i = 0 then sIfreg else if i = 1 then 38400 else if 3 ≤ i ∧ i < 153 then BitVec.ofNat 16 (33 + i) else 0

/-- Blocks 0 to 185 in use, 35 being that node. -/
def directFileDisk (key : BlockKey) : BlockData :=
  if key = (0, 1) then .ofFn fun i => if i < 11 then 0xffff else if i = 11 then 0x03ff else 0
  else if key = (0, 35) then directNode
  else if key = (0, 185) then .ofFn fun _ => 5
  else .zero

theorem directFileDisk_node : directFileDisk (0, 35) = directNode := rfl

theorem directFileDisk_index (j : Nat) : indexAt directFileDisk 0 35 j = 0 := by
  show (directFileDisk (0, 35)).word (150 + 3 + j) = 0
  rw [directFileDisk_node]
  by_cases low : 150 + 3 + j < 256
  · unfold directNode
    rw [BlockData.word_ofFn _ low, if_neg (by omega), if_neg (by omega), if_neg (by omega)]
  · unfold BlockData.word
    rw [dif_neg low]

theorem directFileDisk_block (k : Nat) :
    blockAt directFileDisk 0 35 k = if k < 150 then BitVec.ofNat 16 (36 + k) else 0 := by
  unfold blockAt
  by_cases low : k < 150
  · rw [if_pos low, if_pos low, directFileDisk_node]
    unfold directNode
    rw [BlockData.word_ofFn _ (by omega), if_neg (by omega), if_neg (by omega), if_pos (by omega)]
    exact congrArg _ (by omega)
  · rw [if_neg low, if_neg low, if_pos (directFileDisk_index _)]

/-- A place with a block is a direct index. -/
theorem directFileDisk_ref {p : Place} (here : ref directFileDisk 0 35 p ≠ 0) :
    ∃ k < 150, p = .data k ∧ ref directFileDisk 0 35 p = BitVec.ofNat 16 (36 + k) := by
  cases p with
  | index j => exact absurd (directFileDisk_index j) here
  | data k =>
    have block := directFileDisk_block k
    have low : k < 150 := by
      by_contra high
      exact here (block.trans (if_neg high))
    exact ⟨k, low, rfl, block.trans (if_pos low)⟩

theorem directFileDisk_wellFormed : WellFormedFile directFileDisk 0 35 := by
  have marked : ∀ i : Fin 186, isMarked directFileDisk 0 (BitVec.ofNat 16 i) = true := by decide +kernel
  refine ⟨⟨fun b low => ?_, fun _ mem => mem⟩, ⟨by decide, marked 35, fun p here => ?_, fun p q same here => ?_,
    fun _ _ mem => mem⟩, by decide⟩
  · have here := marked ⟨b.toNat, by omega⟩
    rwa [BitVec.ofNat_toNat, BitVec.setWidth_eq] at here
  · obtain ⟨k, low, -, is⟩ := directFileDisk_ref here
    have number : (BitVec.ofNat 16 (36 + k)).toNat = 36 + k := by
      rw [BitVec.toNat_ofNat]
      omega
    refine ⟨?_, ?_, fun node => ?_⟩
    · show 35 ≤ (ref directFileDisk 0 35 p).toNat
      rw [is, number]
      omega
    · show isMarked directFileDisk 0 (ref directFileDisk 0 35 p) = true
      rw [is]
      exact marked ⟨36 + k, by omega⟩
    · have clash := congrArg BitVec.toNat (is.symm.trans node)
      rw [number] at clash
      have node : (35 : Word).toNat = 35 := rfl
      omega
  · obtain ⟨k, low, rfl, is⟩ := directFileDisk_ref here
    rw [same] at here
    obtain ⟨l, low', rfl, is'⟩ := directFileDisk_ref here
    have clash := congrArg BitVec.toNat (is.symm.trans (same.trans is'))
    rw [BitVec.toNat_ofNat, BitVec.toNat_ofNat] at clash
    obtain rfl : k = l := by omega
    rfl

theorem directFileDisk_noHoles : NoHoles directFileDisk 0 35 := by
  intro p low
  have low : p < 38400 := low
  rw [directFileDisk_block, if_pos (by omega)]
  intro zero
  have clash := congrArg BitVec.toNat zero
  rw [BitVec.toNat_ofNat] at clash
  have zero : (0 : Word).toNat = 0 := rfl
  omega

theorem directFileDisk_coherent : Coherent ramDriver (Client.boot ramDriver directFileDisk).cache directFileDisk :=
  ⟨(Client.boot_inv directFileDisk).cache, by decide, by decide⟩

/-- Four words written over the end of the file, from the last direct block into the first indirect one, are read
back behind the word before them. -/
theorem fsWrite_contents_boundary : ∃ t u,
    fsWrite ramDriver ⟨0, 35⟩ 38398 4 (fun i => BitVec.ofNat 16 (i + 1))
      (Client.boot ramDriver directFileDisk).cache = .ok (4, t) ∧
    fsRead ramDriver ⟨0, 35⟩ 38397 8 t = .ok ([5, 1, 2, 3, 4], u) := by
  have enough : missing (viewOf directFileDisk) 0 35 (touched 38398 4) ≤ freeBlocks (viewOf directFileDisk) 0 := by
    have two : missing (viewOf directFileDisk) 0 35 (touched 38398 4) ≤ 2 := by
      have only : (touched 38398 4).filter (fun p => ref directFileDisk 0 35 p = 0) ⊆
          {.index (indexOf 150), .data 150} := by
        intro p mem
        obtain ⟨mem, empty⟩ := Finset.mem_filter.mp mem
        obtain ⟨k, between, mem⟩ := Finset.mem_biUnion.mp mem
        obtain ⟨first, last⟩ := Finset.mem_Icc.mp between
        obtain rfl | rfl : k = 149 ∨ k = 150 := by omega
        · exact absurd empty (directFileDisk_noHoles.filled (by decide) p mem)
        · exact mem
      exact (Finset.card_le_card only).trans Finset.card_le_two
    have some : 1 < freeBlocks (viewOf directFileDisk) 0 := by
      have clear : ∀ i : Fin 2, isMarked directFileDisk 0 (BitVec.ofNat 16 (186 + i)) = false := by decide
      exact (Set.one_lt_ncard (Set.toFinite _)).mpr ⟨186, clear 0, 187, clear 1, by decide⟩
    omega
  obtain ⟨t, after, returns, effect, reads⟩ := fsWrite_contents (fun i => BitVec.ofNat 16 (i + 1))
    directFileDisk_coherent directFileDisk_wellFormed (show 38398 ≤ fileSize directFileDisk 0 35 by decide) (by decide)
    enough
  have size : fileSize after 0 35 = 38402 := effect.newSize
  have spare : missing (viewOf after) 0 35 (spanned 38397 (min 8 (fileSize after 0 35 - 38397))) ≤
      freeBlocks (viewOf after) 0 := by
    rw [(effect.noHoles directFileDisk_noHoles).spanned (by omega)]
    exact Nat.zero_le _
  obtain ⟨words, u, read, length, values⟩ := reads 38397 8 (by decide) spare
  rw [size] at length
  have length : words.length = 5 := length
  have before : contents directFileDisk 0 35 38397 = some 5 := by decide
  have old : words[0]? = some 5 := values 0 5 (by omega) (effect.outside _ _ (Or.inl (by decide)) before)
  have new : ∀ i < 4, words[i + 1]? = some (BitVec.ofNat 16 (i + 1)) := fun i low => by
    refine values (i + 1) _ (by omega) ?_
    rw [effect.inside _ (by omega) (by omega)]
    exact congrArg (fun j => some (BitVec.ofNat 16 (j + 1))) (by omega)
  have all : words = [5, 1, 2, 3, 4] := by
    refine List.ext_getElem? fun i => ?_
    by_cases low : i < 5
    · obtain rfl | rfl | rfl | rfl | rfl : i = 0 ∨ i = 1 ∨ i = 2 ∨ i = 3 ∨ i = 4 := by omega
      · exact old
      · exact new 0 (by decide)
      · exact new 1 (by decide)
      · exact new 2 (by decide)
      · exact new 3 (by decide)
    · rw [List.getElem?_eq_none (by omega), List.getElem?_eq_none (Nat.not_lt.mp low)]
  exact ⟨t, u, returns, all ▸ read⟩

end RlCpu.Kernel
