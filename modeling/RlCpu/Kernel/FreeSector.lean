/-
**Which block the allocator takes (`fs_findFreeSector`, `fs_allocBlock`).**

`bitSet data device m`: bit `m` of the bitmap area is set. The area has 32 blocks of 4096 bits, the block numbers have
16 bits, so two bits of the area are one number.

* `wp_fsFindFreeSector_first`: the search returns the first clear bit of the area, cut down to 16 bits.
* `allocator_right_iff`: the allocator is right unless the first clear bit is one past `65536`.
-/

import RlCpu.Kernel.FileContents

namespace RlCpu.Kernel

open RlCpu.Lib

variable {δ : Type} {drv : BlkDriver δ}

/-! ### The bits of the area -/

/-- Bit `m` of the bitmap area is set. -/
def bitSet (data : BlockKey → BlockData) (device : Word) (m : Nat) : Bool :=
  ((data (device, BitVec.ofNat 16 (m / 4096 + 1))).word (m % 4096 / 16)).getLsbD (m % 16)

/-- The bits of the bitmap area. -/
abbrev areaBits : Nat := 32 * 4096

/-- The first clear bit of the bitmap area. -/
def firstClear (data : BlockKey → BlockData) (device : Word) : Option Nat :=
  (List.range areaBits).find? fun m => !bitSet data device m

/-- The number of the first clear bit in 16 bits, or `0`. -/
def firstSector (data : BlockKey → BlockData) (device : Word) : Word :=
  (firstClear data device).elim 0 (BitVec.ofNat 16)

section Bits

variable {data : BlockKey → BlockData} {device : Word}

/-- The bit of a block is the bit of its number. -/
theorem isMarked_eq_bitSet (b : Word) : isMarked data device b = bitSet data device b.toNat := by
  have block : bitBlock b = BitVec.ofNat 16 (b.toNat / 4096 + 1) := by
    apply BitVec.eq_of_toNat_eq
    rw [bitBlock_toNat, BitVec.toNat_ofNat]
    have small := b.isLt
    omega
  unfold isMarked bitSet
  rw [block, bitWord_eq, bitPos_eq]

theorem bitSet_of_lt {m : Nat} (small : m < 2 ^ 16) :
    bitSet data device m = isMarked data device (BitVec.ofNat 16 m) := by
  rw [isMarked_eq_bitSet, BitVec.toNat_ofNat, Nat.mod_eq_of_lt small]

theorem firstClear_some {m : Nat} : firstClear data device = some m ↔
    bitSet data device m = false ∧ m < areaBits ∧ ∀ l < m, bitSet data device l = true := by
  unfold firstClear
  rw [List.find?_range_eq_some]
  simp only [Bool.not_eq_true', List.mem_range, Bool.not_not]

theorem firstClear_none : firstClear data device = none ↔ ∀ m < areaBits, bitSet data device m = true := by
  unfold firstClear
  rw [List.find?_eq_none]
  simp only [List.mem_range, Bool.not_eq_true', Bool.not_eq_false]

theorem firstSector_of {result : Option Nat} (found : firstClear data device = result) :
    firstSector data device = result.elim 0 (BitVec.ofNat 16) :=
  congrArg (fun o : Option Nat => o.elim 0 (BitVec.ofNat 16)) found

-- The search goes through every bit of the area; a comparison of two results is not to start it.
attribute [irreducible] firstClear firstSector

/-- A block number whose bit is clear comes before everything else. -/
theorem firstSector_least {b : Word} (clear : isMarked data device b = false) :
    isMarked data device (firstSector data device) = false ∧
      ∀ c, isMarked data device c = false → (firstSector data device).toNat ≤ c.toNat := by
  have small := b.isLt
  cases found : firstClear data device with
  | none =>
    have room : b.toNat < areaBits := by
      unfold areaBits
      omega
    have set := firstClear_none.mp found b.toNat room
    rw [← isMarked_eq_bitSet, clear] at set
    cases set
  | some m =>
    obtain ⟨here, -, before⟩ := firstClear_some.mp found
    have least : ∀ c : Word, isMarked data device c = false → m ≤ c.toNat := by
      intro c clear'
      rw [isMarked_eq_bitSet] at clear'
      by_contra later
      have set := before c.toNat (Nat.lt_of_not_le later)
      rw [clear'] at set
      cases set
    have low : m < 2 ^ 16 := (least b clear).trans_lt small
    have value : firstSector data device = BitVec.ofNat 16 m := firstSector_of found
    rw [value, BitVec.toNat_ofNat, Nat.mod_eq_of_lt low, ← bitSet_of_lt low]
    exact ⟨here, least⟩

end Bits

/-! ### The search -/

/-- The first number with a result. -/
theorem findSome_range {α : Type} {f : Nat → Option α} {x : α} :
    ∀ n, (List.range n).findSome? f = some x → ∃ i < n, f i = some x ∧ ∀ k < i, f k = none := by
  intro n
  induction n with
  | zero => exact fun found => by cases found
  | succ n ih =>
    intro found
    rw [List.range_succ, List.findSome?_append] at found
    cases earlier : (List.range n).findSome? f with
    | some y =>
      rw [earlier, Option.some_or] at found
      obtain ⟨i, inside, here, none⟩ := ih (earlier.trans found)
      exact ⟨i, inside.trans (Nat.lt_succ_self n), here, none⟩
    | none =>
      rw [earlier, Option.none_or] at found
      refine ⟨n, Nat.lt_succ_self n, ?_, fun k below => ?_⟩
      · rwa [List.findSome?_singleton] at found
      · exact List.findSome?_eq_none_iff.mp earlier k (List.mem_range.mpr below)

/-- **`clearBit` finds the first one.** -/
theorem clearBit_first {data : BlockData} {i j : Nat} (found : data.clearBit = some (i, j)) {k l : Nat}
    (low : l < 16) (before : k < i ∨ k = i ∧ l < j) : (data.word k).getLsbD l = true := by
  obtain ⟨w, -, here, none⟩ := findSome_range _ found
  have at' : w = i := by
    split at here
    case isFalse => cases here
    case isTrue =>
      obtain ⟨_, -, pair⟩ := Option.map_eq_some_iff.mp here
      exact (Prod.mk.inj pair).1
  subst at'
  rcases before with earlier | ⟨rfl, earlier⟩
  · have full := none k earlier
    split at full
    case isTrue =>
      rw [Option.map_eq_none_iff] at full
      have bit := List.find?_eq_none.mp full l (List.mem_range.mpr low)
      rwa [and_mask_eq_zero low, Bool.not_eq_true', Bool.not_eq_false] at bit
    case isFalse ones =>
      have set : ∀ k : Fin 16, (0xffff : Word).getLsbD k = true := by decide
      rw [not_not.mp ones]
      exact set ⟨l, low⟩
  · split at here
    case isFalse => cases here
    obtain ⟨l', bit, pair⟩ := Option.map_eq_some_iff.mp here
    obtain ⟨-, rfl⟩ := Prod.mk.inj pair
    have first := (List.find?_range_eq_some.mp bit).2.2 l earlier
    rwa [and_mask_eq_zero low, Bool.not_not] at first

section Rules

variable {base : BlockPtr → Nat} {room : Nat} {ok : Fault → Prop} {a : DiskView} {device : Word}

/-- The search from bitmap block `c` on, with every bit before it set. -/
theorem wp_findFreeSectorLoop_first {post : Word → DiskView → Prop} (free : a.pins.length < room)
    (hard : ∀ key, key ∉ a.soft) (rest : post (firstSector a.data device) a) (n : Nat) :
    ∀ c, c + n = 32 → (∀ m < c * 4096, bitSet a.data device m = true) →
      wp (Shows drv base room) ok (findFreeSectorLoop drv device (List.range' c n)) post a := by
  induction n with
  | zero =>
    intro c last set
    have none : firstClear a.data device = none := firstClear_none.mpr fun m inside =>
      set m (by rw [show c = 32 from last]; exact inside)
    rw [firstSector_of none] at rest
    exact wp_pure rest
  | succ n ih =>
    intro c last set
    rw [List.range'_succ]
    unfold findFreeSectorLoop
    refine wp_bind (wp_bread_hard free (hard _) fun i => ?_)
    refine wp_bind (wp_data List.mem_cons_self ?_)
    rw [DiskView.pin_data]
    have blockOf : ∀ m, m / 4096 = c → bitSet a.data device m =
        ((a.data (device, BitVec.ofNat 16 (c + 1))).word (m % 4096 / 16)).getLsbD (m % 16) := by
      intro m here
      unfold bitSet
      rw [here]
    cases found : (a.data (device, BitVec.ofNat 16 (c + 1))).clearBit with
    | some bit =>
      obtain ⟨j, k⟩ := bit
      obtain ⟨word, pos, clear⟩ := clearBit_some found
      refine wp_bind (wp_bfree List.mem_cons_self (wp_pure ?_))
      rw [DiskView.pin_unpin]
      have first : firstClear a.data device = some (c * 4096 + j * 16 + k) := by
        refine firstClear_some.mpr ⟨?_, ?_, fun m earlier => ?_⟩
        · rw [blockOf _ (by omega), show (c * 4096 + j * 16 + k) % 4096 / 16 = j by omega,
            show (c * 4096 + j * 16 + k) % 16 = k by omega]
          exact clear
        · show c * 4096 + j * 16 + k < 32 * 4096
          omega
        · by_cases below : m < c * 4096
          · exact set m below
          · rw [blockOf m (by omega)]
            exact clearBit_first found (Nat.mod_lt _ (by decide)) (by omega)
      rw [firstSector_of first] at rest
      exact rest
    | none =>
      refine wp_bind (wp_bfree List.mem_cons_self ?_)
      rw [DiskView.pin_unpin]
      refine ih (c + 1) (by omega) fun m below => ?_
      by_cases earlier : m < c * 4096
      · exact set m earlier
      · rw [blockOf m (by omega)]
        exact clearBit_none found (by omega) (Nat.mod_lt _ (by decide))

/-- **`fs_findFreeSector`**: the first clear bit of the area. -/
theorem wp_fsFindFreeSector_first {post : Word → DiskView → Prop} (free : a.pins.length < room)
    (hard : ∀ key, key ∉ a.soft) (rest : post (firstSector a.data device) a) :
    wp (Shows drv base room) ok (fsFindFreeSector drv device) post a := by
  unfold fsFindFreeSector
  rw [List.range_eq_range']
  exact wp_findFreeSectorLoop_first free hard rest 32 0 rfl fun m below => absurd below (Nat.not_lt_zero _)

/-- **`fs_allocBlock`**: the first clear bit of the area, and its number is marked. -/
theorem wp_fsAllocBlock_first {post : Word → DiskView → Prop} (free : a.pins.length < room)
    (hard : ∀ key, key ∉ a.soft)
    (rest : post (firstSector a.data device) (a.mark device (firstSector a.data device) true)) :
    wp (Shows drv base room) ok (fsAllocBlock drv device) post a := by
  unfold fsAllocBlock
  refine wp_bind (wp_fsFindFreeSector_first free hard ?_)
  exact wp_bind (wp_fsMarkSector free (fun _ => hard _) (wp_pure rest))

end Rules

/-! ### The allocator on the cache -/

/-- The bit of block `r` was set, and nothing else was changed. -/
structure OneBitSet (data after : BlockKey → BlockData) (device r : Word) : Prop where
  bits : ∀ j, ((after (device, bitBlock r)).word (bitWord r)).getLsbD j =
    if j = bitPos r then true else ((data (device, bitBlock r)).word (bitWord r)).getLsbD j
  words : ∀ i, i ≠ bitWord r → (after (device, bitBlock r)).word i = (data (device, bitBlock r)).word i
  blocks : ∀ key, key ≠ (device, bitBlock r) → after key = data key

variable (drv) in
/-- **What an allocator is to do**: take the least free block and mark it, use a block again that was freed, and report
no block that is in use. -/
structure AllocatorRight (s : BlkState δ) (data : BlockKey → BlockData) (device : Word) : Prop where
  takes : ∀ b, isMarked data device b = false → ∃ r t after, fsAllocBlock drv device s = .ok (r, t) ∧
    Coherent drv t after ∧ isMarked data device r = false ∧
    (∀ c, isMarked data device c = false → r.toNat ≤ c.toNat) ∧ OneBitSet data after device r
  reuses : ∀ b, ∃ r t after, (fsFreeBlock drv device b >>= fun _ => fsAllocBlock drv device) s = .ok (r, t) ∧
    Coherent drv t after ∧ r.toNat ≤ b.toNat
  success : ∀ r t, fsFindFreeSector drv device s = .ok (r, t) → r ≠ 0 → isMarked data device r = false

section Cache

variable {s : BlkState δ} {data : BlockKey → BlockData} {device : Word}

theorem OneBitSet.mark (a : DiskView) (device r : Word) : OneBitSet a.data (a.mark device r true).data device r := by
  have here : (a.mark device r true).data (device, bitBlock r) = (a.data (device, bitBlock r)).put (bitWord r)
      (setBit ((a.data (device, bitBlock r)).word (bitWord r)) (bitPos r) true) := Function.update_self _ _ _
  refine ⟨fun j => ?_, fun i ne => ?_, fun key ne => a.mark_data_ne device r true ne⟩
  · rw [here, BlockData.word_put _ _ _ _ (bitWord_lt r), if_pos rfl, getLsbD_setBit _ _ (bitPos_lt r)]
  · rw [here, BlockData.word_put_ne _ _ ne]

/-- What the search returns on a coherent cache. -/
theorem fsFindFreeSector_run (coherent : Coherent drv s data) (device : Word) :
    ∃ t, fsFindFreeSector drv device s = .ok (firstSector data device, t) := by
  obtain ⟨r, t, -, run, -, rfl⟩ := coherent.returns (fsFindFreeSector drv device)
    (fun r _ => r = firstSector data device) fun _ =>
      wp_fsFindFreeSector_first (show 0 < 4 by decide) (fun _ mem => mem) rfl
  exact ⟨t, run⟩

/-- What the allocator does on a coherent cache. -/
theorem fsAllocBlock_run (coherent : Coherent drv s data) (device : Word) :
    ∃ t, fsAllocBlock drv device s = .ok (firstSector data device, t) ∧
      Coherent drv t ((viewOf data).mark device (firstSector data device) true).data := by
  obtain ⟨r, t, b, run, shows, rfl, rfl⟩ := coherent.returns (fsAllocBlock drv device)
    (fun r b => r = firstSector data device ∧ b = (viewOf data).mark device (firstSector data device) true) fun _ =>
      wp_fsAllocBlock_first (show 0 < 4 by decide) (fun _ mem => mem) ⟨rfl, rfl⟩
  exact ⟨t, run, (coherent.of_shows shows rfl le_rfl).1⟩

/-- What the allocator does after block `b` was freed. -/
theorem fsFreeBlock_run (coherent : Coherent drv s data) (device b : Word) :
    ∃ t, fsFreeBlock drv device b s = .ok ((), t) ∧
      Coherent drv t ((viewOf data).mark device b false).data := by
  obtain ⟨_, t, c, run, shows, rfl⟩ := coherent.returns (fsFreeBlock drv device b)
    (fun _ c => c = (viewOf data).mark device b false) fun _ =>
      wp_fsMarkSector (show 0 < 4 by decide) (fun _ mem => mem) rfl
  exact ⟨t, run, (coherent.of_shows shows rfl le_rfl).1⟩

/-- The allocator takes the least free block, and marks it. -/
theorem alloc_takes (coherent : Coherent drv s data) {b : Word} (clear : isMarked data device b = false) :
    ∃ r t after, fsAllocBlock drv device s = .ok (r, t) ∧ Coherent drv t after ∧ isMarked data device r = false ∧
      (∀ c, isMarked data device c = false → r.toNat ≤ c.toNat) ∧ OneBitSet data after device r := by
  obtain ⟨t, run, after⟩ := fsAllocBlock_run coherent device
  obtain ⟨here, least⟩ := firstSector_least clear
  exact ⟨_, t, _, run, after, here, least, OneBitSet.mark (viewOf data) device _⟩

/-- A block that was freed is found again. -/
theorem alloc_reuses (coherent : Coherent drv s data) (b : Word) :
    ∃ r t after, (fsFreeBlock drv device b >>= fun _ => fsAllocBlock drv device) s = .ok (r, t) ∧
      Coherent drv t after ∧ r.toNat ≤ b.toNat := by
  obtain ⟨t, freed, coherent'⟩ := fsFreeBlock_run coherent device b
  have clear : isMarked ((viewOf data).mark device b false).data device b = false := by
    rw [DiskView.isMarked_mark, if_pos rfl]
  obtain ⟨r, u, after, run, last, -, least, -⟩ := alloc_takes coherent' clear
  exact ⟨r, u, after, (bind_run freed).trans run, last, least b clear⟩

/-- With every block number in use, the search reports one that is if the first clear bit is one past `65536`. -/
theorem firstSector_full (full : ∀ b, isMarked data device b = true) :
    firstSector data device ≠ 0 ↔ ∃ m, 2 ^ 16 < m ∧ firstClear data device = some m := by
  cases found : firstClear data device with
  | none =>
    rw [firstSector_of found]
    exact ⟨fun ne => absurd rfl ne, fun ⟨_, _, clash⟩ => by cases clash⟩
  | some m =>
    rw [firstSector_of found]
    change BitVec.ofNat 16 m ≠ 0 ↔ _
    obtain ⟨clear, inside, -⟩ := firstClear_some.mp found
    have high : 2 ^ 16 ≤ m := by
      by_contra low
      rw [bitSet_of_lt (Nat.lt_of_not_le low), full] at clear
      cases clear
    have room : m < 32 * 4096 := inside
    have value : (BitVec.ofNat 16 m).toNat = m - 2 ^ 16 := by
      rw [BitVec.toNat_ofNat]
      omega
    refine ⟨fun ne => ⟨m, Nat.lt_of_le_of_ne high fun same => ne ?_, rfl⟩, ?_⟩
    · apply BitVec.eq_of_toNat_eq
      rw [value, ← same]
      rfl
    · rintro ⟨l, past, same⟩ zero
      obtain rfl := Option.some.inj same
      have none := congrArg BitVec.toNat zero
      rw [value] at none
      have nothing : (0 : Word).toNat = 0 := rfl
      omega

/-- **The allocator is right if and only if** some block number has a clear bit, or the first bit that no block number
has is clear, or no bit of the area is. -/
theorem allocator_right_iff (coherent : Coherent drv s data) : AllocatorRight drv s data device ↔
    (∃ b, isMarked data device b = false) ∨ bitSet data device (2 ^ 16) = false ∨
      ∀ m < areaBits, bitSet data device m = true := by
  by_cases clear : ∃ b, isMarked data device b = false
  · refine ⟨fun _ => Or.inl clear, fun _ => ⟨fun b => alloc_takes coherent, alloc_reuses coherent, ?_⟩⟩
    intro r t run _
    obtain ⟨b, here⟩ := clear
    obtain ⟨u, run'⟩ := fsFindFreeSector_run coherent device
    obtain ⟨rfl, -⟩ := Prod.mk.inj (Except.ok.inj (run'.symm.trans run))
    exact (firstSector_least here).1
  have full : ∀ b, isMarked data device b = true := fun b => by
    by_contra here
    exact clear ⟨b, (Bool.not_eq_true _).mp here⟩
  have before : ∀ m < 2 ^ 16, bitSet data device m = true := fun m small => by
    rw [bitSet_of_lt small]
    exact full _
  obtain ⟨u, run⟩ := fsFindFreeSector_run coherent device
  constructor
  · intro right
    refine Or.inr ?_
    have zero : firstSector data device = 0 := by
      by_contra ne
      have free := right.success _ u run ne
      rw [full] at free
      cases free
    cases found : firstClear data device with
    | none => exact Or.inr (firstClear_none.mp found)
    | some m =>
      obtain ⟨here, -, -⟩ := firstClear_some.mp found
      have low : ¬ 2 ^ 16 < m := fun past => (firstSector_full full).mpr ⟨m, past, found⟩ zero
      have high : ¬ m < 2 ^ 16 := fun small => by
        rw [before m small] at here
        cases here
      obtain rfl : m = 2 ^ 16 := by omega
      exact Or.inl here
  · intro rest
    refine ⟨fun b here => absurd ⟨b, here⟩ clear, alloc_reuses coherent, fun r t run' ne => ?_⟩
    obtain ⟨rfl, -⟩ := Prod.mk.inj (Except.ok.inj (run.symm.trans run'))
    obtain ⟨m, past, found⟩ := (firstSector_full full).mp ne
    obtain ⟨here, inside, set⟩ := firstClear_some.mp found
    rcases rest with none | at' | all
    · exact absurd none clear
    · rw [set _ past] at at'
      cases at'
    · rw [all m inside] at here
      cases here

end Cache

/-! ### A disk with every block number in use -/

/-- All bits set but the second of those that no block number has. -/
def aliasedDisk (key : BlockKey) : BlockData :=
  BlockData.ofFn fun i => if key = (0, 17) ∧ i = 0 then 0xfffd else 0xffff

theorem aliasedDisk_coherent : Coherent ramDriver (Client.boot ramDriver aliasedDisk).cache aliasedDisk :=
  ⟨(Client.boot_inv aliasedDisk).cache, by decide, by decide⟩

theorem aliasedDisk_word (n : Word) (i : Nat) (inside : i < 256) :
    (aliasedDisk (0, n)).word i = if n = 17 ∧ i = 0 then 0xfffd else 0xffff := by
  unfold aliasedDisk
  rw [BlockData.word_ofFn _ inside]
  simp only [Prod.mk.injEq, true_and]

/-- Every bit but one is set. -/
theorem aliasedDisk_bit {m : Nat} (inside : m < areaBits) (ne : m ≠ 65537) : bitSet aliasedDisk 0 m = true := by
  have room : m < 32 * 4096 := inside
  have ones : ∀ k : Fin 16, (0xffff : Word).getLsbD k = true := by decide
  have others : ∀ k : Fin 16, k ≠ 1 → (0xfffd : Word).getLsbD k = true := by decide
  unfold bitSet
  rw [aliasedDisk_word _ _ (by omega)]
  by_cases here : BitVec.ofNat 16 (m / 4096 + 1) = 17 ∧ m % 4096 / 16 = 0
  · rw [if_pos here]
    have block := congrArg BitVec.toNat here.1
    rw [BitVec.toNat_ofNat, show (17 : Word).toNat = 17 from rfl] at block
    refine others ⟨m % 16, Nat.mod_lt _ (by decide)⟩ fun same => ne ?_
    have pos : m % 16 = 1 := congrArg Fin.val same
    omega
  · rw [if_neg here]
    exact ones ⟨m % 16, Nat.mod_lt _ (by decide)⟩

/-- The first clear bit is the second that no block number has. -/
theorem aliasedDisk_first : firstClear aliasedDisk 0 = some 65537 := by
  refine firstClear_some.mpr ⟨?_, by norm_num [areaBits], fun l before => aliasedDisk_bit ?_ before.ne⟩
  · unfold bitSet
    rw [aliasedDisk_word _ _ (by decide)]
    decide
  · have room : 65537 < areaBits := by norm_num [areaBits]
    exact before.trans room

/-- On this disk the allocator is right if and only if one of its bits is clear that has a number, or none is. -/
theorem allocator_right_aliased : AllocatorRight ramDriver (Client.boot ramDriver aliasedDisk).cache aliasedDisk 0 ↔
    (∃ b, isMarked aliasedDisk 0 b = false) ∨ bitSet aliasedDisk 0 (2 ^ 16) = false ∨
      ∀ m < areaBits, bitSet aliasedDisk 0 m = true :=
  allocator_right_iff aliasedDisk_coherent

/-- **A block in use is reported free**: bit `65537` of the area is the first clear one, and the search returns `1`. -/
theorem fsFindFreeSector_aliased :
    (∃ t, fsFindFreeSector ramDriver 0 (Client.boot ramDriver aliasedDisk).cache = .ok (1, t)) ∧
      isMarked aliasedDisk 0 1 = true ∧
      ¬ AllocatorRight ramDriver (Client.boot ramDriver aliasedDisk).cache aliasedDisk 0 := by
  obtain ⟨t, run⟩ := fsFindFreeSector_run aliasedDisk_coherent 0
  have one : firstSector aliasedDisk 0 = 1 := firstSector_of aliasedDisk_first
  have marked : isMarked aliasedDisk 0 1 = true := by
    rw [isMarked_eq_bitSet]
    exact aliasedDisk_bit (by decide) (by decide)
  rw [one] at run
  refine ⟨⟨t, run⟩, marked, fun right => ?_⟩
  have free := right.success 1 t run (by decide)
  rw [marked] at free
  cases free

end RlCpu.Kernel
