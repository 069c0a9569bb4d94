/-
**The free block bitmap.**

`isMarked data device b`: the bit of block `b` is set in the bitmap of `device`.

* `isMarked_mark`: `fs_markSector` changes the bit of its own block and no other.
* `wp_fsAllocBlock`: with a clear bit anywhere, `fs_allocBlock` returns a block whose bit was clear, and
  sets it. (`fs_findFreeSector` searches 32 bitmap blocks, but the block numbers have 16 bits, so only
  the first 16 can be told apart; the clear bit is always found before the search leaves them.)
-/

import RlCpu.Kernel.Rlfs

namespace RlCpu.Kernel

open RlCpu.Lib

variable {δ : Type} {drv : BlkDriver δ}

/-! ### The bit of a block -/

/-- The bitmap block with the bit of block `b`. -/
def bitBlock (b : Word) : Word := (b >>> 12) + 1

/-- The word of the bitmap block with the bit of block `b`. -/
def bitWord (b : Word) : Nat := ((b &&& 0xfff) >>> 4).toNat

/-- The position of the bit of block `b` in its word. -/
def bitPos (b : Word) : Nat := (b &&& 0xfff &&& 0x0f).toNat

theorem bitBlock_toNat (b : Word) : (bitBlock b).toNat = b.toNat / 4096 + 1 := by
  have small := b.isLt
  unfold bitBlock
  rw [BitVec.toNat_add, BitVec.toNat_ushiftRight, Nat.shiftRight_eq_div_pow]
  have one : (1 : Word).toNat = 1 := rfl
  rw [one]
  omega

theorem bitWord_eq (b : Word) : bitWord b = b.toNat % 4096 / 16 := by
  unfold bitWord
  rw [BitVec.toNat_ushiftRight, Nat.shiftRight_eq_div_pow, BitVec.toNat_and]
  have mask : (0xfff : Word).toNat = 2 ^ 12 - 1 := rfl
  rw [mask, Nat.and_two_pow_sub_one_eq_mod]

theorem bitPos_eq (b : Word) : bitPos b = b.toNat % 16 := by
  unfold bitPos
  rw [BitVec.toNat_and, BitVec.toNat_and]
  have mask : (0xfff : Word).toNat = 2 ^ 12 - 1 := rfl
  have nibble : (0x0f : Word).toNat = 2 ^ 4 - 1 := rfl
  rw [mask, nibble, Nat.and_two_pow_sub_one_eq_mod, Nat.and_two_pow_sub_one_eq_mod]
  omega

theorem bitWord_lt (b : Word) : bitWord b < 256 := by
  rw [bitWord_eq]
  omega

theorem bitPos_lt (b : Word) : bitPos b < 16 := by
  rw [bitPos_eq]
  omega

/-- A block is told by where its bit is. -/
theorem eq_of_bit {b c : Word} (block : bitBlock b = bitBlock c) (word : bitWord b = bitWord c)
    (pos : bitPos b = bitPos c) : b = c := by
  have same := congrArg BitVec.toNat block
  rw [bitBlock_toNat, bitBlock_toNat] at same
  rw [bitWord_eq, bitWord_eq] at word
  rw [bitPos_eq, bitPos_eq] at pos
  exact BitVec.eq_of_toNat_eq (by omega)

/-- The bit of block `b` is set. -/
def isMarked (data : BlockKey → BlockData) (device b : Word) : Bool :=
  ((data (device, bitBlock b)).word (bitWord b)).getLsbD (bitPos b)

/-- A word with one bit set or cleared. -/
def setBit (w : Word) (pos : Nat) (val : Bool) : Word :=
  if val then w ||| (1#16 <<< pos) else w &&& ~~~(1#16 <<< pos)

/-- The mask of one bit. -/
theorem getLsbD_one_shiftLeft {pos : Nat} (small : pos < 16) (i : Nat) :
    (1#16 <<< pos).getLsbD i = decide (i = pos) := by
  rw [BitVec.getLsbD_shiftLeft, BitVec.getLsbD_one, Bool.eq_iff_iff]
  simp only [Bool.and_eq_true, decide_eq_true_eq, Bool.not_eq_true', decide_eq_false_iff_not]
  omega

/-- A clear bit under its mask. -/
theorem and_mask_eq_zero {w : Word} {j : Nat} (low : j < 16) :
    (w &&& (1#16 <<< j) == 0) = !w.getLsbD j := by
  cases bit : w.getLsbD j with
  | true =>
    rw [Bool.not_true, beq_eq_false_iff_ne]
    intro zero
    have here := congrArg (fun v => BitVec.getLsbD v j) zero
    rw [BitVec.getLsbD_and, getLsbD_one_shiftLeft low, bit, decide_eq_true rfl] at here
    exact absurd here (by simp)
  | false =>
    rw [Bool.not_false, beq_iff_eq]
    refine BitVec.eq_of_getLsbD_eq fun k small => ?_
    rw [BitVec.getLsbD_and, getLsbD_one_shiftLeft low]
    by_cases same : k = j
    · rw [same, bit]
      simp
    · simp [same]

theorem getLsbD_setBit (w : Word) {pos i : Nat} (val : Bool) (small : pos < 16) :
    (setBit w pos val).getLsbD i = if i = pos then val else w.getLsbD i := by
  cases val
  · show (w &&& ~~~(1#16 <<< pos)).getLsbD i = _
    rw [BitVec.getLsbD_and, BitVec.getLsbD_not, getLsbD_one_shiftLeft small]
    by_cases same : i = pos
    · simp [same]
    · by_cases low : i < 16
      · simp only [low, same, decide_true, decide_false, Bool.not_false, Bool.and_true, if_false]
      · rw [BitVec.getLsbD_of_ge w i (by omega), if_neg same, Bool.false_and]
  · show (w ||| (1#16 <<< pos)).getLsbD i = _
    rw [BitVec.getLsbD_or, getLsbD_one_shiftLeft small]
    by_cases same : i = pos
    · simp only [same, decide_true, Bool.or_true, if_true]
    · simp only [same, decide_false, Bool.or_false, if_false]

namespace DiskView

/-- The view with the bit of block `b` set or cleared. -/
def mark (a : DiskView) (device b : Word) (val : Bool) : DiskView :=
  a.put (device, bitBlock b) ((a.data (device, bitBlock b)).put (bitWord b)
    (setBit ((a.data (device, bitBlock b)).word (bitWord b)) (bitPos b) val))

@[simp] theorem mark_pins (a : DiskView) (device b : Word) (val : Bool) :
    (a.mark device b val).pins = a.pins := rfl

@[simp] theorem mark_soft (a : DiskView) (device b : Word) (val : Bool) :
    (a.mark device b val).soft = a.soft := rfl

theorem mark_data_ne (a : DiskView) (device b : Word) (val : Bool) {key : BlockKey}
    (ne : key ≠ (device, bitBlock b)) : (a.mark device b val).data key = a.data key :=
  Function.update_of_ne ne _ _

/-- **`fs_markSector` changes one bit.** -/
theorem isMarked_mark (a : DiskView) (device b c : Word) (val : Bool) :
    isMarked (a.mark device b val).data device c =
      if c = b then val else isMarked a.data device c := by
  by_cases block : bitBlock c = bitBlock b
  · have here : (a.mark device b val).data (device, bitBlock b) = _ := Function.update_self _ _ _
    unfold isMarked
    rw [block, here, BlockData.word_put _ _ _ _ (bitWord_lt b)]
    by_cases word : bitWord c = bitWord b
    · rw [if_pos word, getLsbD_setBit _ _ (bitPos_lt b), word]
      by_cases pos : bitPos c = bitPos b
      · rw [if_pos pos, if_pos (eq_of_bit block word pos)]
      · rw [if_neg pos, if_neg]
        rintro rfl
        exact pos rfl
    · rw [if_neg word, if_neg]
      rintro rfl
      exact word rfl
  · unfold isMarked
    rw [mark_data_ne, if_neg]
    · rintro rfl
      exact block rfl
    · exact fun same => block (congrArg Prod.snd same)

end DiskView

/-! ### Marking and allocating -/

section Rules

variable {base : BlockPtr → Nat} {room : Nat} {ok : Fault → Prop} {a : DiskView}
  {device : Word}

/-- No bitmap block of the device was changed without `BLOCK_MODIFIED`. -/
def BitmapHard (a : DiskView) (device : Word) : Prop := ∀ b, (device, bitBlock b) ∉ a.soft

/-- **`fs_markSector`** -/
theorem wp_fsMarkSector {b : Word} {val : Bool} {post : Unit → DiskView → Prop}
    (free : a.pins.length < room) (hard : BitmapHard a device)
    (rest : post () (a.mark device b val)) :
    wp (Shows drv base room) ok (fsMarkSector drv device b val) post a := by
  unfold fsMarkSector
  refine wp_bind (wp_bread_hard free (hard b) fun i => ?_)
  refine wp_bind (wp_data List.mem_cons_self ?_)
  refine wp_bind (wp_setData List.mem_cons_self ?_)
  refine wp_bind (wp_setModified List.mem_cons_self ?_)
  refine wp_bfree List.mem_cons_self ?_
  have view := DiskView.pin_store_settle_unpin_hard a i (device, bitBlock b)
    ((a.data (device, bitBlock b)).put (bitWord b)
      (setBit ((a.data (device, bitBlock b)).word (bitWord b)) (bitPos b) val)) (hard b)
  exact (congrArg (post ()) view).mpr rest

/-- `clearBit` finds a clear bit. -/
theorem clearBit_some {data : BlockData} {i j : Nat} (found : data.clearBit = some (i, j)) :
    i < 256 ∧ j < 16 ∧ (data.word i).getLsbD j = false := by
  obtain ⟨k, inside, result⟩ := List.exists_of_findSome?_eq_some found
  split at result
  case isFalse => cases result
  obtain ⟨j', bit, pair⟩ := Option.map_eq_some_iff.mp result
  obtain ⟨rfl, rfl⟩ := Prod.mk.inj pair
  have clear := List.find?_some bit
  have low := List.mem_range.mp (List.mem_of_find?_eq_some bit)
  refine ⟨List.mem_range.mp inside, low, ?_⟩
  rwa [and_mask_eq_zero low, Bool.not_eq_true'] at clear

/-- `clearBit` misses no clear bit. -/
theorem clearBit_none {data : BlockData} (missing : data.clearBit = none) {i j : Nat}
    (inside : i < 256) (low : j < 16) : (data.word i).getLsbD j = true := by
  have here := List.findSome?_eq_none_iff.mp missing i (List.mem_range.mpr inside)
  split at here
  case isTrue =>
    rw [Option.map_eq_none_iff] at here
    have bit := List.find?_eq_none.mp here j (List.mem_range.mpr low)
    rwa [and_mask_eq_zero low, Bool.not_eq_true', Bool.not_eq_false] at bit
  case isFalse full =>
    have ones : ∀ k : Fin 16, (0xffff : Word).getLsbD k = true := by decide
    rw [not_not.mp full]
    exact ones ⟨j, low⟩

/-- The number `fs_findFreeSector` computes from a bit of one of the first 16 bitmap blocks. -/
theorem bit_of_sector {c i j : Nat} (block : c < 16) (word : i < 256) (pos : j < 16) :
    bitBlock (BitVec.ofNat 16 (c * 4096 + i * 16 + j)) = BitVec.ofNat 16 (c + 1) ∧
      bitWord (BitVec.ofNat 16 (c * 4096 + i * 16 + j)) = i ∧
      bitPos (BitVec.ofNat 16 (c * 4096 + i * 16 + j)) = j := by
  have value : (BitVec.ofNat 16 (c * 4096 + i * 16 + j)).toNat = c * 4096 + i * 16 + j := by
    rw [BitVec.toNat_ofNat, Nat.mod_eq_of_lt]
    omega
  refine ⟨BitVec.eq_of_toNat_eq ?_, ?_, ?_⟩
  · rw [bitBlock_toNat, value, BitVec.toNat_ofNat]
    omega
  · rw [bitWord_eq, value]
    omega
  · rw [bitPos_eq, value]
    omega

/-- The search through bitmap blocks `front ++ back`, with a clear bit in one of `front`. -/
theorem wp_findFreeSectorLoop {post : Word → DiskView → Prop} (free : a.pins.length < room)
    (hard : BitmapHard a device) (rest : ∀ r, isMarked a.data device r = false → post r a)
    (back : List Nat) {b : Word} (clear : isMarked a.data device b = false) :
    ∀ front : List Nat, (∀ c ∈ front, c < 16) → b.toNat / 4096 ∈ front →
      wp (Shows drv base room) ok (findFreeSectorLoop drv device (front ++ back)) post a := by
  intro front
  induction front with
  | nil => exact fun _ absent => absurd absent List.not_mem_nil
  | cons c front ih =>
    intro small inside
    have low := small c List.mem_cons_self
    have key : BitVec.ofNat 16 (c + 1) = bitBlock (BitVec.ofNat 16 (c * 4096 + 0 * 16 + 0)) :=
      (bit_of_sector low (by decide) (by decide)).1.symm
    have hardHere : (device, BitVec.ofNat 16 (c + 1)) ∉ a.soft := by
      rw [key]
      exact hard _
    show wp _ _ (findFreeSectorLoop drv device (c :: (front ++ back))) post a
    unfold findFreeSectorLoop
    refine wp_bind (wp_bread_hard free hardHere fun i => ?_)
    refine wp_bind (wp_data List.mem_cons_self ?_)
    cases found : ((a.pin i (device, BitVec.ofNat 16 (c + 1))).data
        (device, BitVec.ofNat 16 (c + 1))).clearBit with
    | some bit =>
      obtain ⟨j, k⟩ := bit
      obtain ⟨word, pos, here⟩ := clearBit_some found
      obtain ⟨block, same, same'⟩ := bit_of_sector low word pos
      refine wp_bind (wp_bfree List.mem_cons_self (wp_pure ?_))
      rw [DiskView.pin_unpin]
      refine rest _ ?_
      unfold isMarked
      rw [block, same, same']
      exact here
    | none =>
      refine wp_bind (wp_bfree List.mem_cons_self ?_)
      rw [DiskView.pin_unpin]
      refine ih (fun d mem => small d (List.mem_cons_of_mem c mem)) ?_
      rcases List.mem_cons.mp inside with same | later
      · have set := clearBit_none found (bitWord_lt b) (bitPos_lt b)
        have here : BitVec.ofNat 16 (c + 1) = bitBlock b := by
          refine BitVec.eq_of_toNat_eq ?_
          rw [bitBlock_toNat, same, BitVec.toNat_ofNat]
          omega
        rw [DiskView.pin_data, here] at set
        unfold isMarked at clear
        rw [clear] at set
        cases set
      · exact later

/-- **`fs_findFreeSector`**: a clear bit is found if there is one. -/
theorem wp_fsFindFreeSector {post : Word → DiskView → Prop} (free : a.pins.length < room)
    (hard : BitmapHard a device) (some : ∃ b, isMarked a.data device b = false)
    (rest : ∀ r, isMarked a.data device r = false → post r a) :
    wp (Shows drv base room) ok (fsFindFreeSector drv device) post a := by
  obtain ⟨b, clear⟩ := some
  have split : List.range 32 = List.range 16 ++ List.range' 16 16 := by decide
  unfold fsFindFreeSector
  rw [split]
  refine wp_findFreeSectorLoop free hard rest _ clear _ (fun c => List.mem_range.mp) ?_
  have small := b.isLt
  exact List.mem_range.mpr (by omega)

/-- **`fs_allocBlock`**: a block whose bit was clear, with its bit set. -/
theorem wp_fsAllocBlock {post : Word → DiskView → Prop} (free : a.pins.length < room)
    (hard : BitmapHard a device) (some : ∃ b, isMarked a.data device b = false)
    (rest : ∀ b, isMarked a.data device b = false → post b (a.mark device b true)) :
    wp (Shows drv base room) ok (fsAllocBlock drv device) post a := by
  unfold fsAllocBlock
  refine wp_bind (wp_fsFindFreeSector free hard some fun b clear => ?_)
  exact wp_bind (wp_fsMarkSector free hard (wp_pure (rest b clear)))

end Rules

end RlCpu.Kernel
