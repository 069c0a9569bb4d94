/-
**Loop devices (`loop.c`).**

The blocks of a loop device are the words of a file, its backing file. The offset of block `b` is computed in 16 bits
before it is passed on, so two blocks whose numbers differ by `256` are the same words.

* `loopWrite_run`, `loopRead_run`: what the driver does at the offset it computes.
* `loop_right_iff`: the driver is right for blocks below `256`, next to blocks that are not the same words.
-/

import RlCpu.Kernel.FsRuns

namespace RlCpu.Kernel

open RlCpu.Lib

variable {δ : Type} (drv : BlkDriver δ)

/-! ### The driver -/

/-- `MAX_LOOP_DEVS` -/
abbrev maxLoopDevs : Nat := 3

/-- `struct loop_device_entry` -/
structure LoopDeviceEntry where
  deviceNode : FsNode
  virtualDeviceFile : FsNode

/-- `loop_devs` -/
abbrev LoopDevs := Fin maxLoopDevs → LoopDeviceEntry

/-- `loop_devs[minor].virtual_device_file`; there is no check of the bound. -/
def virtualDeviceFile (devs : LoopDevs) (device : Word) : BlkM δ FsNode :=
  if low : (devMinor device).toNat < maxLoopDevs then pure (devs ⟨_, low⟩).virtualDeviceFile else throw .wild

/-- `loop_read_block` -/
def loopReadBlock (devs : LoopDevs) (device block : Word) : BlkM δ (List Word) := do
  let file ← virtualDeviceFile devs device
  fsRead drv file (block * 256).toNat 256

/-- `loop_write_block` -/
def loopWriteBlock (devs : LoopDevs) (device block : Word) (buffer : Nat → Word) : BlkM δ Nat := do
  let file ← virtualDeviceFile devs device
  fsWrite drv file (block * 256).toNat 256 buffer

/-! ### The backing file -/

variable {drv} {s t : BlkState δ} {data after : BlockKey → BlockData} {devs : LoopDevs} {device d n b c : Word}

/-- **A loop device with its backing file**, node `n` on device `d`. -/
structure LoopBacking (devs : LoopDevs) (device : Word) (data : BlockKey → BlockData) (d n : Word) : Prop where
  attached : ∃ low : (devMinor device).toNat < maxLoopDevs, (devs ⟨_, low⟩).virtualDeviceFile = ⟨d, n⟩
  wellFormed : WellFormedFile data d n
  noHoles : NoHoles data d n

/-- The file has the words of block `b`. -/
def LongEnough (data : BlockKey → BlockData) (d n b : Word) : Prop := 256 * b.toNat + 256 ≤ fileSize data d n

/-- The slot behind block `b`, which `fs_write` asks for, has a block or can get one. -/
def NextSlot (data : BlockKey → BlockData) (d n b : Word) : Prop :=
  missing (viewOf data) d n (passed (b.toNat + 1)) ≤ freeBlocks (viewOf data) d

theorem LoopBacking.file (backing : LoopBacking devs device data d n) :
    (virtualDeviceFile devs device : BlkM δ FsNode) = pure ⟨d, n⟩ := by
  obtain ⟨low, file⟩ := backing.attached
  unfold virtualDeviceFile
  rw [dif_pos low, file]

theorem LoopBacking.read (backing : LoopBacking devs device data d n) (b : Word) :
    loopReadBlock drv devs device b = fsRead drv ⟨d, n⟩ (b * 256).toNat 256 := by
  unfold loopReadBlock
  rw [backing.file]
  rfl

theorem LoopBacking.write (backing : LoopBacking devs device data d n) (b : Word) (buffer : Nat → Word) :
    loopWriteBlock drv devs device b buffer = fsWrite drv ⟨d, n⟩ (b * 256).toNat 256 buffer := by
  unfold loopWriteBlock
  rw [backing.file]
  rfl

/-- **The offset that the driver computes.** -/
theorem loopOffset (b : Word) : (b * 256).toNat = 256 * (b.toNat % 256) := by
  rw [BitVec.toNat_mul, show (256 : Word).toNat = 256 from rfl]
  omega

/-- The words at the computed offset are words of the file. -/
theorem LongEnough.inside (long : LongEnough data d n b) : (b * 256).toNat + 256 ≤ fileSize data d n := by
  unfold LongEnough at long
  rw [loopOffset]
  have := Nat.mod_le b.toNat 256
  omega

/-- Only behind the last block of the file there may be no slot. -/
theorem LoopBacking.next (backing : LoopBacking devs device data d n)
    (longer : 256 * b.toNat + 256 < fileSize data d n) : NextSlot data d n b := by
  unfold NextSlot
  rw [missing_zero (backing.noHoles.filled (by omega))]
  exact Nat.zero_le _

/-- A write of a block asks for its own slot and the next one. -/
theorem touched_block (k : Nat) : touched (256 * k) 256 = passed k ∪ passed (k + 1) := by
  unfold touched
  rw [show 256 * k / 256 = k by omega, show (256 * k + 256) / 256 = k + 1 by omega]
  ext p
  simp only [Finset.mem_biUnion, Finset.mem_Icc, Finset.mem_union]
  constructor
  · rintro ⟨j, ⟨low, high⟩, mem⟩
    obtain rfl | rfl : j = k ∨ j = k + 1 := by omega
    · exact Or.inl mem
    · exact Or.inr mem
  · rintro (mem | mem)
    · exact ⟨k, ⟨le_rfl, Nat.le_succ k⟩, mem⟩
    · exact ⟨k + 1, ⟨Nat.le_succ k, le_rfl⟩, mem⟩

/-- What the write of a block asks for is there or can be got. -/
theorem LoopBacking.enough (backing : LoopBacking devs device data d n) (long : LongEnough data d n b)
    (next : NextSlot data d n b) :
    missing (viewOf data) d n (touched (b * 256).toNat 256) ≤ freeBlocks (viewOf data) d := by
  have inside := long.inside
  unfold LongEnough at long
  rw [loopOffset] at inside ⊢
  rw [touched_block]
  have own := backing.noHoles.filled (k := b.toNat % 256) (by omega)
  by_cases low : b.toNat < 256
  · rw [Nat.mod_eq_of_lt low] at own ⊢
    refine le_trans (Finset.card_le_card fun p mem => ?_) next
    obtain ⟨mem, empty⟩ := Finset.mem_filter.mp mem
    refine Finset.mem_filter.mpr ⟨?_, empty⟩
    rcases Finset.mem_union.mp mem with mine | later
    · exact absurd empty (own p mine)
    · exact later
  · have later := backing.noHoles.filled (k := b.toNat % 256 + 1) (by omega)
    rw [missing_zero fun p mem => (Finset.mem_union.mp mem).elim (own p) (later p)]
    exact Nat.zero_le _

/-- **`loop_write_block`**: the words at the computed offset, and no others. -/
theorem loopWrite_run (coherent : Coherent drv s data) (backing : LoopBacking devs device data d n)
    (long : LongEnough data d n b) (next : NextSlot data d n b) (buffer : Nat → Word) :
    ∃ t after, loopWriteBlock drv devs device b buffer s = .ok (256, t) ∧ Coherent drv t after ∧
      LoopBacking devs device after d n ∧ fileSize after d n = fileSize data d n ∧
      ∀ p, contents after d n p = if (b * 256).toNat ≤ p ∧ p < (b * 256).toNat + 256
        then some (buffer (p - (b * 256).toNat)) else contents data d n p := by
  have inside := long.inside
  have bounded := backing.wellFormed.bounded
  have start : (b * 256).toNat ≤ fileSize data d n := by omega
  have fits : (b * 256).toNat + 256 < maxFileSize := by omega
  obtain ⟨t, after, run, coherent', -, effect⟩ := fsWrite_effect buffer coherent backing.wellFormed start fits
    (backing.enough long next)
  have size : fileSize after d n = fileSize data d n := effect.newSize.trans (max_eq_left inside)
  refine ⟨t, after, ?_, coherent', ⟨backing.attached, effect.wellFormed, effect.noHoles backing.noHoles⟩, size,
    fun p => ?_⟩
  · rw [backing.write]
    exact run
  · split
    case isTrue mine => exact effect.inside p mine.1 mine.2
    case isFalse out =>
      by_cases low : p < fileSize data d n
      · have here : contents data d n p = some (wordAt data d n p) :=
          contents_some.mpr ⟨⟨low, backing.noHoles p low⟩, rfl⟩
        rw [here]
        exact effect.outside p _ (by omega) here
      · unfold contents
        rw [if_neg fun here => low (size ▸ here.1), if_neg fun here => low here.1]

/-- **`loop_read_block`**: the words at the computed offset. -/
theorem loopRead_run (coherent : Coherent drv s data) (backing : LoopBacking devs device data d n)
    (long : LongEnough data d n b) : ∃ words t, loopReadBlock drv devs device b s = .ok (words, t) ∧
      words.map some = (List.range 256).map fun i => contents data d n ((b * 256).toNat + i) := by
  have inside := long.inside
  have whole : min 256 (fileSize data d n - (b * 256).toNat) = 256 := by omega
  have there : missing (viewOf data) d n (spanned (b * 256).toNat 256) = 0 := backing.noHoles.spanned inside
  have enough : missing (viewOf data) d n (spanned (b * 256).toNat (min 256 (fileSize data d n - (b * 256).toNat))) ≤
      freeBlocks (viewOf data) d := by
    rw [whole, there]
    exact Nat.zero_le _
  obtain ⟨words, t, run, length, values⟩ := fsRead_contents coherent backing.wellFormed (by decide) enough
  rw [whole] at length
  refine ⟨words, t, ?_, ?_⟩
  · rw [backing.read]
    exact run
  · refine List.ext_getElem (by simp [length]) fun j low _ => ?_
    rw [List.length_map] at low
    have here : contents data d n ((b * 256).toNat + j) = some (wordAt data d n ((b * 256).toNat + j)) :=
      contents_some.mpr ⟨⟨by omega, backing.noHoles _ (by omega)⟩, rfl⟩
    have value := values j _ low here
    rw [List.getElem_map, List.getElem_map, List.getElem_range, here, ← value, List.getElem?_eq_getElem low]

/-! ### Two blocks -/

variable (drv) in
/-- **What the driver is to do** with the blocks `b` and `c`: write and read the words from `256 * b` on. -/
structure LoopRight (s : BlkState δ) (data : BlockKey → BlockData) (devs : LoopDevs) (device d n b c : Word) :
    Prop where
  writes : ∀ buffer, ∃ t after, loopWriteBlock drv devs device b buffer s = .ok (256, t) ∧ Coherent drv t after ∧
    ∀ p, contents after d n p = if 256 * b.toNat ≤ p ∧ p < 256 * b.toNat + 256
      then some (buffer (p - 256 * b.toNat)) else contents data d n p
  reads : ∃ words t, loopReadBlock drv devs device b s = .ok (words, t) ∧
    words.map some = (List.range 256).map fun i => contents data d n (256 * b.toNat + i)
  back : ∀ buffer t, loopWriteBlock drv devs device b buffer s = .ok (256, t) →
    ∃ u, loopReadBlock drv devs device b t = .ok ((List.range 256).map buffer, u)
  apart : c ≠ b → ∀ buffer t words u, loopWriteBlock drv devs device b buffer s = .ok (256, t) →
    loopReadBlock drv devs device c s = .ok (words, u) → ∃ v, loopReadBlock drv devs device c t = .ok (words, v)

/-- A cache shows one disk. -/
theorem Coherent.disk_eq (coherent : Coherent drv s data) : data = diskOf drv s := by
  funext key
  exact (coherent.cache.diskOf_eq (Set.notMem_empty key)).symm

/-- A buffer whose first word is not `w`. -/
theorem exists_other (w : Option Word) : ∃ buffer : Nat → Word, some (buffer 0) ≠ w := by
  by_cases zero : w = some 0
  · refine ⟨fun _ => 1, fun same => ?_⟩
    rw [zero] at same
    exact absurd (Option.some.inj same) (by decide)
  · exact ⟨fun _ => 0, fun same => zero same.symm⟩

/-- A block that is written where it is to be is below `256`. -/
theorem LoopRight.low (right : LoopRight drv s data devs device d n b c) (coherent : Coherent drv s data)
    (backing : LoopBacking devs device data d n) (long : LongEnough data d n b) (next : NextSlot data d n b) :
    b.toNat < 256 := by
  by_contra high
  obtain ⟨buffer, other⟩ := exists_other (contents data d n (b * 256).toNat)
  obtain ⟨t, after, run, coherent', -, -, changed⟩ := loopWrite_run coherent backing long next buffer
  obtain ⟨t', after', run', coherent'', claimed⟩ := right.writes buffer
  obtain ⟨-, rfl⟩ := Prod.mk.inj (Except.ok.inj (run.symm.trans run'))
  rw [coherent''.disk_eq, ← coherent'.disk_eq] at claimed
  have offset := loopOffset b
  have here := (changed (b * 256).toNat).symm.trans (claimed (b * 256).toNat)
  rw [if_pos ⟨le_rfl, by omega⟩, if_neg (by omega), Nat.sub_self] at here
  exact other here

/-- The length of the file after a write. -/
theorem LongEnough.congr (long : LongEnough data d n c) (size : fileSize after d n = fileSize data d n) :
    LongEnough after d n c := by
  unfold LongEnough at *
  rwa [size]

/-- A block whose words are left alone is at another offset. -/
theorem LoopRight.differ (right : LoopRight drv s data devs device d n b c) (coherent : Coherent drv s data)
    (backing : LoopBacking devs device data d n) (long : LongEnough data d n b) (long' : LongEnough data d n c)
    (next : NextSlot data d n b) (ne : c ≠ b) : (c * 256).toNat ≠ (b * 256).toNat := by
  intro offset
  obtain ⟨buffer, other⟩ := exists_other (contents data d n (b * 256).toNat)
  obtain ⟨t, after, run, coherent', backing', size, changed⟩ := loopWrite_run coherent backing long next buffer
  obtain ⟨words, u, read, before⟩ := loopRead_run coherent backing long'
  obtain ⟨v, read'⟩ := right.apart ne buffer t words u run read
  obtain ⟨words', v', read'', now⟩ := loopRead_run coherent' backing' (long'.congr size)
  obtain ⟨rfl, -⟩ := Prod.mk.inj (Except.ok.inj (read''.symm.trans read'))
  have first := congrArg (fun l => l[0]?) (now.symm.trans before)
  simp only [List.getElem?_map, List.getElem?_range (show 0 < 256 by decide), Option.map_some, Nat.add_zero, offset]
    at first
  rw [changed, if_pos ⟨le_rfl, by omega⟩, Nat.sub_self] at first
  exact other (Option.some.inj first)

end RlCpu.Kernel
