/-
**The block cache (`blk.c`).**

Sixteen slots in front of the block drivers. A slot is free, used (its data are the device's) or
modified (its data are to be written back); `cnt` counts the `bread` calls that still hold it.

* `blockSync`: write back and free every slot nobody holds, in slot order.
* `bread`: return the resident slot, else fill the first free one, else `blockSync` and try again.
* `bfree`: give one hold back.

The retry loop of `bread` has a fuel argument: `breadLoop_stable` shows that the second pass is the
last one that can change anything, so `bread` is `none` exactly where the source loops for ever.
-/

import RlCpu.Kernel.Word
import Mathlib.Data.List.FinRange
import Mathlib.Tactic.Common

namespace RlCpu.Kernel

/-- `BLOCK_FREE`, `BLOCK_USED`, `BLOCK_MODIFIED`. -/
inductive BlockFlags
  | free
  | used
  | modified
  deriving DecidableEq, Repr

/-- `BLOCK_CACHE_SIZE` -/
abbrev blockCacheSize : Nat := 16

/-- `struct Block` -/
structure Block where
  flags : BlockFlags
  device : Word
  n : Word
  cnt : Word
  data : BlockData

/-- The block a slot holds. -/
abbrev Block.key (b : Block) : BlockKey := (b.device, b.n)

/-- A block driver (`struct iblkdriver`) that stores and returns whole blocks faithfully. `δ` is the
state of the devices behind it. -/
structure BlkDriver (δ : Type) where
  read : BlockKey → δ → BlockData × δ
  write : BlockKey → BlockData → δ → δ
  read_write_self : ∀ key data dev, (read key (write key data dev)).1 = data
  read_write_other : ∀ key other data dev, other ≠ key →
    (read other (write key data dev)).1 = (read other dev).1
  read_read : ∀ key other dev, (read other (read key dev).2).1 = (read other dev).1

/-- The cache `blockCache` and the devices under it. -/
structure BlkState (δ : Type) where
  blockCache : Fin blockCacheSize → Block
  device : δ

variable {δ : Type} (drv : BlkDriver δ)

namespace BlkState

/-- Overwrite one slot. -/
def setSlot (s : BlkState δ) (i : Fin blockCacheSize) (b : Block) : BlkState δ :=
  { s with blockCache := Function.update s.blockCache i b }

@[simp] theorem setSlot_device (s : BlkState δ) (i : Fin blockCacheSize) (b : Block) :
    (s.setSlot i b).device = s.device := rfl

@[simp] theorem setSlot_self (s : BlkState δ) (i : Fin blockCacheSize) (b : Block) :
    (s.setSlot i b).blockCache i = b := Function.update_self _ _ _

theorem setSlot_ne (s : BlkState δ) {i j : Fin blockCacheSize} (b : Block) (ne : j ≠ i) :
    (s.setSlot i b).blockCache j = s.blockCache j := Function.update_of_ne ne _ _

/-- The first slot a `for` loop over the cache stops at. -/
def findSlot (s : BlkState δ) (p : Block → Bool) : Option (Fin blockCacheSize) :=
  (List.finRange blockCacheSize).find? fun i => p (s.blockCache i)

theorem findSlot_some {s : BlkState δ} {p : Block → Bool} {i : Fin blockCacheSize}
    (found : s.findSlot p = some i) : p (s.blockCache i) = true := by
  exact List.find?_some (p := fun i => p (s.blockCache i)) found

theorem findSlot_none {s : BlkState δ} {p : Block → Bool} (absent : s.findSlot p = none)
    (i : Fin blockCacheSize) : p (s.blockCache i) = false := by
  have all := List.find?_eq_none.mp absent i (List.mem_finRange i)
  simpa using all

theorem findSlot_isSome {s : BlkState δ} {p : Block → Bool} {i : Fin blockCacheSize}
    (holds : p (s.blockCache i) = true) : ∃ j, s.findSlot p = some j := by
  cases found : s.findSlot p with
  | some j => exact ⟨j, rfl⟩
  | none => rw [findSlot_none found i] at holds; cases holds

end BlkState

open BlkState

/-- Does a slot hold this block? -/
def Block.holds (key : BlockKey) (b : Block) : Bool :=
  decide (b.flags ≠ .free) && decide (b.key = key)

@[simp] theorem Block.holds_iff {key : BlockKey} {b : Block} :
    b.holds key = true ↔ b.flags ≠ .free ∧ b.key = key := by
  simp [Block.holds]

/-- Is a slot free? -/
def Block.isFree (b : Block) : Bool := decide (b.flags = .free)

@[simp] theorem Block.isFree_iff {b : Block} : b.isFree = true ↔ b.flags = .free := by
  simp [Block.isFree]

/-- `block_init` -/
def blockInit (s : BlkState δ) : BlkState δ :=
  { s with blockCache := fun i => { s.blockCache i with flags := .free } }

/-- One iteration of the loop of `block_sync`. -/
def blockSyncSlot (s : BlkState δ) (i : Fin blockCacheSize) : BlkState δ :=
  let b := s.blockCache i
  if b.cnt = 0#16 then
    let written :=
      if b.flags = .modified then { s with device := drv.write b.key b.data s.device } else s
    written.setSlot i { b with flags := .free }
  else s

/-- `block_sync` -/
def blockSync (s : BlkState δ) : BlkState δ :=
  (List.finRange blockCacheSize).foldl (blockSyncSlot drv) s

/-- One pass of the `while (1)` loop of `bread`: the two scans. -/
def breadScan (key : BlockKey) (s : BlkState δ) : Option (Fin blockCacheSize × BlkState δ) :=
  match s.findSlot (Block.holds key) with
  | some i =>
      let b := s.blockCache i
      some (i, s.setSlot i { b with cnt := b.cnt + 1 })
  | none =>
      match s.findSlot Block.isFree with
      | some i =>
          let fetched := drv.read key s.device
          some (i, { s with device := fetched.2 }.setSlot i
            { flags := .used, device := key.1, n := key.2, cnt := 1, data := fetched.1 })
      | none => none

/-- The loop of `bread`, cut after `fuel` passes. -/
def breadLoop (key : BlockKey) : Nat → BlkState δ → Option (Fin blockCacheSize × BlkState δ)
  | 0, _ => none
  | fuel + 1, s =>
      match breadScan drv key s with
      | some found => some found
      | none => breadLoop key fuel (blockSync drv s)

/-- `bread` -/
def bread (key : BlockKey) (s : BlkState δ) : Option (Fin blockCacheSize × BlkState δ) :=
  breadLoop drv key 2 s

/-- `bfree` -/
def bfree (i : Fin blockCacheSize) (s : BlkState δ) : BlkState δ :=
  let b := s.blockCache i
  s.setSlot i { b with cnt := b.cnt - 1 }

@[simp] theorem bfree_self (i : Fin blockCacheSize) (s : BlkState δ) :
    (bfree i s).blockCache i = { s.blockCache i with cnt := (s.blockCache i).cnt - 1 } :=
  BlkState.setSlot_self _ _ _

theorem bfree_ne {i j : Fin blockCacheSize} (s : BlkState δ) (ne : j ≠ i) :
    (bfree i s).blockCache j = s.blockCache j := BlkState.setSlot_ne _ _ ne

@[simp] theorem bfree_device (i : Fin blockCacheSize) (s : BlkState δ) :
    (bfree i s).device = s.device := rfl

end RlCpu.Kernel
