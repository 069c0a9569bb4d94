/-
**The simulator's disks (`HDD` of `sim.hpp`).**

A disk has a command port and a data port. A command puts it into a command phase, in which the data port takes the two
words of the sector; then it reads or writes the sector, a word at each access of the data port, the low byte first.

`putSector` and `sector` say what is stored: the bytes with one sector changed, and the words of a sector.
-/

import RlCpu.Sim.Demux

namespace RlCpu.Sim

open RlCpu.Kernel

/-- `unsigned char` -/
abbrev Byte := BitVec 8

/-! ### The device -/

/-- `HDD`; the states are `STATE_READING` and `STATE_WRITING`, and their negatives while the sector is awaited. -/
structure Hdd where
  data : List Byte
  cSector : BitVec 32
  cState : Int
  cPos : Nat

/-- `STATE_READING` -/
abbrev stateReading : Int := 1
/-- `STATE_WRITING` -/
abbrev stateWriting : Int := 2
/-- `CMD_READ` -/
abbrev cmdRead : Word := 1
/-- `CMD_WRITE` -/
abbrev cmdWrite : Word := 2
/-- `CMD_RESET` -/
abbrev cmdReset : Word := 3

namespace Hdd

/-- A word at the command port. -/
def command (h : Hdd) (val : Word) : Hdd :=
  if val = cmdRead then { h with cState := -stateReading, cPos := 0 }
  else if val = cmdWrite then { h with cState := -stateWriting, cPos := 0 }
  else if val = cmdReset then { h with cState := 0, cSector := 0, cPos := 0 }
  else h

/-- `HDD::write`; `none` where the source stores outside of its image. -/
def write (h : Hdd) (addr : Nat) (val : Word) : Option Hdd :=
  if addr = 0 then some (h.command val)
  else if addr = 1 then
    if h.cState < 0 then
      some (if h.cPos = 0 then { h with cSector := val.setWidth 32 <<< 16, cPos := h.cPos + 1 }
        else if h.cPos = 1 then
          { h with cSector := h.cSector ||| val.setWidth 32, cPos := 0, cState := -h.cState }
        else h)
    else if h.cState = stateWriting then
      if h.cPos < 512 then
        let dest := h.cSector.toInt * 512 + h.cPos
        if 0 ≤ dest ∧ dest + 1 < h.data.length then
          some { h with
            data := (h.data.set dest.toNat (val.setWidth 8)).set (dest.toNat + 1) ((val >>> 8).setWidth 8)
            cPos := h.cPos + 2 }
        else none
      else some { h with cState := 0 }
    else some h
  else some h

/-- The word of two bytes, the low one first. -/
def wordAt (data : List Byte) (dest : Nat) : Word :=
  (data.getD dest 0).setWidth 16 ||| ((data.getD (dest + 1) 0).setWidth 16 <<< 8)

/-- `HDD::read`; `none` where the source loads from before its image. -/
def read (h : Hdd) (addr : Nat) : Option (Word × Hdd) :=
  if addr = 1 ∧ h.cState = stateReading ∧ h.cPos < 512 then
    let dest := h.cSector.toInt * 512 + h.cPos
    if dest + 1 ≥ h.data.length then some (0, h)
    else if 0 ≤ dest then
      some (wordAt h.data dest.toNat,
        { h with cPos := h.cPos + 2, cState := if h.cPos + 2 = 512 then 0 else h.cState })
    else none
  else some (0, h)

/-! ### Sectors -/

/-- The words of a sector. -/
def sector (data : List Byte) (n : Nat) : BlockData := fun j => wordAt data (512 * n + 2 * j)

/-- The byte `i` of a block, its words low byte first. -/
def byteOf (b : BlockData) (i : Nat) : Byte :=
  if i % 2 = 0 then (b.word (i / 2)).setWidth 8 else (b.word (i / 2) >>> 8).setWidth 8

/-- The bytes with a sector changed. -/
def putSector (data : List Byte) (n : Nat) (b : BlockData) : List Byte :=
  data.mapIdx fun i x => if i / 512 = n then byteOf b (i % 512) else x

variable {data : List Byte} {n n' : Nat} {b : BlockData}

@[simp] theorem length_putSector (data : List Byte) (n : Nat) (b : BlockData) :
    (putSector data n b).length = data.length := by
  simp [putSector]

theorem getD_putSector (i : Nat) (inside : i < data.length) :
    (putSector data n b).getD i 0 = if i / 512 = n then byteOf b (i % 512) else data.getD i 0 := by
  simp [putSector, List.getD_eq_getElem?_getD, inside]

/-- Two bytes of a word make the word. -/
theorem append_bytes (w : Word) :
    ((w.setWidth 8).setWidth 16 ||| (((w >>> 8).setWidth 8).setWidth 16 <<< 8)) = w := by
  ext i small
  by_cases low : i < 8
  · simp [low, small]
  · have high : i - 8 < 8 := by omega
    have back : 8 + (i - 8) = i := by omega
    simp [low, small, high, back]

/-- **A sector is what was last written to it.** -/
theorem sector_putSector_self (inside : 512 * (n + 1) ≤ data.length) : sector (putSector data n b) n = b := by
  funext j
  have small := j.isLt
  have even : (512 * n + 2 * j.val) % 512 = 2 * j.val := by omega
  have odd : (512 * n + 2 * j.val + 1) % 512 = 2 * j.val + 1 := by omega
  have here : (512 * n + 2 * j.val) / 512 = n := by omega
  have next : (512 * n + 2 * j.val + 1) / 512 = n := by omega
  have half : (2 * j.val + 1) / 2 = j.val := by omega
  unfold sector wordAt
  rw [getD_putSector _ (by omega), getD_putSector _ (by omega), if_pos here, if_pos next, even, odd]
  unfold byteOf
  rw [if_pos (by omega), if_neg (by omega), half, Nat.mul_div_cancel_left _ (by decide), append_bytes]
  simp [BlockData.word]

/-- The other sectors are as they were. -/
theorem sector_putSector_ne (inside : 512 * (n' + 1) ≤ data.length) (ne : n' ≠ n) :
    sector (putSector data n b) n' = sector data n' := by
  funext j
  have small := j.isLt
  have here : (512 * n' + 2 * j.val) / 512 = n' := by omega
  have next : (512 * n' + 2 * j.val + 1) / 512 = n' := by omega
  unfold sector wordAt
  rw [getD_putSector _ (by omega), getD_putSector _ (by omega), if_neg (by rwa [here]), if_neg (by rwa [next])]

end Hdd

/-! ### The disks on the bus -/

/-- `getIoRange` -/
def getIoRange (a : Nat) : Nat := (a &&& 0x40e0) >>> 5

/-- `IO_ADDR_ATA_RANGE` -/
abbrev ioAddrAtaRange : Nat := 3
/-- `IO_ADDR_ATA_2_RANGE` -/
abbrev ioAddrAta2Range : Nat := 6

/-- The disk that an address selects. -/
def selectedDisk (a : Nat) : Option (Fin 2) :=
  if getIoRange a = ioAddrAtaRange then some 0
  else if getIoRange a = ioAddrAta2Range then some 1
  else none

/-- No device. -/
def noDevices : Devices Unit := ⟨fun _ _ => none, fun _ _ _ => none⟩

/-- Two disks, in front of the other devices. -/
def diskDevices {ρ : Type} (rest : Devices ρ) : Devices ((Fin 2 → Hdd) × ρ) where
  read a s := match selectedDisk a with
    | some d => ((s.1 d).read (a &&& 0x1f)).map fun (val, h) => (val, (Function.update s.1 d h, s.2))
    | none => (rest.read a s.2).map fun (val, r) => (val, (s.1, r))
  write a val s := match selectedDisk a with
    | some d => ((s.1 d).write (a &&& 0x1f) val).map fun h => (Function.update s.1 d h, s.2)
    | none => (rest.write a val s.2).map fun r => (s.1, r)

end RlCpu.Sim
