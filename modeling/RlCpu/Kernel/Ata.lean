/-
**The ATA driver on the simulator's disks (`ata.c`).**

The driver gives a command at the control port of a device, the two words of the sector at its data port, and then moves
256 words. `outb` and `inb` are the accesses of the processor to I/O; `k.disk d` is the disk `d` of the processor `k`.

* `store`, `load`: what the loops over the words do to the bytes of an image;
* `AtaCall.exec_run`: a call takes the image through `AtaCall.effect`, and leaves the disk `Idle`;
* `AtaCall.latest`: the words of a sector after a history of calls;
* `ata_agrees`: a call after any history.
-/

import RlCpu.Sim.Hdd
import RlCpu.Sim.Access
import Mathlib.Data.List.GetD
import Mathlib.Tactic.FinCases

namespace RlCpu.Kernel

open RlCpu.Sim RlCpu.Sim.Hdd RlCpu.Lib RlCpu.Lib.Abort

/-! ### The driver -/

section Driver

variable {ι : Type} (dev : Devices ι)

/-- `outb` -/
def outb (port value : Word) : Abort Sim.Fault (Cpu (Demux ι)) Unit := memWrite (demuxOps dev) port.toNat value .io

/-- `inb` -/
def inb (port : Word) : Abort Sim.Fault (Cpu (Demux ι)) Word := memRead (demuxOps dev) port.toNat .io

/-- `ata_ctl_ports`; callers keep the device below 2. -/
def ataCtlPorts (device : Word) : Word := [0x60, 0xC0].getD device.toNat 0

/-- `ata_data_ports`; callers keep the device below 2. -/
def ataDataPorts (device : Word) : Word := [0x61, 0xC1].getD device.toNat 0

/-- `ataInit` -/
def ataInit (device : Word) : Abort Sim.Fault (Cpu (Demux ι)) Unit := outb dev (ataCtlPorts device) cmdReset

/-- `ataReadDataBuffer`: the words that it stores. -/
def ataReadDataBuffer (device : Word) : (numBytes : Nat) → Abort Sim.Fault (Cpu (Demux ι)) (List Word)
  | 0 => pure []
  | numBytes + 1 => do
      let val ← inb dev (ataDataPorts device)
      let vals ← ataReadDataBuffer device numBytes
      pure (val :: vals)

/-- `ataWriteDataBuffer`, for the words of the buffer. -/
def ataWriteDataBuffer (device : Word) : (buffer : List Word) → Abort Sim.Fault (Cpu (Demux ι)) Unit
  | [] => pure ()
  | val :: vals => do
      outb dev (ataDataPorts device) val
      ataWriteDataBuffer device vals

/-- `ataReadSectorsLBA`: the contents of the buffer. -/
def ataReadSectorsLBA (deviceFull sector : Word) : Abort Sim.Fault (Cpu (Demux ι)) BlockData := do
  let device := devMinor deviceFull
  outb dev (ataCtlPorts device) cmdRead
  outb dev (ataDataPorts device) 0
  outb dev (ataDataPorts device) (sector &&& 0xffff)
  let vals ← ataReadDataBuffer dev device 256
  pure fun i => vals.getD i 0

/-- `ataWriteSectorsLBA` -/
def ataWriteSectorsLBA (deviceFull sector : Word) (buffer : BlockData) : Abort Sim.Fault (Cpu (Demux ι)) Unit := do
  let device := devMinor deviceFull
  outb dev (ataCtlPorts device) cmdWrite
  outb dev (ataDataPorts device) 0
  outb dev (ataDataPorts device) (sector &&& 0xffff)
  ataWriteDataBuffer dev device (List.ofFn buffer)

end Driver

/-! ### What the loops do to an image -/

/-- The words `ws` stored from the byte `p` on. -/
def store : List Byte → (p : Nat) → List Word → List Byte
  | data, _, [] => data
  | data, p, w :: ws => store ((data.set p (w.setWidth 8)).set (p + 1) ((w >>> 8).setWidth 8)) (p + 2) ws

/-- The words of the bytes from `p` on. -/
def load (data : List Byte) : (p m : Nat) → List Word
  | _, 0 => []
  | p, m + 1 => Hdd.wordAt data p :: load data (p + 2) m

@[simp] theorem length_store (data : List Byte) (p : Nat) (ws : List Word) : (store data p ws).length = data.length := by
  induction ws generalizing data p with
  | nil => rfl
  | cons w ws ih => simp [store, ih]

/-- The bytes after a store. By induction on the words. -/
theorem getElem?_store (data : List Byte) (p : Nat) (ws : List Word) (i : Nat) (inside : p + 2 * ws.length ≤ data.length) :
    (store data p ws)[i]? =
      if p ≤ i ∧ i < p + 2 * ws.length then
        some (if (i - p) % 2 = 0 then (ws.getD ((i - p) / 2) 0).setWidth 8 else (ws.getD ((i - p) / 2) 0 >>> 8).setWidth 8)
      else data[i]? := by
  induction ws generalizing data p with
  | nil => rw [if_neg (by rw [List.length_nil]; omega)]; rfl
  | cons w ws ih =>
    rw [List.length_cons] at inside ⊢
    rw [store, ih _ _ (by simp; omega)]
    by_cases later : p + 2 ≤ i
    · have half : (i - p) / 2 = (i - (p + 2)) / 2 + 1 := by omega
      have same : (i - p) % 2 = (i - (p + 2)) % 2 := by omega
      have away : p ≠ i := by omega
      have away' : p + 1 ≠ i := by omega
      rw [half, same, List.getD_cons_succ, List.getElem?_set_ne away', List.getElem?_set_ne away]
      congr 1
      simp only [eq_iff_iff]
      omega
    · rw [if_neg (fun range => later range.1)]
      by_cases low : i = p
      · subst low
        rw [if_pos (by omega), List.getElem?_set_ne (by omega), List.getElem?_set_self (by omega)]
        simp
      · by_cases high : i = p + 1
        · subst high
          have one : p + 1 - p = 1 := by omega
          rw [if_pos (by omega), List.getElem?_set_self (by simp; omega), one]
          simp
        · rw [if_neg (by omega), List.getElem?_set_ne (by omega), List.getElem?_set_ne (by omega)]

/-- The store of a block is a sector changed. -/
theorem store_ofFn {data : List Byte} {n : Nat} (b : BlockData) (inside : 512 * (n + 1) ≤ data.length) :
    store data (512 * n) (List.ofFn b) = putSector data n b := by
  have length : (List.ofFn b).length = 256 := List.length_ofFn
  refine List.ext_getElem? fun i => ?_
  rw [getElem?_store _ _ _ _ (by rw [length]; omega), length]
  unfold putSector
  rw [List.getElem?_mapIdx]
  by_cases here : i / 512 = n
  · have bound : i < data.length := by omega
    have rest : i % 512 = i - 512 * n := by omega
    have small : (i - 512 * n) / 2 < 256 := by omega
    have word : (List.ofFn b).getD ((i - 512 * n) / 2) 0 = b.word ((i - 512 * n) / 2) := by
      rw [List.getD_eq_getElem _ _ (by rwa [length]), BlockData.word, dif_pos small]
      exact List.getElem_ofFn _
    rw [if_pos (by omega), word, List.getElem?_eq_getElem bound, Option.map_some, if_pos here, rest]
    rfl
  · rw [if_neg (by omega)]
    cases data[i]? with
    | none => rfl
    | some x => rw [Option.map_some, if_neg here]

theorem getD_load (data : List Byte) (p m i : Nat) (small : i < m) :
    (load data p m).getD i 0 = Hdd.wordAt data (p + 2 * i) := by
  induction m generalizing p i with
  | zero => omega
  | succ m ih =>
    cases i with
    | zero => rfl
    | succ i =>
      rw [load, List.getD_cons_succ, ih _ _ (by omega)]
      congr 1
      omega

/-- The load of a block is a sector. -/
theorem load_sector (data : List Byte) (n : Nat) :
    (fun i : Fin 256 => (load data (512 * n) 256).getD i 0 : BlockData) = sector data n :=
  funext fun i => getD_load data _ _ _ i.isLt

/-! ### The disks of the processor -/

section Disks

variable {ρ : Type} {rest : Devices ρ} {k : Cpu (Demux ((Fin 2 → Hdd) × ρ))} {d : Fin 2}

/-- The disk `d`. -/
def disk (k : Cpu (Demux ((Fin 2 → Hdd) × ρ))) (d : Fin 2) : Hdd := k.demux.devs.1 d

/-- The disk `d` is `h`, all else as it is. -/
def setDisk (k : Cpu (Demux ((Fin 2 → Hdd) × ρ))) (d : Fin 2) (h : Hdd) : Cpu (Demux ((Fin 2 → Hdd) × ρ)) :=
  k.withDemux { k.demux with devs := (Function.update k.demux.devs.1 d h, k.demux.devs.2) }

@[simp] theorem disk_setDisk_self (h : Hdd) : disk (setDisk k d h) d = h := Function.update_self _ _ _

theorem disk_setDisk_ne {d' : Fin 2} (h : Hdd) (ne : d' ≠ d) : disk (setDisk k d h) d' = disk k d' :=
  Function.update_of_ne ne _ _

@[simp] theorem setDisk_setDisk (h h' : Hdd) : setDisk (setDisk k d h) d h' = setDisk k d h' := by
  simp [setDisk, Cpu.withDemux]

theorem setDisk_disk : setDisk k d (disk k d) = k := by
  simp [setDisk, disk, Cpu.withDemux]

/-- The device number of a disk. -/
def deviceOf (d : Fin 2) : Word := BitVec.ofNat 16 d.val

/-- An I/O address that selects the port `a` of the disk `d`. -/
structure Port (d : Fin 2) (port : Word) (a : Nat) : Prop where
  io : (effAddr .io port.toNat).testBit 20 = true
  table : (effAddr .io port.toNat &&& 0xffff).testBit 14 = false
  range : ((effAddr .io port.toNat &&& 0xffff) &&& 0x40e0) >>> 5 ≠ 1
  selects : selectedDisk (effAddr .io port.toNat &&& 0xffff) = some d
  address : (effAddr .io port.toNat &&& 0xffff) &&& 0x1f = a

theorem port_ctl (d : Fin 2) : Port d (ataCtlPorts (deviceOf d)) 0 := by
  fin_cases d <;> constructor <;> decide

theorem port_data (d : Fin 2) : Port d (ataDataPorts (deviceOf d)) 1 := by
  fin_cases d <;> constructor <;> decide

/-- **A word to a port is a word to the disk.** -/
theorem exec_outb {port val : Word} {a : Nat} {h : Hdd} (found : Port d port a) (takes : (disk k d).write a val = some h) :
    (outb (diskDevices rest) port val).exec k = (.ok (), setDisk k d h) := by
  refine exec_memWrite_io found.io ?_
  have written : (diskDevices rest).write (effAddr .io port.toNat &&& 0xffff) val k.demux.devs =
      some (Function.update k.demux.devs.1 d h, k.demux.devs.2) := by
    simp only [diskDevices, found.selects, found.address]
    exact congrArg (Option.map _) takes
  rw [Demux.ioWrite, if_neg (by rw [found.table]; decide), if_neg found.range, written]
  rfl

/-- **A word from a port is a word of the disk.** -/
theorem exec_inb {port val : Word} {a : Nat} {h : Hdd} (found : Port d port a) (gives : (disk k d).read a = some (val, h)) :
    (inb (diskDevices rest) port).exec k = (.ok val, setDisk k d h) := by
  refine exec_memRead_io found.io ?_
  have returned : (diskDevices rest).read (effAddr .io port.toNat &&& 0xffff) k.demux.devs =
      some (val, (Function.update k.demux.devs.1 d h, k.demux.devs.2)) := by
    simp only [diskDevices, found.selects, found.address]
    exact congrArg (Option.map _) gives
  rw [Demux.ioRead, if_neg (by rw [found.table]; decide), if_neg found.range, returned]
  rfl

/-! ### The phases of a call -/

/-- No command is going on: at rest, or after the last word of a sector was written. -/
def Idle (h : Hdd) : Prop := h.cState = 0 ∨ (h.cState = stateWriting ∧ h.cPos = 512)

theorem exec_ataInit (k : Cpu (Demux ((Fin 2 → Hdd) × ρ))) (d : Fin 2) :
    (ataInit (diskDevices rest) (deviceOf d)).exec k =
      (.ok (), setDisk k d { disk k d with cState := 0, cSector := 0, cPos := 0 }) :=
  exec_outb (port_ctl d) rfl

/-- The sector and the position of a disk in its data phase, `j` words into the sector `n` of its image. -/
structure InSector (h : Hdd) (n j : Nat) : Prop where
  number : h.cSector.toInt = n
  pos : h.cPos = 2 * j
  inside : 512 * (n + 1) ≤ h.data.length

theorem InSector.dest {h : Hdd} {n j : Nat} (place : InSector h n j) :
    h.cSector.toInt * 512 + h.cPos = ((512 * n + 2 * j : Nat) : Int) := by
  rw [place.number, place.pos]
  omega

/-- A word to the data port, in the writing phase. -/
theorem write_data {h : Hdd} {n j : Nat} (w : Word) (place : InSector h n j) (writing : h.cState = stateWriting)
    (room : j < 256) : ∃ h', h.write 1 w = some h' ∧ InSector h' n (j + 1) ∧ h'.cState = stateWriting ∧
      h'.data = store h.data (512 * n + 2 * j) [w] := by
  have inside := place.inside
  have taken : h.write 1 w = some { h with data := store h.data (512 * n + 2 * j) [w], cPos := h.cPos + 2 } := by
    rw [write, if_neg (by decide), if_pos rfl, if_neg (by rw [writing]; decide), if_pos writing,
      if_pos (by rw [place.pos]; omega)]
    simp only [place.dest]
    rw [if_pos (by omega), Int.toNat_natCast]
    rfl
  refine ⟨_, taken, ⟨place.number, congrArg (· + 2) place.pos, ?_⟩, writing, rfl⟩
  rwa [length_store]

/-- A word from the data port, in the reading phase. -/
theorem read_data {h : Hdd} {n j : Nat} (place : InSector h n j) (reading : h.cState = stateReading) (room : j < 256) :
    ∃ h', h.read 1 = some (Hdd.wordAt h.data (512 * n + 2 * j), h') ∧ InSector h' n (j + 1) ∧
      h'.cState = (if j + 1 = 256 then 0 else stateReading) ∧ h'.data = h.data := by
  have inside := place.inside
  have gives : h.read 1 = some (Hdd.wordAt h.data (512 * n + 2 * j),
      { h with cPos := h.cPos + 2, cState := if h.cPos + 2 = 512 then 0 else h.cState }) := by
    rw [Hdd.read, if_pos ⟨rfl, reading, by rw [place.pos]; omega⟩]
    simp only [place.dest]
    rw [if_neg (by omega), if_pos (by omega), Int.toNat_natCast]
  refine ⟨_, gives, ⟨place.number, congrArg (· + 2) place.pos, inside⟩, ?_, rfl⟩
  have last : h.cPos + 2 = 512 ↔ j + 1 = 256 := by rw [place.pos]; omega
  simp only [last, reading]

/-- The loop that writes. By induction on the words left. -/
theorem exec_ataWriteDataBuffer {n : Nat} (ws : List Word) (j : Nat) (place : InSector (disk k d) n j)
    (writing : (disk k d).cState = stateWriting) (room : j + ws.length ≤ 256) :
    ∃ h, (ataWriteDataBuffer (diskDevices rest) (deviceOf d) ws).exec k = (.ok (), setDisk k d h) ∧
      InSector h n (j + ws.length) ∧ h.cState = stateWriting ∧
      h.data = store (disk k d).data (512 * n + 2 * j) ws := by
  induction ws generalizing k j with
  | nil => exact ⟨disk k d, by rw [setDisk_disk]; rfl, place, writing, rfl⟩
  | cons w ws ih =>
    rw [List.length_cons] at room ⊢
    obtain ⟨h, taken, place', writing', stored⟩ := write_data w place writing (by omega)
    obtain ⟨last, run, done, writing'', all⟩ := @ih (setDisk k d h) (j + 1) (by rwa [disk_setDisk_self])
      (by rwa [disk_setDisk_self]) (by omega)
    refine ⟨last, ?_, by rwa [Nat.add_right_comm] at done, writing'', ?_⟩
    · rw [ataWriteDataBuffer, exec_bind_ok (exec_outb (port_data d) taken), run, setDisk_setDisk]
    · rw [all, disk_setDisk_self, stored]
      rfl

/-- The loop that reads. By induction on the words left. -/
theorem exec_ataReadDataBuffer {n : Nat} (m j : Nat) (place : InSector (disk k d) n j)
    (state : (disk k d).cState = if j = 256 then 0 else stateReading) (room : j + m = 256) :
    ∃ h, (ataReadDataBuffer (diskDevices rest) (deviceOf d) m).exec k =
        (.ok (load (disk k d).data (512 * n + 2 * j) m), setDisk k d h) ∧
      h.cState = 0 ∧ h.data = (disk k d).data := by
  induction m generalizing k j with
  | zero => exact ⟨disk k d, by rw [setDisk_disk]; rfl, by rw [state, if_pos (by omega)], rfl⟩
  | succ m ih =>
    obtain ⟨h, gives, place', state', same⟩ := read_data place (by rw [state, if_neg (by omega)]) (by omega)
    obtain ⟨last, run, done, all⟩ := @ih (setDisk k d h) (j + 1) (by rwa [disk_setDisk_self])
      (by rwa [disk_setDisk_self]) (by omega)
    rw [disk_setDisk_self, same] at run all
    refine ⟨last, ?_, done, all⟩
    rw [ataReadDataBuffer, exec_bind_ok (exec_inb (port_data d) gives), exec_bind_ok run, exec_pure, setDisk_setDisk]
    rfl

/-- The words of a command: the command itself and the two words of the sector. -/
theorem write_command (h : Hdd) {cmd : Word} {state : Int} (sector : Word)
    (accepts : h.command cmd = { h with cState := -state, cPos := 0 }) (positive : 0 < state)
    (inside : 512 * (sector.toNat + 1) ≤ h.data.length) :
    ∃ h₁ h₂ h₃, h.write 0 cmd = some h₁ ∧ h₁.write 1 0 = some h₂ ∧ h₂.write 1 (sector &&& 0xffff) = some h₃ ∧
      InSector h₃ sector.toNat 0 ∧ h₃.cState = state ∧ h₃.data = h.data := by
  have awaits : -state < 0 := by omega
  have second : Hdd.write { h with cState := -state, cPos := 0 } 1 0 =
      some { h with cState := -state, cPos := 1, cSector := 0 } := by
    rw [write, if_neg (by decide), if_pos rfl, if_pos awaits, if_pos rfl]
    rfl
  have all : sector &&& 0xffff = sector := BitVec.and_allOnes
  have third : Hdd.write { h with cState := -state, cPos := 1, cSector := 0 } 1 (sector &&& 0xffff) =
      some { h with cState := state, cPos := 0, cSector := sector.setWidth 32 } := by
    rw [write, if_neg (by decide), if_pos rfl, if_pos awaits, if_neg Nat.one_ne_zero, if_pos rfl, all]
    simp
  refine ⟨_, _, _, congrArg some accepts, second, third, ⟨?_, rfl, inside⟩, rfl, rfl⟩
  have small := sector.isLt
  rw [BitVec.toInt_eq_toNat_cond, BitVec.toNat_setWidth]
  split <;> omega

/-- **A read.** -/
theorem exec_ataReadSectorsLBA {deviceFull sector : Word} (minor : devMinor deviceFull = deviceOf d)
    (inside : 512 * (sector.toNat + 1) ≤ (disk k d).data.length) :
    ∃ h, (ataReadSectorsLBA (diskDevices rest) deviceFull sector).exec k =
        (.ok (Hdd.sector (disk k d).data sector.toNat), setDisk k d h) ∧ Idle h ∧ h.data = (disk k d).data := by
  obtain ⟨h₁, h₂, h₃, first, second, third, place, reading, same⟩ :=
    @write_command (disk k d) cmdRead stateReading sector rfl (by decide) inside
  obtain ⟨last, run, done, all⟩ := @exec_ataReadDataBuffer ρ rest (setDisk k d h₃) d sector.toNat 256 0
    (by rwa [disk_setDisk_self]) (by rwa [disk_setDisk_self]) rfl
  rw [disk_setDisk_self, same, Nat.mul_zero, Nat.add_zero] at run
  rw [disk_setDisk_self, same] at all
  rw [← @disk_setDisk_self _ k d h₁] at second
  rw [← @disk_setDisk_self _ (setDisk k d h₁) d h₂] at third
  refine ⟨last, ?_, Or.inl done, all⟩
  unfold ataReadSectorsLBA
  simp only [minor]
  rw [exec_bind_ok (exec_outb (port_ctl d) first), exec_bind_ok (exec_outb (port_data d) second),
    exec_bind_ok (exec_outb (port_data d) third), setDisk_setDisk, setDisk_setDisk, exec_bind_ok run, setDisk_setDisk,
    ← load_sector]
  rfl

/-- **A write.** -/
theorem exec_ataWriteSectorsLBA {deviceFull sector : Word} (buffer : BlockData) (minor : devMinor deviceFull = deviceOf d)
    (inside : 512 * (sector.toNat + 1) ≤ (disk k d).data.length) :
    ∃ h, (ataWriteSectorsLBA (diskDevices rest) deviceFull sector buffer).exec k = (.ok (), setDisk k d h) ∧ Idle h ∧
      h.data = putSector (disk k d).data sector.toNat buffer := by
  obtain ⟨h₁, h₂, h₃, first, second, third, place, writing, same⟩ :=
    @write_command (disk k d) cmdWrite stateWriting sector rfl (by decide) inside
  have length : (List.ofFn buffer).length = 256 := List.length_ofFn
  obtain ⟨last, run, done, writing', all⟩ := @exec_ataWriteDataBuffer ρ rest (setDisk k d h₃) d sector.toNat
    (List.ofFn buffer) 0 (by rwa [disk_setDisk_self]) (by rwa [disk_setDisk_self]) (by rw [length])
  rw [disk_setDisk_self, same, Nat.mul_zero, Nat.add_zero, store_ofFn _ inside] at all
  rw [← @disk_setDisk_self _ k d h₁] at second
  rw [← @disk_setDisk_self _ (setDisk k d h₁) d h₂] at third
  refine ⟨last, ?_, Or.inr ⟨writing', by rw [done.pos, length]⟩, all⟩
  unfold ataWriteSectorsLBA
  simp only [minor]
  rw [exec_bind_ok (exec_outb (port_ctl d) first), exec_bind_ok (exec_outb (port_data d) second),
    exec_bind_ok (exec_outb (port_data d) third), setDisk_setDisk, setDisk_setDisk, run, setDisk_setDisk]

end Disks

/-! ### Histories of calls -/

/-- A complete call of the driver. -/
inductive AtaCall
  | read (deviceFull sector : Word)
  | write (deviceFull sector : Word) (buffer : BlockData)

namespace AtaCall

/-- The device number. -/
def deviceFull : AtaCall → Word
  | read deviceFull _ => deviceFull
  | write deviceFull _ _ => deviceFull

/-- The sector number. -/
def sector : AtaCall → Word
  | read _ sector => sector
  | write _ sector _ => sector

/-- The disk of the call. -/
def on (c : AtaCall) : Fin 2 := if devMinor c.deviceFull = 0 then ⟨0, Nat.zero_lt_two⟩ else ⟨1, Nat.one_lt_two⟩

/-- One of the two devices, and a sector inside of its image. -/
def Inside (size : Fin 2 → Nat) (c : AtaCall) : Prop :=
  (devMinor c.deviceFull).toNat < 2 ∧ 512 * (c.sector.toNat + 1) ≤ size c.on

/-- The bytes of its disk after the call. -/
def effect (data : List Byte) : AtaCall → List Byte
  | read _ _ => data
  | write _ sector buffer => putSector data sector.toNat buffer

/-- What the call returns in the buffer. -/
def answer (data : List Byte) : AtaCall → Option BlockData
  | read _ sector => some (Hdd.sector data sector.toNat)
  | write _ _ _ => none

/-- The block that is in the sector `n` of the disk `d` after a call. -/
def content (d : Fin 2) (n : Nat) (before : BlockData) (c : AtaCall) : BlockData :=
  match c with
  | read _ _ => before
  | write _ sector buffer => if c.on = d ∧ sector.toNat = n then buffer else before

/-- **The last block written to a sector**, or the initial one. -/
def latest (initial : Fin 2 → List Byte) (done : List AtaCall) (d : Fin 2) (n : Nat) : BlockData :=
  done.foldl (content d n) (Hdd.sector (initial d) n)

section Run

variable {ρ : Type} (rest : Devices ρ)

/-- The call on the driver. -/
def run : AtaCall → Abort Sim.Fault (Cpu (Demux ((Fin 2 → Hdd) × ρ))) (Option BlockData)
  | read deviceFull sector => do
      let buffer ← ataReadSectorsLBA (diskDevices rest) deviceFull sector
      pure (some buffer)
  | write deviceFull sector buffer => do
      ataWriteSectorsLBA (diskDevices rest) deviceFull sector buffer
      pure none

/-- Calls one after the other. -/
def runAll : List AtaCall → Abort Sim.Fault (Cpu (Demux ((Fin 2 → Hdd) × ρ))) Unit
  | [] => pure ()
  | c :: cs => do
      let _ ← c.run rest
      runAll cs

/-- The calls of `ataInit` in `kernel_main`, and a history of calls. -/
def boot (done : List AtaCall) : Abort Sim.Fault (Cpu (Demux ((Fin 2 → Hdd) × ρ))) Unit := do
  ataInit (diskDevices rest) 0
  ataInit (diskDevices rest) 1
  runAll rest done

end Run

theorem minor_on {size : Fin 2 → Nat} {c : AtaCall} (inside : c.Inside size) : devMinor c.deviceFull = deviceOf c.on := by
  obtain ⟨small, -⟩ := inside
  apply BitVec.eq_of_toNat_eq
  unfold on
  split
  case isTrue zero => rw [zero]; rfl
  case isFalse other =>
    have positive : (devMinor c.deviceFull).toNat ≠ 0 := fun zero => other (BitVec.eq_of_toNat_eq zero)
    show _ = 1
    omega

variable {ρ : Type} {rest : Devices ρ} {k k₀ : Cpu (Demux ((Fin 2 → Hdd) × ρ))} {initial : Fin 2 → List Byte}
  {done : List AtaCall} {c : AtaCall}

/-- **One call**: it changes its own disk only, by `effect`, and leaves it at rest. -/
theorem exec_run (inside : c.Inside fun d => (disk k d).data.length) :
    ∃ h, (c.run rest).exec k = (.ok (c.answer (disk k c.on).data), setDisk k c.on h) ∧ Idle h ∧
      h.data = c.effect (disk k c.on).data := by
  have minor := minor_on inside
  cases c with
  | read deviceFull sector =>
    obtain ⟨h, run, idle, same⟩ := @exec_ataReadSectorsLBA _ rest _ _ _ _ minor inside.2
    refine ⟨h, ?_, idle, same⟩
    unfold AtaCall.run
    exact exec_bind_ok run
  | write deviceFull sector buffer =>
    obtain ⟨h, run, idle, stored⟩ := @exec_ataWriteSectorsLBA _ rest _ _ _ _ buffer minor inside.2
    refine ⟨h, ?_, idle, stored⟩
    unfold AtaCall.run
    exact exec_bind_ok run

/-- The processor after a history of calls. -/
structure After (k₀ : Cpu (Demux ((Fin 2 → Hdd) × ρ))) (done : List AtaCall) (k : Cpu (Demux ((Fin 2 → Hdd) × ρ))) :
    Prop where
  idle : ∀ d, Idle (disk k d)
  length : ∀ d, (disk k d).data.length = (disk k₀ d).data.length
  contents : ∀ d n, 512 * (n + 1) ≤ (disk k₀ d).data.length →
    Hdd.sector (disk k d).data n = latest (fun d => (disk k₀ d).data) done d n
  others : ∃ disks, k = k₀.withDemux { k₀.demux with devs := (disks, k₀.demux.devs.2) }

/-- The contents of a sector after a call. -/
theorem sector_effect {data : List Byte} {d : Fin 2} {n : Nat} (here : c.on = d) (inside : 512 * (n + 1) ≤ data.length) :
    Hdd.sector (c.effect data) n = content d n (Hdd.sector data n) c := by
  cases c with
  | read => rfl
  | write deviceFull sector buffer =>
    unfold effect content
    by_cases same : sector.toNat = n
    · subst same
      simp only [here, and_self, if_true, sector_putSector_self inside]
    · simp only [same, and_false, if_false]
      exact sector_putSector_ne inside (Ne.symm same)

/-- A call to another disk. -/
theorem content_ne {d : Fin 2} {n : Nat} (before : BlockData) (away : d ≠ c.on) : content d n before c = before := by
  cases c with
  | read => rfl
  | write => exact if_neg fun here => away here.1.symm

/-- **The step**: one more call. -/
theorem After.step (after : After k₀ done k) {h : Hdd} (idle : Idle h) (effect : h.data = c.effect (disk k c.on).data) :
    After k₀ (done ++ [c]) (setDisk k c.on h) := by
  refine ⟨fun d => ?_, fun d => ?_, fun d n inside => ?_, ?_⟩
  · by_cases here : d = c.on
    · rwa [here, disk_setDisk_self]
    · rw [disk_setDisk_ne _ here]
      exact after.idle d
  · by_cases here : d = c.on
    · rw [here, disk_setDisk_self, effect, ← after.length c.on]
      cases c <;> simp [AtaCall.effect]
    · rw [disk_setDisk_ne _ here, after.length]
  · rw [latest, List.foldl_append, List.foldl_cons, List.foldl_nil]
    have before := after.contents d n inside
    rw [latest] at before
    rw [← before]
    by_cases here : d = c.on
    · subst here
      rw [disk_setDisk_self, effect, sector_effect rfl (by rwa [after.length])]
    · rw [disk_setDisk_ne _ here, content_ne _ here]
  · obtain ⟨disks, rfl⟩ := after.others
    exact ⟨_, rfl⟩

/-- **The run**: a history of calls. By induction on the calls. -/
theorem After.runAll (after : After k₀ done k) (cs : List AtaCall)
    (inside : ∀ c ∈ cs, c.Inside fun d => (disk k₀ d).data.length) :
    ∃ k', (AtaCall.runAll rest cs).exec k = (.ok (), k') ∧ After k₀ (done ++ cs) k' := by
  induction cs generalizing k done with
  | nil => exact ⟨k, rfl, by rwa [List.append_nil]⟩
  | cons c cs ih =>
    have sizes : (fun d => (disk k d).data.length) = fun d => (disk k₀ d).data.length := funext after.length
    have here : c.Inside fun d => (disk k d).data.length := by
      rw [sizes]
      exact inside c List.mem_cons_self
    obtain ⟨h, run, idle, effect⟩ := @exec_run _ rest _ _ here
    obtain ⟨k', runs, after'⟩ := ih (after.step idle effect) fun c mem => inside c (List.mem_cons_of_mem _ mem)
    refine ⟨k', ?_, by rwa [List.append_assoc] at after'⟩
    rw [AtaCall.runAll, exec_bind_ok run]
    exact runs

/-- The start: after `ataInit` of both devices, whatever the disks were doing. -/
theorem exec_boot (k₀ : Cpu (Demux ((Fin 2 → Hdd) × ρ))) (done : List AtaCall)
    (inside : ∀ c ∈ done, c.Inside fun d => (disk k₀ d).data.length) :
    ∃ k, (boot rest done).exec k₀ = (.ok (), k) ∧ After k₀ done k := by
  have start : After k₀ [] (setDisk (setDisk k₀ 0 { disk k₀ 0 with cState := 0, cSector := 0, cPos := 0 }) 1
      { disk k₀ 1 with cState := 0, cSector := 0, cPos := 0 }) := by
    refine ⟨fun d => ?_, fun d => ?_, fun d n _ => ?_, _, rfl⟩
    all_goals fin_cases d
    · exact Or.inl rfl
    · exact Or.inl rfl
    all_goals rfl
  obtain ⟨k, runs, after⟩ := @After.runAll _ rest _ _ _ start done inside
  refine ⟨k, ?_, after⟩
  unfold boot
  exact (exec_bind_ok (exec_ataInit k₀ 0)).trans ((exec_bind_ok (exec_ataInit _ 1)).trans runs)

/-- **The driver and the disks agree.** After `ataInit` and any history of complete calls with sectors inside of the
images, one more call returns; it changes the bytes of its own sector only, the words low byte first; the other disk
and the rest of the machine are untouched; both disks are at rest; and a read returns the last block written to the
sector. -/
theorem ata_agrees (rest : Devices ρ) (k₀ : Cpu (Demux ((Fin 2 → Hdd) × ρ))) (done : List AtaCall) (c : AtaCall)
    (inside : ∀ c' ∈ done ++ [c], c'.Inside fun d => (disk k₀ d).data.length) :
    ∃ k k' answer, (boot rest done).exec k₀ = (.ok (), k) ∧ (c.run rest).exec k = (.ok answer, k') ∧
      (∀ d, Idle (disk k d)) ∧ (∀ d, Idle (disk k' d)) ∧
      (∀ d, d ≠ c.on → disk k' d = disk k d) ∧
      (disk k' c.on).data = (match c with
        | .read _ _ => (disk k c.on).data
        | .write _ n b => putSector (disk k c.on).data n.toNat b) ∧
      (∀ device n, c = .read device n → answer = some (latest (fun d => (disk k₀ d).data) done c.on n.toNat)) ∧
      ∃ disks, k' = k₀.withDemux { k₀.demux with devs := (disks, k₀.demux.devs.2) } := by
  obtain ⟨k, runs, after⟩ := @exec_boot _ rest k₀ done fun c' mem => inside c' (List.mem_append_left _ mem)
  have here := inside c (List.mem_append_right _ List.mem_cons_self)
  have sizes : (fun d => (disk k d).data.length) = fun d => (disk k₀ d).data.length := funext after.length
  have here' : c.Inside fun d => (disk k d).data.length := by rwa [sizes]
  obtain ⟨h, run, idle, effect⟩ := @exec_run _ rest _ _ here'
  have after' := after.step idle effect
  refine ⟨k, _, _, runs, run, after.idle, after'.idle, fun d away => disk_setDisk_ne h away, ?_, ?_, after'.others⟩
  · rw [disk_setDisk_self, effect]
    cases c <;> rfl
  · rintro device n rfl
    exact congrArg some (after.contents _ _ here.2)

/-- A machine with two disks of two sectors, the first one in the middle of a write, and no other device. -/
def ataMachine : Cpu (Demux ((Fin 2 → Hdd) × Unit)) where
  ra := 0
  rb := 0
  ap := 0
  bp := 0
  sp := 0
  pc := 8
  ir := 0
  s := 1
  d := 2
  commitEnabled := true
  intEnabled := false
  userMode := false
  mmuEnabled := false
  mmuEntrySelector := 0
  shadow := ⟨0, 0, 0, 0, 0, 0⟩
  demux :=
    { ram := fun _ => 0
      table := fun _ => 0
      intCtl := ⟨0, 0, fun _ => 0⟩
      mmuLastFailPage := 0
      devs := (fun d => ⟨List.replicate 1024 0, 0, if d.val = 0 then stateWriting else 0, 6⟩, ()) }

/-- A write to a sector of the second disk, and one read of it. -/
theorem ata_agrees_reread : ∃ k k',
    (boot noDevices [.write 1 1 (.ofFn fun _ => 0x1234)]).exec ataMachine = (.ok (), k) ∧
      ((AtaCall.read 1 1).run noDevices).exec k = (.ok (some (.ofFn fun _ => 0x1234)), k') ∧ disk k' 0 = disk k 0 := by
  have inside : ∀ c' ∈ [AtaCall.write 1 1 (.ofFn fun _ => 0x1234)] ++ [.read 1 1],
      c'.Inside fun d => (disk ataMachine d).data.length := by
    have size : ∀ d, (disk ataMachine d).data.length = 1024 := fun d => List.length_replicate
    intro c' mem
    simp only [List.cons_append, List.nil_append, List.mem_cons, List.not_mem_nil, or_false] at mem
    rcases mem with rfl | rfl <;> exact ⟨by decide, le_of_le_of_eq (by decide) (size _).symm⟩
  obtain ⟨k, k', answer, runs, run, -, -, other, -, read, -⟩ :=
    ata_agrees noDevices ataMachine [.write 1 1 (.ofFn fun _ => 0x1234)] (.read 1 1) inside
  refine ⟨k, k', runs, ?_, other 0 (by decide)⟩
  rw [run, read 1 1 rfl]
  rfl

end AtaCall

end RlCpu.Kernel
