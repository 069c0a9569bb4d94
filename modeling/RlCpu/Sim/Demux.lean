/-
**The simulator's memory (`Demux`, `MMUTable`, `RAM` and `InterruptController` of `sim.hpp`).**

An effective address has bit 20 set for I/O, and else bit 19 for code. With the MMU on, an address
goes through the table: the page of the address, the selector and the code bit choose an entry, which
holds a physical page and three bits of flags. A page that may not be accessed raises the MMU interrupt
and throws.

`DemuxOps μ` is what the processor uses of its memory `μ`, and `demuxOps` are the simulator's. The
devices other than the table and the interrupt controller are a parameter.
-/

import RlCpu.Kernel.Word
import RlCpu.Lib.Abort

namespace RlCpu.Sim

open RlCpu.Kernel RlCpu.Lib

/-- What ends an instruction early: `throw 0`, `throw 1`, and `exit` in the MMU. -/
inductive Fault
  | noDevice
  | page
  | exit
  deriving DecidableEq, Repr

/-! ### The interrupt controller -/

/-- `nIRQs` -/
abbrev nIRQs : Nat := 8
/-- `INT_MMU_LINE` -/
abbrev intMmuLine : Nat := 5
/-- `INT_DECODE_LINE` -/
abbrev intDecodeLine : Nat := 6

/-- `InterruptController` -/
structure InterruptController where
  currentInterrupt : Nat
  pendingInterrupts : Word
  intVectors : Nat → Word

namespace InterruptController

/-- `request` -/
def request (c : InterruptController) (irq : Nat) : InterruptController :=
  if irq < nIRQs then { c with pendingInterrupts := c.pendingInterrupts ||| (1 <<< irq) } else c

/-- `irqLineStatus` -/
def irqLineStatus (c : InterruptController) : Bool := c.pendingInterrupts != 0

/-- `getIrqVector`: the next pending line from the current one on, round and round. -/
def getIrqVector (c : InterruptController) : Word × InterruptController :=
  if c.pendingInterrupts = 0 then (0x1234, c)
  else
    match ((List.range nIRQs).map fun i => (c.currentInterrupt + i) % nIRQs).find?
        fun i => c.pendingInterrupts.getLsbD i with
    | some line => (c.intVectors line, { c with
        currentInterrupt := line
        pendingInterrupts := c.pendingInterrupts &&& ~~~((1 : Word) <<< line) })
    | none => (0x1234, c)

end InterruptController

/-! ### The memory -/

/-- What the processor uses of its memory. -/
structure DemuxOps (μ : Type) where
  memRead : (effAddr : Nat) → (mmuSelector : Word) → (mmuEnabled : Bool) → Abort Fault μ Word
  memWrite : (effAddr : Nat) → (val : Word) → (mmuSelector : Word) → (mmuEnabled : Bool) →
    Abort Fault μ Unit
  request : (irq : Nat) → μ → μ
  irqLineStatus : μ → Bool
  getIrqVector : μ → Word × μ
  mmuLastFailPage : μ → Word

/-- The devices on the I/O bus; `none` where there is no device for an address. -/
structure Devices (ι : Type) where
  read : (addr : Nat) → ι → Option (Word × ι)
  write : (addr : Nat) → (val : Word) → ι → Option ι

/-- The memory, the table of the MMU, the interrupt controller and the devices. -/
structure Demux (ι : Type) where
  ram : Nat → Word
  table : Nat → Word
  intCtl : InterruptController
  mmuLastFailPage : Word
  devs : ι

/-- The size of `MMUTable`. -/
abbrev tableSize : Nat := 32768
/-- `PAGE_FLAG_READ_ONLY` -/
abbrev pageFlagReadOnly : Nat := 1
/-- `PAGE_FLAG_NOT_PRESENT` -/
abbrev pageFlagNotPresent : Nat := 2

/-- `getRealPage`: the entry of the table for an address. -/
def getRealPage (a : Nat) (processSelector : Word) : Nat :=
  ((a &&& 0x7f000) >>> 12) ||| (processSelector.toNat <<< 8) ||| ((if a.testBit 19 then 1 else 0) <<< 12)

namespace Demux

variable {ι : Type} (dev : Devices ι) (m : Demux ι)

/-- `getRealAddress` -/
def getRealAddress (a : Nat) (processSelector : Word) : Nat :=
  (a &&& 0xfff) ||| (((m.table (getRealPage a processSelector)).toNat &&& 0x1fff) <<< 12)

/-- `getFlags` -/
def getFlags (a : Nat) (processSelector : Word) : Nat :=
  ((m.table (getRealPage a processSelector)).toNat &&& 0xe000) >>> 13

/-- `MMULastFailPage` is set and the MMU interrupt is requested. -/
def fail (a : Nat) (mmuSelector : Word) : Demux ι :=
  { m with
    mmuLastFailPage := BitVec.ofNat 16 (getRealPage a mmuSelector)
    intCtl := m.intCtl.request intMmuLine }

/-- The read of an I/O address. -/
def ioRead (a : Nat) : Option (Word × Demux ι) :=
  if a.testBit 14 then some (m.table (a &&& 0x3fff), m)
  else if (a &&& 0x40e0) >>> 5 = 1 then some (m.intCtl.intVectors (a &&& 0x1f), m)
  else (dev.read a m.devs).map fun (val, devs) => (val, { m with devs := devs })

/-- The write of an I/O address. -/
def ioWrite (a : Nat) (val : Word) : Option (Demux ι) :=
  if a.testBit 14 then some { m with table := Function.update m.table (a &&& 0x3fff) val }
  else if (a &&& 0x40e0) >>> 5 = 1 then
    some { m with intCtl := { m.intCtl with
      intVectors := Function.update m.intCtl.intVectors (a &&& 0x1f) val } }
  else (dev.write a val m.devs).map fun devs => { m with devs := devs }

/-- The physical address of a memory address, or the fault of an access whose page has one of the flags
`denied`. -/
def translate (denied : Nat) (effAddr : Nat) (mmuSelector : Word) (mmuEnabled : Bool) : Except Fault Nat :=
  if mmuEnabled then
    if tableSize ≤ getRealPage effAddr mmuSelector then .error .exit
    else if m.getFlags effAddr mmuSelector &&& denied ≠ 0 then .error .page
    else .ok (m.getRealAddress effAddr mmuSelector)
  else .ok (effAddr &&& 0xffff)

variable {m}

/-- An access to memory through `translate`; a page fault is recorded. -/
def access {α : Type} (denied effAddr : Nat) (mmuSelector : Word) (mmuEnabled : Bool)
    (use : Nat → Demux ι → Except Fault α × Demux ι) : Abort Fault (Demux ι) α :=
  fun m => match m.translate denied effAddr mmuSelector mmuEnabled with
    | .ok a => if a.testBit 20 then (.error .noDevice, m) else use a m
    | .error .page => (.error .page, m.fail effAddr mmuSelector)
    | .error e => (.error e, m)

section Access

variable {α : Type} {denied effAddr a : Nat} {mmuSelector : Word} {mmuEnabled : Bool}
  {use : Nat → Demux ι → Except Fault α × Demux ι}

theorem exec_access (found : m.translate denied effAddr mmuSelector mmuEnabled = .ok a)
    (inRam : a.testBit 20 = false) :
    (access denied effAddr mmuSelector mmuEnabled use).exec m = use a m := by
  show (match m.translate denied effAddr mmuSelector mmuEnabled with
    | .ok a => if a.testBit 20 then (Except.error Fault.noDevice, m) else use a m
    | .error .page => (Except.error Fault.page, m.fail effAddr mmuSelector)
    | .error e => (Except.error e, m)) = use a m
  rw [found]
  exact if_neg (by rw [inRam]; decide)

end Access

/-- `Demux::memWrite` -/
def memWrite (effAddr : Nat) (val mmuSelector : Word) (mmuEnabled : Bool) : Abort Fault (Demux ι) Unit :=
  if effAddr.testBit 20 then fun m => match m.ioWrite dev (effAddr &&& 0xffff) val with
    | some m => (.ok (), m)
    | none => (.error .noDevice, m)
  else access (pageFlagNotPresent ||| pageFlagReadOnly) effAddr mmuSelector mmuEnabled fun a m =>
    (.ok (), { m with ram := Function.update m.ram a val })

/-- `Demux::memRead` -/
def memRead (effAddr : Nat) (mmuSelector : Word) (mmuEnabled : Bool) : Abort Fault (Demux ι) Word :=
  if effAddr.testBit 20 then fun m => match m.ioRead dev (effAddr &&& 0xffff) with
    | some (val, m) => (.ok val, m)
    | none => (.error .noDevice, m)
  else access pageFlagNotPresent effAddr mmuSelector mmuEnabled fun a m => (.ok (m.ram a), m)

end Demux

/-- The simulator's memory. -/
def demuxOps {ι : Type} (dev : Devices ι) : DemuxOps (Demux ι) where
  memRead := Demux.memRead dev
  memWrite := Demux.memWrite dev
  request irq m := { m with intCtl := m.intCtl.request irq }
  irqLineStatus m := m.intCtl.irqLineStatus
  getIrqVector m := (m.intCtl.getIrqVector.1, { m with intCtl := m.intCtl.getIrqVector.2 })
  mmuLastFailPage m := m.mmuLastFailPage

end RlCpu.Sim
