/-
**Accesses of the processor to its memory.**

`k.Reads seg addr a` and `k.Writes seg addr a`: the processor `k` may read, or write, the address `addr`
of a segment, and finds it at the physical address `a`. Both depend on the table, the selector and the
flag of the MMU only, so they survive every step that leaves these alone.

With them the parts of an instruction have a known effect: `exec_memRead`, `exec_memWrite`, `exec_push`,
`exec_pop`, `exec_operand`, and `exec_executeInstruction` for the whole.
-/

import RlCpu.Sim.Cpu

namespace RlCpu.Sim

open RlCpu.Kernel RlCpu.Lib RlCpu.Lib.Abort

/-! ### Effective addresses -/

/-- Code and data addresses are not I/O addresses. -/
theorem effAddr_testBit {seg : Seg} (memory : seg ≠ .io) (addr : Nat) :
    (effAddr seg addr).testBit 20 = false := by
  apply Nat.testBit_lt_two_pow
  cases seg with
  | code =>
    refine Nat.or_lt_two_pow ?_ (by decide)
    exact lt_of_le_of_lt Nat.and_le_right (by decide)
  | data => exact lt_of_le_of_lt Nat.and_le_right (by decide)
  | io => exact absurd rfl memory

variable {ι : Type}

namespace Cpu

/-- `k` may read the address `addr`, and finds it at `a`. -/
structure Reads (k : Cpu (Demux ι)) (seg : Seg) (addr a : Nat) : Prop where
  memory : seg ≠ .io
  found : k.demux.translate pageFlagNotPresent (effAddr seg addr) k.mmuEntrySelector k.mmuEnabled = .ok a
  inRam : a.testBit 20 = false

/-- `k` may write the address `addr`, and finds it at `a`. -/
structure Writes (k : Cpu (Demux ι)) (seg : Seg) (addr a : Nat) : Prop where
  memory : seg ≠ .io
  found : k.demux.translate (pageFlagNotPresent ||| pageFlagReadOnly) (effAddr seg addr)
    k.mmuEntrySelector k.mmuEnabled = .ok a
  inRam : a.testBit 20 = false

/-- The word at a physical address is `val`. -/
@[simps!] def putRam (k : Cpu (Demux ι)) (a : Nat) (val : Word) : Cpu (Demux ι) :=
  k.withDemux { k.demux with ram := Function.update k.demux.ram a val }

section Congr

variable {k t : Cpu (Demux ι)} {seg : Seg} {addr a : Nat}

theorem Reads.congr (reads : k.Reads seg addr a) (table : t.demux.table = k.demux.table)
    (enabled : t.mmuEnabled = k.mmuEnabled) (selector : t.mmuEntrySelector = k.mmuEntrySelector) :
    t.Reads seg addr a := by
  refine ⟨reads.memory, ?_, reads.inRam⟩
  have found := reads.found
  unfold Demux.translate Demux.getFlags Demux.getRealAddress at found ⊢
  rwa [table, enabled, selector]

theorem Writes.congr (writes : k.Writes seg addr a) (table : t.demux.table = k.demux.table)
    (enabled : t.mmuEnabled = k.mmuEnabled) (selector : t.mmuEntrySelector = k.mmuEntrySelector) :
    t.Writes seg addr a := by
  refine ⟨writes.memory, ?_, writes.inRam⟩
  have found := writes.found
  unfold Demux.translate Demux.getFlags Demux.getRealAddress at found ⊢
  rwa [table, enabled, selector]

end Congr

end Cpu

variable {dev : Devices ι} {k : Cpu (Demux ι)} {seg : Seg} {addr a : Nat}

/-- What may be written may be read. -/
theorem Cpu.Writes.reads (writes : k.Writes seg addr a) : k.Reads seg addr a := by
  refine ⟨writes.memory, ?_, writes.inRam⟩
  have found := writes.found
  unfold Demux.translate at found ⊢
  split at found
  case isFalse off => rwa [if_neg off]
  case isTrue on =>
    rw [if_pos on]
    split at found
    case isTrue => cases found
    case isFalse inTable =>
      rw [if_neg inTable]
      split at found
      case isTrue => cases found
      case isFalse clear =>
        have bits := Nat.and_or_distrib_left (k.demux.getFlags (effAddr seg addr) k.mmuEntrySelector)
          pageFlagNotPresent pageFlagReadOnly
        have clear := not_not.mp clear
        rw [bits] at clear
        rw [if_neg (not_not.mpr (Nat.or_eq_zero_iff.mp clear).1)]
        exact found

/-! ### With the MMU off -/

theorem effAddr_low (memory : seg ≠ .io) (low : addr < 2 ^ 16) : effAddr seg addr &&& 0xffff = addr := by
  cases seg with
  | data =>
    show addr &&& 0xffff &&& 0xffff = addr
    rw [Nat.and_assoc, show 0xffff &&& 0xffff = 0xffff from rfl, Nat.and_two_pow_sub_one_eq_mod _ 16]
    exact Nat.mod_eq_of_lt low
  | code =>
    show ((addr &&& 0x7ffff) ||| 0x80000) &&& 0xffff = addr
    rw [Nat.and_or_distrib_right, Nat.and_assoc, show 0x7ffff &&& 0xffff = 0xffff from rfl,
      show 0x80000 &&& 0xffff = 0 from rfl, Nat.or_zero, Nat.and_two_pow_sub_one_eq_mod _ 16]
    exact Nat.mod_eq_of_lt low
  | io => exact absurd rfl memory

/-- Addresses below 65536 are physical. -/
theorem Cpu.Writes.of_off (off : k.mmuEnabled = false) (memory : seg ≠ .io) (low : addr < 2 ^ 16) :
    k.Writes seg addr addr := by
  refine ⟨memory, ?_, Nat.testBit_lt_two_pow (low.trans (by decide))⟩
  rw [off]
  exact congrArg Except.ok (effAddr_low memory low)

theorem Cpu.Reads.of_off (off : k.mmuEnabled = false) (memory : seg ≠ .io) (low : addr < 2 ^ 16) :
    k.Reads seg addr addr := (Writes.of_off off memory low).reads

/-- A word of the stack. -/
theorem Cpu.Writes.of_off_add (off : k.mmuEnabled = false) {base : Word} {i : Nat} (fits : base.toNat + i < 2 ^ 16) :
    k.Writes .data (base + BitVec.ofNat 16 i).toNat (base.toNat + i) := by
  have small : (BitVec.ofNat 16 i).toNat = i := BitVec.toNat_ofNat i 16 ▸ Nat.mod_eq_of_lt (by omega)
  rw [BitVec.toNat_add_of_lt (by rwa [small]), small]
  exact .of_off off (by decide) fits

/-! ### Accesses -/

theorem exec_onDemux {μ α : Type} (p : Abort Fault μ α) (k : Cpu μ) :
    (onDemux p).exec k = ((p.exec k.demux).1, k.withDemux (p.exec k.demux).2) := rfl

theorem exec_memRead (reads : k.Reads seg addr a) :
    (memRead (demuxOps dev) addr seg).exec k = (.ok (k.demux.ram a), k) := by
  unfold memRead
  rw [exec_bind_ok (exec_get k), exec_onDemux]
  have read : ((demuxOps dev).memRead (effAddr seg addr) k.mmuEntrySelector k.mmuEnabled).exec k.demux =
      (.ok (k.demux.ram a), k.demux) := by
    show exec (Demux.memRead dev (effAddr seg addr) k.mmuEntrySelector k.mmuEnabled) k.demux = _
    unfold Demux.memRead
    rw [if_neg (by rw [effAddr_testBit reads.memory]; decide)]
    exact Demux.exec_access reads.found reads.inRam
  rw [read]
  rfl

theorem exec_memWrite (val : Word) (writes : k.Writes seg addr a) :
    (memWrite (demuxOps dev) addr val seg).exec k = (.ok (), k.putRam a val) := by
  unfold memWrite
  rw [exec_bind_ok (exec_get k), exec_onDemux]
  have write : ((demuxOps dev).memWrite (effAddr seg addr) val k.mmuEntrySelector k.mmuEnabled).exec
      k.demux = (.ok (), { k.demux with ram := Function.update k.demux.ram a val }) := by
    show exec (Demux.memWrite dev (effAddr seg addr) val k.mmuEntrySelector k.mmuEnabled) k.demux = _
    unfold Demux.memWrite
    rw [if_neg (by rw [effAddr_testBit writes.memory]; decide)]
    exact Demux.exec_access writes.found writes.inRam
  rw [write]
  rfl

/-- A read of an I/O address. -/
theorem exec_memRead_io {val : Word} {m : Demux ι} (io : (effAddr .io addr).testBit 20 = true)
    (gives : k.demux.ioRead dev (effAddr .io addr &&& 0xffff) = some (val, m)) :
    (memRead (demuxOps dev) addr .io).exec k = (.ok val, k.withDemux m) := by
  unfold memRead
  rw [exec_bind_ok (exec_get k), exec_onDemux]
  have read : ((demuxOps dev).memRead (effAddr .io addr) k.mmuEntrySelector k.mmuEnabled).exec k.demux = (.ok val, m) := by
    show exec (Demux.memRead dev (effAddr .io addr) k.mmuEntrySelector k.mmuEnabled) k.demux = _
    unfold Demux.memRead
    rw [if_pos io]
    simp only [exec, ExceptT.run, StateT.run, gives]
  rw [read]

/-- A write of an I/O address. -/
theorem exec_memWrite_io {val : Word} {m : Demux ι} (io : (effAddr .io addr).testBit 20 = true)
    (takes : k.demux.ioWrite dev (effAddr .io addr &&& 0xffff) val = some m) :
    (memWrite (demuxOps dev) addr val .io).exec k = (.ok (), k.withDemux m) := by
  unfold memWrite
  rw [exec_bind_ok (exec_get k), exec_onDemux]
  have write : ((demuxOps dev).memWrite (effAddr .io addr) val k.mmuEntrySelector k.mmuEnabled).exec k.demux =
      (.ok (), m) := by
    show exec (Demux.memWrite dev (effAddr .io addr) val k.mmuEntrySelector k.mmuEnabled) k.demux = _
    unfold Demux.memWrite
    rw [if_pos io]
    simp only [exec, ExceptT.run, StateT.run, takes]
  rw [write]

theorem exec_push (val : Word) (writes : k.Writes .data k.sp.toNat a) :
    (push (demuxOps dev) val).exec k = (.ok (), (k.putRam a val).withSP (k.sp + 1)) := by
  unfold push
  rw [exec_bind_ok (exec_get k), exec_bind_ok (exec_memWrite val writes), exec_modify]
  rfl

theorem exec_pop (reads : k.Reads .data (k.sp - 1).toNat a) :
    (pop (demuxOps dev)).exec k = (.ok (k.demux.ram a), k.withSP (k.sp - 1)) := by
  have reads' : (k.withSP (k.sp - 1)).Reads .data (k.sp - 1).toNat a := reads.congr rfl rfl rfl
  unfold pop
  rw [exec_bind_ok (exec_modify _ k), exec_bind_ok (exec_get _)]
  exact exec_memRead reads'

theorem exec_operand (reads : k.Reads .code k.pc a) :
    (operand (demuxOps dev)).exec k = (.ok (k.demux.ram a), k.withPC (k.pc + 1)) := by
  unfold operand
  rw [exec_bind_ok (exec_get k), exec_bind_ok (exec_memRead reads), exec_bind_ok (exec_modify _ k),
    exec_pure]

/-! ### Instructions -/

/-- The state in which an instruction is executed, once its word is fetched. -/
@[simps!] def Cpu.fetched {μ : Type} (k : Cpu μ) (ir : Word) : Cpu μ := (k.withIR ir).withPC (k.pc + 1)

/-- **An instruction that returns.** -/
theorem exec_executeInstruction {t : Cpu (Demux ι)} {op : Op} (reads : k.Reads .code k.pc a)
    (decodes : Op.decode (k.demux.ram a &&& (0xff : Word)).toNat = some op)
    (run : (instruction (demuxOps dev) op).exec (k.fetched (k.demux.ram a)) = (.ok (), t)) :
    (executeInstruction (demuxOps dev)).exec k = (.ok (), t.settle) := by
  unfold executeInstruction
  rw [exec_bind_ok (exec_get k), exec_bind_ok (exec_memRead reads), exec_bind_ok (exec_modify _ k)]
  unfold perform
  rw [decodes]
  exact exec_bind_ok run

end RlCpu.Sim
