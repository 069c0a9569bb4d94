/-
**The simulator's processor (`Cpu` of `sim.hpp` and `sim.cpp`).**

`execute` is one call of `Cpu::execute`: it takes a pending interrupt, fetches a word of code, decodes
and executes it, and commits the shadow registers. It is written over any memory (`DemuxOps μ`); the
simulator's own is `demuxOps`. The flags are `0` or `1` in the source and `Bool` here; `PC` is a `size_t`
and does not come near its end.

The operations that differ in one function of their operands are one program with that function as a
parameter.
-/

import RlCpu.Sim.Demux
import Mathlib.Tactic.Simps.Basic

namespace RlCpu.Sim

open RlCpu.Kernel RlCpu.Lib

/-! ### Registers -/

/-- The shadow registers `hPC_b` to `SW_b`. -/
structure Shadow where
  hPC : Word
  bp : Word
  ap : Word
  s : Word
  d : Word
  sw : Word
  deriving DecidableEq

/-- `Cpu` -/
structure Cpu (μ : Type) where
  ra : Word
  rb : Word
  ap : Word
  bp : Word
  sp : Word
  pc : Nat
  ir : Word
  s : Word
  d : Word
  commitEnabled : Bool
  intEnabled : Bool
  userMode : Bool
  mmuEnabled : Bool
  mmuEntrySelector : Word
  shadow : Shadow
  demux : μ

namespace Cpu

variable {μ : Type} (k : Cpu μ)

section Registers

variable (val : Word) (pc : Nat) (on : Bool) (demux : μ)

/-! One register changed. -/

@[simps] def withRA : Cpu μ := { k with ra := val }
@[simps] def withRB : Cpu μ := { k with rb := val }
@[simps] def withAP : Cpu μ := { k with ap := val }
@[simps] def withBP : Cpu μ := { k with bp := val }
@[simps] def withSP : Cpu μ := { k with sp := val }
@[simps] def withPC : Cpu μ := { k with pc := pc }
@[simps] def withIR : Cpu μ := { k with ir := val }
@[simps] def withS : Cpu μ := { k with s := val }
@[simps] def withD : Cpu μ := { k with d := val }
@[simps] def withCommitEnabled : Cpu μ := { k with commitEnabled := on }
@[simps] def withIntEnabled : Cpu μ := { k with intEnabled := on }
@[simps] def withUserMode : Cpu μ := { k with userMode := on }
@[simps] def withMMUEnabled : Cpu μ := { k with mmuEnabled := on }
@[simps] def withMMUEntrySelector : Cpu μ := { k with mmuEntrySelector := val }
@[simps] def withDemux : Cpu μ := { k with demux := demux }

end Registers

/-- `mPC` -/
def mPC : Word := BitVec.ofNat 16 (k.pc &&& 7)

/-- `highPC` -/
def highPC : Word := BitVec.ofNat 16 (k.pc / 8)

/-- `set_mPC` -/
def setMPC (val : Word) : Cpu μ := k.withPC ((k.pc &&& 0x7fff8) ||| (val.toNat &&& 7))

/-- `set_highPC` -/
def setHighPC (val : Word) : Cpu μ := k.withPC ((k.pc &&& 7) ||| (val.toNat * 8))

/-- `reset_mPC` -/
def resetMPC : Cpu μ := k.withPC (k.pc &&& 0x7fff8)

/-- `SW` -/
def sw : Word :=
  (k.mmuEntrySelector &&& (0xff : Word)) ||| (k.mPC <<< 8) ||| ((if k.intEnabled then 1 else 0 : Word) <<< 12) |||
    ((if k.userMode then 1 else 0 : Word) <<< 13) ||| ((if k.commitEnabled then 1 else 0 : Word) <<< 14)

/-- `set_SW` -/
def setSW (sw : Word) : Cpu μ :=
  let k := k.withCommitEnabled (sw &&& ((1 : Word) <<< 14) != 0)
  let k := k.withUserMode (sw &&& ((1 : Word) <<< 13) != 0)
  let k := k.withIntEnabled (sw &&& ((1 : Word) <<< 12) != 0)
  let k := k.setMPC ((sw &&& ((7 : Word) <<< 8)) >>> 8)
  k.withMMUEntrySelector (sw &&& (0xff : Word))

/-- `commit` -/
@[simps] def commit : Cpu μ := { k with shadow := ⟨k.highPC, k.bp, k.ap, k.s, k.d, k.sw⟩ }

/-- `IRHigh` -/
def irHigh : Word :=
  let t := (k.ir >>> 8) &&& (0xff : Word)
  if t &&& (0x80 : Word) ≠ 0 then t ||| (0xff00 : Word) else t

/-- The shadow registers are committed, if they are to be. -/
def settle : Cpu μ := if k.commitEnabled then k.commit else k

/-- The jump to a block of code. -/
def jump (target : Word) : Cpu μ := (k.setHighPC target).resetMPC

end Cpu

/-! ### Operations -/

/-- `opname`, without the operations that are not implemented. -/
inductive Op
  | nop
  | addrfB | addrfW | iaddrfB | iaddrfW
  | addrlB | addrlW | iaddrlB | iaddrlW
  | cnstB | cnstW | icnstB | icnstW
  | addrsB | addrsW | iaddrsB | iaddrsW
  | indir | indir2
  | add | addB | addW | add2
  | sub | subB | subW | sub2
  | band | bandB | bandW | band2
  | bor | borB | borW | bor2
  | bxor | bxorB | bxorW | bxor2
  | lsh | rsh
  | eqW | geW | gtW | leW | ltW | neW
  | ugeW | ugtW | uleW | ultW
  | call0W | call0 | call1W | call1 | call2W | call2
  | ret
  | jumpW | jump
  | discardB | discardW | allocB | allocW
  | store | rstore | store2 | rstore2
  | dupOp
  | ei | di | ec | dc | pushc
  | pushap | popap | pushbp | popbp
  | loadspW | iloadspW | storespW | istorespW
  | syscallOp | reti
  | swp | swpB | swpW
  | pops | loadsW | pushs | incs | decs
  | popd | loaddW | pushd | incd | decd
  | sdm | sdmi
  | iostore | iorstore | iostoreB | ioread | ioreadB
  | mmuon | mmuoff | pushmmu
  | blinkW
  deriving DecidableEq, Repr

namespace Op

/-- The operations by their number. -/
def all : List Op :=
  [nop, addrfB, addrfW, iaddrfB, iaddrfW, addrlB, addrlW, iaddrlB, iaddrlW, cnstB, cnstW, icnstB,
    icnstW, addrsB, addrsW, iaddrsB, iaddrsW, indir, indir2, add, addB, addW, add2, sub, subB, subW,
    sub2, band, bandB, bandW, band2, bor, borB, borW, bor2, bxor, bxorB, bxorW, bxor2, lsh, rsh, eqW,
    geW, gtW, leW, ltW, neW, ugeW, ugtW, uleW, ultW, call0W, call0, call1W, call1, call2W, call2, ret,
    jumpW, jump, discardB, discardW, allocB, allocW, store, rstore, store2, rstore2, dupOp, ei, di, ec,
    dc, pushc, pushap, popap, pushbp, popbp, loadspW, iloadspW, storespW, istorespW, syscallOp, reti,
    swp, swpB, swpW, pops, loadsW, pushs, incs, decs, popd, loaddW, pushd, incd, decd, sdm, sdmi,
    iostore, iorstore, iostoreB, ioread, ioreadB, mmuon, mmuoff, pushmmu, blinkW]

/-- The number of an operation. -/
def code (op : Op) : Nat := all.idxOf op

/-- The operation of a number, if there is one. -/
def decode (n : Nat) : Option Op := all[n]?

theorem decode_code (op : Op) : decode op.code = some op := by
  cases op <;> rfl

end Op

section Execute

variable {μ : Type} (ops : DemuxOps μ)

/-- A segment: `C_SEG_CODE`, `C_SEG_DATA`, `C_SEG_IO`. -/
inductive Seg
  | code
  | data
  | io
  deriving DecidableEq

/-- The effective address in a segment. -/
def effAddr : Seg → Nat → Nat
  | .data, addr => addr &&& 0xffff
  | .code, addr => (addr &&& 0x7ffff) ||| (1 <<< 19)
  | .io, addr => (addr &&& 0x7ffff) ||| (1 <<< 20)

/-- A program of the memory, run by the processor. -/
def onDemux {α : Type} (p : Abort Fault μ α) : Abort Fault (Cpu μ) α := fun k =>
  let (result, m) := p.exec k.demux
  (result, k.withDemux m)

/-- `Cpu::memWrite` -/
def memWrite (addr : Nat) (val : Word) (seg : Seg) : Abort Fault (Cpu μ) Unit := do
  let k ← get
  onDemux (ops.memWrite (effAddr seg addr) val k.mmuEntrySelector k.mmuEnabled)

/-- `Cpu::memRead` -/
def memRead (addr : Nat) (seg : Seg) : Abort Fault (Cpu μ) Word := do
  let k ← get
  onDemux (ops.memRead (effAddr seg addr) k.mmuEntrySelector k.mmuEnabled)

/-- `Cpu::push` -/
def push (val : Word) : Abort Fault (Cpu μ) Unit := do
  let k ← get
  memWrite ops k.sp.toNat val .data
  modify fun k => k.withSP (k.sp + 1)

/-- `Cpu::pop` -/
def pop : Abort Fault (Cpu μ) Word := do
  modify fun k => k.withSP (k.sp - 1)
  let k ← get
  memRead ops k.sp.toNat .data

/-- The operand word after the instruction: `memRead(PC, C_SEG_CODE); PC++`. -/
def operand : Abort Fault (Cpu μ) Word := do
  let k ← get
  let tmp ← memRead ops k.pc .code
  modify fun k => k.withPC (k.pc + 1)
  return tmp

/-- A word that depends on the registers is pushed. -/
def pushReg (f : Cpu μ → Word) : Abort Fault (Cpu μ) Unit := do
  let k ← get
  push ops (f k)

/-- The word at an address that depends on the registers is pushed. -/
def pushAt (f : Cpu μ → Word) : Abort Fault (Cpu μ) Unit := do
  let k ← get
  let val ← memRead ops (f k).toNat .data
  push ops val

/-- `addrf_w` and its like: the operand is used with the registers. -/
def pushRegW (f : Cpu μ → Word → Word) : Abort Fault (Cpu μ) Unit := do
  let tmp ← operand ops
  pushReg ops fun k => f k tmp

/-- `iaddrf_w` and its like. -/
def pushAtW (f : Cpu μ → Word → Word) : Abort Fault (Cpu μ) Unit := do
  let tmp ← operand ops
  pushAt ops fun k => f k tmp

/-- `indir` -/
def indir : Abort Fault (Cpu μ) Unit := do
  let tmp ← pop ops
  let val ← memRead ops tmp.toNat .data
  push ops val

/-- `indir2` -/
def indir2 : Abort Fault (Cpu μ) Unit := do
  let tmp ← pop ops
  let val ← memRead ops tmp.toNat .data
  push ops val
  let val ← memRead ops (tmp.toNat + 1) .data
  push ops val

/-- `lsh` and `rsh`. -/
def unary (f : Word → Word) : Abort Fault (Cpu μ) Unit := do
  let a ← pop ops
  push ops (f a)

/-- `add` and its like: `f` of the word on top and the one below. -/
def binary (f : Word → Word → Word) : Abort Fault (Cpu μ) Unit := do
  let a ← pop ops
  let b ← pop ops
  push ops (f a b)

/-- `add_b` and its like. -/
def binaryB (f : Word → Word → Word) : Abort Fault (Cpu μ) Unit := do
  let a ← pop ops
  let k ← get
  push ops (f a k.irHigh)

/-- `add_w` and its like. -/
def binaryW (f : Word → Word → Word) : Abort Fault (Cpu μ) Unit := do
  let tmp ← operand ops
  let a ← pop ops
  push ops (f a tmp)

/-- `add2` and its like: `f` of the double word on top and the one below. -/
def binary2 (f : BitVec 32 → BitVec 32 → BitVec 32) : Abort Fault (Cpu μ) Unit := do
  let ah ← pop ops
  let al ← pop ops
  let bh ← pop ops
  let bl ← pop ops
  let res := f (ah ++ al) (bh ++ bl)
  push ops (res.setWidth 16)
  push ops ((res >>> 16).setWidth 16)

/-- `sub` -/
def subOp : Abort Fault (Cpu μ) Unit := do
  let ra ← pop ops
  modify fun k => k.withRA ra
  let rb ← pop ops
  modify fun k => k.withRB rb
  push ops (rb - ra)

/-- `eq_w` and its like: a jump when `v1` and `v2` compare so. -/
def branch (compare : Word → Word → Bool) : Abort Fault (Cpu μ) Unit := do
  let v2 ← pop ops
  let v1 ← pop ops
  let addr ← operand ops
  if compare v1 v2 then modify fun k => k.jump addr

/-- The frame of a call, after `words` words are left for its result. -/
def enter (words : Word) (target : Word) : Abort Fault (Cpu μ) Unit := do
  modify fun k => k.withSP (k.sp + words)
  pushReg ops Cpu.highPC
  pushReg ops Cpu.mPC
  pushReg ops Cpu.ap
  pushReg ops Cpu.bp
  modify fun k => k.withAP k.bp
  modify fun k => k.withBP k.sp
  modify fun k => k.jump target

/-- `call0`, `call1` and `call2`. -/
def call (words : Word) : Abort Fault (Cpu μ) Unit := do
  let target ← pop ops
  enter ops words target

/-- `call0_w`, `call1_w` and `call2_w`. -/
def callW (words : Word) : Abort Fault (Cpu μ) Unit := do
  let target ← operand ops
  enter ops words target

/-- `ret` -/
def ret : Abort Fault (Cpu μ) Unit := do
  modify fun k => k.withSP k.bp
  let bp ← pop ops
  modify fun k => k.withBP bp
  let ap ← pop ops
  modify fun k => k.withAP ap
  let mPC ← pop ops
  modify fun k => k.setMPC mPC
  let hPC ← pop ops
  modify fun k => k.setHighPC hPC

/-- `jump_w`: `PC` is not moved over the operand first. -/
def jumpW : Abort Fault (Cpu μ) Unit := do
  let k ← get
  let target ← memRead ops k.pc .code
  modify fun k => k.jump target

/-- `store` in a segment. -/
def store (seg : Seg) : Abort Fault (Cpu μ) Unit := do
  let val ← pop ops
  let target ← pop ops
  memWrite ops target.toNat val seg

/-- `rstore` in a segment. -/
def rstore (seg : Seg) : Abort Fault (Cpu μ) Unit := do
  let target ← pop ops
  let val ← pop ops
  memWrite ops target.toNat val seg

/-- `store2` -/
def store2 : Abort Fault (Cpu μ) Unit := do
  let valh ← pop ops
  let vall ← pop ops
  let target ← pop ops
  memWrite ops target.toNat vall .data
  memWrite ops (target.toNat + 1) valh .data

/-- `rstore2` -/
def rstore2 : Abort Fault (Cpu μ) Unit := do
  let target ← pop ops
  let valh ← pop ops
  let vall ← pop ops
  memWrite ops target.toNat vall .data
  memWrite ops (target.toNat + 1) valh .data

/-- `dup_op` -/
def dup : Abort Fault (Cpu μ) Unit := do
  let ra ← pop ops
  modify fun k => k.withRA ra
  push ops ra
  push ops ra

/-- `pushCommit`: the word of the stack pointer is left as it is. -/
def pushCommit : Abort Fault (Cpu μ) Unit := do
  pushReg ops fun k => k.shadow.sw
  modify fun k => k.withSP (k.sp + 1)
  pushReg ops fun k => k.shadow.hPC
  pushReg ops fun k => k.shadow.bp
  pushReg ops fun k => k.shadow.ap
  pushReg ops fun k => k.shadow.s
  pushReg ops fun k => k.shadow.d

/-- A register is popped. -/
def popReg (set : Word → Cpu μ → Cpu μ) : Abort Fault (Cpu μ) Unit := do
  let val ← pop ops
  modify (set val)

/-- A register is loaded with the operand. -/
def loadReg (set : Word → Cpu μ → Cpu μ) : Abort Fault (Cpu μ) Unit := do
  let val ← operand ops
  modify (set val)

/-- `iloadsp_w` -/
def iloadspW : Abort Fault (Cpu μ) Unit := do
  let ra ← operand ops
  modify fun k => k.withRA ra
  let sp ← memRead ops ra.toNat .data
  modify fun k => k.withSP sp

/-- `storesp_w` -/
def storespW : Abort Fault (Cpu μ) Unit := do
  let ra ← operand ops
  modify fun k => k.withRA ra
  let k ← get
  memWrite ops ra.toNat k.sp .data

/-- `reti` -/
def reti : Abort Fault (Cpu μ) Unit := do
  let d ← pop ops
  modify fun k => k.withD d
  let s ← pop ops
  modify fun k => k.withS s
  let ap ← pop ops
  modify fun k => k.withAP ap
  let bp ← pop ops
  modify fun k => k.withBP bp
  let hPC ← pop ops
  modify fun k => k.setHighPC hPC
  let ra ← pop ops
  modify fun k => k.withRA ra
  let sw ← pop ops
  modify fun k => k.setSW sw
  modify fun k => k.withSP ra

/-- `swp_b` -/
def swpB : Abort Fault (Cpu μ) Unit := do
  let ra ← pop ops
  modify fun k => k.withRA ra
  let rb ← memRead ops ra.toNat .data
  modify fun k => k.withRB rb
  let k ← get
  memWrite ops ra.toNat k.irHigh .data
  push ops rb

/-- `sdm` -/
def sdm : Abort Fault (Cpu μ) Unit := do
  let k ← get
  let ra ← memRead ops k.s.toNat .data
  modify fun k => k.withRA ra
  memWrite ops k.d.toNat ra .data

/-- `iostore_b` -/
def iostoreB : Abort Fault (Cpu μ) Unit := do
  let k ← get
  let target := k.irHigh
  let val ← pop ops
  memWrite ops target.toNat val .io

/-- `ioread` -/
def ioread : Abort Fault (Cpu μ) Unit := do
  let tmp ← pop ops
  let val ← memRead ops tmp.toNat .io
  push ops val

/-- `ioread_b` -/
def ioreadB : Abort Fault (Cpu μ) Unit := do
  let k ← get
  let val ← memRead ops k.irHigh.toNat .io
  push ops val

/-- An operation that is not implemented. -/
def notImplemented : Abort Fault (Cpu μ) Unit :=
  modify fun k => (k.withDemux (ops.request intDecodeLine k.demux)).withCommitEnabled false

/-- The operations. -/
def instruction : Op → Abort Fault (Cpu μ) Unit
  | .nop => pure ()
  | .addrfB => pushReg ops fun k => k.ap + k.irHigh
  | .addrfW => pushRegW ops fun k tmp => k.ap + tmp
  | .iaddrfB => pushAt ops fun k => k.ap + k.irHigh
  | .iaddrfW => pushAtW ops fun k tmp => k.ap + tmp
  | .addrlB => pushReg ops fun k => k.bp + k.irHigh
  | .addrlW => pushRegW ops fun k tmp => k.bp + tmp
  | .iaddrlB => pushAt ops fun k => k.bp + k.irHigh
  | .iaddrlW => pushAtW ops fun k tmp => k.bp + tmp
  | .cnstB => pushReg ops Cpu.irHigh
  | .cnstW => pushRegW ops fun _ tmp => tmp
  | .icnstB => pushAt ops Cpu.irHigh
  | .icnstW => pushAtW ops fun _ tmp => tmp
  | .addrsB => pushReg ops fun k => k.sp + k.irHigh
  | .addrsW => pushRegW ops fun k tmp => k.sp + tmp
  | .iaddrsB => pushAt ops fun k => k.sp + k.irHigh
  | .iaddrsW => pushAtW ops fun k tmp => k.sp + tmp
  | .indir => indir ops
  | .indir2 => indir2 ops
  | .add => binary ops (· + ·)
  | .addB => binaryB ops (· + ·)
  | .addW => binaryW ops (· + ·)
  | .add2 => binary2 ops (· + ·)
  | .band => binary ops (· &&& ·)
  | .bandB => binaryB ops (· &&& ·)
  | .bandW => binaryW ops (· &&& ·)
  | .band2 => binary2 ops (· &&& ·)
  | .bor => binary ops (· ||| ·)
  | .borB => binaryB ops (· ||| ·)
  | .borW => binaryW ops (· ||| ·)
  | .bor2 => binary2 ops (· ||| ·)
  | .bxor => binary ops (· ^^^ ·)
  | .bxorB => binaryB ops (· ^^^ ·)
  | .bxorW => binaryW ops (· ^^^ ·)
  | .bxor2 => binary2 ops (· ^^^ ·)
  | .lsh => unary ops (· <<< 1)
  | .rsh => unary ops (· >>> 1)
  | .sub => subOp ops
  | .subB => binaryB ops (· - ·)
  | .subW => binaryW ops (· - ·)
  | .sub2 => binary2 ops fun a b => b - a
  | .eqW => branch ops fun v1 v2 => v1.toInt = v2.toInt
  | .geW => branch ops fun v1 v2 => v1.toInt ≥ v2.toInt
  | .gtW => branch ops fun v1 v2 => v1.toInt > v2.toInt
  | .leW => branch ops fun v1 v2 => v1.toInt ≤ v2.toInt
  | .ltW => branch ops fun v1 v2 => v1.toInt < v2.toInt
  | .neW => branch ops fun v1 v2 => v1.toInt ≠ v2.toInt
  | .ugeW => branch ops fun v1 v2 => v1.toNat ≥ v2.toNat
  | .ugtW => branch ops fun v1 v2 => v1.toNat > v2.toNat
  | .uleW => branch ops fun v1 v2 => v1.toNat ≤ v2.toNat
  | .ultW => branch ops fun v1 v2 => v1.toNat < v2.toNat
  | .call0 => call ops 0
  | .call0W => callW ops 0
  | .call1 => call ops 1
  | .call1W => callW ops 1
  | .call2 => call ops 2
  | .call2W => callW ops 2
  | .ret => ret ops
  | .jumpW => jumpW ops
  | .jump => popReg ops fun target k => k.jump target
  | .discardB => modify fun k => k.withSP (k.sp - k.irHigh)
  | .discardW => loadReg ops fun amount k => k.withSP (k.sp - amount)
  | .allocB => modify fun k => k.withSP (k.sp + k.irHigh)
  | .allocW => loadReg ops fun amount k => k.withSP (k.sp + amount)
  | .store => store ops .data
  | .store2 => store2 ops
  | .rstore => rstore ops .data
  | .rstore2 => rstore2 ops
  | .dupOp => dup ops
  | .ei => modify fun k => k.withIntEnabled true
  | .di => modify fun k => k.withIntEnabled false
  | .ec => modify fun k => k.withCommitEnabled true
  | .dc => modify fun k => k.withCommitEnabled false
  | .pushc => pushCommit ops
  | .pushmmu => pushReg ops fun k => ops.mmuLastFailPage k.demux
  | .pushap => pushReg ops Cpu.ap
  | .popap => popReg ops fun val k => k.withAP val
  | .pushbp => pushReg ops Cpu.bp
  | .popbp => popReg ops fun val k => k.withBP val
  | .loadspW => loadReg ops fun val k => k.withSP val
  | .iloadspW => iloadspW ops
  | .storespW => storespW ops
  | .syscallOp => modify fun k => k.withDemux (ops.request 0 k.demux)
  | .reti => reti ops
  | .swpB => swpB ops
  | .pops => popReg ops fun val k => k.withS val
  | .loadsW => loadReg ops fun val k => (k.withRA val).withS val
  | .pushs => pushReg ops Cpu.s
  | .incs => modify fun k => k.withS (k.s + 1)
  | .decs => modify fun k => k.withS (k.s - 1)
  | .popd => popReg ops fun val k => k.withD val
  | .loaddW => loadReg ops fun val k => (k.withRA val).withD val
  | .pushd => pushReg ops Cpu.d
  | .incd => modify fun k => k.withD (k.d + 1)
  | .decd => modify fun k => k.withD (k.d - 1)
  | .sdm => sdm ops
  | .sdmi => do
      sdm ops
      modify fun k => (k.withS (k.s + 1)).withD (k.d + 1)
  | .iostore => store ops .io
  | .iorstore => rstore ops .io
  | .iostoreB => iostoreB ops
  | .ioread => ioread ops
  | .ioreadB => ioreadB ops
  | .mmuon => modify fun k => k.withMMUEnabled true
  | .mmuoff => modify fun k => k.withMMUEnabled false
  | .blinkW => loadReg ops fun val k => k.withRA val
  | .istorespW => notImplemented ops
  | .swp => notImplemented ops
  | .swpW => notImplemented ops

/-- The pending interrupt that the processor takes, if it may. -/
def takeInterrupt : Abort Fault (Cpu μ) Unit :=
  modify fun k =>
    if k.intEnabled && ops.irqLineStatus k.demux then
      let (vector, m) := ops.getIrqVector k.demux
      let k := k.withUserMode false
      let k := k.withIntEnabled false
      let k := k.withMMUEntrySelector 0
      let k := k.withCommitEnabled false
      (k.withDemux m).jump vector
    else k

/-- The operation of a word of code. -/
def perform (ir : Word) : Abort Fault (Cpu μ) Unit :=
  match Op.decode (ir &&& (0xff : Word)).toNat with
  | some op => instruction ops op
  | none => notImplemented ops

/-- The instruction at `PC`, without interrupts. -/
def executeInstruction : Abort Fault (Cpu μ) Unit := do
  let k ← get
  let ir ← memRead ops k.pc .code
  modify fun k => (k.withIR ir).withPC (k.pc + 1)
  perform ops ir
  modify Cpu.settle

/-- `Cpu::execute` -/
def execute : Abort Fault (Cpu μ) Unit := do
  takeInterrupt ops
  executeInstruction ops

end Execute

end RlCpu.Sim
