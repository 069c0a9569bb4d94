/-
**Operations that leave a register alone.**

`Stable inv`: the invariant `inv` of the processor does not look at the registers that most operations change, which
are all but `BP` and the selector of the MMU. Every operation keeps such an invariant, but those that load `BP` or the
status word (`Op.framed`); for these it is a case of its own.

* `Stable.instruction`: the operations that are not `framed`.
* `Stable.executeInstruction`: one instruction, where its operation keeps the invariant.
-/

import RlCpu.Sim.Cpu

namespace RlCpu.Sim

open RlCpu.Kernel RlCpu.Lib RlCpu.Lib.Abort

/-- The operations that load `BP` or the selector: calls, `ret`, `popbp` and `reti`. -/
def Op.framed : Op → Bool
  | .call0 | .call0W | .call1 | .call1W | .call2 | .call2W | .ret | .popbp | .reti => true
  | _ => false

variable {μ : Type}

/-- `inv` does not look at the registers that most operations change. -/
structure Stable (inv : Cpu μ → Prop) : Prop where
  ra : ∀ k val, inv k → inv (k.withRA val)
  rb : ∀ k val, inv k → inv (k.withRB val)
  ap : ∀ k val, inv k → inv (k.withAP val)
  sp : ∀ k val, inv k → inv (k.withSP val)
  pc : ∀ k pc, inv k → inv (k.withPC pc)
  ir : ∀ k val, inv k → inv (k.withIR val)
  s : ∀ k val, inv k → inv (k.withS val)
  d : ∀ k val, inv k → inv (k.withD val)
  commitEnabled : ∀ k on, inv k → inv (k.withCommitEnabled on)
  intEnabled : ∀ k on, inv k → inv (k.withIntEnabled on)
  mmuEnabled : ∀ k on, inv k → inv (k.withMMUEnabled on)
  demux : ∀ k m, inv k → inv (k.withDemux m)
  commit : ∀ k, inv k → inv k.commit

namespace Stable

variable {inv : Cpu μ → Prop} (stable : Stable inv) (ops : DemuxOps μ)

include stable

theorem settle (k : Cpu μ) (holds : inv k) : inv k.settle := by
  unfold Cpu.settle
  split
  · exact stable.commit k holds
  · exact holds

theorem jump (k : Cpu μ) (target : Word) (holds : inv k) : inv (k.jump target) :=
  stable.pc _ _ (stable.pc _ _ holds)

/-! ### Accesses -/

theorem onDemux {α : Type} (p : Abort Fault μ α) : Preserved inv (onDemux p) :=
  fun k holds => stable.demux k _ holds

theorem memRead (addr : Nat) (seg : Seg) : Preserved inv (memRead ops addr seg) := .get fun _ => stable.onDemux _

theorem memWrite (addr : Nat) (val : Word) (seg : Seg) : Preserved inv (memWrite ops addr val seg) :=
  .get fun _ => stable.onDemux _

theorem push (val : Word) : Preserved inv (push ops val) :=
  .get fun _ => .bind (stable.memWrite ops _ val .data) fun _ => .modify fun k => stable.sp k _

theorem pop : Preserved inv (pop ops) :=
  .bind (.modify fun k => stable.sp k _) fun _ => .get fun _ => stable.memRead ops _ .data

theorem operand : Preserved inv (operand ops) :=
  .get fun _ => .bind (stable.memRead ops _ .code) fun _ => .bind (.modify fun k => stable.pc k _) fun _ => .pure _

theorem pushReg (f : Cpu μ → Word) : Preserved inv (pushReg ops f) := .get fun _ => stable.push ops _

theorem pushAt (f : Cpu μ → Word) : Preserved inv (pushAt ops f) :=
  .get fun _ => .bind (stable.memRead ops _ .data) fun _ => stable.push ops _

theorem pushRegW (f : Cpu μ → Word → Word) : Preserved inv (pushRegW ops f) :=
  .bind (stable.operand ops) fun _ => stable.pushReg ops _

theorem pushAtW (f : Cpu μ → Word → Word) : Preserved inv (pushAtW ops f) :=
  .bind (stable.operand ops) fun _ => stable.pushAt ops _

theorem popReg {set : Word → Cpu μ → Cpu μ} (keeps : ∀ v k, inv k → inv (set v k)) : Preserved inv (popReg ops set) :=
  .bind (stable.pop ops) fun v => .modify (keeps v)

theorem loadReg {set : Word → Cpu μ → Cpu μ} (keeps : ∀ v k, inv k → inv (set v k)) : Preserved inv (loadReg ops set) :=
  .bind (stable.operand ops) fun v => .modify (keeps v)

/-! ### Operations -/

theorem binary (f : Word → Word → Word) : Preserved inv (binary ops f) :=
  .bind (stable.pop ops) fun _ => .bind (stable.pop ops) fun _ => stable.push ops _

theorem binaryB (f : Word → Word → Word) : Preserved inv (binaryB ops f) :=
  .bind (stable.pop ops) fun _ => .get fun _ => stable.push ops _

theorem binaryW (f : Word → Word → Word) : Preserved inv (binaryW ops f) :=
  .bind (stable.operand ops) fun _ => .bind (stable.pop ops) fun _ => stable.push ops _

theorem binary2 (f : BitVec 32 → BitVec 32 → BitVec 32) : Preserved inv (binary2 ops f) :=
  .bind (stable.pop ops) fun _ => .bind (stable.pop ops) fun _ => .bind (stable.pop ops) fun _ =>
    .bind (stable.pop ops) fun _ => .bind (stable.push ops _) fun _ => stable.push ops _

theorem branch (compare : Word → Word → Bool) : Preserved inv (branch ops compare) := by
  refine .bind (stable.pop ops) fun v2 => .bind (stable.pop ops) fun v1 => .bind (stable.operand ops) fun addr => ?_
  split
  · exact .modify fun k => stable.jump k addr
  · exact .pure _

/-- A pop into a register, before the rest. -/
theorem popThen {α : Type} {set : Word → Cpu μ → Cpu μ} {f : Word → Abort Fault (Cpu μ) α}
    (keeps : ∀ v k, inv k → inv (set v k)) (rest : ∀ v, Preserved inv (f v)) :
    Preserved inv (do let v ← Sim.pop ops; modify (set v); f v) :=
  .bind (stable.pop ops) fun v => .bind (.modify (keeps v)) fun _ => rest v

/-- The frame of a call, where `BP` may be loaded with the stack pointer. -/
theorem enter (words target : Word) (bp : ∀ k : Cpu μ, inv k → inv (k.withBP k.sp)) :
    Preserved inv (enter ops words target) :=
  .bind (.modify fun k => stable.sp k _) fun _ => .bind (stable.pushReg ops _) fun _ =>
    .bind (stable.pushReg ops _) fun _ => .bind (stable.pushReg ops _) fun _ =>
    .bind (stable.pushReg ops _) fun _ => .bind (.modify fun k => stable.ap k _) fun _ =>
    .bind (.modify bp) fun _ => .modify fun k => stable.jump k target

theorem ret (bp : ∀ (v : Word) k, inv k → inv (k.withBP v)) : Preserved inv (ret ops) := by
  unfold Sim.ret
  exact .bind (.modify fun k => stable.sp k _) fun _ => stable.popThen ops bp fun _ =>
    stable.popThen ops (fun v k => stable.ap k v) fun _ => stable.popThen ops (fun _ k => stable.pc k _) fun _ =>
    stable.popReg ops fun _ k => stable.pc k _

theorem indir : Preserved inv (indir ops) :=
  .bind (stable.pop ops) fun _ => .bind (stable.memRead ops _ .data) fun _ => stable.push ops _

theorem indir2 : Preserved inv (indir2 ops) :=
  .bind (stable.pop ops) fun _ => .bind (stable.memRead ops _ .data) fun _ =>
    .bind (stable.push ops _) fun _ => .bind (stable.memRead ops _ .data) fun _ => stable.push ops _

theorem subOp : Preserved inv (subOp ops) :=
  stable.popThen ops (fun v k => stable.ra k v) fun _ => stable.popThen ops (fun v k => stable.rb k v) fun _ =>
    stable.push ops _

theorem jumpW : Preserved inv (jumpW ops) :=
  .get fun _ => .bind (stable.memRead ops _ .code) fun target => .modify fun k => stable.jump k target

theorem store (seg : Seg) : Preserved inv (store ops seg) :=
  .bind (stable.pop ops) fun _ => .bind (stable.pop ops) fun _ => stable.memWrite ops _ _ seg

theorem rstore (seg : Seg) : Preserved inv (rstore ops seg) :=
  .bind (stable.pop ops) fun _ => .bind (stable.pop ops) fun _ => stable.memWrite ops _ _ seg

theorem store2 : Preserved inv (store2 ops) :=
  .bind (stable.pop ops) fun _ => .bind (stable.pop ops) fun _ => .bind (stable.pop ops) fun _ =>
    .bind (stable.memWrite ops _ _ .data) fun _ => stable.memWrite ops _ _ .data

theorem rstore2 : Preserved inv (rstore2 ops) :=
  .bind (stable.pop ops) fun _ => .bind (stable.pop ops) fun _ => .bind (stable.pop ops) fun _ =>
    .bind (stable.memWrite ops _ _ .data) fun _ => stable.memWrite ops _ _ .data

theorem dup : Preserved inv (dup ops) :=
  stable.popThen ops (fun v k => stable.ra k v) fun _ => .bind (stable.push ops _) fun _ => stable.push ops _

theorem pushCommit : Preserved inv (pushCommit ops) :=
  .bind (stable.pushReg ops _) fun _ => .bind (.modify fun k => stable.sp k _) fun _ =>
    .bind (stable.pushReg ops _) fun _ => .bind (stable.pushReg ops _) fun _ =>
    .bind (stable.pushReg ops _) fun _ => .bind (stable.pushReg ops _) fun _ => stable.pushReg ops _

theorem iloadspW : Preserved inv (iloadspW ops) :=
  .bind (stable.operand ops) fun ra => .bind (.modify fun k => stable.ra k ra) fun _ =>
    .bind (stable.memRead ops _ .data) fun sp => .modify fun k => stable.sp k sp

theorem storespW : Preserved inv (storespW ops) :=
  .bind (stable.operand ops) fun ra => .bind (.modify fun k => stable.ra k ra) fun _ =>
    .get fun _ => stable.memWrite ops _ _ .data

theorem swpB : Preserved inv (swpB ops) :=
  stable.popThen ops (fun v k => stable.ra k v) fun _ => .bind (stable.memRead ops _ .data) fun rb =>
    .bind (.modify fun k => stable.rb k rb) fun _ => .get fun _ => .bind (stable.memWrite ops _ _ .data) fun _ =>
    stable.push ops _

theorem sdm : Preserved inv (sdm ops) :=
  .get fun _ => .bind (stable.memRead ops _ .data) fun ra => .bind (.modify fun k => stable.ra k ra) fun _ =>
    stable.memWrite ops _ _ .data

theorem iostoreB : Preserved inv (iostoreB ops) :=
  .get fun _ => .bind (stable.pop ops) fun _ => stable.memWrite ops _ _ .io

theorem ioread : Preserved inv (ioread ops) :=
  .bind (stable.pop ops) fun _ => .bind (stable.memRead ops _ .io) fun _ => stable.push ops _

theorem ioreadB : Preserved inv (ioreadB ops) :=
  .get fun _ => .bind (stable.memRead ops _ .io) fun _ => stable.push ops _

theorem notImplemented : Preserved inv (notImplemented ops) :=
  .modify fun k holds => stable.commitEnabled _ _ (stable.demux k _ holds)

/-- **Every operation that is not framed keeps the invariant.** -/
theorem instruction (op : Op) (plain : op.framed = false) : Preserved inv (instruction ops op) := by
  cases op
  case call0 | call0W | call1 | call1W | call2 | call2W | ret | popbp | reti => cases plain
  case nop => exact .pure _
  case addrfB | addrlB | addrsB | cnstB | pushap | pushbp | pushs | pushd | pushmmu => exact stable.pushReg ops _
  case addrfW | addrlW | addrsW | cnstW => exact stable.pushRegW ops _
  case iaddrfB | iaddrlB | iaddrsB | icnstB => exact stable.pushAt ops _
  case iaddrfW | iaddrlW | iaddrsW | icnstW => exact stable.pushAtW ops _
  case add | band | bor | bxor => exact stable.binary ops _
  case addB | bandB | borB | bxorB | subB => exact stable.binaryB ops _
  case addW | bandW | borW | bxorW | subW => exact stable.binaryW ops _
  case add2 | band2 | bor2 | bxor2 => exact stable.binary2 ops _
  case sub2 => exact stable.binary2 ops fun a b => b - a
  case lsh | rsh => exact .bind (stable.pop ops) fun _ => stable.push ops _
  case eqW | geW | gtW | leW | ltW | neW | ugeW | ugtW | uleW | ultW => exact stable.branch ops _
  case sub => exact stable.subOp ops
  case indir => exact stable.indir ops
  case indir2 => exact stable.indir2 ops
  case jumpW => exact stable.jumpW ops
  case jump => exact stable.popReg ops fun v k => stable.jump k v
  case popap => exact stable.popReg ops fun v k => stable.ap k v
  case pops => exact stable.popReg ops fun v k => stable.s k v
  case popd => exact stable.popReg ops fun v k => stable.d k v
  case discardW | allocW | loadspW => exact stable.loadReg ops fun _ k => stable.sp k _
  case loadsW => exact stable.loadReg ops fun v k holds => stable.s _ v (stable.ra k v holds)
  case loaddW => exact stable.loadReg ops fun v k holds => stable.d _ v (stable.ra k v holds)
  case blinkW => exact stable.loadReg ops fun v k => stable.ra k v
  case discardB | allocB => exact .modify fun k => stable.sp k _
  case ei | di => exact .modify fun k => stable.intEnabled k _
  case ec | dc => exact .modify fun k => stable.commitEnabled k _
  case syscallOp => exact .modify fun k => stable.demux k _
  case incs | decs => exact .modify fun k => stable.s k _
  case incd | decd => exact .modify fun k => stable.d k _
  case mmuon | mmuoff => exact .modify fun k => stable.mmuEnabled k _
  case store | iostore => exact stable.store ops _
  case rstore | iorstore => exact stable.rstore ops _
  case store2 => exact stable.store2 ops
  case rstore2 => exact stable.rstore2 ops
  case dupOp => exact stable.dup ops
  case pushc => exact stable.pushCommit ops
  case iloadspW => exact stable.iloadspW ops
  case storespW => exact stable.storespW ops
  case swpB => exact stable.swpB ops
  case sdm => exact stable.sdm ops
  case sdmi => exact .bind (stable.sdm ops) fun _ => .modify fun k holds => stable.d _ _ (stable.s k _ holds)
  case iostoreB => exact stable.iostoreB ops
  case ioread => exact stable.ioread ops
  case ioreadB => exact stable.ioreadB ops
  case istorespW | swp | swpW => exact stable.notImplemented ops

/-- **One instruction**, where its operation keeps the invariant. -/
theorem executeInstruction (keeps : ∀ op, Preserved inv (Sim.instruction ops op)) :
    Preserved inv (executeInstruction ops) := by
  refine .get fun _ => .bind (stable.memRead ops _ .code) fun ir =>
    .bind (.modify fun k holds => stable.pc _ _ (stable.ir k ir holds)) fun _ => .bind ?_ fun _ => .modify stable.settle
  unfold perform
  split
  · exact keeps _
  · exact stable.notImplemented ops

end Stable

end RlCpu.Sim
