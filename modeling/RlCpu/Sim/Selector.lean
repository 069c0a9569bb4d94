/-
**The selector of the MMU is a byte.**

`reset` and the entry of an interrupt clear the selector, and `set_SW` masks it: no other part of the
processor changes it. So it fits the 8 bits that the status word has for it, in every state that the
processor reaches.
-/

import RlCpu.Sim.Stable

namespace RlCpu.Sim

open RlCpu.Kernel RlCpu.Lib RlCpu.Lib.Abort

variable {μ : Type} (ops : DemuxOps μ)

/-- The selector fits a byte. -/
def ByteSelector (k : Cpu μ) : Prop := k.mmuEntrySelector.toNat < 256

theorem masked_byte (v : Word) : (v &&& (0xff : Word)).toNat < 256 := by
  rw [BitVec.toNat_and]
  exact lt_of_le_of_lt Nat.and_le_right (by decide)

theorem setSW_byte (sw : Word) (k : Cpu μ) : ByteSelector (k.setSW sw) := masked_byte sw

theorem byteSelector_stable : Stable (ByteSelector (μ := μ)) where
  ra _ _ byte := byte
  rb _ _ byte := byte
  ap _ _ byte := byte
  sp _ _ byte := byte
  pc _ _ byte := byte
  ir _ _ byte := byte
  s _ _ byte := byte
  d _ _ byte := byte
  commitEnabled _ _ byte := byte
  intEnabled _ _ byte := byte
  mmuEnabled _ _ byte := byte
  demux _ _ byte := byte
  commit _ byte := byte

theorem reti_byte : Preserved ByteSelector (reti ops) := by
  have stable : Stable (ByteSelector (μ := μ)) := byteSelector_stable
  unfold reti
  refine stable.popThen ops (fun _ _ byte => byte) fun _ => stable.popThen ops (fun _ _ byte => byte) fun _ =>
    stable.popThen ops (fun _ _ byte => byte) fun _ => stable.popThen ops (fun _ _ byte => byte) fun _ =>
    stable.popThen ops (fun _ _ byte => byte) fun _ => stable.popThen ops (fun _ _ byte => byte) fun _ =>
    .bind (stable.pop ops) fun sw => .bind (.modify fun k _ => setSW_byte sw k) fun _ =>
    .modify fun k => stable.sp k _

/-- **Every operation leaves the selector a byte.** -/
theorem instruction_byte (op : Op) : Preserved ByteSelector (instruction ops op) := by
  have stable : Stable (ByteSelector (μ := μ)) := byteSelector_stable
  by_cases plain : op.framed = false
  · exact stable.instruction ops op plain
  · cases op
    case call0 | call1 | call2 =>
      exact .bind (stable.pop ops) fun target => stable.enter ops _ target fun _ byte => byte
    case call0W | call1W | call2W =>
      exact .bind (stable.operand ops) fun target => stable.enter ops _ target fun _ byte => byte
    case ret => exact stable.ret ops fun _ _ byte => byte
    case popbp => exact stable.popReg ops fun _ _ byte => byte
    case reti => exact reti_byte ops
    all_goals exact absurd rfl plain

/-! ### Calls of `execute` -/

theorem takeInterrupt_byte : Preserved ByteSelector (takeInterrupt ops) := by
  refine .modify fun k byte => ?_
  show ByteSelector (if (k.intEnabled && ops.irqLineStatus k.demux) = true then _ else k)
  split
  · exact (show (0 : Word).toNat < 256 by decide)
  · exact byte

/-- **Every call of `execute` leaves the selector a byte**, whether it returns or stops. -/
theorem execute_byte : Preserved ByteSelector (execute ops) :=
  .bind (takeInterrupt_byte ops) fun _ => byteSelector_stable.executeInstruction ops (instruction_byte ops)

end RlCpu.Sim
