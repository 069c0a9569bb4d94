/-
**Calls and returns of the processor.**

`Executes D k t`: the processor `k` has executed one instruction, without an interrupt, and is `t`. What it did is
read off the result: an access that returned found its address (`memRead_returns`, `memWrite_returns`).

* `enter_returns`: the frame that a call has put on the stack.
* `Executes.ret`: what `ret` makes of the four words below `BP`.
* `Plain.bp`: the instructions that leave `BP` alone.

A word of the data segment is looked at through the MMU: `k.Holds addr val`. Words in a row are at different physical
addresses, as those agree with the addresses in the low 12 bits (`Cpu.Reads.offset`).
-/

import RlCpu.Sim.Interrupt

namespace RlCpu.Sim

open RlCpu.Kernel RlCpu.Lib RlCpu.Lib.Abort

variable {ι : Type} {D : Devices ι} {k t u r w : Cpu (Demux ι)}

/-! ### What an access has found -/

namespace Demux

variable {α : Type} {denied effAddr : Nat} {selector : Word} {enabled : Bool} {m m' : Demux ι} {v : α}
  {use : Nat → Demux ι → Except Fault α × Demux ι}

theorem access_returns (run : (access denied effAddr selector enabled use).exec m = (.ok v, m')) :
    ∃ a, m.translate denied effAddr selector enabled = .ok a ∧ a.testBit 20 = false ∧ use a m = (.ok v, m') := by
  dsimp only [access, Abort.exec, ExceptT.run, StateT.run] at run
  split at run
  case h_1 a found =>
    split at run
    case isTrue => cases (Prod.mk.inj run).1
    case isFalse inRam => exact ⟨a, found, by simpa using inRam, run⟩
  case h_2 => cases (Prod.mk.inj run).1
  case h_3 => cases (Prod.mk.inj run).1

end Demux

section Accesses

variable {seg : Seg} {addr : Nat} {val v : Word}

theorem memRead_returns (memory : seg ≠ .io) (run : (memRead (demuxOps D) addr seg).exec k = (.ok v, t)) :
    ∃ a, k.Reads seg addr a ∧ v = k.demux.ram a ∧ t = k := by
  unfold memRead at run
  rw [exec_bind_ok (exec_get k), exec_onDemux] at run
  obtain ⟨value, state⟩ := Prod.mk.inj run
  have read : (Demux.memRead D (effAddr seg addr) k.mmuEntrySelector k.mmuEnabled).exec k.demux =
      (.ok v, ((Demux.memRead D (effAddr seg addr) k.mmuEntrySelector k.mmuEnabled).exec k.demux).2) :=
    Prod.ext value rfl
  unfold Demux.memRead at read
  rw [if_neg (by rw [effAddr_testBit memory]; decide)] at read
  obtain ⟨a, found, inRam, use⟩ := Demux.access_returns read
  refine ⟨a, ⟨memory, found, inRam⟩, (Except.ok.inj (Prod.mk.inj use).1).symm, ?_⟩
  have reads : k.Reads seg addr a := ⟨memory, found, inRam⟩
  have whole : (memRead (demuxOps D) addr seg).exec k = (.ok (k.demux.ram a), k) := exec_memRead reads
  unfold memRead at whole
  rw [exec_bind_ok (exec_get k), exec_onDemux] at whole
  exact state.symm.trans (Prod.mk.inj whole).2

theorem memWrite_returns (memory : seg ≠ .io) (run : (memWrite (demuxOps D) addr val seg).exec k = (.ok (), t)) :
    ∃ a, k.Writes seg addr a ∧ t = k.putRam a val := by
  have run' := run
  unfold memWrite at run'
  rw [exec_bind_ok (exec_get k), exec_onDemux] at run'
  have write : (Demux.memWrite D (effAddr seg addr) val k.mmuEntrySelector k.mmuEnabled).exec k.demux =
      (.ok (), ((Demux.memWrite D (effAddr seg addr) val k.mmuEntrySelector k.mmuEnabled).exec k.demux).2) :=
    Prod.ext (Prod.mk.inj run').1 rfl
  unfold Demux.memWrite at write
  rw [if_neg (by rw [effAddr_testBit memory]; decide)] at write
  obtain ⟨a, found, inRam, -⟩ := Demux.access_returns write
  have writes : k.Writes seg addr a := ⟨memory, found, inRam⟩
  exact ⟨a, writes, (Prod.mk.inj (run.symm.trans (exec_memWrite val writes))).2⟩

theorem push_returns (run : (push (demuxOps D) val).exec k = (.ok (), t)) :
    ∃ a, k.Writes .data k.sp.toNat a ∧ t = (k.putRam a val).withSP (k.sp + 1) := by
  unfold push at run
  obtain ⟨_, s, got, run⟩ := exec_bind_returns run
  obtain ⟨rfl, rfl⟩ : _ ∧ _ := ⟨Except.ok.inj (Prod.mk.inj got).1, (Prod.mk.inj got).2⟩
  obtain ⟨_, s, wrote, run⟩ := exec_bind_returns run
  obtain ⟨a, writes, rfl⟩ := memWrite_returns (by decide) wrote
  exact ⟨a, writes, (Prod.mk.inj run).2.symm⟩

theorem pop_returns (run : (pop (demuxOps D)).exec k = (.ok v, t)) :
    ∃ a, k.Reads .data (k.sp - 1).toNat a ∧ v = k.demux.ram a ∧ t = k.withSP (k.sp - 1) := by
  unfold pop at run
  rw [exec_bind_ok (exec_modify _ k), exec_bind_ok (exec_get _)] at run
  obtain ⟨a, reads, value, state⟩ := memRead_returns (by decide) run
  exact ⟨a, reads.congr rfl rfl rfl, value, state⟩

theorem operand_returns (run : (operand (demuxOps D)).exec k = (.ok v, t)) :
    ∃ a, k.Reads .code k.pc a ∧ v = k.demux.ram a ∧ t = k.withPC (k.pc + 1) := by
  unfold operand at run
  rw [exec_bind_ok (exec_get k)] at run
  obtain ⟨_, s, read, run⟩ := exec_bind_returns run
  obtain ⟨a, reads, rfl, rfl⟩ := memRead_returns (by decide) read
  rw [exec_bind_ok (exec_modify _ _), exec_pure] at run
  obtain ⟨value, state⟩ := Prod.mk.inj run
  exact ⟨a, reads, (Except.ok.inj value).symm, state.symm⟩

theorem pushReg_returns {f : Cpu (Demux ι) → Word} (run : (pushReg (demuxOps D) f).exec k = (.ok (), t)) :
    ∃ a, k.Writes .data k.sp.toNat a ∧ t = (k.putRam a (f k)).withSP (k.sp + 1) := by
  unfold pushReg at run
  rw [exec_bind_ok (exec_get k)] at run
  exact push_returns run

end Accesses

/-! ### Words of the data segment and of the code -/

namespace Cpu

/-- The word at an address of the data segment is `val`. -/
def Holds (k : Cpu (Demux ι)) (addr val : Word) : Prop := ∃ a, k.Reads .data addr.toNat a ∧ k.demux.ram a = val

/-- The word of code `i` words from `PC` on is `val`. -/
def Code (k : Cpu (Demux ι)) (i : Nat) (val : Word) : Prop := ∃ a, k.Reads .code (k.pc + i) a ∧ k.demux.ram a = val

section Reads

variable {seg : Seg} {addr a b : Nat} {x y : Word}

/-- An address is found in one place. -/
theorem Reads.unique (first : k.Reads seg addr a) (second : k.Reads seg addr b) : a = b :=
  Except.ok.inj (first.found.symm.trans second.found)

theorem translate_offset {m : Demux ι} {denied effAddr : Nat} {selector : Word} {enabled : Bool}
    (found : m.translate denied effAddr selector enabled = .ok a) : a % 4096 = effAddr % 4096 := by
  unfold Demux.translate at found
  split at found
  case isTrue =>
    split at found
    case isTrue => cases found
    case isFalse =>
      split at found
      case isTrue => cases found
      case isFalse =>
        obtain rfl := Except.ok.inj found
        unfold Demux.getRealAddress
        have page : ((m.table (getRealPage effAddr selector)).toNat &&& 0x1fff) <<< 12 % 4096 = 0 := by
          rw [Nat.shiftLeft_eq]
          exact Nat.mul_mod_left _ _
        have low : effAddr &&& 0xfff = effAddr % 4096 := Nat.and_two_pow_sub_one_eq_mod effAddr 12
        rw [show 4096 = 2 ^ 12 from rfl] at page low ⊢
        rw [Nat.or_mod_two_pow, page, Nat.or_zero, low, Nat.mod_mod]
  case isFalse =>
    obtain rfl := Except.ok.inj found
    rw [Nat.and_two_pow_sub_one_eq_mod effAddr 16]
    omega

/-- The low 12 bits of an address stay. -/
theorem Reads.offset (reads : k.Reads .data addr a) : a % 4096 = addr % 4096 := by
  have found := translate_offset reads.found
  rw [found]
  show (addr &&& 0xffff) % 4096 = _
  rw [Nat.and_two_pow_sub_one_eq_mod addr 16]
  omega

/-- Words in a row are in different places. -/
theorem reads_ne {base : Word} {i j : Nat} (near : i < 4096) (near' : j < 4096) (ne : i ≠ j)
    (first : k.Reads .data (base + BitVec.ofNat 16 i).toNat a) (second : t.Reads .data (base + BitVec.ofNat 16 j).toNat b) :
    a ≠ b := by
  intro same
  have offsets := first.offset.symm.trans ((congrArg (· % 4096) same).trans second.offset)
  rw [BitVec.toNat_add, BitVec.toNat_add, BitVec.toNat_ofNat, BitVec.toNat_ofNat] at offsets
  omega

theorem Holds.unique (first : k.Holds x y) {z : Word} (second : k.Holds x z) : y = z := by
  obtain ⟨a, reads, rfl⟩ := first
  obtain ⟨b, reads', rfl⟩ := second
  rw [reads.unique reads']

theorem Holds.congr (holds : k.Holds x y) (ram : t.demux.ram = k.demux.ram) (table : t.demux.table = k.demux.table)
    (enabled : t.mmuEnabled = k.mmuEnabled) (selector : t.mmuEntrySelector = k.mmuEntrySelector) : t.Holds x y := by
  obtain ⟨a, reads, word⟩ := holds
  exact ⟨a, reads.congr table enabled selector, by rw [ram, word]⟩

theorem Holds.fetched (holds : k.Holds x y) (ir : Word) : (k.fetched ir).Holds x y := holds.congr rfl rfl rfl rfl

end Reads

end Cpu

/-! ### One instruction -/

/-- One instruction, without an interrupt. -/
def Executes (D : Devices ι) (k t : Cpu (Demux ι)) : Prop := (executeInstruction (demuxOps D)).exec k = (.ok (), t)

/-- The operation of the next instruction is `op`. -/
def Cpu.NextOp (k : Cpu (Demux ι)) (op : Op) (ir : Word) : Prop :=
  k.Code 0 ir ∧ Op.decode (ir &&& (0xff : Word)).toNat = some op

section Instruction

variable {op : Op} {ir : Word}

theorem Executes.performed (next : k.NextOp op ir) (executes : Executes D k t) :
    ∃ u shadow, (instruction (demuxOps D) op).exec (k.fetched ir) = (.ok (), u) ∧ t = u.withShadow shadow := by
  obtain ⟨⟨a, reads, rfl⟩, decodes⟩ := next
  rw [Nat.add_zero] at reads
  unfold Executes executeInstruction at executes
  rw [exec_bind_ok (exec_get k), exec_bind_ok (exec_memRead reads), exec_bind_ok (exec_modify _ k)] at executes
  obtain ⟨_, u, run, last⟩ := exec_bind_returns executes
  unfold perform at run
  rw [decodes] at run
  obtain ⟨shadow, same⟩ := settle_shadow u
  exact ⟨u, shadow, run, (Prod.mk.inj last).2.symm.trans same⟩

theorem Executes.of_run (next : k.NextOp op ir) (run : (instruction (demuxOps D) op).exec (k.fetched ir) = (.ok (), u)) :
    ∃ shadow, Executes D k (u.withShadow shadow) := by
  obtain ⟨⟨a, reads, rfl⟩, decodes⟩ := next
  obtain ⟨shadow, same⟩ := settle_shadow u
  exact ⟨shadow, same ▸ exec_executeInstruction reads decodes run⟩

/-- **An instruction that leaves `BP` alone.** -/
def Plain (D : Devices ι) (k t : Cpu (Demux ι)) : Prop :=
  ∃ op ir, k.NextOp op ir ∧ op.framed = false ∧ Executes D k t

theorem bp_stable (b : Word) : Stable fun k : Cpu (Demux ι) => k.bp = b where
  ra _ _ same := same
  rb _ _ same := same
  ap _ _ same := same
  sp _ _ same := same
  pc _ _ same := same
  ir _ _ same := same
  s _ _ same := same
  d _ _ same := same
  commitEnabled _ _ same := same
  intEnabled _ _ same := same
  mmuEnabled _ _ same := same
  demux _ _ same := same
  commit _ same := same

theorem Plain.bp (plain : Plain D k t) : t.bp = k.bp := by
  obtain ⟨op, ir, next, plain, executes⟩ := plain
  obtain ⟨u, shadow, run, rfl⟩ := executes.performed next
  have kept := (bp_stable k.bp).instruction (demuxOps D) op plain (k.fetched ir) rfl
  rw [run] at kept
  exact kept

end Instruction

/-! ### Pushes -/

/-- Only the stack pointer and the memory are others. -/
structure Pushed (k t : Cpu (Demux ι)) : Prop where
  table : t.demux.table = k.demux.table
  enabled : t.mmuEnabled = k.mmuEnabled
  selector : t.mmuEntrySelector = k.mmuEntrySelector
  pc : t.pc = k.pc
  ap : t.ap = k.ap
  bp : t.bp = k.bp

theorem Pushed.trans (first : Pushed k t) (second : Pushed t u) : Pushed k u :=
  ⟨second.table.trans first.table, second.enabled.trans first.enabled, second.selector.trans first.selector,
    second.pc.trans first.pc, second.ap.trans first.ap, second.bp.trans first.bp⟩

theorem Pushed.word (k : Cpu (Demux ι)) (a : Nat) (val sp : Word) : Pushed k ((k.putRam a val).withSP sp) :=
  ⟨rfl, rfl, rfl, rfl, rfl, rfl⟩

/-! ### A call -/

/-- **A call has put its frame at `base`**: the return position, `AP` and `BP`, at the physical addresses `a`. -/
structure Entered (k t : Cpu (Demux ι)) (base target : Word) (a : Nat → Nat) : Prop where
  writes : ∀ i < 4, k.Writes .data (base + BitVec.ofNat 16 i).toNat (a i)
  ram : t.demux.ram = Function.update (Function.update (Function.update (Function.update k.demux.ram
    (a 0) k.highPC) (a 1) k.mPC) (a 2) k.ap) (a 3) k.bp
  table : t.demux.table = k.demux.table
  enabled : t.mmuEnabled = k.mmuEnabled
  selector : t.mmuEntrySelector = k.mmuEntrySelector
  bp : t.bp = base + 4
  sp : t.sp = base + 4
  ap : t.ap = k.bp
  pc : t.pc = target.toNat * 8

theorem enter_returns {words target : Word} (run : (enter (demuxOps D) words target).exec k = (.ok (), t)) :
    ∃ a, Entered k t (k.sp + words) target a := by
  unfold enter at run
  rw [exec_bind_ok (exec_modify _ k)] at run
  obtain ⟨_, s1, push, run⟩ := exec_bind_returns run
  obtain ⟨a0, w0, made1⟩ := pushReg_returns push
  obtain ⟨_, s2, push, run⟩ := exec_bind_returns run
  obtain ⟨a1, w1, made2⟩ := pushReg_returns push
  obtain ⟨_, s3, push, run⟩ := exec_bind_returns run
  obtain ⟨a2, w2, made3⟩ := pushReg_returns push
  obtain ⟨_, s4, push, run⟩ := exec_bind_returns run
  obtain ⟨a3, w3, made4⟩ := pushReg_returns push
  rw [exec_bind_ok (exec_modify _ _), exec_bind_ok (exec_modify _ _), exec_modify] at run
  obtain rfl := (Prod.mk.inj run).2
  have moved1 : Pushed k s1 := made1 ▸ ⟨rfl, rfl, rfl, rfl, rfl, rfl⟩
  have moved2 : Pushed k s2 := moved1.trans (made2 ▸ .word s1 _ _ _)
  have moved3 : Pushed k s3 := moved2.trans (made3 ▸ .word s2 _ _ _)
  have moved4 : Pushed k s4 := moved3.trans (made4 ▸ .word s3 _ _ _)
  have sp1 : s1.sp = k.sp + words + 1 := by rw [made1]; rfl
  have sp2 : s2.sp = k.sp + words + 2 := by rw [made2, Cpu.withSP_sp, sp1, BitVec.add_assoc]; rfl
  have sp3 : s3.sp = k.sp + words + 3 := by rw [made3, Cpu.withSP_sp, sp2, BitVec.add_assoc]; rfl
  have sp4 : s4.sp = k.sp + words + 4 := by rw [made4, Cpu.withSP_sp, sp3, BitVec.add_assoc]; rfl
  have ram1 : s1.demux.ram = Function.update k.demux.ram a0 k.highPC := by rw [made1]; rfl
  have ram2 : s2.demux.ram = Function.update s1.demux.ram a1 k.mPC := by
    rw [made2, ← show s1.mPC = k.mPC by unfold Cpu.mPC; rw [moved1.pc]]
    rfl
  have ram3 : s3.demux.ram = Function.update s2.demux.ram a2 k.ap := by rw [made3, moved2.ap]; rfl
  have ram4 : s4.demux.ram = Function.update s3.demux.ram a3 k.bp := by rw [made4, moved3.bp]; rfl
  rw [sp1] at w1
  rw [sp2] at w2
  rw [sp3] at w3
  have start : (k.sp + words).toNat = (k.sp + words + BitVec.ofNat 16 0).toNat := by rw [BitVec.add_zero]
  refine ⟨fun i => if i = 0 then a0 else if i = 1 then a1 else if i = 2 then a2 else a3, ?_, ?_, moved4.table,
    moved4.enabled, moved4.selector, sp4, sp4, moved4.bp, Cpu.jump_pc _ target⟩
  · intro i low
    obtain rfl | rfl | rfl | rfl : i = 0 ∨ i = 1 ∨ i = 2 ∨ i = 3 := by omega
    · exact start ▸ w0.congr rfl rfl rfl
    · exact w1.congr moved1.table.symm moved1.enabled.symm moved1.selector.symm
    · exact w2.congr moved2.table.symm moved2.enabled.symm moved2.selector.symm
    · exact w3.congr moved3.table.symm moved3.enabled.symm moved3.selector.symm
  · show s4.demux.ram = _
    rw [ram4, ram3, ram2, ram1]
    rfl

theorem Entered.withShadow {base target : Word} {a : Nat → Nat} (entered : Entered k t base target a)
    (shadow : Shadow) : Entered k (t.withShadow shadow) base target a :=
  ⟨entered.writes, entered.ram, entered.table, entered.enabled, entered.selector, entered.bp, entered.sp, entered.ap,
    entered.pc⟩

/-- The words of the frame can be read. -/
theorem Entered.holds {base target : Word} {a : Nat → Nat} (entered : Entered k t base target a) :
    t.Holds (base + BitVec.ofNat 16 0) k.highPC ∧ t.Holds (base + BitVec.ofNat 16 1) k.mPC ∧
      t.Holds (base + BitVec.ofNat 16 2) k.ap ∧ t.Holds (base + BitVec.ofNat 16 3) k.bp := by
  have reads : ∀ i < 4, t.Reads .data (base + BitVec.ofNat 16 i).toNat (a i) := fun i low =>
    (entered.writes i low).reads.congr entered.table entered.enabled entered.selector
  have apart : ∀ i < 4, ∀ j < 4, i ≠ j → a i ≠ a j := fun i low j low' ne =>
    Cpu.reads_ne (by omega) (by omega) ne (reads i low) (reads j low')
  refine ⟨⟨a 0, reads 0 (by decide), ?_⟩, ⟨a 1, reads 1 (by decide), ?_⟩, ⟨a 2, reads 2 (by decide), ?_⟩,
    ⟨a 3, reads 3 (by decide), ?_⟩⟩
  all_goals rw [entered.ram]
  · rw [Function.update_of_ne (apart 0 (by decide) 3 (by decide) (by decide)),
      Function.update_of_ne (apart 0 (by decide) 2 (by decide) (by decide)),
      Function.update_of_ne (apart 0 (by decide) 1 (by decide) (by decide)), Function.update_self]
  · rw [Function.update_of_ne (apart 1 (by decide) 3 (by decide) (by decide)),
      Function.update_of_ne (apart 1 (by decide) 2 (by decide) (by decide)), Function.update_self]
  · rw [Function.update_of_ne (apart 2 (by decide) 3 (by decide) (by decide)), Function.update_self]
  · rw [Function.update_self]

/-- No other word is changed. -/
theorem Entered.others {base target : Word} {a : Nat → Nat} (entered : Entered k t base target a) {b : Nat}
    (away : ∀ i < 4, ¬ k.Reads .data (base + BitVec.ofNat 16 i).toNat b) : t.demux.ram b = k.demux.ram b := by
  have ne : ∀ i < 4, b ≠ a i := fun i low same => away i low (same ▸ (entered.writes i low).reads)
  rw [entered.ram, Function.update_of_ne (ne 3 (by decide)), Function.update_of_ne (ne 2 (by decide)),
    Function.update_of_ne (ne 1 (by decide)), Function.update_of_ne (ne 0 (by decide))]

/-! ### A return -/

theorem exec_pop_holds {v : Word} (holds : k.Holds (k.sp - 1) v) :
    (pop (demuxOps D)).exec k = (.ok v, k.withSP (k.sp - 1)) := by
  obtain ⟨a, reads, rfl⟩ := holds
  exact exec_pop reads

/-- **What `ret` makes of the four words below `BP`.** -/
theorem exec_ret_holds {bp ap mPC hPC : Word} (isBP : k.Holds (k.bp - 1) bp) (isAP : k.Holds (k.bp - 2) ap)
    (isMPC : k.Holds (k.bp - 3) mPC) (isHPC : k.Holds (k.bp - 4) hPC) :
    ∃ t, (ret (demuxOps D)).exec k = (.ok (), t) ∧ t.bp = bp ∧ t.ap = ap ∧ t.sp = k.bp - 4 ∧
      t.pc = hPC.toNat * 8 + mPC.toNat % 8 ∧ t.demux = k.demux ∧ t.mmuEnabled = k.mmuEnabled ∧
      t.mmuEntrySelector = k.mmuEntrySelector := by
  obtain ⟨k0, made0⟩ : ∃ u, u = k.withSP k.bp := ⟨_, rfl⟩
  obtain ⟨k1, made1⟩ : ∃ u, u = (k0.withSP (k0.sp - 1)).withBP bp := ⟨_, rfl⟩
  obtain ⟨k2, made2⟩ : ∃ u, u = (k1.withSP (k1.sp - 1)).withAP ap := ⟨_, rfl⟩
  obtain ⟨k3, made3⟩ : ∃ u, u = (k2.withSP (k2.sp - 1)).setMPC mPC := ⟨_, rfl⟩
  have sp0 : k0.sp = k.bp := by rw [made0]; rfl
  have sp1 : k1.sp = k.bp - 1 := by rw [made1, Cpu.withBP_sp, Cpu.withSP_sp, sp0]
  have sp2 : k2.sp = k.bp - 2 := by rw [made2, Cpu.withAP_sp, Cpu.withSP_sp, sp1]; bv_omega
  have sp3 : k3.sp = k.bp - 3 := by
    rw [made3, Cpu.setMPC, Cpu.withPC_sp, Cpu.withSP_sp, sp2]
    bv_omega
  have holds0 : k0.Holds (k0.sp - 1) bp := sp0 ▸ isBP.congr (by rw [made0]; rfl) (by rw [made0]; rfl)
    (by rw [made0]; rfl) (by rw [made0]; rfl)
  have holds1 : k1.Holds (k1.sp - 1) ap := by
    rw [sp1, show k.bp - 1 - 1 = k.bp - 2 by bv_omega]
    exact isAP.congr (by rw [made1, made0]; rfl) (by rw [made1, made0]; rfl) (by rw [made1, made0]; rfl)
      (by rw [made1, made0]; rfl)
  have demux2 : k2.demux = k.demux := by rw [made2, made1, made0]; rfl
  have enabled2 : k2.mmuEnabled = k.mmuEnabled := by rw [made2, made1, made0]; rfl
  have selector2 : k2.mmuEntrySelector = k.mmuEntrySelector := by rw [made2, made1, made0]; rfl
  have demux3 : k3.demux = k.demux := by rw [made3]; exact demux2
  have enabled3 : k3.mmuEnabled = k.mmuEnabled := by rw [made3]; exact enabled2
  have selector3 : k3.mmuEntrySelector = k.mmuEntrySelector := by rw [made3]; exact selector2
  have holds2 : k2.Holds (k2.sp - 1) mPC := by
    rw [sp2, show k.bp - 2 - 1 = k.bp - 3 by bv_omega]
    exact isMPC.congr (by rw [demux2]) (by rw [demux2]) enabled2 selector2
  have holds3 : k3.Holds (k3.sp - 1) hPC := by
    rw [sp3, show k.bp - 3 - 1 = k.bp - 4 by bv_omega]
    exact isHPC.congr (by rw [demux3]) (by rw [demux3]) enabled3 selector3
  refine ⟨(k3.withSP (k3.sp - 1)).setHighPC hPC, ?_, ?_, ?_, ?_, ?_, demux3, enabled3, selector3⟩
  · unfold ret
    rw [exec_bind_ok (exec_modify _ k), ← made0, exec_bind_ok (exec_pop_holds holds0),
      exec_bind_ok (exec_modify _ _), ← made1, exec_bind_ok (exec_pop_holds holds1),
      exec_bind_ok (exec_modify _ _), ← made2, exec_bind_ok (exec_pop_holds holds2),
      exec_bind_ok (exec_modify _ _), ← made3, exec_bind_ok (exec_pop_holds holds3), exec_modify]
  · simp [Cpu.setHighPC, made3, Cpu.setMPC, made2, made1]
  · simp [Cpu.setHighPC, made3, Cpu.setMPC, made2]
  · rw [Cpu.setHighPC, Cpu.withPC_sp, Cpu.withSP_sp, sp3]
    bv_omega
  · rw [Cpu.setHighPC_pc, Cpu.withSP_pc, made3, Cpu.setMPC_pc]
    omega

/-- The position of a return, from its two words. -/
theorem return_position (k : Cpu (Demux ι)) : k.highPC.toNat * 8 + k.mPC.toNat % 8 = k.pc % 0x80000 := by
  have high : k.highPC.toNat = k.pc / 8 % 65536 := BitVec.toNat_ofNat _ _
  rw [high, Cpu.mPC_toNat]
  omega

end RlCpu.Sim
