/-
**Interrupts are transparent (`execute` of `sim.cpp`, the vectors of `interrupts.s`).**

Every vector of the kernel starts with the same stub: it stores `SP` in the second word of its stack,
loads the stack, pushes the shadow registers around that word, and calls its handler; `reti` takes the
frame apart again. The MMU's vector pushes the page that failed between.

`InStub t words`: the processor runs in the kernel with interrupts off, the words of code ahead are
`words`, and the 12 words of the stack are mapped apart from them. `Saved k t`: the stack of `t` holds the
registers of `k`. `OutsideSame k t`: no memory but the stack has changed.

* `interrupt_transparent`: an interrupt leads to its handler with the registers on the stack, and once the
  handler has returned the rest of the stub restores them.
* `AtRet.returned`: a handler that keeps to the calling convention does return.
* `Step.settled`: the states in which an interrupt may be taken are those after a completed instruction.
-/

import RlCpu.Sim.Access
import RlCpu.Sim.Code
import RlCpu.Sim.StatusWord
import RlCpu.Sim.Selector
import Mathlib.Logic.Relation

namespace RlCpu.Sim

open RlCpu.Kernel RlCpu.Lib RlCpu.Lib.Abort

/-! ### The stub -/

/-- The code of a vector: `__timer_interrupt_vector` and its like, and `__mmu_interrupt_vector`. -/
def vectorStub (mmu : Bool) (stack handler : Word) : List Word :=
  [Op.di.word, Op.storespW.word, stack + 1, Op.loadspW.word, stack, Op.pushc.word] ++
    ((if mmu then [Op.pushmmu.word] else []) ++
      ([Op.ec.word, Op.call0W.word, handler] ++
        ((if mmu then [Op.discardB.wordB 1] else []) ++ [Op.reti.word])))

variable {ι : Type} {dev : Devices ι}

/-- One call of `execute` that returns. -/
def Step (dev : Devices ι) (k t : Cpu (Demux ι)) : Prop :=
  (execute (demuxOps dev)).exec k = (.ok (), t)

/-- Calls of `execute` that return. -/
def Steps (dev : Devices ι) : Cpu (Demux ι) → Cpu (Demux ι) → Prop := Relation.ReflTransGen (Step dev)

/-- The words of an interrupt stack that a stub uses. -/
abbrev frameSize : Nat := 12

/-- The word `i` of the stack. -/
def stackAddr (stack : Word) (i : Nat) : Nat := (stack + BitVec.ofNat 16 i).toNat

/-- The processor runs a stub in the kernel. -/
structure InStub (stack : Word) (data : Nat → Nat) (t : Cpu (Demux ι)) (words : List Word) : Prop where
  quiet : t.intEnabled = false
  kernel : t.mmuEntrySelector = 0
  code : ∀ j (inside : j < words.length), ∃ a, t.Reads .code (t.pc + j) a ∧
    (∀ i < frameSize, a ≠ data i) ∧ t.demux.ram a = words[j]
  stack : ∀ i < frameSize, t.Writes .data (stackAddr stack i) (data i)

/-- The words of the stack are different words of the memory. -/
def StackApart (data : Nat → Nat) : Prop :=
  ∀ i < frameSize, ∀ j < frameSize, data i = data j → i = j

/-- The memory of `t` is that of `k`, but for the stack. -/
def OutsideSame (data : Nat → Nat) (k t : Cpu (Demux ι)) : Prop :=
  ∀ a, (∀ i < frameSize, a ≠ data i) → t.demux.ram a = k.demux.ram a

/-- **The frame on the stack**: the registers of `k` as `reti` takes them. -/
structure Saved (data : Nat → Nat) (k t : Cpu (Demux ι)) : Prop where
  sw : t.demux.ram (data 0) = k.sw
  sp : t.demux.ram (data 1) = k.sp
  hPC : t.demux.ram (data 2) = k.highPC
  bp : t.demux.ram (data 3) = k.bp
  ap : t.demux.ram (data 4) = k.ap
  s : t.demux.ram (data 5) = k.s
  d : t.demux.ram (data 6) = k.d

/-! ### Moving through the stub -/

section Moves

variable {k t u : Cpu (Demux ι)} {stack : Word} {data : Nat → Nat} {words : List Word} {n : Nat}

/-- The stub after `n` of its words, with the memory outside the stack as before. -/
theorem InStub.move (here : InStub stack data t words) (n : Nat) (pc : u.pc = t.pc + n)
    (table : u.demux.table = t.demux.table) (enabled : u.mmuEnabled = t.mmuEnabled)
    (selector : u.mmuEntrySelector = t.mmuEntrySelector) (quiet : u.intEnabled = false)
    (outside : OutsideSame data t u) : InStub stack data u (words.drop n) := by
  refine ⟨quiet, selector.trans here.kernel, fun j inside => ?_, fun i low =>
    (here.stack i low).congr table enabled selector⟩
  rw [List.length_drop] at inside
  obtain ⟨a, reads, apart, word⟩ := here.code (n + j) (by omega)
  refine ⟨a, ?_, apart, ?_⟩
  · rw [pc, Nat.add_assoc]
    exact reads.congr table enabled selector
  · rw [outside a apart, word, List.getElem_drop]

/-- With interrupts off, `execute` is the instruction at `PC`. -/
theorem exec_execute_quiet (quiet : t.intEnabled = false) :
    (execute (demuxOps dev)).exec t = (executeInstruction (demuxOps dev)).exec t := by
  unfold execute takeInterrupt
  rw [exec_bind_ok (exec_modify _ t)]
  simp [quiet]

/-- The first word of the stub. -/
theorem InStub.head {w : Word} {rest : List Word} (here : InStub stack data t (w :: rest)) :
    ∃ a, t.Reads .code t.pc a ∧ t.demux.ram a = w := by
  obtain ⟨a, reads, -, word⟩ := here.code 0 (Nat.succ_pos _)
  exact ⟨a, reads, word⟩

/-- **One instruction of the stub.** -/
theorem InStub.step {op : Op} {w : Word} {rest : List Word} (here : InStub stack data t (w :: rest))
    (decodes : Op.decode (w &&& (0xff : Word)).toNat = some op)
    (run : (instruction (demuxOps dev) op).exec (t.fetched w) = (.ok (), u)) :
    Step dev t u.settle := by
  obtain ⟨a, reads, word⟩ := here.head
  unfold Step
  rw [exec_execute_quiet here.quiet]
  exact exec_executeInstruction reads (word ▸ decodes) (word ▸ run)

/-- The operand of an instruction of the stub. -/
theorem InStub.exec_operand {w v : Word} {rest : List Word} (here : InStub stack data t (w :: v :: rest)) :
    (operand (demuxOps dev)).exec (t.fetched w) = (.ok v, (t.fetched w).withPC (t.pc + 2)) := by
  obtain ⟨a, reads, -, word⟩ := here.code 1 (Nat.succ_lt_succ (Nat.succ_pos _))
  have reads' : (t.fetched w).Reads .code (t.fetched w).pc a := reads.congr rfl rfl rfl
  rw [Sim.exec_operand reads']
  refine Prod.ext ?_ rfl
  exact congrArg Except.ok word

/-- A word pushed. -/
@[simps! ra rb ap bp sp pc ir s d commitEnabled intEnabled userMode mmuEnabled mmuEntrySelector shadow
  demux_ram demux_mmuLastFailPage]
def Cpu.pushed (t : Cpu (Demux ι)) (a : Nat) (val : Word) : Cpu (Demux ι) :=
  (t.putRam a val).withSP (t.sp + 1)

@[simp] theorem Cpu.pushed_table (t : Cpu (Demux ι)) (a : Nat) (val : Word) :
    (t.pushed a val).demux.table = t.demux.table := rfl

theorem exec_pushReg {a : Nat} (f : Cpu (Demux ι) → Word) (writes : t.Writes .data t.sp.toNat a) :
    (pushReg (demuxOps dev) f).exec t = (.ok (), t.pushed a (f t)) := by
  unfold pushReg
  rw [exec_bind_ok (exec_get t)]
  exact exec_push (f t) writes

/-- The stack pointer is at word `i` of the stack. -/
def AtWord (stack : Word) (t : Cpu (Demux ι)) (i : Nat) : Prop := t.sp = stack + BitVec.ofNat 16 i

theorem AtWord.succ {i : Nat} (here : AtWord stack t i) (sp : u.sp = t.sp + 1) :
    AtWord stack u (i + 1) := by
  unfold AtWord at *
  rw [sp, here, BitVec.add_assoc]
  congr 1
  exact (BitVec.ofNat_add i 1).symm

theorem AtWord.pred {i : Nat} (here : AtWord stack t (i + 1)) (sp : u.sp = t.sp - 1) :
    AtWord stack u i := by
  unfold AtWord at *
  rw [sp, here, BitVec.ofNat_add, ← BitVec.add_assoc]
  exact BitVec.add_sub_cancel _ _

theorem AtWord.congr {i : Nat} (here : AtWord stack t i) (sp : u.sp = t.sp) : AtWord stack u i :=
  Eq.trans sp here

theorem AtWord.fetched {i : Nat} (here : AtWord stack t i) (ir : Word) : AtWord stack (t.fetched ir) i :=
  here

/-- What is mapped for the stack. -/
def StackMapped (stack : Word) (data : Nat → Nat) (t : Cpu (Demux ι)) : Prop :=
  ∀ i < frameSize, t.Writes .data (stackAddr stack i) (data i)

theorem StackMapped.congr (mapped : StackMapped stack data t) (table : u.demux.table = t.demux.table)
    (enabled : u.mmuEnabled = t.mmuEnabled) (selector : u.mmuEntrySelector = t.mmuEntrySelector) :
    StackMapped stack data u := fun i low => (mapped i low).congr table enabled selector

theorem StackMapped.pushed (mapped : StackMapped stack data t) (a : Nat) (val : Word) :
    StackMapped stack data (t.pushed a val) := mapped.congr rfl rfl rfl

/-- The stack is mapped for an instruction of the stub. -/
theorem InStub.mapped (here : InStub stack data t words) (ir : Word) :
    StackMapped stack data (t.fetched ir) := StackMapped.congr here.stack rfl rfl rfl

theorem exec_pushWord {i : Nat} (f : Cpu (Demux ι) → Word) (mapped : StackMapped stack data t)
    (low : i < frameSize) (here : AtWord stack t i) :
    (pushReg (demuxOps dev) f).exec t = (.ok (), t.pushed (data i) (f t)) := by
  refine exec_pushReg f ?_
  rw [here]
  exact mapped i low

/-- A word of the stack is popped. -/
theorem exec_popWord {i : Nat} (mapped : StackMapped stack data t) (low : i < frameSize)
    (here : AtWord stack t (i + 1)) :
    (pop (demuxOps dev)).exec t = (.ok (t.demux.ram (data i)), t.withSP (t.sp - 1)) := by
  refine exec_pop ?_
  have sp : t.sp - 1 = stack + BitVec.ofNat 16 i := here.pred (u := t.withSP (t.sp - 1)) rfl
  rw [sp]
  exact (mapped i low).reads

theorem settle_off (off : t.commitEnabled = false) : t.settle = t := by
  unfold Cpu.settle
  rw [off]
  rfl

theorem settle_on (on : t.commitEnabled = true) : t.settle = t.commit := by
  unfold Cpu.settle
  rw [on]
  rfl

theorem OutsideSame.trans {v : Cpu (Demux ι)} (first : OutsideSame data t u)
    (second : OutsideSame data u v) : OutsideSame data t v :=
  fun a apart => (second a apart).trans (first a apart)

theorem OutsideSame.refl (t : Cpu (Demux ι)) : OutsideSame data t t := fun _ _ => rfl

theorem OutsideSame.pushed {i : Nat} (low : i < frameSize) (val : Word) :
    OutsideSame data t (t.pushed (data i) val) :=
  fun _ apart => Function.update_of_ne (apart i low) _ _

end Moves

/-! ### The instructions of the stub -/

section Instructions

variable {k t u : Cpu (Demux ι)} {stack : Word} {data : Nat → Nat} {rest : List Word} {n : Nat}

theorem InStub.di (here : InStub stack data t (Op.di.word :: rest)) (off : t.commitEnabled = false) :
    Step dev t ((t.fetched Op.di.word).withIntEnabled false) := by
  have run : (instruction (demuxOps dev) .di).exec (t.fetched Op.di.word) =
      (.ok (), (t.fetched Op.di.word).withIntEnabled false) := rfl
  have step := here.step (Op.decode_word _) run
  rwa [settle_off (by exact off)] at step

/-- `storesp_w` with the second word of the stack. -/
theorem InStub.storesp (here : InStub stack data t (Op.storespW.word :: (stack + 1) :: rest))
    (off : t.commitEnabled = false) :
    Step dev t ((((t.fetched Op.storespW.word).withPC (t.pc + 2)).withRA (stack + 1)).putRam (data 1)
      t.sp) := by
  have writes : (((t.fetched Op.storespW.word).withPC (t.pc + 2)).withRA (stack + 1)).Writes .data
      (stack + 1).toNat (data 1) := (here.stack 1 (by decide)).congr rfl rfl rfl
  have run : (instruction (demuxOps dev) .storespW).exec (t.fetched Op.storespW.word) = (.ok (),
      (((t.fetched Op.storespW.word).withPC (t.pc + 2)).withRA (stack + 1)).putRam (data 1) t.sp) := by
    show (storespW (demuxOps dev)).exec _ = _
    unfold storespW
    rw [exec_bind_ok here.exec_operand, exec_bind_ok (exec_modify _ _), exec_bind_ok (exec_get _)]
    exact exec_memWrite t.sp writes
  have step := here.step (Op.decode_word _) run
  rwa [settle_off (by exact off)] at step

theorem InStub.loadsp {val : Word} (here : InStub stack data t (Op.loadspW.word :: val :: rest))
    (off : t.commitEnabled = false) :
    Step dev t (((t.fetched Op.loadspW.word).withPC (t.pc + 2)).withSP val) := by
  have run : (instruction (demuxOps dev) .loadspW).exec (t.fetched Op.loadspW.word) =
      (.ok (), ((t.fetched Op.loadspW.word).withPC (t.pc + 2)).withSP val) := by
    show (loadReg (demuxOps dev) _).exec _ = _
    unfold loadReg
    rw [exec_bind_ok here.exec_operand, exec_modify]
  have step := here.step (Op.decode_word _) run
  rwa [settle_off (by exact off)] at step

/-- What `pushc` leaves of `t` with the stack pointer at the start of the stack. -/
def pushedFrame (data : Nat → Nat) (t : Cpu (Demux ι)) : Cpu (Demux ι) :=
  let first := t.pushed (data 0) t.shadow.sw
  (((((first.withSP (first.sp + 1)).pushed (data 2) t.shadow.hPC).pushed (data 3) t.shadow.bp).pushed
    (data 4) t.shadow.ap).pushed (data 5) t.shadow.s).pushed (data 6) t.shadow.d

theorem exec_pushCommit (mapped : StackMapped stack data t) (at0 : AtWord stack t 0) :
    (pushCommit (demuxOps dev)).exec t = (.ok (), pushedFrame data t) := by
  have at1 : AtWord stack (t.pushed (data 0) t.shadow.sw) 1 := at0.succ rfl
  obtain ⟨t2, made2⟩ : ∃ u, u = (t.pushed (data 0) t.shadow.sw).withSP
    ((t.pushed (data 0) t.shadow.sw).sp + 1) := ⟨_, rfl⟩
  have at2 : AtWord stack t2 2 := at1.succ (by rw [made2]; rfl)
  have mapped2 : StackMapped stack data t2 :=
    mapped.congr (by rw [made2]; rfl) (by rw [made2]; rfl) (by rw [made2]; rfl)
  have at3 : ∀ hPC, AtWord stack (t2.pushed (data 2) hPC) 3 := fun _ => at2.succ rfl
  have at4 : ∀ hPC bp, AtWord stack ((t2.pushed (data 2) hPC).pushed (data 3) bp) 4 :=
    fun hPC _ => (at3 hPC).succ rfl
  have at5 : ∀ hPC bp ap, AtWord stack (((t2.pushed (data 2) hPC).pushed (data 3) bp).pushed
      (data 4) ap) 5 :=
    fun hPC bp _ => (at4 hPC bp).succ rfl
  have at6 : ∀ hPC bp ap s, AtWord stack ((((t2.pushed (data 2) hPC).pushed (data 3) bp).pushed
      (data 4) ap).pushed (data 5) s) 6 :=
    fun hPC bp ap _ => (at5 hPC bp ap).succ rfl
  unfold pushCommit pushedFrame
  rw [exec_bind_ok (exec_pushWord _ mapped (by decide) at0), exec_bind_ok (exec_modify _ _), ← made2,
    exec_bind_ok (exec_pushWord _ mapped2 (by decide) at2),
    exec_bind_ok (exec_pushWord _ (mapped2.pushed _ _) (by decide) (at3 _)),
    exec_bind_ok (exec_pushWord _ ((mapped2.pushed _ _).pushed _ _) (by decide) (at4 _ _)),
    exec_bind_ok (exec_pushWord _ (((mapped2.pushed _ _).pushed _ _).pushed _ _) (by decide)
      (at5 _ _ _)),
    exec_pushWord _ ((((mapped2.pushed _ _).pushed _ _).pushed _ _).pushed _ _) (by decide)
      (at6 _ _ _ _), made2]
  rfl

theorem InStub.pushc (here : InStub stack data t (Op.pushc.word :: rest)) (off : t.commitEnabled = false)
    (at0 : AtWord stack t 0) : Step dev t (pushedFrame data (t.fetched Op.pushc.word)) := by
  have run : (instruction (demuxOps dev) .pushc).exec (t.fetched Op.pushc.word) =
      (.ok (), pushedFrame data (t.fetched Op.pushc.word)) := by
    show (pushCommit (demuxOps dev)).exec _ = _
    exact exec_pushCommit (here.mapped _) (at0.fetched _)
  have step := here.step (Op.decode_word _) run
  rwa [settle_off (by simpa [pushedFrame] using off)] at step

theorem InStub.pushmmu (here : InStub stack data t (Op.pushmmu.word :: rest))
    (off : t.commitEnabled = false) (at7 : AtWord stack t 7) :
    Step dev t ((t.fetched Op.pushmmu.word).pushed (data 7) t.demux.mmuLastFailPage) := by
  have run : (instruction (demuxOps dev) .pushmmu).exec (t.fetched Op.pushmmu.word) =
      (.ok (), (t.fetched Op.pushmmu.word).pushed (data 7) t.demux.mmuLastFailPage) := by
    show (pushReg (demuxOps dev) fun k => (demuxOps dev).mmuLastFailPage k.demux).exec _ = _
    exact exec_pushWord _ (here.mapped _) (by decide) (at7.fetched _)
  have step := here.step (Op.decode_word _) run
  rwa [settle_off (by simpa using off)] at step

theorem InStub.ec (here : InStub stack data t (Op.ec.word :: rest)) :
    Step dev t ((t.fetched Op.ec.word).withCommitEnabled true).commit :=
  here.step (u := (t.fetched Op.ec.word).withCommitEnabled true) (Op.decode_word _) rfl

/-- What a call leaves of `t`, with the stack pointer at word `n` of the stack. -/
def calledFrame (data : Nat → Nat) (n : Nat) (t : Cpu (Demux ι)) (target : Word) : Cpu (Demux ι) :=
  let pushed := (((t.pushed (data n) t.highPC).pushed (data (n + 1)) t.mPC).pushed (data (n + 2))
    t.ap).pushed (data (n + 3)) t.bp
  ((pushed.withAP t.bp).withBP pushed.sp).jump target

theorem exec_enter (mapped : StackMapped stack data t) (low : n + 3 < frameSize) (atN : AtWord stack t n)
    (target : Word) : (enter (demuxOps dev) 0 target).exec t = (.ok (), calledFrame data n t target) := by
  have same : t.withSP (t.sp + 0) = t := by
    rw [show t.sp + 0 = t.sp from BitVec.add_zero _]
    rfl
  have at1 : ∀ v, AtWord stack (t.pushed (data n) v) (n + 1) := fun _ => atN.succ rfl
  have at2 : ∀ v w, AtWord stack ((t.pushed (data n) v).pushed (data (n + 1)) w) (n + 2) :=
    fun v _ => (at1 v).succ rfl
  have at3 : ∀ v w ap, AtWord stack (((t.pushed (data n) v).pushed (data (n + 1)) w).pushed
      (data (n + 2)) ap) (n + 3) :=
    fun v w _ => (at2 v w).succ rfl
  unfold enter
  rw [exec_bind_ok (exec_modify _ _), same, exec_bind_ok (exec_pushWord _ mapped (by omega) atN),
    exec_bind_ok (exec_pushWord _ (mapped.pushed _ _) (by omega) (at1 _)),
    exec_bind_ok (exec_pushWord _ ((mapped.pushed _ _).pushed _ _) (by omega) (at2 _ _)),
    exec_bind_ok (exec_pushWord _ (((mapped.pushed _ _).pushed _ _).pushed _ _) low (at3 _ _ _)),
    exec_bind_ok (exec_modify _ _), exec_bind_ok (exec_modify _ _), exec_modify]
  unfold calledFrame
  simp only [Cpu.pushed_ap, Cpu.pushed_bp, Cpu.withAP_sp, Cpu.highPC, Cpu.mPC, Cpu.pushed_pc]

theorem InStub.call0W {handler : Word} (here : InStub stack data t (Op.call0W.word :: handler :: rest))
    (low : n + 3 < frameSize) (atN : AtWord stack t n) :
    Step dev t (calledFrame data n ((t.fetched Op.call0W.word).withPC (t.pc + 2)) handler).settle := by
  have mapped : ∀ ir, StackMapped stack data ((t.fetched ir).withPC (t.pc + 2)) :=
    fun ir => (here.mapped ir).congr rfl rfl rfl
  have at' : ∀ ir, AtWord stack ((t.fetched ir).withPC (t.pc + 2)) n := fun _ => atN
  have run : (instruction (demuxOps dev) .call0W).exec (t.fetched Op.call0W.word) =
      (.ok (), calledFrame data n ((t.fetched Op.call0W.word).withPC (t.pc + 2)) handler) := by
    show (callW (demuxOps dev) 0).exec _ = _
    unfold callW
    rw [exec_bind_ok here.exec_operand]
    exact exec_enter (mapped _) low (at' _) handler
  exact here.step (Op.decode_word _) run

theorem InStub.discardB (here : InStub stack data t (Op.discardB.wordB 1 :: rest)) :
    Step dev t ((t.fetched (Op.discardB.wordB 1)).withSP (t.sp - 1)).settle := by
  have high : (t.fetched (Op.discardB.wordB 1)).irHigh = 1 := irHigh_wordB _ .discardB 1 rfl
  have run : (instruction (demuxOps dev) .discardB).exec (t.fetched (Op.discardB.wordB 1)) =
      (.ok (), (t.fetched (Op.discardB.wordB 1)).withSP (t.sp - 1)) := by
    show (modify fun k : Cpu (Demux ι) => k.withSP (k.sp - k.irHigh) :
      Abort Fault (Cpu (Demux ι)) Unit).exec _ = _
    rw [exec_modify, high]
    rfl
  exact here.step (Op.decode_wordB _ _) run

/-- What `reti` makes of `t` when the stack holds the registers of `k`. -/
def retiFrame (k t : Cpu (Demux ι)) : Cpu (Demux ι) :=
  { t with
    d := k.d
    s := k.s
    ap := k.ap
    bp := k.bp
    pc := k.pc
    ra := k.sp
    commitEnabled := k.commitEnabled
    intEnabled := k.intEnabled
    userMode := k.userMode
    mmuEntrySelector := k.mmuEntrySelector
    sp := k.sp }

/-- **`reti` takes the frame apart.** -/
theorem exec_reti (mapped : StackMapped stack data t) (at7 : AtWord stack t 7) (saved : Saved data k t)
    (selector : k.mmuEntrySelector.toNat < 256) (low : k.pc < 0x80000) :
    (reti (demuxOps dev)).exec t = (.ok (), retiFrame k t) := by
  obtain ⟨t6, made6⟩ : ∃ u, u = (t.withSP (t.sp - 1)).withD k.d := ⟨_, rfl⟩
  obtain ⟨t5, made5⟩ : ∃ u, u = (t6.withSP (t6.sp - 1)).withS k.s := ⟨_, rfl⟩
  obtain ⟨t4, made4⟩ : ∃ u, u = (t5.withSP (t5.sp - 1)).withAP k.ap := ⟨_, rfl⟩
  obtain ⟨t3, made3⟩ : ∃ u, u = (t4.withSP (t4.sp - 1)).withBP k.bp := ⟨_, rfl⟩
  obtain ⟨t2, made2⟩ : ∃ u, u = (t3.withSP (t3.sp - 1)).setHighPC k.highPC := ⟨_, rfl⟩
  obtain ⟨t1, made1⟩ : ∃ u, u = (t2.withSP (t2.sp - 1)).withRA k.sp := ⟨_, rfl⟩
  have at6 : AtWord stack t6 6 := at7.pred (by rw [made6]; rfl)
  have at5 : AtWord stack t5 5 := at6.pred (by rw [made5]; rfl)
  have at4 : AtWord stack t4 4 := at5.pred (by rw [made4]; rfl)
  have at3 : AtWord stack t3 3 := at4.pred (by rw [made3]; rfl)
  have at2 : AtWord stack t2 2 := at3.pred (by rw [made2]; rfl)
  have at1 : AtWord stack t1 1 := at2.pred (by rw [made1]; rfl)
  have mapped6 : StackMapped stack data t6 := mapped.congr (by rw [made6]; rfl) (by rw [made6]; rfl)
    (by rw [made6]; rfl)
  have mapped5 : StackMapped stack data t5 := mapped6.congr (by rw [made5]; rfl) (by rw [made5]; rfl)
    (by rw [made5]; rfl)
  have mapped4 : StackMapped stack data t4 := mapped5.congr (by rw [made4]; rfl) (by rw [made4]; rfl)
    (by rw [made4]; rfl)
  have mapped3 : StackMapped stack data t3 := mapped4.congr (by rw [made3]; rfl) (by rw [made3]; rfl)
    (by rw [made3]; rfl)
  have mapped2 : StackMapped stack data t2 := mapped3.congr (by rw [made2]; rfl) (by rw [made2]; rfl)
    (by rw [made2]; rfl)
  have mapped1 : StackMapped stack data t1 := mapped2.congr (by rw [made1]; rfl) (by rw [made1]; rfl)
    (by rw [made1]; rfl)
  have ram6 : t6.demux.ram = t.demux.ram := by rw [made6]; rfl
  have ram5 : t5.demux.ram = t.demux.ram := by rw [made5]; exact ram6
  have ram4 : t4.demux.ram = t.demux.ram := by rw [made4]; exact ram5
  have ram3 : t3.demux.ram = t.demux.ram := by rw [made3]; exact ram4
  have ram2 : t2.demux.ram = t.demux.ram := by rw [made2]; exact ram3
  have ram1 : t1.demux.ram = t.demux.ram := by rw [made1]; exact ram2
  unfold reti
  rw [exec_bind_ok (exec_popWord mapped (by decide) at7), exec_bind_ok (exec_modify _ _), saved.d,
    ← made6, exec_bind_ok (exec_popWord mapped6 (by decide) at6), exec_bind_ok (exec_modify _ _), ram6,
    saved.s, ← made5, exec_bind_ok (exec_popWord mapped5 (by decide) at5),
    exec_bind_ok (exec_modify _ _), ram5, saved.ap, ← made4,
    exec_bind_ok (exec_popWord mapped4 (by decide) at4), exec_bind_ok (exec_modify _ _), ram4, saved.bp,
    ← made3, exec_bind_ok (exec_popWord mapped3 (by decide) at3), exec_bind_ok (exec_modify _ _), ram3,
    saved.hPC, ← made2, exec_bind_ok (exec_popWord mapped2 (by decide) at2),
    exec_bind_ok (exec_modify _ _), ram2, saved.sp, ← made1,
    exec_bind_ok (exec_popWord mapped1 (by decide) at1), exec_bind_ok (exec_modify _ _), ram1, saved.sw,
    exec_modify, Cpu.setSW_sw _ selector]
  have pc : (t1.withSP (t1.sp - 1)).pc % 0x80000 / 8 * 8 + k.pc % 8 = k.pc := by
    rw [Cpu.withSP_pc, made1, made2]
    exact Cpu.pc_restored low _
  rw [pc, made1, made2, made3, made4, made5, made6]
  unfold retiFrame Cpu.setHighPC
  simp only [Cpu.withSP, Cpu.withD, Cpu.withS, Cpu.withAP, Cpu.withBP, Cpu.withPC, Cpu.withRA,
    Cpu.withCommitEnabled, Cpu.withUserMode, Cpu.withIntEnabled, Cpu.withMMUEntrySelector]

theorem InStub.reti (here : InStub stack data t (Op.reti.word :: rest)) (at7 : AtWord stack t 7)
    (saved : Saved data k t) (selector : k.mmuEntrySelector.toNat < 256) (low : k.pc < 0x80000) :
    Step dev t (retiFrame k (t.fetched Op.reti.word)).settle := by
  have saved' : ∀ ir, Saved data k (t.fetched ir) :=
    fun _ => ⟨saved.sw, saved.sp, saved.hPC, saved.bp, saved.ap, saved.s, saved.d⟩
  have run : (instruction (demuxOps dev) .reti).exec (t.fetched Op.reti.word) =
      (.ok (), retiFrame k (t.fetched Op.reti.word)) := by
    show (Sim.reti (demuxOps dev)).exec _ = _
    exact exec_reti (here.mapped _) (at7.fetched _) (saved' _) selector low
  exact here.step (Op.decode_word _) run

end Instructions

/-! ### From the interrupt to the handler -/

section Stub

variable {k t u : Cpu (Demux ι)} {stack handler : Word} {data : Nat → Nat} {rest : List Word} {mmu : Bool}
  {n : Nat}

/-- The processor as it takes an interrupt. -/
def Cpu.taken (k : Cpu (Demux ι)) : Cpu (Demux ι) :=
  (((((k.withUserMode false).withIntEnabled false).withMMUEntrySelector 0).withCommitEnabled
    false).withDemux { k.demux with intCtl := k.demux.intCtl.getIrqVector.2 }).jump
      k.demux.intCtl.getIrqVector.1

/-- The processor as it takes an interrupt: the mode of the kernel, and the registers as they were. -/
theorem taken_mode (k : Cpu (Demux ι)) : k.taken.commitEnabled = false ∧ k.taken.userMode = false ∧
    k.taken.intEnabled = false ∧ k.taken.mmuEntrySelector = 0 ∧ k.taken.sp = k.sp ∧
    k.taken.shadow = k.shadow := by
  simp [Cpu.taken, Cpu.jump, Cpu.resetMPC, Cpu.setHighPC]

theorem taken_demux (k : Cpu (Demux ι)) :
    k.taken.demux = { k.demux with intCtl := k.demux.intCtl.getIrqVector.2 } := by
  simp [Cpu.taken, Cpu.jump, Cpu.resetMPC, Cpu.setHighPC]

/-- With an interrupt pending, `execute` is the first instruction of its vector. -/
theorem exec_execute_taken (enabled : k.intEnabled = true)
    (pending : k.demux.intCtl.irqLineStatus = true) :
    (execute (demuxOps dev)).exec k = (execute (demuxOps dev)).exec k.taken := by
  rw [exec_execute_quiet (t := k.taken) rfl]
  unfold execute takeInterrupt
  rw [exec_bind_ok (exec_modify _ k)]
  have both : (k.intEnabled && (demuxOps dev).irqLineStatus k.demux) = true := by
    rw [enabled]
    exact pending
  rw [if_pos both]
  rfl

/-- The number of words of the frame below the call: `pushmmu` pushes one more. -/
abbrev frameWords (mmu : Bool) : Nat := if mmu then 8 else 7

/-- The words of the stub after its call. -/
def vectorEnd (mmu : Bool) : List Word := (if mmu then [Op.discardB.wordB 1] else []) ++ [Op.reti.word]

/-- The shadow registers hold the registers of `k`. -/
def Shadowed (k t : Cpu (Demux ι)) : Prop := t.shadow = ⟨k.highPC, k.bp, k.ap, k.s, k.d, k.sw⟩

/-- The stub has pushed the frame of `k`, and `n` words with it. -/
structure Framed (stack : Word) (data : Nat → Nat) (k t : Cpu (Demux ι)) (n pc : Nat)
    (words : List Word) : Prop where
  stub : InStub stack data t words
  off : t.commitEnabled = false
  userMode : t.userMode = false
  saved : Saved data k t
  outside : OutsideSame data k t
  sp : AtWord stack t n
  pc : t.pc = pc
  mmuLastFailPage : t.demux.mmuLastFailPage = k.demux.mmuLastFailPage

theorem StackApart.eq_iff (apart : StackApart data) {i j : Nat} (lowI : i < 12) (lowJ : j < 12) :
    data i = data j ↔ i = j :=
  ⟨apart i lowI j lowJ, congrArg data⟩

theorem pushedFrame_outside (t : Cpu (Demux ι)) : OutsideSame data t (pushedFrame data t) := by
  obtain ⟨t2, made2⟩ : ∃ u, u = (t.pushed (data 0) t.shadow.sw).withSP
    ((t.pushed (data 0) t.shadow.sw).sp + 1) := ⟨_, rfl⟩
  have first : OutsideSame data t t2 := made2 ▸ OutsideSame.pushed (by decide) _
  simp only [pushedFrame, ← made2]
  exact first.trans <| (OutsideSame.pushed (by decide) _).trans <|
    (OutsideSame.pushed (by decide) _).trans <| (OutsideSame.pushed (by decide) _).trans <|
    (OutsideSame.pushed (by decide) _).trans (OutsideSame.pushed (by decide) _)

theorem pushedFrame_saved (apart : StackApart data) (shadowed : Shadowed k t)
    (sp : t.demux.ram (data 1) = k.sp) : Saved data k (pushedFrame data t) := by
  have words : ∀ a, (pushedFrame data t).demux.ram a = Function.update (Function.update
      (Function.update (Function.update (Function.update (Function.update t.demux.ram
        (data 0) k.sw) (data 2) k.highPC) (data 3) k.bp) (data 4) k.ap) (data 5) k.s) (data 6) k.d a := by
    intro a
    unfold pushedFrame
    rw [shadowed]
    rfl
  constructor
  all_goals
    rw [words]
    simp [apart.eq_iff, sp]

/-- The registers and the memory from which `pushc` makes the frame of `k`. -/
structure Ready (data : Nat → Nat) (k t : Cpu (Demux ι)) : Prop where
  off : t.commitEnabled = false
  userMode : t.userMode = false
  shadowed : Shadowed k t
  sp : t.demux.ram (data 1) = k.sp
  outside : OutsideSame data k t
  mmuLastFailPage : t.demux.mmuLastFailPage = k.demux.mmuLastFailPage

theorem pushedFrame_sp (at0 : AtWord stack t 0) : AtWord stack (pushedFrame data t) 7 := by
  have at2 : AtWord stack ((t.pushed (data 0) t.shadow.sw).withSP
      ((t.pushed (data 0) t.shadow.sw).sp + 1)) 2 := (at0.succ rfl).succ rfl
  exact ((((at2.succ rfl).succ rfl).succ rfl).succ rfl).succ rfl

variable (dev) in
/-- **`pushc` pushes the frame.** -/
theorem InStub.pushc_framed (here : InStub stack data t (Op.pushc.word :: rest)) (apart : StackApart data)
    (ready : Ready data k t) (at0 : AtWord stack t 0) :
    ∃ u, Step dev t u ∧ Framed stack data k u 7 (t.pc + 1) rest := by
  refine ⟨_, here.pushc ready.off at0, ?_⟩
  generalize Op.pushc.word = ir at *
  have outside : OutsideSame data t (pushedFrame data (t.fetched ir)) :=
    pushedFrame_outside (t.fetched ir)
  have stub : InStub stack data (pushedFrame data (t.fetched ir)) rest := by
    refine here.move 1 ?_ ?_ ?_ ?_ ?_ outside
    all_goals simp [pushedFrame, here.quiet]
  have saved : Saved data k (pushedFrame data (t.fetched ir)) :=
    pushedFrame_saved apart ready.shadowed ready.sp
  refine ⟨stub, ?_, ?_, saved, ready.outside.trans outside, pushedFrame_sp (at0.fetched ir), ?_, ?_⟩
  · simpa [pushedFrame] using ready.off
  · simpa [pushedFrame] using ready.userMode
  · simp [pushedFrame]
  · simpa [pushedFrame] using ready.mmuLastFailPage

variable (dev) in
/-- **The common part of a stub**: the frame is pushed. -/
theorem InStub.frame (here : InStub stack data t (Op.di.word :: Op.storespW.word :: (stack + 1) ::
      Op.loadspW.word :: stack :: Op.pushc.word :: rest))
    (apart : StackApart data) (off : t.commitEnabled = false) (userMode : t.userMode = false)
    (shadowed : Shadowed k t) (sp : t.sp = k.sp) (ram : t.demux.ram = k.demux.ram)
    (page : t.demux.mmuLastFailPage = k.demux.mmuLastFailPage) :
    ∃ u, Steps dev t u ∧ Framed stack data k u 7 (t.pc + 6) rest := by
  obtain ⟨t1, made1⟩ : ∃ u, u = (t.fetched Op.di.word).withIntEnabled false := ⟨_, rfl⟩
  have step1 : Step dev t t1 := made1 ▸ here.di off
  have here1 : InStub stack data t1 (Op.storespW.word :: (stack + 1) :: Op.loadspW.word :: stack ::
      Op.pushc.word :: rest) := by
    rw [made1]
    exact here.move 1 rfl rfl rfl rfl rfl (OutsideSame.refl t)
  have off1 : t1.commitEnabled = false := by rw [made1]; exact off
  obtain ⟨t2, made2⟩ : ∃ u, u = (((t1.fetched Op.storespW.word).withPC (t1.pc + 2)).withRA
    (stack + 1)).putRam (data 1) t1.sp := ⟨_, rfl⟩
  have step2 : Step dev t1 t2 := made2 ▸ here1.storesp off1
  have out2 : OutsideSame data t1 t2 := by
    rw [made2]
    exact OutsideSame.pushed (t := t1) (by decide) t1.sp
  have here2 : InStub stack data t2 (Op.loadspW.word :: stack :: Op.pushc.word :: rest) :=
    here1.move 2 (by rw [made2]; rfl) (by rw [made2]; rfl) (by rw [made2]; rfl) (by rw [made2]; rfl)
      (by rw [made2]; exact here1.quiet) out2
  have off2 : t2.commitEnabled = false := by rw [made2]; exact off1
  obtain ⟨t3, made3⟩ : ∃ u, u = ((t2.fetched Op.loadspW.word).withPC (t2.pc + 2)).withSP stack :=
    ⟨_, rfl⟩
  have step3 : Step dev t2 t3 := made3 ▸ here2.loadsp off2
  have out3 : OutsideSame data t2 t3 := by
    rw [made3]
    exact OutsideSame.refl t2
  have here3 : InStub stack data t3 (Op.pushc.word :: rest) :=
    here2.move 2 (by rw [made3]; rfl) (by rw [made3]; rfl) (by rw [made3]; rfl) (by rw [made3]; rfl)
      (by rw [made3]; exact here2.quiet) out3
  have off3 : t3.commitEnabled = false := by rw [made3]; exact off2
  have at0 : AtWord stack t3 0 := by
    rw [made3]
    exact (BitVec.add_zero stack).symm
  have ready : Ready data k t3 := by
    refine ⟨off3, ?_, ?_, ?_, ?_, ?_⟩
    · rw [made3, made2, made1]
      simpa using userMode
    · rw [made3, made2, made1]
      simpa [Shadowed] using shadowed
    · rw [made3, made2, made1]
      exact (Function.update_self _ _ _).trans sp
    · have start : OutsideSame data k t1 := by
        rw [made1]
        exact fun a _ => congrFun ram a
      exact start.trans (out2.trans out3)
    · rw [made3, made2, made1]
      exact page
  obtain ⟨u, step4, framed⟩ := here3.pushc_framed dev apart ready at0
  refine ⟨u, ((Relation.ReflTransGen.single step1).tail step2 |>.tail step3).tail step4, ?_⟩
  have pc : t3.pc + 1 = t.pc + 6 := by rw [made3, made2, made1]; rfl
  exact pc ▸ framed

variable (dev) in
theorem Framed.pushmmu {pc : Nat} (framed : Framed stack data k t 7 pc (Op.pushmmu.word :: rest))
    (apart : StackApart data) : ∃ u, Step dev t u ∧ Framed stack data k u 8 (pc + 1) rest ∧
      u.demux.ram (data 7) = k.demux.mmuLastFailPage := by
  refine ⟨_, framed.stub.pushmmu framed.off framed.sp, ?_, ?_⟩
  · generalize Op.pushmmu.word = ir at *
    have outside : OutsideSame data t ((t.fetched ir).pushed (data 7) t.demux.mmuLastFailPage) :=
      OutsideSame.pushed (t := t.fetched ir) (by decide) _
    have stub : InStub stack data ((t.fetched ir).pushed (data 7) t.demux.mmuLastFailPage) rest := by
      refine framed.stub.move 1 ?_ ?_ ?_ ?_ ?_ outside
      all_goals simp [framed.stub.quiet]
    have below : ∀ i < 7, ((t.fetched ir).pushed (data 7) t.demux.mmuLastFailPage).demux.ram (data i) =
        t.demux.ram (data i) := by
      intro i low
      have apart7 : data i ≠ data 7 := fun same => by
        have := (apart.eq_iff (by omega) (by omega)).mp same
        omega
      exact Function.update_of_ne apart7 _ _
    have saved : Saved data k ((t.fetched ir).pushed (data 7) t.demux.mmuLastFailPage) := by
      obtain ⟨sw, sp, hPC, bp, ap, s, d⟩ := framed.saved
      constructor
      all_goals rwa [below _ (by decide)]
    refine ⟨stub, ?_, ?_, saved, framed.outside.trans outside, (framed.sp.fetched ir).succ rfl, ?_, ?_⟩
    · simpa using framed.off
    · simpa using framed.userMode
    · simp [framed.pc]
    · simpa using framed.mmuLastFailPage
  · simpa using framed.mmuLastFailPage

variable (dev) in
/-- **The stub before its call**, with or without the page of the MMU. -/
theorem InStub.framed (here : InStub stack data t (vectorStub mmu stack handler))
    (apart : StackApart data) (off : t.commitEnabled = false) (userMode : t.userMode = false)
    (shadowed : Shadowed k t) (sp : t.sp = k.sp) (ram : t.demux.ram = k.demux.ram)
    (page : t.demux.mmuLastFailPage = k.demux.mmuLastFailPage) :
    ∃ u, Steps dev t u ∧ Framed stack data k u (frameWords mmu) (t.pc + frameWords mmu - 1)
      (Op.ec.word :: Op.call0W.word :: handler :: vectorEnd mmu) ∧
      (mmu = true → u.demux.ram (data 7) = k.demux.mmuLastFailPage) := by
  obtain ⟨u, steps, framed⟩ := here.frame dev apart off userMode shadowed sp ram page
  cases mmu with
  | false => exact ⟨u, steps, framed, fun on => absurd on (by decide)⟩
  | true =>
    obtain ⟨v, step, framed, page⟩ := framed.pushmmu dev apart
    exact ⟨v, steps.tail step, framed, fun _ => page⟩

/-- **The state in which a handler is entered**, with the frame of `k` under its own. -/
structure AtHandler (stack handler : Word) (data : Nat → Nat) (mmu : Bool) (k t : Cpu (Demux ι))
    (back : Nat) : Prop where
  pc : t.pc = handler.toNat * 8
  sp : AtWord stack t (frameWords mmu + 4)
  bp : t.bp = t.sp
  highPC : t.demux.ram (data (frameWords mmu)) = BitVec.ofNat 16 (back / 8)
  mPC : t.demux.ram (data (frameWords mmu + 1)) = BitVec.ofNat 16 (back &&& 7)
  page : mmu = true → t.demux.ram (data 7) = k.demux.mmuLastFailPage
  saved : Saved data k t
  outside : OutsideSame data k t
  kernel : t.mmuEntrySelector = 0
  quiet : t.intEnabled = false
  userMode : t.userMode = false
  commitEnabled : t.commitEnabled = true
  committed : t.commit = t

/-- The words of a frame outlast a call above it. -/
theorem calledFrame_below (apart : StackApart data) {i : Nat} (below : i < n) (low : n + 3 < frameSize)
    (t : Cpu (Demux ι)) (target : Word) :
    (calledFrame data n t target).demux.ram (data i) = t.demux.ram (data i) := by
  have other : ∀ j < 4, data i ≠ data (n + j) := fun j small same => by
    have := (apart.eq_iff (lt_trans (Nat.lt_of_lt_of_le below (Nat.le_add_right n 3)) low)
      (lt_of_le_of_lt (Nat.add_le_add_left (Nat.le_of_lt_succ small) n) low)).mp same
    omega
  show Function.update (Function.update (Function.update (Function.update t.demux.ram
    (data (n + 0)) _) (data (n + 1)) _) (data (n + 2)) _) (data (n + 3)) _ (data i) = _
  rw [Function.update_of_ne (other 3 (by decide)), Function.update_of_ne (other 2 (by decide)),
    Function.update_of_ne (other 1 (by decide)), Function.update_of_ne (other 0 (by decide))]

theorem calledFrame_outside (low : n + 3 < frameSize) (t : Cpu (Demux ι)) (target : Word) :
    OutsideSame data t (calledFrame data n t target) := by
  obtain ⟨t1, made1⟩ : ∃ u, u = t.pushed (data n) t.highPC := ⟨_, rfl⟩
  obtain ⟨t2, made2⟩ : ∃ u, u = t1.pushed (data (n + 1)) t.mPC := ⟨_, rfl⟩
  obtain ⟨t3, made3⟩ : ∃ u, u = t2.pushed (data (n + 2)) t.ap := ⟨_, rfl⟩
  have out1 : OutsideSame data t t1 := made1 ▸ OutsideSame.pushed (by omega) _
  have out2 : OutsideSame data t1 t2 := made2 ▸ OutsideSame.pushed (by omega) _
  have out3 : OutsideSame data t2 t3 := made3 ▸ OutsideSame.pushed (by omega) _
  have out4 : OutsideSame data t3 (t3.pushed (data (n + 3)) t.bp) := OutsideSame.pushed low _
  simp only [calledFrame, ← made1, ← made2, ← made3]
  exact (out1.trans out2).trans (out3.trans out4)

/-- A call keeps the mode. -/
theorem calledFrame_mode (data : Nat → Nat) (n : Nat) (t : Cpu (Demux ι)) (target : Word) :
    (calledFrame data n t target).mmuEntrySelector = t.mmuEntrySelector ∧
      (calledFrame data n t target).intEnabled = t.intEnabled ∧
      (calledFrame data n t target).userMode = t.userMode ∧
      (calledFrame data n t target).commitEnabled = t.commitEnabled := by
  simp [calledFrame, Cpu.jump, Cpu.resetMPC, Cpu.setHighPC]

theorem calledFrame_back (apart : StackApart data) (low : n + 3 < frameSize) (t : Cpu (Demux ι))
    (target : Word) : (calledFrame data n t target).demux.ram (data n) = t.highPC ∧
      (calledFrame data n t target).demux.ram (data (n + 1)) = t.mPC := by
  have other : ∀ i < 4, ∀ j < 4, i ≠ j → data (n + i) ≠ data (n + j) :=
    fun i smallI j smallJ different same => by
      have := (apart.eq_iff (lt_of_le_of_lt (Nat.add_le_add_left (Nat.le_of_lt_succ smallI) n) low)
        (lt_of_le_of_lt (Nat.add_le_add_left (Nat.le_of_lt_succ smallJ) n) low)).mp same
      omega
  have ram : ∀ a, (calledFrame data n t target).demux.ram a = Function.update (Function.update
      (Function.update (Function.update t.demux.ram (data (n + 0)) t.highPC) (data (n + 1)) t.mPC)
        (data (n + 2)) t.ap) (data (n + 3)) t.bp a := fun _ => rfl
  refine ⟨?_, ?_⟩
  · rw [ram, show n = n + 0 from rfl, Function.update_of_ne (other 0 (by decide) 3 (by decide) (by decide)),
      Function.update_of_ne (other 0 (by decide) 2 (by decide) (by decide)),
      Function.update_of_ne (other 0 (by decide) 1 (by decide) (by decide)), Function.update_self]
  · rw [ram, Function.update_of_ne (other 1 (by decide) 3 (by decide) (by decide)),
      Function.update_of_ne (other 1 (by decide) 2 (by decide) (by decide)), Function.update_self]

variable (dev) in
/-- **The call of the handler.** -/
theorem Framed.call {pc : Nat} (framed : Framed stack data k t (frameWords mmu) pc
      (Op.ec.word :: Op.call0W.word :: handler :: rest))
    (apart : StackApart data) (page : mmu = true → t.demux.ram (data 7) = k.demux.mmuLastFailPage) :
    ∃ u, Steps dev t u ∧ AtHandler stack handler data mmu k u (pc + 3) := by
  have low : frameWords mmu + 3 < frameSize := by cases mmu <;> decide
  have seven : 7 ≤ frameWords mmu := by cases mmu <;> decide
  obtain ⟨t1, made1⟩ : ∃ u, u = ((t.fetched Op.ec.word).withCommitEnabled true).commit := ⟨_, rfl⟩
  have step1 : Step dev t t1 := made1 ▸ framed.stub.ec
  have here1 : InStub stack data t1 (Op.call0W.word :: handler :: rest) :=
    framed.stub.move 1 (by rw [made1]; rfl) (by rw [made1]; rfl) (by rw [made1]; rfl)
      (by rw [made1]; rfl) (by rw [made1]; exact framed.stub.quiet) (by rw [made1]; exact OutsideSame.refl t)
  have sp1 : AtWord stack t1 (frameWords mmu) := by rw [made1]; exact framed.sp
  have step2 : Step dev t1 _ := here1.call0W low sp1
  obtain ⟨t2, made2⟩ : ∃ u, u = (t1.fetched Op.call0W.word).withPC (t1.pc + 2) := ⟨_, rfl⟩
  rw [← made2] at step2
  obtain ⟨selector, int, user, commit⟩ := calledFrame_mode data (frameWords mmu) t2 handler
  have on : (calledFrame data (frameWords mmu) t2 handler).commitEnabled = true := by
    rw [commit, made2, made1]
    rfl
  rw [settle_on on] at step2
  have pc2 : t2.pc = pc + 3 := by rw [made2, made1, ← framed.pc]; rfl
  have ram2 : t2.demux.ram = t.demux.ram := by rw [made2, made1]; rfl
  have sp2 : AtWord stack t2 (frameWords mmu) := by rw [made2]; exact sp1
  obtain ⟨highPC, mPC⟩ := calledFrame_back apart low t2 handler
  have below : ∀ i < frameWords mmu, (calledFrame data (frameWords mmu) t2 handler).demux.ram (data i) =
      t.demux.ram (data i) := fun i small => (calledFrame_below apart small low t2 handler).trans (by rw [ram2])
  refine ⟨_, (Relation.ReflTransGen.single step1).tail step2, ?_⟩
  refine ⟨Cpu.jump_pc _ handler, ?_, rfl, ?_, ?_, ?_, ?_, ?_, ?_, ?_, ?_, on, rfl⟩
  · exact (((sp2.succ rfl).succ rfl).succ rfl).succ rfl
  · rw [← pc2]
    exact highPC
  · rw [← pc2]
    exact mPC
  · intro isMmu
    refine (below 7 ?_).trans (page isMmu)
    rw [isMmu]
    decide
  · obtain ⟨sw, sp, hPC, bp, ap, s, d⟩ := framed.saved
    constructor
    all_goals
      refine (below _ (lt_of_lt_of_le (by decide) seven)).trans ?_
      assumption
  · refine framed.outside.trans (OutsideSame.trans ?_ (calledFrame_outside low t2 handler))
    exact fun a _ => congrFun ram2 a
  · rw [Cpu.commit_mmuEntrySelector, selector, made2]
    exact here1.kernel
  · rw [Cpu.commit_intEnabled, int, made2]
    exact here1.quiet
  · rw [Cpu.commit_userMode, user, made2, made1]
    simpa using framed.userMode

/-! ### From the handler back -/

/-- **The state in which a handler has returned** to its stub: the stack pointer is where it was before the
call, and the 7 words of the frame are as the handler found them. -/
structure Returned (stack : Word) (data : Nat → Nat) (mmu : Bool) (entry t : Cpu (Demux ι)) : Prop where
  stub : InStub stack data t (vectorEnd mmu)
  sp : AtWord stack t (frameWords mmu)
  frame : ∀ i < 7, t.demux.ram (data i) = entry.demux.ram (data i)

/-- **What an interrupt restores.** -/
structure Restored (k t : Cpu (Demux ι)) : Prop where
  pc : t.pc = k.pc
  sp : t.sp = k.sp
  ap : t.ap = k.ap
  bp : t.bp = k.bp
  s : t.s = k.s
  d : t.d = k.d
  selector : t.mmuEntrySelector = k.mmuEntrySelector
  userMode : t.userMode = k.userMode
  intEnabled : t.intEnabled = k.intEnabled
  commitEnabled : t.commitEnabled = k.commitEnabled
  shadow : t.shadow = k.shadow

theorem Saved.congr (saved : Saved data k t)
    (frame : ∀ i < 7, u.demux.ram (data i) = t.demux.ram (data i)) : Saved data k u := by
  obtain ⟨sw, sp, hPC, bp, ap, s, d⟩ := saved
  constructor
  all_goals rwa [frame _ (by decide)]

theorem retiFrame_restored (on : k.commitEnabled = true) (settled : k.commit = k) (t : Cpu (Demux ι)) :
    Restored k (retiFrame k t).settle ∧ (retiFrame k t).settle.demux = t.demux := by
  have on' : (retiFrame k t).commitEnabled = true := on
  rw [settle_on on']
  refine ⟨⟨rfl, rfl, rfl, rfl, rfl, rfl, rfl, rfl, rfl, rfl, ?_⟩, rfl⟩
  have same : k.commit.shadow = k.shadow := congrArg Cpu.shadow settled
  exact Eq.trans rfl same

/-- The shadow registers changed. -/
@[simps] def Cpu.withShadow (t : Cpu (Demux ι)) (shadow : Shadow) : Cpu (Demux ι) :=
  { t with shadow := shadow }

/-- An instruction may only commit the shadow registers at its end. -/
theorem settle_shadow (t : Cpu (Demux ι)) : ∃ shadow, t.settle = t.withShadow shadow := by
  unfold Cpu.settle
  split
  · exact ⟨t.commit.shadow, rfl⟩
  · exact ⟨t.shadow, rfl⟩

variable (dev) in
/-- **The end of a stub.** -/
theorem Returned.restored {entry : Cpu (Demux ι)} (returned : Returned stack data mmu entry t)
    (saved : Saved data k entry) (on : k.commitEnabled = true) (settled : k.commit = k)
    (selector : k.mmuEntrySelector.toNat < 256) (low : k.pc < 0x80000) :
    ∃ u, Steps dev t u ∧ Restored k u ∧ u.demux = t.demux := by
  have saved' := saved.congr returned.frame
  obtain ⟨stub, sp, -⟩ := returned
  cases mmu with
  | false =>
    exact ⟨_, Relation.ReflTransGen.single (InStub.reti stub sp saved' selector low),
      retiFrame_restored on settled (t.fetched Op.reti.word)⟩
  | true =>
    obtain ⟨shadow, same⟩ := settle_shadow ((t.fetched (Op.discardB.wordB 1)).withSP (t.sp - 1))
    obtain ⟨t1, made1⟩ : ∃ u, u = ((t.fetched (Op.discardB.wordB 1)).withSP (t.sp - 1)).settle := ⟨_, rfl⟩
    have step1 : Step dev t t1 := made1 ▸ InStub.discardB stub
    rw [same] at made1
    have here1 : InStub stack data t1 [Op.reti.word] :=
      stub.move 1 (by rw [made1]; rfl) (by rw [made1]; rfl) (by rw [made1]; rfl) (by rw [made1]; rfl)
        (by rw [made1]; exact stub.quiet) (by rw [made1]; exact OutsideSame.refl t)
    have sp1 : AtWord stack t1 7 := AtWord.pred sp (by rw [made1]; rfl)
    have ram1 : t1.demux = t.demux := by rw [made1]; rfl
    have saved1 : Saved data k t1 := saved'.congr fun i _ => by rw [ram1]
    obtain ⟨restored, demux⟩ := retiFrame_restored on settled (t1.fetched Op.reti.word)
    exact ⟨_, (Relation.ReflTransGen.single step1).tail (here1.reti sp1 saved1 selector low), restored,
      demux.trans ram1⟩

/-- **The end of a handler that keeps to the calling convention**: the base pointer is that of its entry,
the words of the stack below it are as they were, and a `ret` is next. -/
structure AtRet (stack : Word) (data : Nat → Nat) (mmu : Bool) (entry t : Cpu (Demux ι)) (back : Nat) :
    Prop where
  bp : t.bp = entry.bp
  frame : ∀ i < frameWords mmu + 2, t.demux.ram (data i) = entry.demux.ram (data i)
  quiet : t.intEnabled = false
  kernel : t.mmuEntrySelector = 0
  ret : ∃ a, t.Reads .code t.pc a ∧ Op.decode (t.demux.ram a &&& (0xff : Word)).toNat = some .ret
  mapped : StackMapped stack data t
  code : ∀ j (inside : j < (vectorEnd mmu).length), ∃ a, t.Reads .code (back + j) a ∧
    (∀ i < frameSize, a ≠ data i) ∧ t.demux.ram a = (vectorEnd mmu)[j]

variable (dev) in
/-- What `ret` makes of `t` when its frame is at word `n` of the stack. -/
theorem exec_ret (mapped : StackMapped stack data t) (low : n + 3 < frameSize)
    (bp : t.bp = stack + BitVec.ofNat 16 (n + 4)) :
    ∃ u, (ret (demuxOps dev)).exec t = (.ok (), u) ∧ AtWord stack u n ∧ u.demux = t.demux ∧
      u.intEnabled = t.intEnabled ∧ u.mmuEnabled = t.mmuEnabled ∧
      u.mmuEntrySelector = t.mmuEntrySelector ∧
      u.pc = (t.demux.ram (data n)).toNat * 8 + (t.demux.ram (data (n + 1))).toNat % 8 := by
  obtain ⟨t4, made4⟩ : ∃ u, u = t.withSP t.bp := ⟨_, rfl⟩
  obtain ⟨t3, made3⟩ : ∃ u, u = (t4.withSP (t4.sp - 1)).withBP (t.demux.ram (data (n + 3))) := ⟨_, rfl⟩
  obtain ⟨t2, made2⟩ : ∃ u, u = (t3.withSP (t3.sp - 1)).withAP (t.demux.ram (data (n + 2))) := ⟨_, rfl⟩
  obtain ⟨t1, made1⟩ : ∃ u, u = (t2.withSP (t2.sp - 1)).setMPC (t.demux.ram (data (n + 1))) := ⟨_, rfl⟩
  have at4 : AtWord stack t4 (n + 4) := by rw [made4]; exact bp
  have at3 : AtWord stack t3 (n + 3) := at4.pred (by rw [made3]; rfl)
  have at2 : AtWord stack t2 (n + 2) := at3.pred (by rw [made2]; rfl)
  have at1 : AtWord stack t1 (n + 1) := at2.pred (by rw [made1]; rfl)
  have mapped4 : StackMapped stack data t4 := mapped.congr (by rw [made4]; rfl) (by rw [made4]; rfl)
    (by rw [made4]; rfl)
  have mapped3 : StackMapped stack data t3 := mapped4.congr (by rw [made3]; rfl) (by rw [made3]; rfl)
    (by rw [made3]; rfl)
  have mapped2 : StackMapped stack data t2 := mapped3.congr (by rw [made2]; rfl) (by rw [made2]; rfl)
    (by rw [made2]; rfl)
  have mapped1 : StackMapped stack data t1 := mapped2.congr (by rw [made1]; rfl) (by rw [made1]; rfl)
    (by rw [made1]; rfl)
  have demux4 : t4.demux = t.demux := by rw [made4]; rfl
  have demux3 : t3.demux = t.demux := by rw [made3]; exact demux4
  have demux2 : t2.demux = t.demux := by rw [made2]; exact demux3
  have demux1 : t1.demux = t.demux := by rw [made1]; exact demux2
  refine ⟨(t1.withSP (t1.sp - 1)).setHighPC (t.demux.ram (data n)), ?_, ?_, demux1, ?_, ?_, ?_, ?_⟩
  · unfold ret
    rw [exec_bind_ok (exec_modify _ _), ← made4,
      exec_bind_ok (exec_popWord mapped4 (by omega) at4), exec_bind_ok (exec_modify _ _), demux4, ← made3,
      exec_bind_ok (exec_popWord mapped3 (by omega) at3), exec_bind_ok (exec_modify _ _), demux3, ← made2,
      exec_bind_ok (exec_popWord mapped2 (by omega) at2), exec_bind_ok (exec_modify _ _), demux2, ← made1,
      exec_bind_ok (exec_popWord mapped1 (by omega) at1), exec_modify, demux1]
  · exact at1.pred rfl
  · rw [made1, made2, made3, made4]
    simp [Cpu.setHighPC, Cpu.setMPC]
  · rw [made1, made2, made3, made4]
    simp [Cpu.setHighPC, Cpu.setMPC]
  · rw [made1, made2, made3, made4]
    simp [Cpu.setHighPC, Cpu.setMPC]
  · rw [Cpu.setHighPC_pc, Cpu.withSP_pc, made1, Cpu.setMPC_pc]
    omega

/-- **A handler that keeps to the calling convention returns to its stub.** -/
theorem AtRet.returned {entry : Cpu (Demux ι)} {back : Nat}
    (atHandler : AtHandler stack handler data mmu k entry back) (atRet : AtRet stack data mmu entry t back)
    (low : back < 0x80000) : ∃ u, Step dev t u ∧ Returned stack data mmu entry u := by
  have inside : frameWords mmu + 3 < frameSize := by cases mmu <;> decide
  have seven : 7 ≤ frameWords mmu := by cases mmu <;> decide
  obtain ⟨a, reads, decodes⟩ := atRet.ret
  obtain ⟨ir, made⟩ : ∃ ir, ir = t.demux.ram a := ⟨_, rfl⟩
  have mapped : StackMapped stack data (t.fetched ir) := atRet.mapped.congr rfl rfl rfl
  have bp : (t.fetched ir).bp = stack + BitVec.ofNat 16 (frameWords mmu + 4) :=
    (atRet.bp.trans atHandler.bp).trans atHandler.sp
  obtain ⟨v, run, sp, demux, int, enabled, selector, pc⟩ := exec_ret dev mapped inside bp
  have step : Step dev t v.settle := by
    unfold Step
    rw [exec_execute_quiet atRet.quiet]
    exact exec_executeInstruction reads decodes (made ▸ run)
  have demuxV : v.demux = t.demux := demux
  have back' : v.pc = back := by
    rw [pc]
    show (t.demux.ram _).toNat * 8 + (t.demux.ram _).toNat % 8 = back
    rw [atRet.frame _ (by omega), atRet.frame _ (by omega), atHandler.highPC, atHandler.mPC,
      BitVec.toNat_ofNat, BitVec.toNat_ofNat, and_low]
    omega
  obtain ⟨shadow, same⟩ := settle_shadow v
  refine ⟨_, step, ?_⟩
  rw [same]
  refine ⟨⟨int.trans atRet.quiet, selector.trans atRet.kernel, fun j inside => ?_, ?_⟩, sp, fun i small => ?_⟩
  · obtain ⟨a, reads, apart, word⟩ := atRet.code j inside
    refine ⟨a, ?_, apart, ?_⟩
    · rw [Cpu.withShadow_pc, back']
      exact reads.congr (congrArg Demux.table demuxV) enabled selector
    · rw [← word, Cpu.withShadow_demux, demuxV]
  · exact atRet.mapped.congr (congrArg Demux.table demuxV) enabled selector
  · rw [Cpu.withShadow_demux, demuxV]
    exact atRet.frame i (by omega)

end Stub

/-! ### The interrupt as a whole -/

section Whole

variable {k t : Cpu (Demux ι)} {stack handler : Word} {data : Nat → Nat} {mmu : Bool}

/-- **The states between two instructions**: interrupts and the commit of the shadow registers are on, and
the shadow registers are those of the processor. -/
structure Settled (k : Cpu (Demux ι)) : Prop where
  intEnabled : k.intEnabled = true
  commitEnabled : k.commitEnabled = true
  committed : k.commit = k
  selector : ByteSelector k
  pc : k.pc < 0x80000

/-- **Every completed instruction leaves such a state**, if interrupts and the commit are on after it. -/
theorem Step.settled (step : Step dev k t) (byte : ByteSelector k) (int : t.intEnabled = true)
    (commit : t.commitEnabled = true) (pc : t.pc < 0x80000) : Settled t := by
  have selector : ByteSelector t := by
    have kept := execute_byte (demuxOps dev) k byte
    unfold Step at step
    rwa [step] at kept
  obtain ⟨_, k1, _, step⟩ := exec_bind_returns step
  obtain ⟨_, k2, _, step⟩ := exec_bind_returns step
  obtain ⟨_, k3, _, step⟩ := exec_bind_returns step
  obtain ⟨_, k4, _, step⟩ := exec_bind_returns step
  obtain ⟨_, k5, _, step⟩ := exec_bind_returns step
  have same : k5.settle = t := (Prod.mk.inj step).2
  have on : k5.commitEnabled = true := by
    obtain ⟨shadow, settle⟩ := settle_shadow k5
    rw [← same, settle] at commit
    exact commit
  rw [settle_on on] at same
  refine ⟨int, commit, ?_, selector, pc⟩
  rw [← same]
  rfl

theorem taken_shadowed (settled : Settled k) : Shadowed k k.taken := by
  obtain ⟨-, -, -, -, -, shadow⟩ := taken_mode k
  have same : k.commit.shadow = k.shadow := congrArg Cpu.shadow settled.committed
  unfold Shadowed
  rw [shadow, ← same]
  rfl

/-- **Interrupts are transparent.** An interrupt leads through its stub to its handler, with the registers
on the stack of the stub and no other memory changed; from any state in which the handler has returned and
has left them there, the rest of the stub restores all of them, and changes no memory. -/
theorem interrupt_transparent (settled : Settled k) (pending : k.demux.intCtl.irqLineStatus = true)
    (apart : StackApart data) (stub : InStub stack data k.taken (vectorStub mmu stack handler)) :
    ∃ entry, Steps dev k entry ∧
      AtHandler stack handler data mmu k entry (k.taken.pc + frameWords mmu + 2) ∧
      ∀ t, Returned stack data mmu entry t →
        ∃ u, Steps dev t u ∧ Restored k u ∧ u.demux = t.demux := by
  obtain ⟨off, user, quiet, -, sp, -⟩ := taken_mode k
  have demux := taken_demux k
  obtain ⟨t, steps, framed, page⟩ := stub.framed dev apart off user (taken_shadowed settled) sp
    (by rw [demux]) (by rw [demux])
  obtain ⟨entry, more, atHandler⟩ := framed.call dev apart page
  have back : k.taken.pc + frameWords mmu - 1 + 3 = k.taken.pc + frameWords mmu + 2 := by
    cases mmu <;> rfl
  rw [back] at atHandler
  refine ⟨entry, ?_, atHandler, fun t returned => ?_⟩
  · -- The first step of the stub is the one that takes the interrupt.
    obtain same | ⟨first, step, rest⟩ := (steps.trans more).cases_head
    · have on := atHandler.commitEnabled
      rw [← same, off] at on
      cases on
    · refine Relation.ReflTransGen.head ?_ rest
      unfold Step
      rw [exec_execute_taken settled.intEnabled pending]
      exact step
  · exact returned.restored dev atHandler.saved settled.commitEnabled settled.committed settled.selector
      settled.pc

/-- A machine without devices whose timer has fired: the stub of its vector is at block 2, the stack of the
stub at 256. -/
def timerFired : Cpu (Demux Unit) :=
  Cpu.commit
    { ra := 0, rb := 0, ap := 0x30, bp := 0x40, sp := 0x50, pc := 0x203, ir := 0, s := 1, d := 2,
      commitEnabled := true, intEnabled := true, userMode := true, mmuEnabled := false,
      mmuEntrySelector := 3, shadow := ⟨0, 0, 0, 0, 0, 0⟩,
      demux :=
        { ram := fun a => (vectorStub false 256 0x40).getD (a - 16) 0
          table := fun _ => 0
          intCtl := ⟨0, 1, fun _ => 2⟩
          mmuLastFailPage := 0
          devs := () } }

theorem timerFired_pc : timerFired.taken.pc = 16 := by decide

theorem timerFired_stub :
    InStub 256 (fun i => 256 + i) timerFired.taken (vectorStub false 256 0x40) := by
  have demux := taken_demux timerFired
  have off : timerFired.taken.mmuEnabled = false := by decide
  have stack : ∀ i < frameSize, stackAddr 256 i = 256 + i := by decide
  refine ⟨by decide, by decide, fun j inside => ?_, fun i small => ?_⟩
  · have short : j < 10 := inside
    refine ⟨16 + j, ?_, fun i _ => ?_, ?_⟩
    · rw [timerFired_pc]
      exact .of_off off (by decide) (by omega)
    · show 16 + j ≠ 256 + i
      omega
    · rw [demux]
      show (vectorStub false 256 0x40).getD (16 + j - 16) 0 = _
      rw [Nat.add_sub_cancel_left]
      exact (List.getElem_eq_getD 0).symm
  · have low : i < frameSize := small
    rw [stack i low]
    exact .of_off off (by decide) (lt_of_lt_of_le (Nat.add_lt_add_left low 256) (by decide))

/-- The timer's interrupt on that machine. -/
theorem interrupt_transparent_timer : ∃ entry, Steps ⟨fun _ _ => none, fun _ _ _ => none⟩ timerFired entry ∧
    AtHandler 256 0x40 (fun i => 256 + i) false timerFired entry (timerFired.taken.pc + 9) ∧
    ∀ t, Returned 256 (fun i => 256 + i) false entry t →
      ∃ u, Steps ⟨fun _ _ => none, fun _ _ _ => none⟩ t u ∧ Restored timerFired u ∧ u.demux = t.demux :=
  interrupt_transparent ⟨rfl, rfl, rfl, show (3 : Word).toNat < 256 by decide, by decide⟩ (by decide)
    (fun _ _ _ _ same => Nat.add_left_cancel same) timerFired_stub

end Whole

end RlCpu.Sim
