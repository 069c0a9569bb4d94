/-
**Procedures (`genProcHeader`, `genProcEnding`, `genRet` and `CALL` of `trans2.cpp`).**

A call leaves words for the result and puts a frame of four words above them; the procedure reserves its locals above
the frame, and stores its result below it, at an offset from `BP` that `genRet` knows. The processor, the header and
the ending have to agree on the frame.

`Invocation`: a call whose callee has come to its `ret`. What runs between the header and the ending is any run of
instructions that leave `BP` alone and of completed calls, up to a depth (`Called`).

* `Invocation.returns`: the `ret` of an invocation leads back to the caller, with the result on its stack.
* `Called.returns`: so do completed calls, of any depth; by induction on the depth.
-/

import RlCpu.Binutils.Assembler
import RlCpu.Sim.CallFrame
import RlCpu.Sim.Window
import RlCpu.Sim.Hdd

namespace RlCpu.Binutils

open RlCpu.Kernel RlCpu.Lib RlCpu.Lib.Abort RlCpu.Sim Relation

/-! ### What the translator puts out -/

/-- `RCEntry(0, rc_ret)` -/
def retEntry : RcEntry := rcEntry .ret [] .word .none

/-- `genProcEnding` -/
def genProcEnding : List RcEntry := [retEntry]

/-- `genProcHeader`, without the label. -/
def genProcHeader (nLocals nArgs : Nat) : List RcEntry :=
  let totalReserve := nLocals + nArgs
  if totalReserve > 0 then
    [rcEntry .alloc (natText totalReserve) .word (if totalReserve > 127 then .word else .char)]
  else []

/-- `genRet`, up to its `ret`: the result is stored. -/
def genResult (opSize : Nat) : List RcEntry :=
  if opSize = 1 then [rcEntry .addrl "-5".toList .word .char, rcEntry .rstore [] .word .none]
  else if opSize = 2 then [rcEntry .addrl "-6".toList .word .char, rcEntry .rstore [] .dword .none]
  else []

/-- `genRet` -/
def genRet (opSize : Nat) : List RcEntry := genResult opSize ++ [retEntry]

/-- `CALL`, by the size of its result. -/
def callName : Nat → Option Rc
  | 0 => some .call0
  | 1 => some .call1
  | 2 => some .call2
  | _ => none

/-- `CALL`; a call of a known label is fused with it later. -/
def callEntry (opSize : Nat) (label : Option Text) : Option RcEntry :=
  (callName opSize).map fun name =>
    rcEntry name (label.getD []) .word (if label.isNone then .none else .link)

/-! ### The entries in memory -/

/-- The word of code for a word that the assembler puts out, with the labels at `addr`. -/
def AsmWord.value (addr : Text → Word) : AsmWord → Word
  | .num w => w
  | .label name => addr name

variable {ι : Type} (D : Devices ι) (addr : Text → Word)

/-- The next words of code are those of an entry. -/
def AtEntry (entry : RcEntry) (k : Cpu (Demux ι)) : Prop :=
  ∃ ws, entry.assemble = some ws ∧ ∀ i w, ws[i]? = some w → k.Code i (w.value addr)

/-- The instructions of entries, one after the other. -/
def Performs : List RcEntry → Cpu (Demux ι) → Cpu (Demux ι) → Prop
  | [], k, t => t = k
  | entry :: entries, k, t => ∃ u, AtEntry addr entry k ∧ Executes D k u ∧ Performs entries u t

/-- A step of a body: an instruction that leaves `BP` alone, or a completed call. -/
def BodyStep (callee : Cpu (Demux ι) → Cpu (Demux ι) → Prop) (k t : Cpu (Demux ι)) : Prop :=
  Plain D k t ∨ callee k t

/-- The words are in the data segment from `base` on. -/
def HoldsWords (k : Cpu (Demux ι)) (base : Word) (words : List Word) : Prop :=
  ∀ i w, words[i]? = some w → k.Holds (base + BitVec.ofNat 16 i) w

/-- The stack pointer below a target on the stack. -/
def callBase (label : Option Text) (k : Cpu (Demux ι)) : Word := if label.isNone then k.sp - 1 else k.sp

/-- The words of code of a call. -/
def callSize (label : Option Text) : Nat := if label.isNone then 1 else 2

/-- **A call at `k` whose callee has come to its `ret` in `r`**, with the words `values` for a result; `t` is before the
header of the callee and `v` before its ending. -/
structure Invocation (callee : Cpu (Demux ι) → Cpu (Demux ι) → Prop) (opSize : Nat) (label : Option Text)
    (values : List Word) (k t v r : Cpu (Demux ι)) : Prop where
  entry : ∃ entry, callEntry opSize label = some entry ∧ AtEntry addr entry k
  enters : Executes D k t
  body : ∃ nLocals nArgs h, Performs D addr (genProcHeader nLocals nArgs) t h ∧ ReflTransGen (BodyStep D callee) h v
  length : values.length = opSize
  result : HoldsWords v (v.sp - BitVec.ofNat 16 opSize) values
  ending : Performs D addr (genResult opSize) v r
  ret : AtEntry addr retEntry r
  /-- The four words below `BP` are intact. -/
  frame : ∀ i < 4, ∀ w, t.Holds (t.bp - BitVec.ofNat 16 (i + 1)) w → r.Holds (t.bp - BitVec.ofNat 16 (i + 1)) w

/-- Completed calls of a depth: the calls of the callee have a smaller one. -/
def Called : Nat → Cpu (Demux ι) → Cpu (Demux ι) → Prop
  | 0, _, _ => False
  | depth + 1, k, w => ∃ opSize label values t v r,
      Invocation D addr (Called depth) opSize label values k t v r ∧ Executes D r w

/-- **What a call leaves**: the caller's registers, the result on its stack, and no word changed but those of the frame
and those that the callee has stored to. -/
structure CallReturns (opSize : Nat) (label : Option Text) (values : List Word) (k t r w : Cpu (Demux ι)) : Prop where
  pc : w.pc = (k.pc + callSize label) % 0x80000
  ap : w.ap = k.ap
  bp : w.bp = k.bp
  sp : w.sp = callBase label k + BitVec.ofNat 16 opSize
  result : HoldsWords w (callBase label k) values
  below : ∀ a, (∀ i < 4, ¬ k.Reads .data (callBase label k + BitVec.ofNat 16 (opSize + i)).toNat a) →
    r.demux.ram a = t.demux.ram a → w.demux.ram a = k.demux.ram a

variable {D addr} {callee : Cpu (Demux ι) → Cpu (Demux ι) → Prop} {k t u v r w : Cpu (Demux ι)} {entry : RcEntry}
  {op : Op} {opSize : Nat} {label : Option Text} {values : List Word} {depth : Nat}

/-! ### Instructions of entries -/

/-- The operation of an entry is in its first word. -/
theorem AtEntry.nextOp (here : AtEntry addr entry k) (is : entry.op = some op) : ∃ ir, k.NextOp op ir := by
  obtain ⟨ws, assembled, code⟩ := here
  unfold RcEntry.assemble at assembled
  rw [is] at assembled
  change assemble op entry.argType.suffix entry.arg = some ws at assembled
  unfold assemble at assembled
  split at assembled
  case h_1 =>
    obtain rfl := Option.some.inj assembled
    exact ⟨_, code 0 _ rfl, op.decode_word⟩
  case h_2 =>
    split at assembled
    case isTrue =>
      obtain ⟨n, -, assembled⟩ := Option.bind_eq_some_iff.mp assembled
      obtain rfl := Option.some.inj assembled
      exact ⟨_, code 0 _ rfl, op.decode_wordB _⟩
    case isFalse => cases assembled
  case h_3 =>
    split at assembled
    case isTrue =>
      obtain ⟨n, -, assembled⟩ := Option.bind_eq_some_iff.mp assembled
      obtain rfl := Option.some.inj assembled
      exact ⟨_, code 0 _ rfl, op.decode_word⟩
    case isFalse =>
      obtain rfl := Option.some.inj assembled
      exact ⟨_, code 0 _ rfl, op.decode_word⟩

/-- Entries of operations that leave `BP` alone. -/
theorem Performs.bp {entries : List RcEntry}
    (plain : ∀ entry ∈ entries, ∃ op, entry.op = some op ∧ op.framed = false)
    (performs : Performs D addr entries k t) : t.bp = k.bp := by
  induction entries generalizing k with
  | nil => rw [show t = k from performs]
  | cons entry entries ih =>
    obtain ⟨u, here, executes, performs⟩ := performs
    obtain ⟨op, is, unframed⟩ := plain entry List.mem_cons_self
    obtain ⟨ir, next⟩ := here.nextOp is
    have step : Plain D k u := ⟨op, ir, next, unframed, executes⟩
    exact (ih (fun entry mem => plain entry (List.mem_cons_of_mem _ mem)) performs).trans step.bp

theorem genProcHeader_plain (nLocals nArgs : Nat) :
    ∀ entry ∈ genProcHeader nLocals nArgs, ∃ op, entry.op = some op ∧ op.framed = false := by
  intro entry mem
  unfold genProcHeader at mem
  simp only at mem
  split at mem
  case isTrue =>
    obtain rfl := List.mem_singleton.mp mem
    split
    · exact ⟨.allocW, rfl, rfl⟩
    · exact ⟨.allocB, rfl, rfl⟩
  case isFalse => cases mem

theorem genResult_plain (opSize : Nat) :
    ∀ entry ∈ genResult opSize, ∃ op, entry.op = some op ∧ op.framed = false := by
  intro entry mem
  unfold genResult at mem
  split at mem
  case isTrue =>
    rcases List.mem_cons.mp mem with rfl | mem
    · exact ⟨.addrlB, rfl, rfl⟩
    · obtain rfl := List.mem_singleton.mp mem
      exact ⟨.rstore, rfl, rfl⟩
  case isFalse =>
    split at mem
    case isTrue =>
      rcases List.mem_cons.mp mem with rfl | mem
      · exact ⟨.addrlB, rfl, rfl⟩
      · obtain rfl := List.mem_singleton.mp mem
        exact ⟨.rstore2, rfl, rfl⟩
    case isFalse => cases mem

theorem body_bp (calls : ∀ k w, callee k w → w.bp = k.bp) (body : ReflTransGen (BodyStep D callee) k t) :
    t.bp = k.bp := by
  induction body with
  | refl => rfl
  | tail _ step ih =>
    rcases step with plain | called
    · exact plain.bp.trans ih
    · exact (calls _ _ called).trans ih

/-! ### The frame -/

theorem call_returns {words : Word} (run : (call (demuxOps D) words).exec k = (.ok (), t)) :
    ∃ target a, Entered (k.withSP (k.sp - 1)) t (k.sp - 1 + words) target a := by
  unfold call at run
  obtain ⟨target, s, pop, run⟩ := exec_bind_returns run
  obtain ⟨a, -, -, rfl⟩ := pop_returns pop
  exact ⟨target, enter_returns run⟩

theorem callW_returns {words : Word} (run : (callW (demuxOps D) words).exec k = (.ok (), t)) :
    ∃ target a, Entered (k.withPC (k.pc + 1)) t (k.sp + words) target a := by
  unfold callW at run
  obtain ⟨target, s, read, run⟩ := exec_bind_returns run
  obtain ⟨a, -, -, rfl⟩ := operand_returns read
  exact ⟨target, enter_returns run⟩

/-- The operation of a call. -/
def callOp (label : Option Text) : Nat → Op
  | 0 => if label.isNone then .call0 else .call0W
  | 1 => if label.isNone then .call1 else .call1W
  | _ => if label.isNone then .call2 else .call2W

theorem callEntry_op (is : callEntry opSize label = some entry) :
    opSize ≤ 2 ∧ entry.op = some (callOp label opSize) := by
  obtain ⟨name, named, rfl⟩ := Option.map_eq_some_iff.mp is
  unfold callName at named
  split at named
  case h_4 => cases named
  all_goals
    obtain rfl := Option.some.inj named
    refine ⟨by decide, ?_⟩
    cases label <;> rfl

theorem instruction_callOp (small : opSize ≤ 2) : instruction (demuxOps D) (callOp label opSize) =
    if label.isNone then call (demuxOps D) (BitVec.ofNat 16 opSize) else callW (demuxOps D) (BitVec.ofNat 16 opSize) := by
  obtain rfl | rfl | rfl : opSize = 0 ∨ opSize = 1 ∨ opSize = 2 := by omega
  all_goals cases label <;> rfl

/-- **The frame of a call**, made of the registers of the caller with `PC` behind the call. -/
theorem AtEntry.entered (is : callEntry opSize label = some entry) (here : AtEntry addr entry k)
    (enters : Executes D k t) : ∃ caller target a,
      Entered caller t (callBase label k + BitVec.ofNat 16 opSize) target a ∧ caller.pc = k.pc + callSize label ∧
      caller.ap = k.ap ∧ caller.bp = k.bp ∧ caller.demux = k.demux ∧ caller.mmuEnabled = k.mmuEnabled ∧
      caller.mmuEntrySelector = k.mmuEntrySelector := by
  obtain ⟨small, op⟩ := callEntry_op is
  obtain ⟨ir, next⟩ := here.nextOp op
  obtain ⟨u, shadow, run, rfl⟩ := enters.performed next
  rw [instruction_callOp small] at run
  cases label with
  | none =>
    obtain ⟨target, a, entered⟩ := call_returns run
    exact ⟨_, target, a, entered.withShadow shadow, rfl, rfl, rfl, rfl, rfl, rfl⟩
  | some label =>
    obtain ⟨target, a, entered⟩ := callW_returns run
    exact ⟨_, target, a, entered.withShadow shadow, rfl, rfl, rfl, rfl, rfl, rfl⟩

/-! ### The result -/

/-- A word behind a word of the data segment is not changed by a store to that one. -/
theorem holds_putRam_other {base x y : Word} {a i j : Nat} (writes : k.Writes .data (base + BitVec.ofNat 16 i).toNat a)
    (holds : k.Holds (base + BitVec.ofNat 16 j) x) (near : i < 4096) (near' : j < 4096) (ne : i ≠ j) :
    (k.putRam a y).Holds (base + BitVec.ofNat 16 j) x := by
  obtain ⟨b, reads, rfl⟩ := holds
  refine ⟨b, reads.congr rfl rfl rfl, ?_⟩
  show Function.update k.demux.ram a y b = _
  rw [Function.update_of_ne (Cpu.reads_ne near' near ne.symm reads writes.reads)]

theorem holds_putRam_self {x y : Word} {a : Nat} (writes : k.Writes .data x.toNat a) : (k.putRam a y).Holds x y :=
  ⟨a, writes.reads.congr rfl rfl rfl, Function.update_self _ _ _⟩

/-- A word read by a pop, with the stack pointer at `sp`. -/
theorem pop_holds {sp x y : Word} (run : (pop (demuxOps D)).exec (k.withSP sp) = (.ok y, t)) (holds : k.Holds (sp - 1) x) :
    x = y ∧ t = k.withSP (sp - 1) := by
  obtain ⟨a, reads, rfl, rfl⟩ := pop_returns run
  have here : (k.withSP sp).Holds (sp - 1) x := holds.congr rfl rfl rfl rfl
  exact ⟨here.unique ⟨a, reads, rfl⟩, rfl⟩

/-- **`addrl_b` pushes an address of the frame.** -/
theorem addrl_performed {n : Int} {ir : Word} (next : k.NextOp .addrlB ir)
    (byte : (k.fetched ir).irHigh = BitVec.ofInt 16 n)
    (executes : Executes D k t) : t.Holds (t.sp - 1) (k.bp + BitVec.ofInt 16 n) ∧ t.sp = k.sp + 1 ∧ t.bp = k.bp ∧
      ∀ base x j, k.sp = base + BitVec.ofNat 16 j → j < 4096 → ∀ i < j, k.Holds (base + BitVec.ofNat 16 i) x →
        t.Holds (base + BitVec.ofNat 16 i) x := by
  obtain ⟨u, shadow, run, rfl⟩ := executes.performed next
  obtain ⟨a, writes, rfl⟩ := pushReg_returns (show (pushReg (demuxOps D) fun k => k.bp + k.irHigh).exec _ = _ from run)
  rw [byte] at *
  refine ⟨?_, rfl, rfl, fun base x j is near i low holds => ?_⟩
  · have back : ((((k.fetched ir).putRam a ((k.fetched ir).bp + BitVec.ofInt 16 n)).withSP
        ((k.fetched ir).sp + 1)).withShadow shadow).sp - 1 = (k.fetched ir).sp := by
      show k.sp + 1 - 1 = k.sp
      bv_omega
    rw [back]
    exact (holds_putRam_self writes).congr rfl rfl rfl rfl
  · have writes' : (k.fetched ir).Writes .data (base + BitVec.ofNat 16 j).toNat a := is ▸ writes
    exact (holds_putRam_other writes' (holds.fetched ir) near (by omega) (by omega)).congr rfl rfl rfl rfl

theorem rstore_performed {target x ir : Word} (next : k.NextOp .rstore ir) (executes : Executes D k t)
    (top : k.Holds (k.sp - 1) target) (below : k.Holds (k.sp - 1 - 1) x) : t.Holds target x := by
  obtain ⟨u, shadow, run, rfl⟩ := executes.performed next
  change (Sim.rstore (demuxOps D) .data).exec ((k.fetched ir).withSP k.sp) = _ at run
  unfold Sim.rstore at run
  obtain ⟨_, _, pop, run⟩ := exec_bind_returns run
  obtain ⟨rfl, rfl⟩ := pop_holds pop (top.fetched ir)
  obtain ⟨_, _, pop, run⟩ := exec_bind_returns run
  obtain ⟨rfl, rfl⟩ := pop_holds pop (below.fetched ir)
  obtain ⟨a, writes, rfl⟩ := memWrite_returns (by decide) run
  exact (holds_putRam_self writes).congr rfl rfl rfl rfl

theorem rstore2_performed {target low high ir : Word} (next : k.NextOp .rstore2 ir) (executes : Executes D k t)
    (top : k.Holds (k.sp - 1) target) (second : k.Holds (k.sp - 1 - 1) high) (third : k.Holds (k.sp - 1 - 1 - 1) low) :
    t.Holds target low ∧ t.Holds (target + 1) high := by
  obtain ⟨u, shadow, run, rfl⟩ := executes.performed next
  change (Sim.rstore2 (demuxOps D)).exec ((k.fetched ir).withSP k.sp) = _ at run
  unfold Sim.rstore2 at run
  obtain ⟨_, _, pop, run⟩ := exec_bind_returns run
  obtain ⟨rfl, rfl⟩ := pop_holds pop (top.fetched ir)
  obtain ⟨_, _, pop, run⟩ := exec_bind_returns run
  obtain ⟨rfl, rfl⟩ := pop_holds pop (second.fetched ir)
  obtain ⟨_, _, pop, run⟩ := exec_bind_returns run
  obtain ⟨rfl, rfl⟩ := pop_holds pop (third.fetched ir)
  obtain ⟨_, _, wrote, run⟩ := exec_bind_returns run
  obtain ⟨a, writes, rfl⟩ := memWrite_returns (by decide) wrote
  obtain ⟨b, writes', rfl⟩ := memWrite_returns (by decide) run
  -- the second word is behind the first, also where the address wraps
  have start : target = target + BitVec.ofNat 16 0 := (BitVec.add_zero target).symm
  have following := effAddr_next target 0
  rw [← start] at following
  have writesNext := writes'.moved following.symm
  refine ⟨?_, (holds_putRam_self writesNext).congr rfl rfl rfl rfl⟩
  have first := holds_putRam_self (y := low) writes
  rw [start] at first ⊢
  exact (holds_putRam_other (y := high) writesNext first (by decide) (by decide) (by decide)).congr rfl rfl rfl rfl

/-- **The ending of a procedure stores the result below the frame.** -/
theorem Performs.result (small : opSize ≤ 2) (length : values.length = opSize)
    (result : HoldsWords v (v.sp - BitVec.ofNat 16 opSize) values) (ending : Performs D addr (genResult opSize) v r) :
    HoldsWords r (v.bp - 4 - BitVec.ofNat 16 opSize) values := by
  obtain rfl | rfl | rfl : opSize = 0 ∨ opSize = 1 ∨ opSize = 2 := by omega
  · obtain rfl := List.length_eq_zero_iff.mp length
    exact fun i w found => nomatch found
  · obtain ⟨x, rfl⟩ := List.length_eq_one_iff.mp length
    obtain ⟨u, addrl, pushed, s, rstore, stored, rfl⟩ := ending
    obtain ⟨ir, next⟩ := rstore.nextOp (show RcEntry.op _ = some Op.rstore from rfl)
    obtain ⟨ws, assembled, code⟩ := addrl
    obtain rfl := Option.some.inj
      ((show _ = some [AsmWord.num (Op.addrlB.wordB (BitVec.ofInt 16 (-5)))] from rfl).symm.trans assembled)
    obtain ⟨top, sp, -, others⟩ := addrl_performed (n := -5) ⟨code 0 _ rfl, Op.decode_wordB _ _⟩
      (by rw [irHigh_wordB _ .addrlB _ rfl]; rfl) pushed
    have value : u.Holds (v.sp - 1) x := by
      have below := others (v.sp - 1) x 1 (by bv_omega) (by decide) 0 (by decide) (result 0 x rfl)
      rwa [BitVec.add_zero] at below
    have under : u.sp - 1 - 1 = v.sp - 1 := by rw [sp]; bv_omega
    have stored := rstore_performed next stored top (under ▸ value)
    intro i w found
    obtain rfl : i = 0 := Nat.lt_one_iff.mp (List.getElem?_eq_some_iff.mp found).1
    obtain rfl := Option.some.inj found
    rw [show v.bp - 4 - BitVec.ofNat 16 1 + BitVec.ofNat 16 0 = v.bp + BitVec.ofInt 16 (-5) by bv_omega]
    exact stored
  · obtain ⟨low, high, rfl⟩ := List.length_eq_two.mp length
    obtain ⟨u, addrl, pushed, s, rstore, stored, rfl⟩ := ending
    obtain ⟨ir, next⟩ := rstore.nextOp (show RcEntry.op _ = some Op.rstore2 from rfl)
    obtain ⟨ws, assembled, code⟩ := addrl
    obtain rfl := Option.some.inj
      ((show _ = some [AsmWord.num (Op.addrlB.wordB (BitVec.ofInt 16 (-6)))] from rfl).symm.trans assembled)
    obtain ⟨top, sp, -, others⟩ := addrl_performed (n := -6) ⟨code 0 _ rfl, Op.decode_wordB _ _⟩
      (by rw [irHigh_wordB _ .addrlB _ rfl]; rfl) pushed
    have value : ∀ i < 2, ∀ x, [low, high][i]? = some x → u.Holds (v.sp - 2 + BitVec.ofNat 16 i) x :=
      fun i small x found => others (v.sp - 2) x 2 (by bv_omega) (by decide) i small (result i x found)
    have second : u.Holds (u.sp - 1 - 1) high := by
      rw [show u.sp - 1 - 1 = v.sp - 2 + BitVec.ofNat 16 1 by rw [sp]; bv_omega]
      exact value 1 (by decide) high rfl
    have third : u.Holds (u.sp - 1 - 1 - 1) low := by
      rw [show u.sp - 1 - 1 - 1 = v.sp - 2 + BitVec.ofNat 16 0 by rw [sp]; bv_omega]
      exact value 0 (by decide) low rfl
    obtain ⟨first, next⟩ := rstore2_performed next stored top second third
    intro i w found
    obtain rfl | rfl : i = 0 ∨ i = 1 := by
      have inside : i < 2 := (List.getElem?_eq_some_iff.mp found).1
      omega
    · obtain rfl := Option.some.inj found
      rw [show v.bp - 4 - BitVec.ofNat 16 2 + BitVec.ofNat 16 0 = v.bp + BitVec.ofInt 16 (-6) by bv_omega]
      exact first
    · obtain rfl := Option.some.inj found
      rw [show v.bp - 4 - BitVec.ofNat 16 2 + BitVec.ofNat 16 1 = v.bp + BitVec.ofInt 16 (-6) + 1 by bv_omega]
      exact next

/-! ### The return -/

/-- **A callee at its `ret` returns to its caller.** -/
theorem Invocation.returns (calls : ∀ k w, callee k w → w.bp = k.bp)
    (invocation : Invocation D addr callee opSize label values k t v r) :
    ∃ w, Executes D r w ∧ CallReturns opSize label values k t r w := by
  obtain ⟨⟨entry, is, here⟩, enters, ⟨nLocals, nArgs, h, header, body⟩, length, result, ending, ret, frame⟩ := invocation
  obtain ⟨small, -⟩ := callEntry_op is
  obtain ⟨caller, target, a, entered, pc, ap, bp, demux, enabled, selector⟩ := here.entered is enters
  have bpV : v.bp = t.bp := (body_bp calls body).trans (header.bp (genProcHeader_plain _ _))
  have bpR : r.bp = t.bp := (ending.bp (genResult_plain _)).trans bpV
  have base : callBase label k + BitVec.ofNat 16 opSize = t.bp - 4 := by
    rw [entered.bp]
    bv_omega
  obtain ⟨isHPC, isMPC, isAP, isBP⟩ := entered.holds
  rw [base] at isHPC isMPC isAP isBP
  have isBP' : r.Holds (r.bp - 1) caller.bp := by
    rw [bpR]
    exact frame 0 (by decide) _ (by rwa [show t.bp - BitVec.ofNat 16 (0 + 1) = t.bp - 4 + BitVec.ofNat 16 3 by bv_omega])
  have isAP' : r.Holds (r.bp - 2) caller.ap := by
    rw [bpR]
    exact frame 1 (by decide) _ (by rwa [show t.bp - BitVec.ofNat 16 (1 + 1) = t.bp - 4 + BitVec.ofNat 16 2 by bv_omega])
  have isMPC' : r.Holds (r.bp - 3) caller.mPC := by
    rw [bpR]
    exact frame 2 (by decide) _ (by rwa [show t.bp - BitVec.ofNat 16 (2 + 1) = t.bp - 4 + BitVec.ofNat 16 1 by bv_omega])
  have isHPC' : r.Holds (r.bp - 4) caller.highPC := by
    rw [bpR]
    exact frame 3 (by decide) _ (by rwa [show t.bp - BitVec.ofNat 16 (3 + 1) = t.bp - 4 + BitVec.ofNat 16 0 by bv_omega])
  obtain ⟨ir, next⟩ := ret.nextOp (show RcEntry.op _ = some Op.ret from rfl)
  obtain ⟨u, run, uBP, uAP, uSP, uPC, uDemux, uEnabled, uSelector⟩ := exec_ret_holds (D := D) (isBP'.fetched ir)
    (isAP'.fetched ir) (isMPC'.fetched ir) (isHPC'.fetched ir)
  obtain ⟨shadow, executes⟩ := Executes.of_run next run
  refine ⟨_, executes, ?_, uAP.trans ap, uBP.trans bp, ?_, ?_, ?_⟩
  · rw [← pc, ← return_position]
    exact uPC
  · refine uSP.trans ?_
    rw [base, ← bpR]
    rfl
  · have stored := Performs.result small length result ending
    have start : v.bp - 4 - BitVec.ofNat 16 opSize = callBase label k := by
      rw [bpV, ← base]
      bv_omega
    rw [start] at stored
    exact fun i x found => (stored i x found).congr (congrArg Demux.ram uDemux) (congrArg Demux.table uDemux) uEnabled
      uSelector
  · intro b away same
    have kept := entered.others (b := b) fun i low reads => away i low ?_
    · show u.demux.ram b = _
      rw [uDemux, ← demux, ← kept]
      exact same
    · rw [BitVec.ofNat_add, ← BitVec.add_assoc]
      exact reads.congr (congrArg Demux.table demux.symm) enabled.symm selector.symm

/-- **Completed calls return to their caller**, at any depth. By induction on the depth: the calls in the body of the
callee have returned, so they have left its `BP` alone. -/
theorem Called.returns (called : Called D addr depth k w) : ∃ opSize label values t r,
    CallReturns opSize label values k t r w := by
  induction depth generalizing k w with
  | zero => exact called.elim
  | succ depth ih =>
    obtain ⟨opSize, label, values, t, v, r, invocation, last⟩ := called
    have calls : ∀ k w, Called D addr depth k w → w.bp = k.bp := fun k w called => by
      obtain ⟨_, _, _, _, _, returned⟩ := ih called
      exact returned.bp
    obtain ⟨w', executes, returned⟩ := invocation.returns calls
    obtain rfl : w' = w := (Prod.mk.inj (executes.symm.trans last)).2
    exact ⟨opSize, label, values, t, r, returned⟩

/-- **The calling convention**, for every depth of the calls in the callee. -/
theorem invocation_returns (depth : Nat)
    (invocation : Invocation D addr (Called D addr depth) opSize label values k t v r) :
    ∃ w, Executes D r w ∧ CallReturns opSize label values k t r w :=
  invocation.returns fun k w called => by
    obtain ⟨_, _, _, _, _, returned⟩ := called.returns
    exact returned.bp


/-! ### A nested call -/

/-- `f` at block 0x40 returns 7 after a call of `g`, at block 0x60, that only returns. -/
def nested (a : Nat) : Word :=
  if a < 0x200 then [Op.call1W.word, 0x40].getD (a - 0x100) 0
  else if a < 0x300 then
    [Op.call0W.word, 0x60, Op.cnstB.wordB 7, Op.addrlB.wordB (-5), Op.rstore.word, Op.ret.word].getD (a - 0x200) 0
  else [Op.ret.word].getD (a - 0x300) 0

/-- The blocks of the two labels. -/
def nestedAddr (label : Text) : Word := if label = ['f'] then 0x40 else 0x60

/-- Before the call of `f`. -/
def outside : Cpu (Demux Unit) :=
  { ra := 0, rb := 0, ap := 0x10, bp := 0x4000, sp := 0x4003, pc := 0x100, ir := 0, s := 0, d := 0,
    commitEnabled := false, intEnabled := false, userMode := false, mmuEnabled := false, mmuEntrySelector := 0,
    shadow := ⟨0, 0, 0, 0, 0, 0⟩,
    demux :=
      { ram := nested
        table := fun _ => 0
        intCtl := ⟨0, 0, fun _ => 0⟩
        mmuLastFailPage := 0
        devs := () } }

/-- After `n` instructions. -/
def after : Nat → Cpu (Demux Unit)
  | 0 => outside
  | n + 1 => ((executeInstruction (demuxOps noDevices)).exec (after n)).2

theorem after_executes {n : Nat}
    (ok : ((executeInstruction (demuxOps noDevices)).exec (after n)).1.toBool = true) :
    Executes noDevices (after n) (after (n + 1)) := by
  have whole : ∀ run : Except Sim.Fault Unit × Cpu (Demux Unit), run.1.toBool = true → run = (.ok (), run.2) := by
    rintro ⟨value, t⟩ ok
    cases value with
    | error => cases ok
    | ok => rfl
  exact whole _ ok

theorem after_code {n p i : Nat} {w : Word} (off : (after n).mmuEnabled = false) (pc : (after n).pc + i = p)
    (low : p < 0x4000) (word : (after n).demux.ram p = w) : (after n).Code i w := by
  refine ⟨p, ?_, word⟩
  rw [pc]
  exact .of_off off (by decide) (by omega)

theorem after_holds {n : Nat} {x w : Word} (off : (after n).mmuEnabled = false) :
    (after n).Holds x w ↔ (after n).demux.ram x.toNat = w := by
  have reads : (after n).Reads .data x.toNat x.toNat := .of_off off (by decide) x.isLt
  refine ⟨?_, fun word => ⟨_, reads, word⟩⟩
  rintro ⟨a, here, word⟩
  rwa [reads.unique here]

theorem after_off {n : Nat} (small : n < 8) : (after n).mmuEnabled = false := by
  have all : ∀ n < 8, (after n).mmuEnabled = false := by decide +kernel
  exact all n small

theorem after_next {n : Nat} (small : n < 8) : Executes noDevices (after n) (after (n + 1)) := by
  have all : ∀ n < 8, ((executeInstruction (demuxOps noDevices)).exec (after n)).1.toBool = true := by decide +kernel
  exact after_executes (all n small)

/-- An entry of the program. -/
theorem after_entry {n p : Nat} {entry : RcEntry} {ws : List AsmWord} (small : n < 8)
    (assembled : entry.assemble = some ws) (short : ws.length ≤ 2) (pc : (after n).pc = p) (low : p < 0x3000)
    (words : ∀ i < 2, ∀ w, ws[i]? = some w → (after n).demux.ram (p + i) = w.value nestedAddr) :
    AtEntry nestedAddr entry (after n) := by
  refine ⟨ws, assembled, fun i w found => ?_⟩
  have inside := (List.getElem?_eq_some_iff.mp found).1
  exact after_code (after_off small) (by rw [pc]) (by omega) (words i (by omega) w found)

/-- The frame of the one is that of the other. -/
theorem after_frame {m n : Nat} (first : m < 8) (second : n < 8)
    (same : ∀ i < 4, (after n).demux.ram ((after m).bp - BitVec.ofNat 16 (i + 1)).toNat =
      (after m).demux.ram ((after m).bp - BitVec.ofNat 16 (i + 1)).toNat) :
    ∀ i < 4, ∀ w, (after m).Holds ((after m).bp - BitVec.ofNat 16 (i + 1)) w →
      (after n).Holds ((after m).bp - BitVec.ofNat 16 (i + 1)) w := fun i low _ holds =>
  (after_holds (after_off second)).mpr ((same i low).trans ((after_holds (after_off first)).mp holds))

/-- The call of `g`. -/
theorem inner_invocation :
    Invocation noDevices nestedAddr (Called noDevices nestedAddr 0) 0 (some ['g']) [] (after 1) (after 2) (after 2)
      (after 2) where
  entry := ⟨_, rfl,
    after_entry (p := 0x200) (by decide) rfl (by decide) (by decide +kernel) (by decide) (by decide +kernel)⟩
  enters := after_next (by decide)
  body := ⟨0, 0, _, rfl, .refl⟩
  length := rfl
  result _ _ found := nomatch found
  ending := rfl
  ret := after_entry (p := 0x300) (by decide) rfl (by decide) (by decide +kernel) (by decide) (by decide +kernel)
  frame := after_frame (by decide) (by decide) fun _ _ => rfl

/-- The call of `f`, with that one in its body. -/
theorem outer_invocation :
    Invocation noDevices nestedAddr (Called noDevices nestedAddr 1) 1 (some ['f']) [7] (after 0) (after 1) (after 4)
      (after 6) where
  entry := ⟨_, rfl,
    after_entry (p := 0x100) (by decide) rfl (by decide) (by decide +kernel) (by decide) (by decide +kernel)⟩
  enters := after_next (by decide)
  body := by
    refine ⟨0, 0, after 1, rfl, ?_⟩
    have called : Called noDevices nestedAddr 1 (after 1) (after 3) :=
      ⟨_, _, _, _, _, _, inner_invocation, after_next (by decide)⟩
    refine .tail (.single (.inr called))
      (.inl ⟨.cnstB, Op.cnstB.wordB 7, ⟨?_, Op.decode_wordB _ _⟩, rfl, after_next (by decide)⟩)
    exact after_code (p := 0x202) (after_off (by decide)) (by decide +kernel) (by decide) (by decide +kernel)
  length := rfl
  result i w found := by
    obtain rfl : i = 0 := Nat.lt_one_iff.mp (List.getElem?_eq_some_iff.mp found).1
    obtain rfl := Option.some.inj found
    exact (after_holds (after_off (by decide))).mpr (by decide +kernel)
  ending :=
    ⟨_, after_entry (p := 0x203) (by decide) rfl (by decide) (by decide +kernel) (by decide) (by decide +kernel),
      after_next (by decide),
      _, after_entry (p := 0x204) (by decide) rfl (by decide) (by decide +kernel) (by decide) (by decide +kernel),
      after_next (by decide), rfl⟩
  ret := after_entry (p := 0x205) (by decide) rfl (by decide) (by decide +kernel) (by decide) (by decide +kernel)
  frame := after_frame (by decide) (by decide) (by decide +kernel)

/-- The call of `f` returns 7, behind the call. -/
theorem invocation_returns_nested : ∃ w, Executes noDevices (after 6) w ∧
    CallReturns 1 (some ['f']) [7] (after 0) (after 1) (after 6) w :=
  invocation_returns 1 outer_invocation

end RlCpu.Binutils
