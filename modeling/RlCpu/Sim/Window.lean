/-
**The processor on a stack of known words.**

A `Window` is a stretch of writable words of the data segment, found at different physical addresses, on a processor
that takes no interrupt. `At g pc m t`: the processor `t` is at `pc`, its stack in the window `g` is `m`, and nothing
else has changed. `CodeAt g inside pc words`: the words stand in the code segment at `pc`, apart from the window.

Each operation of a `Mach` is one of the processor: `At.stepVal` for the instructions that only work on the stack,
`At.branch`, `At.jumpW`, `At.call0W` and `At.ret` for the others.
-/

import RlCpu.Lib.Deterministic
import RlCpu.Sim.Interrupt
import RlCpu.Sim.Listing

namespace RlCpu.Sim

open RlCpu.Kernel RlCpu.Lib RlCpu.Lib.Abort

variable {ι : Type}

/-! ### The window -/

/-- `t` has the registers and devices of `k`, but those that a program on a stack moves. -/
structure Still (k t : Cpu (Demux ι)) : Prop where
  s : t.s = k.s
  d : t.d = k.d
  commitEnabled : t.commitEnabled = k.commitEnabled
  intEnabled : t.intEnabled = k.intEnabled
  userMode : t.userMode = k.userMode
  mmuEnabled : t.mmuEnabled = k.mmuEnabled
  selector : t.mmuEntrySelector = k.mmuEntrySelector
  table : t.demux.table = k.demux.table
  intCtl : t.demux.intCtl = k.demux.intCtl
  mmuLastFailPage : t.demux.mmuLastFailPage = k.demux.mmuLastFailPage
  devs : t.demux.devs = k.demux.devs

theorem Still.refl (k : Cpu (Demux ι)) : Still k k := ⟨rfl, rfl, rfl, rfl, rfl, rfl, rfl, rfl, rfl, rfl, rfl⟩

theorem Still.trans {k t u : Cpu (Demux ι)} (first : Still k t) (second : Still t u) : Still k u :=
  ⟨second.s.trans first.s, second.d.trans first.d, second.commitEnabled.trans first.commitEnabled,
    second.intEnabled.trans first.intEnabled, second.userMode.trans first.userMode,
    second.mmuEnabled.trans first.mmuEnabled, second.selector.trans first.selector, second.table.trans first.table,
    second.intCtl.trans first.intCtl, second.mmuLastFailPage.trans first.mmuLastFailPage, second.devs.trans first.devs⟩

/-- Words for a stack, from the address `base` on. -/
structure Window (ι : Type) where
  k : Cpu (Demux ι)
  base : Word
  size : Nat
  data : Nat → Nat
  mapped : ∀ i < size, k.Writes .data (base + BitVec.ofNat 16 i).toNat (data i)
  apart : ∀ i < size, ∀ j < size, data i = data j → i = j
  quiet : k.intEnabled = false ∨ k.demux.intCtl.irqLineStatus = false

/-- The processor is at `pc` with the stack `m`. -/
structure At (g : Window ι) (pc : Nat) (m : Mach) (t : Cpu (Demux ι)) : Prop where
  pc : t.pc = pc
  ap : m.ap.Is g.base t.ap
  bp : m.bp.Is g.base t.bp
  sp : t.sp = g.base + BitVec.ofNat 16 m.ws.length
  room : m.ws.length ≤ g.size
  words : ∀ i v, m.load i = some v → v.Is g.base (t.demux.ram (g.data i))
  outside : ∀ a, (∀ i < g.size, a ≠ g.data i) → t.demux.ram a = g.k.demux.ram a
  still : Still g.k t

/-- The words stand at `pc`, in the part `inside` of the code. -/
def CodeAt (g : Window ι) (inside : Nat → Prop) (pc : Nat) (ws : List Word) : Prop :=
  ∀ j w, ws[j]? = some w → inside (pc + j) ∧
    ∃ a, g.k.Reads .code (pc + j) a ∧ g.k.demux.ram a = w ∧ ∀ i < g.size, a ≠ g.data i

section Code

variable {g : Window ι} {inside : Nat → Prop} {pc : Nat} {ws vs : List Word}

theorem CodeAt.left (code : CodeAt g inside pc (ws ++ vs)) : CodeAt g inside pc ws := by
  intro j w found
  refine code j w ?_
  have low : j < ws.length := (List.getElem?_eq_some_iff.mp found).1
  rwa [List.getElem?_append_left low]

theorem CodeAt.right (code : CodeAt g inside pc (ws ++ vs)) : CodeAt g inside (pc + ws.length) vs := by
  intro j w found
  rw [Nat.add_assoc]
  refine code (ws.length + j) w ?_
  rwa [List.getElem?_append_right (Nat.le_add_right _ _), Nat.add_sub_cancel_left]

theorem CodeAt.tail {w : Word} (code : CodeAt g inside pc (w :: ws)) : CodeAt g inside (pc + 1) ws :=
  (show CodeAt g inside pc ([w] ++ ws) from code).right

theorem CodeAt.drop (code : CodeAt g inside pc ws) (n : Nat) : CodeAt g inside (pc + n) (ws.drop n) := by
  intro j w found
  rw [List.getElem?_drop] at found
  rw [Nat.add_assoc]
  exact code (n + j) w found

/-- The same words, as a part of other code. -/
theorem CodeAt.within {region : Nat → Prop} (code : CodeAt g region pc ws) (within : ∀ j < ws.length, inside (pc + j)) :
    CodeAt g inside pc ws := by
  intro j w found
  exact ⟨within j (List.getElem?_eq_some_iff.mp found).1, (code j w found).2⟩

end Code

/-! ### Words of the stack -/

namespace Mach

variable {m m' : Mach} {v w : Val} {ws : List Val} {size i j : Nat}

theorem load_eq (m : Mach) (i : Nat) : m.load i = m.ws.reverse[i]? := by
  unfold load
  by_cases low : i < m.ws.length
  · rw [if_pos low, List.getElem?_reverse low]
  · rw [if_neg low, List.getElem?_eq_none (by simpa using low)]

theorem load_lt (found : m.load i = some v) : i < m.ws.length := by
  rw [load_eq] at found
  simpa using (List.getElem?_eq_some_iff.mp found).1

/-- The words below the top. -/
theorem load_below (top : m.ws = w :: ws) (found : load { m with ws := ws } i = some v) : m.load i = some v := by
  have low := load_lt found
  rw [load_eq] at found ⊢
  rw [top, List.reverse_cons, List.getElem?_append_left (by simpa using low)]
  exact found

theorem load_top (top : m.ws = v :: ws) : m.load ws.length = some v := by
  rw [load_eq, top, List.reverse_cons, List.getElem?_append_right (by simp)]
  simp

theorem push_eq (pushed : m.push size v = some m') : m.ws.length < size ∧ m' = { m with ws := v :: m.ws } := by
  unfold push at pushed
  split at pushed
  case isTrue low => exact ⟨low, (Option.some.inj pushed).symm⟩
  case isFalse => cases pushed

theorem load_cons (found : load { m with ws := v :: m.ws } i = some w) :
    i = m.ws.length ∧ w = v ∨ m.load i = some w := by
  have low := load_lt found
  rw [load_eq] at found ⊢
  rw [List.reverse_cons] at found
  by_cases top : i = m.ws.length
  · subst top
    rw [List.getElem?_append_right (by simp)] at found
    exact Or.inl ⟨rfl, by simpa using found.symm⟩
  · have below : i < m.ws.length := by
      simp only [List.length_cons] at low
      omega
    rw [List.getElem?_append_left (by simpa using below)] at found
    exact Or.inr found

theorem save_eq (saved : m.save i v = some m') :
    i < m.ws.length ∧ m' = { m with ws := m.ws.set (m.ws.length - 1 - i) v } := by
  unfold save at saved
  split at saved
  case isTrue low => exact ⟨low, (Option.some.inj saved).symm⟩
  case isFalse => cases saved

theorem load_save (saved : m.save i v = some m') (found : m'.load j = some w) :
    j = i ∧ w = v ∨ j ≠ i ∧ m.load j = some w := by
  obtain ⟨low, rfl⟩ := save_eq saved
  have inside := load_lt found
  unfold load at found ⊢
  simp only [List.length_set] at found inside
  rw [if_pos inside] at found ⊢
  by_cases same : j = i
  · subst same
    rw [List.getElem?_set_self (by omega)] at found
    exact Or.inl ⟨rfl, (Option.some.inj found).symm⟩
  · rw [List.getElem?_set_ne (by omega)] at found
    exact Or.inr ⟨same, found⟩

end Mach

/-! ### Accesses to the stack -/

theorem Cpu.Reads.moved {k : Cpu (Demux ι)} {seg : Seg} {addr addr' a : Nat} (reads : k.Reads seg addr a)
    (same : effAddr seg addr' = effAddr seg addr) : k.Reads seg addr' a :=
  ⟨reads.memory, same ▸ reads.found, reads.inRam⟩

theorem Cpu.Writes.moved {k : Cpu (Demux ι)} {seg : Seg} {addr addr' a : Nat} (writes : k.Writes seg addr a)
    (same : effAddr seg addr' = effAddr seg addr) : k.Writes seg addr' a :=
  ⟨writes.memory, same ▸ writes.found, writes.inRam⟩

/-- The address after a word of the stack, as the double words compute it. -/
theorem effAddr_next (base : Word) (i : Nat) :
    effAddr .data ((base + BitVec.ofNat 16 i).toNat + 1) = effAddr .data (base + BitVec.ofNat 16 (i + 1)).toNat := by
  show _ &&& 0xffff = _ &&& 0xffff
  rw [Nat.and_two_pow_sub_one_eq_mod _ 16, Nat.and_two_pow_sub_one_eq_mod _ 16, BitVec.toNat_add, BitVec.toNat_add,
    BitVec.toNat_ofNat, BitVec.toNat_ofNat]
  omega

section Access

variable {D : Devices ι} {g : Window ι} {pc : Nat} {m m' : Mach} {t : Cpu (Demux ι)} {v w : Val} {ws : List Val}
  {i size : Nat} {x : Word}

theorem At.writes (here : At g pc m t) (low : i < g.size) :
    t.Writes .data (g.base + BitVec.ofNat 16 i).toNat (g.data i) :=
  (g.mapped i low).congr here.still.table here.still.mmuEnabled here.still.selector

/-- The stack does not depend on the registers that it does not use. -/
theorem At.move {u : Cpu (Demux ι)} {pc' : Nat} (here : At g pc m t) (still : Still t u) (ram : u.demux.ram = t.demux.ram)
    (at' : u.pc = pc') (ws : m'.ws = m.ws) (ap : m'.ap.Is g.base u.ap) (bp : m'.bp.Is g.base u.bp) (sp : u.sp = t.sp) :
    At g pc' m' u := by
  have load : ∀ i, m'.load i = m.load i := fun i => by
    rw [Mach.load_eq, Mach.load_eq, ws]
  exact ⟨at', ap, bp, sp ▸ ws ▸ here.sp, ws ▸ here.room, fun i v found => ram ▸ here.words i v (load i ▸ found),
    ram ▸ here.outside, here.still.trans still⟩

theorem At.keep {u : Cpu (Demux ι)} {pc' : Nat} (here : At g pc m t) (still : Still t u) (ram : u.demux.ram = t.demux.ram)
    (at' : u.pc = pc') (ap : u.ap = t.ap) (bp : u.bp = t.bp) (sp : u.sp = t.sp) : At g pc' m u :=
  here.move still ram at' rfl (ap ▸ here.ap) (bp ▸ here.bp) sp

theorem At.settle (here : At g pc m t) : At g pc m t.settle := by
  obtain ⟨shadow, same⟩ := settle_shadow t
  rw [same]
  exact here.keep ⟨rfl, rfl, rfl, rfl, rfl, rfl, rfl, rfl, rfl, rfl, rfl⟩ rfl here.pc rfl rfl rfl

theorem At.withPC (here : At g pc m t) (pc' : Nat) : At g pc' m (t.withPC pc') :=
  here.keep ⟨rfl, rfl, rfl, rfl, rfl, rfl, rfl, rfl, rfl, rfl, rfl⟩ rfl rfl rfl rfl rfl

theorem At.fetched (here : At g pc m t) (ir : Word) : At g (pc + 1) m (t.fetched ir) :=
  here.keep ⟨rfl, rfl, rfl, rfl, rfl, rfl, rfl, rfl, rfl, rfl, rfl⟩ rfl (congrArg (· + 1) here.pc) rfl rfl rfl

theorem At.withRA (here : At g pc m t) (ra : Word) : At g pc m (t.withRA ra) :=
  here.keep ⟨rfl, rfl, rfl, rfl, rfl, rfl, rfl, rfl, rfl, rfl, rfl⟩ rfl here.pc rfl rfl rfl

theorem At.withRB (here : At g pc m t) (rb : Word) : At g pc m (t.withRB rb) :=
  here.keep ⟨rfl, rfl, rfl, rfl, rfl, rfl, rfl, rfl, rfl, rfl, rfl⟩ rfl here.pc rfl rfl rfl

/-- `p` returns from `t` with the word `v`, and leaves the stack `m`. -/
def Gives (g : Window ι) (p : Abort Fault (Cpu (Demux ι)) Word) (t : Cpu (Demux ι)) (v : Val) (pc : Nat) (m : Mach) :
    Prop :=
  ∃ x u, p.exec t = (.ok x, u) ∧ v.Is g.base x ∧ At g pc m u ∧ u.ir = t.ir

/-- `p` returns from `t`, and leaves the stack `m`. -/
def Does (g : Window ι) (p : Abort Fault (Cpu (Demux ι)) Unit) (t : Cpu (Demux ι)) (pc : Nat) (m : Mach) : Prop :=
  ∃ u, p.exec t = (.ok (), u) ∧ At g pc m u ∧ u.ir = t.ir

theorem Gives.bind {p : Abort Fault (Cpu (Demux ι)) Word} {f : Word → Abort Fault (Cpu (Demux ι)) Unit} {pc' : Nat}
    {g' : Window ι} (first : Gives g p t v pc m)
    (second : ∀ x u, v.Is g.base x → At g pc m u → u.ir = t.ir → Does g' (f x) u pc' m') : Does g' (p >>= f) t pc' m' := by
  obtain ⟨x, u, run, is, here, ir⟩ := first
  obtain ⟨w, run', here', ir'⟩ := second x u is here ir
  exact ⟨w, by rw [exec_bind_ok run, run'], here', ir'.trans ir⟩

theorem Does.bind {p : Abort Fault (Cpu (Demux ι)) Unit} {f : Unit → Abort Fault (Cpu (Demux ι)) Unit} {pc' : Nat}
    {g' : Window ι} (first : Does g p t pc m) (second : ∀ u, At g pc m u → u.ir = t.ir → Does g' (f ()) u pc' m') :
    Does g' (p >>= f) t pc' m' := by
  obtain ⟨u, run, here, ir⟩ := first
  obtain ⟨w, run', here', ir'⟩ := second u here ir
  exact ⟨w, by rw [exec_bind_ok run, run'], here', ir'.trans ir⟩

theorem Does.get {f : Cpu (Demux ι) → Abort Fault (Cpu (Demux ι)) Unit} (does : Does g (f t) t pc m) :
    Does g (MonadState.get >>= f) t pc m := by
  obtain ⟨u, run, here, ir⟩ := does
  exact ⟨u, by rw [exec_bind_ok (exec_get t), run], here, ir⟩

theorem At.modify {f : Cpu (Demux ι) → Cpu (Demux ι)} (here : At g pc m (f t)) (ir : (f t).ir = t.ir) :
    Does g (modify f) t pc m :=
  ⟨f t, rfl, here, ir⟩

/-- A word of the stack read. -/
theorem At.read (here : At g pc m t) {addr : Nat}
    (is : effAddr .data addr = effAddr .data (g.base + BitVec.ofNat 16 i).toNat) (found : m.load i = some v) :
    Gives g (memRead (demuxOps D) addr .data) t v pc m := by
  have low : i < g.size := lt_of_lt_of_le (Mach.load_lt found) here.room
  exact ⟨_, t, exec_memRead ((here.writes low).reads.moved is), here.words i v found, here, rfl⟩

/-- A word put into the stack. -/
theorem At.put (here : At g pc m t) (low : i < g.size) (room : m'.ws.length ≤ g.size) (ap : m'.ap = m.ap)
    (bp : m'.bp = m.bp) (is : v.Is g.base x) (sp : Word) (length : sp = g.base + BitVec.ofNat 16 m'.ws.length)
    (words : ∀ j w, m'.load j = some w → j = i ∧ w = v ∨ j ≠ i ∧ m.load j = some w) :
    At g pc m' ((t.putRam (g.data i) x).withSP sp) := by
  refine ⟨here.pc, ap ▸ here.ap, bp ▸ here.bp, length, room, fun j w found => ?_, fun a away => ?_,
    here.still.trans ⟨rfl, rfl, rfl, rfl, rfl, rfl, rfl, rfl, rfl, rfl, rfl⟩⟩
  · show w.Is g.base (Function.update t.demux.ram (g.data i) x (g.data j))
    rcases words j w found with ⟨rfl, rfl⟩ | ⟨other, before⟩
    · rwa [Function.update_self]
    · have inside : j < g.size := lt_of_lt_of_le (Mach.load_lt before) here.room
      rw [Function.update_of_ne fun same => other (g.apart j inside i low same)]
      exact here.words j w before
  · show Function.update t.demux.ram (g.data i) x a = _
    rw [Function.update_of_ne (away i low)]
    exact here.outside a away

/-- A word of the stack written. -/
theorem At.write (here : At g pc m t) {addr : Nat}
    (is : effAddr .data addr = effAddr .data (g.base + BitVec.ofNat 16 i).toNat) (isWord : v.Is g.base x)
    (saved : m.save i v = some m') : Does g (memWrite (demuxOps D) addr x .data) t pc m' := by
  obtain ⟨low, same⟩ := Mach.save_eq saved
  have inside : i < g.size := lt_of_lt_of_le low here.room
  have length : m'.ws.length = m.ws.length := by rw [same, List.length_set]
  refine ⟨t.putRam (g.data i) x, exec_memWrite x ((here.writes inside).moved is), ?_, rfl⟩
  exact here.put inside (length ▸ here.room) (by rw [same]) (by rw [same]) isWord t.sp (by rw [length]; exact here.sp)
    fun j w found => Mach.load_save saved found

theorem At.push (here : At g pc m t) (fits : size ≤ g.size) (isWord : v.Is g.base x)
    (pushed : m.push size v = some m') : Does g (push (demuxOps D) x) t pc m' := by
  obtain ⟨low, rfl⟩ := Mach.push_eq pushed
  have inside : m.ws.length < g.size := lt_of_lt_of_le low fits
  have writes := here.writes inside
  rw [← here.sp] at writes
  refine ⟨_, exec_push x writes, ?_, rfl⟩
  have lengths : (Mach.mk m.ap m.bp (v :: m.ws)).ws.length ≤ g.size := Nat.succ_le_of_lt inside
  refine here.put inside lengths rfl rfl isWord (t.sp + 1) ?_ fun j w found => ?_
  · rw [here.sp, BitVec.add_assoc]
    congr 1
    exact (BitVec.ofNat_add _ _).symm
  · rcases Mach.load_cons found with top | below
    · exact Or.inl top
    · exact Or.inr ⟨(Mach.load_lt below).ne, below⟩

theorem At.pop (here : At g pc m t) (top : m.ws = v :: ws) :
    Gives g (pop (demuxOps D)) t v pc { m with ws := ws } := by
  have length : m.ws.length = ws.length + 1 := by rw [top, List.length_cons]
  have room : ws.length + 1 ≤ g.size := length ▸ here.room
  have sp : t.sp - 1 = g.base + BitVec.ofNat 16 ws.length := by
    rw [here.sp, length, BitVec.ofNat_add, ← BitVec.add_assoc]
    exact BitVec.add_sub_cancel _ _
  have reads := (here.writes (i := ws.length) (by omega)).reads
  rw [← sp] at reads
  refine ⟨_, _, exec_pop reads, here.words _ v (Mach.load_top top), ?_, rfl⟩
  exact ⟨here.pc, here.ap, here.bp, sp, Nat.le_of_succ_le room, fun j w found => here.words j w (Mach.load_below top found),
    here.outside, here.still.trans ⟨rfl, rfl, rfl, rfl, rfl, rfl, rfl, rfl, rfl, rfl, rfl⟩⟩

end Access

/-- A stack with one word that is not known any more. -/
def Mach.forget (m : Mach) (i : Nat) : Mach := { m with ws := m.ws.set i .any }

theorem At.forget {g : Window ι} {pc : Nat} {m : Mach} {t : Cpu (Demux ι)} (here : At g pc m t) (i : Nat) :
    At g pc (m.forget i) t := by
  have length : (m.forget i).ws.length = m.ws.length := List.length_set
  refine ⟨here.pc, here.ap, here.bp, length ▸ here.sp, length ▸ here.room, fun j v found => ?_, here.outside, here.still⟩
  have low := Mach.load_lt found
  unfold Mach.load at found
  rw [if_pos low, length] at found
  change (m.ws.set i .any)[_]? = _ at found
  rw [List.getElem?_set] at found
  split at found
  case isTrue same =>
    split at found
    case isTrue => exact Option.some.inj found ▸ trivial
    case isFalse => cases found
  case isFalse other =>
    refine here.words j v ?_
    unfold Mach.load
    rwa [if_pos (length ▸ low)]

/-- **The words of a stack of known words.** -/
theorem At.words_iff {g : Window ι} {pc : Nat} {ap bp : Val} {ws : List Val} {known : List Word} {t : Cpu (Demux ι)}
    (here : At g pc ⟨ap, bp, known.map .word⟩ t) (length : ws.length = known.length) :
    At g pc ⟨ap, bp, ws⟩ t ↔ List.Forall₂ (Val.Is g.base) ws known := by
  have length' : ws.length = (known.map Val.word).length := by rw [List.length_map, length]
  have word : ∀ i w, known.reverse[i]? = some w → t.demux.ram (g.data i) = w := fun i w found =>
    here.words i (.word w) (by rw [Mach.load_eq, ← List.map_reverse, List.getElem?_map, found]; rfl)
  rw [← List.forall₂_reverse_iff, List.forall₂_iff_get]
  constructor
  · refine fun there => ⟨by rw [List.length_reverse, List.length_reverse, length], fun i low low' => ?_⟩
    have is := there.words i _ (by rw [Mach.load_eq]; exact List.getElem?_eq_getElem low)
    rwa [word i _ (List.getElem?_eq_getElem low')] at is
  · rintro ⟨-, is⟩
    refine ⟨here.pc, here.ap, here.bp, length' ▸ here.sp, length' ▸ here.room, fun i v found => ?_,
      here.outside, here.still⟩
    rw [Mach.load_eq] at found
    obtain ⟨low, rfl⟩ := List.getElem?_eq_some_iff.mp found
    have low' : i < known.reverse.length := by
      rw [List.length_reverse, ← length, ← List.length_reverse]
      exact low
    rw [word i _ (List.getElem?_eq_getElem low')]
    exact is i low low'

/-! ### Operations -/

section Operations

variable {D : Devices ι} {g : Window ι} {pc : Nat} {m m' : Mach} {t : Cpu (Demux ι)} {v w : Val} {ws : List Val}
  {i size : Nat} {x : Word}

theorem At.pushReg (here : At g pc m t) (fits : size ≤ g.size) {f : Cpu (Demux ι) → Word} (is : v.Is g.base (f t))
    (pushed : m.push size v = some m') : Does g (Sim.pushReg (demuxOps D) f) t pc m' := by
  obtain ⟨u, run, done⟩ := here.push (D := D) fits is pushed
  exact ⟨u, by unfold Sim.pushReg; rw [exec_bind_ok (exec_get t), run], done⟩

theorem At.pushAt (here : At g pc m t) (fits : size ≤ g.size) {f : Cpu (Demux ι) → Word}
    (is : f t = g.base + BitVec.ofNat 16 i) (found : m.load i = some v) (pushed : m.push size v = some m') :
    Does g (Sim.pushAt (demuxOps D) f) t pc m' := by
  have place : effAddr .data (f t).toNat = effAddr .data (g.base + BitVec.ofNat 16 i).toNat := by rw [is]
  have does := (here.read (D := D) place found).bind fun x u isX here _ => here.push (D := D) fits isX pushed
  obtain ⟨u, run, done⟩ := does
  exact ⟨u, by unfold Sim.pushAt; rw [exec_bind_ok (exec_get t), run], done⟩

theorem At.unary (here : At g pc m t) (fits : size ≤ g.size) {f : Word → Word} (made : m.unary size f = some m') :
    Does g (Sim.unary (demuxOps D) f) t pc m' := by
  unfold Mach.unary at made
  split at made
  case h_1 a ws top =>
    refine (here.pop top).bind fun x u isX here _ => ?_
    exact here.push (v := .word (f a)) fits (congrArg f isX) made
  case h_2 => cases made

theorem At.binary (here : At g pc m t) (fits : size ≤ g.size) {f : Word → Word → Word}
    (made : m.binary size f = some m') : Does g (Sim.binary (demuxOps D) f) t pc m' := by
  unfold Mach.binary at made
  split at made
  case h_1 a b ws top =>
    refine (here.pop top).bind fun x u isX here _ => ?_
    refine (here.pop rfl).bind fun y u isY here _ => ?_
    exact here.push (v := .word (f a b)) fits (congrArg₂ f isX isY) made
  case h_2 => cases made

theorem At.binary2 (here : At g pc m t) (fits : size ≤ g.size) {f : BitVec 32 → BitVec 32 → BitVec 32}
    (made : m.binary2 size f = some m') : Does g (Sim.binary2 (demuxOps D) f) t pc m' := by
  unfold Mach.binary2 at made
  split at made
  case h_1 ah al bh bl ws top =>
    refine (here.pop top).bind fun x u isAh here _ => ?_
    refine (here.pop rfl).bind fun y u isAl here _ => ?_
    refine (here.pop rfl).bind fun z u isBh here _ => ?_
    refine (here.pop rfl).bind fun w u isBl here _ => ?_
    obtain ⟨low, pushed, made⟩ := Option.bind_eq_some_iff.mp made
    obtain rfl := isAh
    obtain rfl := isAl
    obtain rfl := isBh
    obtain rfl := isBl
    exact (here.push fits (by exact rfl) pushed).bind fun u here _ => here.push fits (by exact rfl) made
  case h_2 => cases made

theorem At.subOp (here : At g pc m t) (fits : size ≤ g.size) (made : (m.binary size fun a b => b - a) = some m') :
    Does g (Sim.subOp (demuxOps D)) t pc m' := by
  unfold Mach.binary at made
  split at made
  case h_1 a b ws top =>
    refine (here.pop top).bind fun x u isX here _ => ?_
    refine ((here.withRA x).modify rfl).bind fun u here _ => ?_
    refine (here.pop rfl).bind fun y u isY here _ => ?_
    refine ((here.withRB y).modify rfl).bind fun u here _ => ?_
    exact here.push (v := .word (b - a)) fits (congrArg₂ (· - ·) isY isX) made
  case h_2 => cases made

theorem At.dup (here : At g pc m t) (fits : size ≤ g.size) (made : m.stepPlain size .dupOp = some m') :
    Does g (Sim.dup (demuxOps D)) t pc m' := by
  delta Mach.stepPlain at made
  dsimp only at made
  split at made
  case h_1 v ws top =>
    obtain ⟨low, pushed, made⟩ := Option.bind_eq_some_iff.mp made
    refine (here.pop top).bind fun x u isX here _ => ?_
    refine ((here.withRA x).modify rfl).bind fun u here _ => ?_
    exact (here.push fits isX pushed).bind fun u here _ => here.push fits isX made
  case h_2 => cases made

theorem At.indir (here : At g pc m t) (fits : size ≤ g.size) (made : m.stepPlain size .indir = some m') :
    Does g (Sim.indir (demuxOps D)) t pc m' := by
  delta Mach.stepPlain at made
  dsimp only at made
  split at made
  case h_1 i ws top =>
    obtain ⟨v, found, made⟩ := Option.bind_eq_some_iff.mp made
    refine (here.pop top).bind fun x u isX here _ => ?_
    obtain rfl := isX
    exact (here.read rfl found).bind fun y u isY here _ => here.push fits isY made
  case h_2 => cases made

theorem At.indir2 (here : At g pc m t) (fits : size ≤ g.size) (made : m.stepPlain size .indir2 = some m') :
    Does g (Sim.indir2 (demuxOps D)) t pc m' := by
  delta Mach.stepPlain at made
  dsimp only at made
  split at made
  case h_1 i ws top =>
    obtain ⟨v, found, made⟩ := Option.bind_eq_some_iff.mp made
    obtain ⟨low, pushed, made⟩ := Option.bind_eq_some_iff.mp made
    obtain ⟨w, found', made⟩ := Option.bind_eq_some_iff.mp made
    refine (here.pop top).bind fun x u isX here _ => ?_
    obtain rfl := isX
    refine (here.read rfl found).bind fun y u isY here _ => ?_
    refine (here.push fits isY pushed).bind fun u here _ => ?_
    exact (here.read (effAddr_next g.base i) found').bind fun z u isZ here _ => here.push fits isZ made
  case h_2 => cases made

theorem At.store (here : At g pc m t) (made : m.stepPlain size .store = some m') :
    Does g (Sim.store (demuxOps D) .data) t pc m' := by
  delta Mach.stepPlain at made
  dsimp only at made
  split at made
  case h_1 v i ws top =>
    refine (here.pop top).bind fun x u isX here _ => ?_
    refine (here.pop rfl).bind fun y u isY here _ => ?_
    obtain rfl := isY
    exact here.write rfl isX made
  case h_2 => cases made

theorem At.rstore (here : At g pc m t) (made : m.stepPlain size .rstore = some m') :
    Does g (Sim.rstore (demuxOps D) .data) t pc m' := by
  delta Mach.stepPlain at made
  dsimp only at made
  split at made
  case h_1 i v ws top =>
    refine (here.pop top).bind fun x u isX here _ => ?_
    refine (here.pop rfl).bind fun y u isY here _ => ?_
    obtain rfl := isX
    exact here.write rfl isY made
  case h_2 => cases made

theorem At.store2 (here : At g pc m t) (made : m.stepPlain size .store2 = some m') :
    Does g (Sim.store2 (demuxOps D)) t pc m' := by
  delta Mach.stepPlain at made
  dsimp only at made
  split at made
  case h_1 h l i ws top =>
    obtain ⟨low, saved, made⟩ := Option.bind_eq_some_iff.mp made
    refine (here.pop top).bind fun x u isH here _ => ?_
    refine (here.pop rfl).bind fun y u isL here _ => ?_
    refine (here.pop rfl).bind fun z u isZ here _ => ?_
    obtain rfl := isZ
    exact (here.write rfl isL saved).bind fun u here _ => here.write (effAddr_next g.base i) isH made
  case h_2 => cases made

theorem At.rstore2 (here : At g pc m t) (made : m.stepPlain size .rstore2 = some m') :
    Does g (Sim.rstore2 (demuxOps D)) t pc m' := by
  delta Mach.stepPlain at made
  dsimp only at made
  split at made
  case h_1 i h l ws top =>
    obtain ⟨low, saved, made⟩ := Option.bind_eq_some_iff.mp made
    refine (here.pop top).bind fun z u isZ here _ => ?_
    refine (here.pop rfl).bind fun x u isH here _ => ?_
    refine (here.pop rfl).bind fun y u isL here _ => ?_
    obtain rfl := isZ
    exact (here.write rfl isL saved).bind fun u here _ => here.write (effAddr_next g.base i) isH made
  case h_2 => cases made

/-- **An operation without an operand.** -/
theorem At.stepPlain {op : Op} (here : At g pc m t) (fits : size ≤ g.size) (made : m.stepPlain size op = some m') :
    Does g (instruction (demuxOps D) op) t pc m' := by
  unfold Mach.stepPlain at made
  split at made
  case h_1 => exact ⟨t, rfl, Option.some.inj made ▸ here, rfl⟩
  case h_2 | h_3 | h_4 | h_5 =>
    have does := here.binary (D := D) fits made
    exact does
  case h_6 => exact here.subOp fits made
  case h_7 | h_8 | h_9 | h_10 | h_11 =>
    have does := here.binary2 (D := D) fits made
    exact does
  case h_12 | h_13 =>
    have does := here.unary (D := D) fits made
    exact does
  case h_14 => exact here.dup fits made
  case h_15 => exact here.indir fits made
  case h_16 => exact here.indir2 fits made
  case h_17 => exact here.store (show m.stepPlain size .store = _ from made)
  case h_18 => exact here.rstore (show m.stepPlain size .rstore = _ from made)
  case h_19 => exact here.store2 (show m.stepPlain size .store2 = _ from made)
  case h_20 => exact here.rstore2 (show m.stepPlain size .rstore2 = _ from made)
  case h_21 => cases made

/-- The operand of an instruction with a byte. -/
theorem byteValue_ofInt {n : Int} (low : -128 ≤ n) (high : n < 128) :
    byteValue (BitVec.ofInt 16 n) = BitVec.ofInt 16 n := by
  have all : ∀ i : Fin 256, byteValue (BitVec.ofInt 16 ((i : Nat) - 128 : Int)) = BitVec.ofInt 16
      ((i : Nat) - 128 : Int) := by
    decide +kernel
  have here := all ⟨(n + 128).toNat, by omega⟩
  rwa [show (((n + 128).toNat : Nat) : Int) - 128 = n by omega] at here

theorem ofNat_add_ofInt {j i : Nat} {n : Int} (same : (i : Int) = (j : Int) + n) :
    BitVec.ofNat 16 j + BitVec.ofInt 16 n = BitVec.ofNat 16 i := by
  rw [← BitVec.ofInt_natCast 16 j, ← BitVec.ofInt_add, ← same, BitVec.ofInt_natCast]

theorem ofNat_sub_ofInt {j i : Nat} {n : Int} (same : (i : Int) = (j : Int) - n) :
    BitVec.ofNat 16 j - BitVec.ofInt 16 n = BitVec.ofNat 16 i := by
  rw [← ofNat_add_ofInt (j := i) (n := n) (by omega), BitVec.add_sub_cancel]

/-- The address of a local word. -/
theorem At.local {n : Int} (here : At g pc m t) (high : t.irHigh = BitVec.ofInt 16 n) (found : m.bp.offset n = some i) :
    t.bp + t.irHigh = g.base + BitVec.ofNat 16 i := by
  have bp := here.bp
  unfold Val.offset at found
  split at found
  case h_1 j same =>
    rw [same] at bp
    split at found
    case isTrue inside =>
      obtain rfl := Option.some.inj found
      rw [show t.bp = g.base + BitVec.ofNat 16 j from bp, high, BitVec.add_assoc]
      exact congrArg (g.base + ·) (ofNat_add_ofInt (by omega))
    case isFalse => cases found
  case h_2 => cases found

theorem At.binaryB {n : Int} (here : At g pc m t) (fits : size ≤ g.size) (high : t.irHigh = BitVec.ofInt 16 n)
    {f : Word → Word → Word} (made : (m.unary size fun a => f a (BitVec.ofInt 16 n)) = some m') :
    Does g (Sim.binaryB (demuxOps D) f) t pc m' := by
  unfold Mach.unary at made
  split at made
  case h_1 a ws top =>
    refine (here.pop top).bind fun x u isX here ir => ?_
    obtain rfl := isX
    have high' : u.irHigh = BitVec.ofInt 16 n := by
      rw [← high]
      unfold Cpu.irHigh
      rw [ir]
    obtain ⟨w, run, done⟩ := here.push (D := D) (v := .word _) (x := f x u.irHigh) fits (congrArg (f x) high') made
    exact ⟨w, by rw [exec_bind_ok (exec_get u), run], done⟩
  case h_2 => cases made

theorem At.discardB {n : Int} (here : At g pc m t) (high : t.irHigh = BitVec.ofInt 16 n)
    (made : m.stepByte size n .discardB = some m') :
    Does g (instruction (demuxOps D) .discardB) t pc m' := by
  simp only [Mach.stepByte] at made
  split at made
  case isTrue low =>
    obtain rfl := Option.some.inj made
    refine ⟨t.withSP (t.sp - t.irHigh), rfl, ?_, rfl⟩
    have length : (m.ws.drop n.toNat).length = m.ws.length - n.toNat := List.length_drop
    refine ⟨here.pc, here.ap, here.bp, ?_, length.trans_le ((Nat.sub_le _ _).trans here.room), fun j w found => ?_,
      here.outside, here.still.trans ⟨rfl, rfl, rfl, rfl, rfl, rfl, rfl, rfl, rfl, rfl, rfl⟩⟩
    · show t.sp - t.irHigh = _
      rw [here.sp, high, length, BitVec.sub_eq_add_neg, BitVec.add_assoc, ← BitVec.sub_eq_add_neg,
        ofNat_sub_ofInt (i := m.ws.length - n.toNat) (by omega)]
    · refine here.words j w ?_
      have inside := Mach.load_lt found
      rw [Mach.load_eq] at found ⊢
      rw [List.reverse_drop, List.getElem?_take_of_lt (length ▸ inside)] at found
      exact found
  case isFalse => cases made

theorem At.allocB {n : Int} (here : At g pc m t) (fits : size ≤ g.size) (high : t.irHigh = BitVec.ofInt 16 n)
    (made : m.stepByte size n .allocB = some m') :
    Does g (instruction (demuxOps D) .allocB) t pc m' := by
  simp only [Mach.stepByte] at made
  split at made
  case isTrue low =>
    obtain rfl := Option.some.inj made
    refine ⟨t.withSP (t.sp + t.irHigh), rfl, ?_, rfl⟩
    have length : (List.replicate n.toNat Val.any ++ m.ws).length = m.ws.length + n.toNat := by
      rw [List.length_append, List.length_replicate, Nat.add_comm]
    refine ⟨here.pc, here.ap, here.bp, ?_, length.trans_le (low.2.trans fits), fun j w found => ?_,
      here.outside, here.still.trans ⟨rfl, rfl, rfl, rfl, rfl, rfl, rfl, rfl, rfl, rfl, rfl⟩⟩
    · show t.sp + t.irHigh = _
      rw [here.sp, high, length, BitVec.add_assoc, ofNat_add_ofInt (i := m.ws.length + n.toNat) (by omega)]
    · rw [Mach.load_eq, List.reverse_append] at found
      by_cases below : j < m.ws.length
      · rw [List.getElem?_append_left (by simpa using below)] at found
        exact here.words j w (by rw [Mach.load_eq]; exact found)
      · rw [List.getElem?_append_right (by simpa using below), List.reverse_replicate, List.getElem?_replicate] at found
        split at found
        case isTrue => exact Option.some.inj found ▸ trivial
        case isFalse => cases found
  case isFalse => cases made

/-- **An operation with a byte.** -/
theorem At.stepByte {op : Op} {n : Int} (here : At g pc m t) (fits : size ≤ g.size)
    (high : t.irHigh = BitVec.ofInt 16 n) (made : m.stepByte size n op = some m') :
    Does g (instruction (demuxOps D) op) t pc m' := by
  cases op
  case cnstB => exact here.pushReg fits (v := .word _) high made
  case addrlB =>
    obtain ⟨i, found, pushed⟩ := Option.bind_eq_some_iff.mp made
    exact here.pushReg fits (v := .addr i) (here.local high found) pushed
  case iaddrlB =>
    obtain ⟨i, found, made⟩ := Option.bind_eq_some_iff.mp made
    obtain ⟨v, loaded, pushed⟩ := Option.bind_eq_some_iff.mp made
    exact here.pushAt fits (here.local high found) loaded pushed
  case addB => exact here.binaryB fits high made
  case subB => exact here.binaryB fits high made
  case bandB => exact here.binaryB fits high made
  case discardB => exact here.discardB high made
  case allocB => exact here.allocB fits high made
  all_goals cases made

end Operations

/-! ### Instructions -/

/-- A step in a part of the code. -/
def StepIn (D : Devices ι) (inside : Nat → Prop) (k t : Cpu (Demux ι)) : Prop := Step D k t ∧ inside k.pc

theorem stepIn_deterministic (D : Devices ι) (inside : Nat → Prop) : Deterministic (StepIn D inside) := by
  intro s t u first second
  exact (Prod.mk.inj (first.1.symm.trans second.1)).2

section Instructions

variable {D : Devices ι} {inside : Nat → Prop} {g : Window ι} {pc pc' : Nat} {m m' : Mach} {t : Cpu (Demux ι)}
  {v w : Word} {rest : List Word} {ap bp : Val} {ws : List Val} {i size : Nat}

theorem At.quiet (here : At g pc m t) : (t.intEnabled && t.demux.intCtl.irqLineStatus) = false := by
  rw [here.still.intEnabled, here.still.intCtl]
  rcases g.quiet with off | none
  · rw [off, Bool.false_and]
  · rw [none, Bool.and_false]

/-- Without an interrupt, `execute` is the instruction at `PC`. -/
theorem At.execute (here : At g pc m t) :
    (execute (demuxOps D)).exec t = (executeInstruction (demuxOps D)).exec t := by
  unfold Sim.execute takeInterrupt
  rw [exec_bind_ok (exec_modify _ t)]
  have quiet : (t.intEnabled && (demuxOps D).irqLineStatus t.demux) = false := here.quiet
  rw [quiet, if_neg Bool.false_ne_true]

/-- A word of the code, on the processor as it is now. -/
theorem At.code (here : At g pc m t) {p : Nat} (code : CodeAt g inside p (w :: rest)) :
    ∃ a, t.Reads .code p a ∧ t.demux.ram a = w := by
  obtain ⟨-, a, reads, word, away⟩ := code 0 w rfl
  exact ⟨a, reads.congr here.still.table here.still.mmuEnabled here.still.selector, (here.outside a away).trans word⟩

/-- **One instruction.** -/
theorem At.step {op : Op} {g' : Window ι} (here : At g pc m t) (code : CodeAt g inside pc (w :: rest))
    (decodes : Op.decode (w &&& (0xff : Word)).toNat = some op)
    (does : Does g' (instruction (demuxOps D) op) (t.fetched w) pc' m') :
    ∃ u, StepIn D inside t u ∧ At g' pc' m' u := by
  obtain ⟨a, reads, word⟩ := here.code code
  obtain ⟨u, run, here', -⟩ := does
  rw [← here.pc] at reads
  refine ⟨u.settle, ⟨?_, here.pc ▸ (code 0 w rfl).1⟩, here'.settle⟩
  unfold Step
  rw [here.execute]
  exact exec_executeInstruction reads (word ▸ decodes) (word ▸ run)

/-- The operand of the instruction. -/
theorem At.exec_operand (here : At g pc m t) (code : CodeAt g inside pc (w :: rest)) :
    (operand (demuxOps D)).exec t = (.ok w, t.withPC (pc + 1)) := by
  obtain ⟨a, reads, word⟩ := here.code code
  rw [← here.pc] at reads ⊢
  rw [Sim.exec_operand reads, word]

theorem At.pushRegW (here : At g pc m t) (fits : size ≤ g.size) (code : CodeAt g inside pc (w :: rest))
    (pushed : m.push size (.word w) = some m') :
    Does g (Sim.pushRegW (demuxOps D) fun _ tmp => tmp) t (pc + 1) m' := by
  obtain ⟨u, run, done⟩ := (here.withPC (pc + 1)).pushReg (D := D) fits (f := fun _ => w) (by exact rfl) pushed
  exact ⟨u, by unfold Sim.pushRegW; rw [exec_bind_ok (here.exec_operand code), run], done⟩

theorem At.binaryW (here : At g pc m t) (fits : size ≤ g.size) (code : CodeAt g inside pc (w :: rest))
    {f : Word → Word → Word} (made : (m.unary size fun a => f a w) = some m') :
    Does g (Sim.binaryW (demuxOps D) f) t (pc + 1) m' := by
  obtain ⟨u, run, done⟩ := (here.withPC (pc + 1)).unary (D := D) fits made
  exact ⟨u, by unfold Sim.binaryW; rw [exec_bind_ok (here.exec_operand code)]; exact run, done⟩

/-- **An operation with a word.** -/
theorem At.stepWide {op : Op} (here : At g pc m t) (fits : size ≤ g.size) (code : CodeAt g inside pc (w :: rest))
    (made : m.stepWide size w op = some m') : Does g (instruction (demuxOps D) op) t (pc + 1) m' := by
  unfold Mach.stepWide at made
  split at made
  case h_1 => exact here.pushRegW fits code made
  case h_2 =>
    have does := here.binaryW (D := D) fits code (f := (· &&& ·)) made
    exact does
  case h_3 => cases made

/-- **An instruction that only works on the stack.** -/
theorem At.stepVal {L : Type} (addr : L → Word) (line : Instr L) (here : At g pc m t) (fits : size ≤ g.size)
    (code : CodeAt g inside pc (line.words addr ++ rest)) (made : m.stepVal size line = some m') :
    ∃ u, StepIn D inside t u ∧ At g (pc + line.size) m' u := by
  cases line with
  | plain op => exact here.step code op.decode_word ((here.fetched _).stepPlain fits made)
  | byte op n =>
    simp only [Mach.stepVal] at made
    split at made
    case isTrue range =>
      have high : (t.fetched (op.wordB (BitVec.ofInt 16 n))).irHigh = BitVec.ofInt 16 n := by
        rw [irHigh_wordB _ op _ rfl, byteValue_ofInt range.1 range.2]
      exact here.step code (op.decode_wordB _) ((here.fetched _).stepByte fits high made)
    case isFalse => cases made
  | wide op val => exact here.step code op.decode_word ((here.fetched _).stepWide fits code.tail made)
  | link op label => cases made

theorem instruction_compare {μ : Type} (ops : DemuxOps μ) {op : Op} {compare : Word → Word → Bool}
    (is : op.compare = some compare) : instruction ops op = branch ops compare := by
  unfold Op.compare at is
  split at is
  all_goals first
    | (obtain rfl := Option.some.inj is; rfl)
    | cases is

/-- **A branch.** -/
theorem At.branch {op : Op} {compare : Word → Word → Bool} {target v1 v2 : Word} (here : At g pc m t)
    (code : CodeAt g inside pc (op.word :: target :: rest)) (is : op.compare = some compare)
    (top : m.ws = .word v2 :: .word v1 :: ws) :
    ∃ u, StepIn D inside t u ∧ At g (if compare v1 v2 then target.toNat * 8 else pc + 2) { m with ws := ws } u := by
  refine here.step code op.decode_word ?_
  rw [instruction_compare _ is]
  refine ((here.fetched op.word).pop top).bind fun x u isX here _ => ?_
  refine (here.pop rfl).bind fun y u isY here _ => ?_
  obtain rfl := isX
  obtain rfl := isY
  have here' := here.withPC (pc + 2)
  by_cases taken : compare y x = true
  · refine ⟨(u.withPC (pc + 2)).jump target, ?_, ?_, rfl⟩
    · rw [exec_bind_ok (here.exec_operand code.tail), if_pos taken]
      rfl
    · rw [if_pos taken]
      exact here'.keep ⟨rfl, rfl, rfl, rfl, rfl, rfl, rfl, rfl, rfl, rfl, rfl⟩ rfl (Cpu.jump_pc _ target) rfl rfl rfl
  · refine ⟨u.withPC (pc + 2), ?_, ?_, rfl⟩
    · rw [exec_bind_ok (here.exec_operand code.tail), if_neg taken]
      rfl
    · rw [if_neg taken]
      exact here'

/-- **A jump.** -/
theorem At.jumpW {target : Word} (here : At g pc m t) (code : CodeAt g inside pc (Op.jumpW.word :: target :: rest)) :
    ∃ u, StepIn D inside t u ∧ At g (target.toNat * 8) m u := by
  refine here.step code (Op.decode_word _) ?_
  have here' := here.fetched Op.jumpW.word
  obtain ⟨a, reads, word⟩ := here'.code code.tail
  rw [← here'.pc] at reads
  refine ⟨(t.fetched Op.jumpW.word).jump target, ?_, ?_, rfl⟩
  · show (Sim.jumpW (demuxOps D)).exec _ = _
    unfold Sim.jumpW
    rw [exec_bind_ok (exec_get _), exec_bind_ok (exec_memRead reads), word]
    rfl
  · exact here'.keep ⟨rfl, rfl, rfl, rfl, rfl, rfl, rfl, rfl, rfl, rfl, rfl⟩ rfl (Cpu.jump_pc _ target) rfl rfl rfl

/-- What a call that is to return to `pc` puts on the stack, its top first. -/
def frame (bp ap : Word) (pc : Nat) : List Val :=
  [.word bp, .word ap, .word (BitVec.ofNat 16 (pc &&& 7)), .word (BitVec.ofNat 16 (pc / 8))]

/-- The frame of a call, with the registers of the caller. -/
theorem At.enterFrame (target : Word) (here : At g pc m t) (room : m.ws.length + 4 ≤ g.size) :
    Does g (Sim.enter (demuxOps D) 0 target) t (target.toNat * 8)
      ⟨.word t.bp, .addr (m.ws.length + 4), frame t.bp t.ap pc ++ m.ws⟩ := by
  have push : ∀ (v : Val) (ws : List Val), ws.length < g.size →
      Mach.push g.size ⟨.word t.ap, .word t.bp, ws⟩ v = some ⟨.word t.ap, .word t.bp, v :: ws⟩ :=
    fun v ws low => if_pos low
  have start : At g pc ⟨.word t.ap, .word t.bp, m.ws⟩ (t.withSP (t.sp + 0)) :=
    here.move ⟨rfl, rfl, rfl, rfl, rfl, rfl, rfl, rfl, rfl, rfl, rfl⟩ rfl here.pc rfl rfl rfl (BitVec.add_zero _)
  unfold Sim.enter
  refine (start.modify rfl).bind fun u here _ => ?_
  have highPC : u.highPC = BitVec.ofNat 16 (pc / 8) := by rw [← here.pc]; rfl
  refine (here.pushReg (f := Cpu.highPC) (v := .word _) (le_refl _) highPC (push _ _ (by omega))).bind fun u here _ => ?_
  have mPC : u.mPC = BitVec.ofNat 16 (pc &&& 7) := by rw [← here.pc]; rfl
  have room' : (m.ws.length + 1) + 3 ≤ g.size := room
  refine (here.pushReg (f := Cpu.mPC) (v := .word _) (le_refl _) mPC
    (push _ _ (by rw [List.length_cons]; omega))).bind fun u here _ => ?_
  refine (here.pushReg (f := Cpu.ap) (v := .word _) (le_refl _) here.ap
    (push _ _ (by rw [List.length_cons, List.length_cons]; omega))).bind fun u here _ => ?_
  refine (here.pushReg (f := Cpu.bp) (v := .word _) (le_refl _) here.bp
    (push _ _ (by rw [List.length_cons, List.length_cons, List.length_cons]; omega))).bind fun u here _ => ?_
  refine ⟨((u.withAP u.bp).withBP u.sp).jump target, ?_, ?_, rfl⟩
  · rw [exec_bind_ok (exec_modify _ _), exec_bind_ok (exec_modify _ _), exec_modify]
    rfl
  · exact here.move ⟨rfl, rfl, rfl, rfl, rfl, rfl, rfl, rfl, rfl, rfl, rfl⟩ rfl
      (Cpu.jump_pc _ target) rfl here.bp here.sp rfl

theorem At.enter (target : Word) (here : At g pc m t) (room : m.ws.length + 4 ≤ g.size) :
    Does g (Sim.enter (demuxOps D) 0 target) t (target.toNat * 8)
      ⟨.any, .addr (m.ws.length + 4), frame t.bp t.ap pc ++ m.ws⟩ := by
  obtain ⟨u, run, there, ir⟩ := here.enterFrame (D := D) target room
  exact ⟨u, run, there.move (.refl u) rfl there.pc rfl trivial there.bp rfl, ir⟩

/-- **A call.** -/
theorem At.call0W {target : Word} (here : At g pc m t) (code : CodeAt g inside pc (Op.call0W.word :: target :: rest))
    (room : m.ws.length + 4 ≤ g.size) :
    ∃ u, StepIn D inside t u ∧
      At g (target.toNat * 8) ⟨.any, .addr (m.ws.length + 4), frame t.bp t.ap (pc + 2) ++ m.ws⟩ u := by
  refine here.step code (Op.decode_word _) ?_
  have here' := here.fetched Op.call0W.word
  obtain ⟨u, run, done⟩ := (here'.withPC (pc + 2)).enter (D := D) target room
  refine ⟨u, ?_, done⟩
  show (Sim.callW (demuxOps D) 0).exec _ = _
  unfold Sim.callW
  rw [exec_bind_ok (here'.exec_operand code.tail), run]

/-- The stack without its top words. -/
theorem At.cut {top : List Val} {sp : Word} (here : At g pc ⟨ap, bp, top ++ ws⟩ t)
    (is : sp = g.base + BitVec.ofNat 16 ws.length) : At g pc ⟨ap, bp, ws⟩ (t.withSP sp) := by
  have room := here.room
  rw [List.length_append] at room
  refine ⟨here.pc, here.ap, here.bp, is, (Nat.le_add_left _ _).trans room, fun i v found => here.words i v ?_, here.outside,
    here.still.trans ⟨rfl, rfl, rfl, rfl, rfl, rfl, rfl, rfl, rfl, rfl, rfl⟩⟩
  have low := Mach.load_lt found
  rw [Mach.load_eq] at found ⊢
  rwa [List.reverse_append, List.getElem?_append_left (by simpa using low)]

theorem frame_back {back : Nat} (low : back < 0x80000) :
    (BitVec.ofNat 16 (back / 8)).toNat * 8 + (BitVec.ofNat 16 (back &&& 7)).toNat % 8 = back := by
  rw [and_low, BitVec.toNat_ofNat, BitVec.toNat_ofNat]
  omega

/-- **A return.** -/
theorem At.ret {top results : List Val} {bp' ap' : Word} {back : Nat}
    (here : At g pc ⟨ap, .addr (results.length + 4), top ++ (frame bp' ap' back ++ results)⟩ t)
    (code : CodeAt g inside pc (Op.ret.word :: rest)) (low : back < 0x80000) :
    ∃ u, StepIn D inside t u ∧ At g back ⟨.word ap', .word bp', results⟩ u := by
  refine here.step code (Op.decode_word _) ?_
  have here' := here.fetched Op.ret.word
  have cut : At g (pc + 1) ⟨ap, .addr (results.length + 4), frame bp' ap' back ++ results⟩
      ((t.fetched Op.ret.word).withSP (t.fetched Op.ret.word).bp) := here'.cut here'.bp
  show Does g (Sim.ret (demuxOps D)) _ _ _
  unfold Sim.ret
  refine (cut.modify rfl).bind fun u here _ => ?_
  refine (here.pop rfl).bind fun x u isBP here _ => ?_
  have atBP : At g (pc + 1) ⟨ap, .word bp', (frame bp' ap' back).tail ++ results⟩ (u.withBP x) :=
    here.move ⟨rfl, rfl, rfl, rfl, rfl, rfl, rfl, rfl, rfl, rfl, rfl⟩ rfl here.pc rfl here.ap isBP rfl
  refine (atBP.modify rfl).bind fun u here _ => ?_
  refine (here.pop rfl).bind fun x u isAP here _ => ?_
  have atAP : At g (pc + 1) ⟨.word ap', .word bp', (frame bp' ap' back).tail.tail ++ results⟩ (u.withAP x) :=
    here.move ⟨rfl, rfl, rfl, rfl, rfl, rfl, rfl, rfl, rfl, rfl, rfl⟩ rfl here.pc rfl isAP here.bp rfl
  refine (atAP.modify rfl).bind fun u here _ => ?_
  refine (here.pop rfl).bind fun x u isMPC here _ => ?_
  have atMPC : At g (u.pc % 0x80000 / 8 * 8 + x.toNat % 8)
      ⟨.word ap', .word bp', (frame bp' ap' back).tail.tail.tail ++ results⟩ (u.setMPC x) :=
    here.move ⟨rfl, rfl, rfl, rfl, rfl, rfl, rfl, rfl, rfl, rfl, rfl⟩ rfl (u.setMPC_pc x) rfl here.ap here.bp rfl
  refine (atMPC.modify rfl).bind fun u here _ => ?_
  refine (here.pop rfl).bind fun y u isHPC here _ => ?_
  refine ⟨u.setHighPC y, exec_modify _ _,
    here.move ⟨rfl, rfl, rfl, rfl, rfl, rfl, rfl, rfl, rfl, rfl, rfl⟩ rfl ?_ rfl here.ap here.bp rfl, rfl⟩
  rw [Cpu.setHighPC_pc, here.pc, ← frame_back low, show y = _ from isHPC, show x = _ from isMPC]
  omega

end Instructions

end RlCpu.Sim
