/-
**The transfer registers on a stack of known words.**

`pops` and `popd` set `S` and `D`, and `sdmi` copies the word at `S` to the one at `D` and counts both up. What they
change is not on the stack: `g.carry s d ram` is the window `g` on a processor with other words in `S`, `D` and the
memory, and each of these instructions goes from one such window to the next.

* `At.pops`, `At.popd`, `At.pushs`, `At.sdmi`: the instructions.
* `At.pushFar`: a word that is not in the window pushed, as an argument is.
* `At.callW`: a call with words left for its result.
-/

import RlCpu.Sim.Window

namespace RlCpu.Sim

open RlCpu.Kernel RlCpu.Lib RlCpu.Lib.Abort

variable {ι : Type}

/-- The window on the processor with `s` in `S`, `d` in `D` and the words `ram`. -/
def Window.carry (g : Window ι) (s d : Word) (ram : Nat → Word) : Window ι where
  k := ((g.k.withS s).withD d).withDemux { g.k.demux with ram := ram }
  base := g.base
  size := g.size
  data := g.data
  mapped i low := (g.mapped i low).congr rfl rfl rfl
  apart := g.apart
  quiet := g.quiet

/-- A window as it is. -/
theorem At.carried {g : Window ι} {pc : Nat} {m : Mach} {t : Cpu (Demux ι)} (here : At g pc m t) :
    At (g.carry g.k.s g.k.d g.k.demux.ram) pc m t :=
  ⟨here.pc, here.ap, here.bp, here.sp, here.room, here.words, here.outside, here.still⟩

/-- The code is still there where its words have not changed. -/
theorem CodeAt.carry {g : Window ι} {inside : Nat → Prop} {pc : Nat} {ws : List Word} (code : CodeAt g inside pc ws)
    {s d : Word} {ram : Nat → Word} (kept : ∀ p a, inside p → g.k.Reads .code p a → ram a = g.k.demux.ram a) :
    CodeAt (g.carry s d ram) inside pc ws := by
  intro j w found
  obtain ⟨within, a, reads, word, away⟩ := code j w found
  exact ⟨within, a, reads.congr rfl rfl rfl, (kept _ a within reads).trans word, away⟩

section Carry

variable {D : Devices ι} {g : Window ι} {pc size i : Nat} {m m' : Mach} {t : Cpu (Demux ι)} {s d v : Word}
  {ram : Nat → Word} {ap bp : Val} {ws : List Val} {inside : Nat → Prop} {w : Word} {rest : List Word}

theorem At.setS (here : At (g.carry s d ram) pc m t) (v : Word) : At (g.carry v d ram) pc m (t.withS v) := by
  have still := here.still
  exact ⟨here.pc, here.ap, here.bp, here.sp, here.room, here.words, here.outside, ⟨rfl, still.d, still.commitEnabled,
    still.intEnabled, still.userMode, still.mmuEnabled, still.selector, still.table, still.intCtl,
      still.mmuLastFailPage, still.devs⟩⟩

theorem At.setD (here : At (g.carry s d ram) pc m t) (v : Word) : At (g.carry s v ram) pc m (t.withD v) := by
  have still := here.still
  exact ⟨here.pc, here.ap, here.bp, here.sp, here.room, here.words, here.outside, ⟨still.s, rfl, still.commitEnabled,
    still.intEnabled, still.userMode, still.mmuEnabled, still.selector, still.table, still.intCtl,
      still.mmuLastFailPage, still.devs⟩⟩

/-- A word outside of the window written. -/
theorem At.putFar (here : At (g.carry s d ram) pc m t) {b : Nat} (away : ∀ i < g.size, b ≠ g.data i) (v : Word) :
    At (g.carry s d (Function.update ram b v)) pc m (t.putRam b v) := by
  have still := here.still
  refine ⟨here.pc, here.ap, here.bp, here.sp, here.room, fun i w found => ?_, fun a out => ?_, ⟨still.s, still.d,
    still.commitEnabled, still.intEnabled, still.userMode, still.mmuEnabled, still.selector, still.table, still.intCtl,
    still.mmuLastFailPage, still.devs⟩⟩
  · have low : i < g.size := lt_of_lt_of_le (Mach.load_lt found) here.room
    show w.Is g.base (Function.update t.demux.ram b v (g.data i))
    rw [Function.update_of_ne (away i low).symm]
    exact here.words i w found
  · show Function.update t.demux.ram b v a = Function.update ram b v a
    by_cases same : a = b
    · rw [same, Function.update_self, Function.update_self]
    · rw [Function.update_of_ne same, Function.update_of_ne same]
      exact here.outside a out

/-- **`pops`** -/
theorem At.pops (here : At (g.carry s d ram) pc ⟨ap, bp, .word v :: ws⟩ t)
    (code : CodeAt (g.carry s d ram) inside pc (Op.pops.word :: rest)) :
    ∃ u, StepIn D inside t u ∧ At (g.carry v d ram) (pc + 1) ⟨ap, bp, ws⟩ u := by
  refine here.step code (Op.decode_word _) (((here.fetched _).pop rfl).bind fun x u isX here _ => ?_)
  obtain rfl := isX
  exact (here.setS x).modify rfl

/-- **`popd`** -/
theorem At.popd (here : At (g.carry s d ram) pc ⟨ap, bp, .word v :: ws⟩ t)
    (code : CodeAt (g.carry s d ram) inside pc (Op.popd.word :: rest)) :
    ∃ u, StepIn D inside t u ∧ At (g.carry s v ram) (pc + 1) ⟨ap, bp, ws⟩ u := by
  refine here.step code (Op.decode_word _) (((here.fetched _).pop rfl).bind fun x u isX here _ => ?_)
  obtain rfl := isX
  exact (here.setD x).modify rfl

/-- **`pushs`** -/
theorem At.pushs (here : At (g.carry s d ram) pc m t) (code : CodeAt (g.carry s d ram) inside pc (Op.pushs.word :: rest))
    (room : m.ws.length < g.size) :
    ∃ u, StepIn D inside t u ∧ At (g.carry s d ram) (pc + 1) { m with ws := .word s :: m.ws } u :=
  here.step code (Op.decode_word _) ((here.fetched _).pushReg (v := .word s) (le_refl g.size)
    (here.fetched _).still.s (if_pos room))

/-- **`sdmi`**: the word at `S` is copied to the place of `D`, which is not in the window. -/
theorem At.sdmi (here : At (g.carry s d ram) pc m t) (code : CodeAt (g.carry s d ram) inside pc (Op.sdmi.word :: rest))
    {a b : Nat} (reads : g.k.Reads .data s.toNat a) (writes : g.k.Writes .data d.toNat b)
    (away : ∀ i < g.size, b ≠ g.data i) :
    ∃ u, StepIn D inside t u ∧
      At (g.carry (s + 1) (d + 1) (Function.update ram b (t.demux.ram a))) (pc + 1) m u := by
  have still := here.still
  have isS : (t.fetched Op.sdmi.word).s = s := still.s
  have isD : (t.fetched Op.sdmi.word).d = d := still.d
  have source : (t.fetched Op.sdmi.word).Reads .data (t.fetched Op.sdmi.word).s.toNat a := by
    rw [isS]
    exact reads.congr still.table still.mmuEnabled still.selector
  have target : ((t.fetched Op.sdmi.word).withRA (t.demux.ram a)).Writes .data (t.fetched Op.sdmi.word).d.toNat b := by
    rw [isD]
    exact writes.congr still.table still.mmuEnabled still.selector
  have copied : (sdm (demuxOps D)).exec (t.fetched Op.sdmi.word) =
      (.ok (), ((t.fetched Op.sdmi.word).withRA (t.demux.ram a)).putRam b (t.demux.ram a)) := by
    unfold sdm
    rw [exec_bind_ok (exec_get _), exec_bind_ok (exec_memRead source), exec_bind_ok (exec_modify _ _)]
    exact exec_memWrite _ target
  have moved := ((((here.fetched Op.sdmi.word).withRA (t.demux.ram a)).putFar away
      (t.demux.ram a)).setS (s + 1)).setD (d + 1)
  rw [← isS, ← isD] at moved ⊢
  exact here.step code (Op.decode_word _) ⟨_, exec_bind_ok copied, moved, rfl⟩

/-- A word outside of the window pushed, from an address that depends on the registers. -/
theorem At.pushFar (here : At (g.carry s d ram) pc m t) {f : Cpu (Demux ι) → Word} {a : Nat} {x : Word} (is : f t = x)
    (reads : g.k.Reads .data x.toNat a) (away : ∀ i < g.size, a ≠ g.data i) (room : m.ws.length < g.size) :
    Does (g.carry s d ram) (Sim.pushAt (demuxOps D) f) t pc { m with ws := .word (ram a) :: m.ws } := by
  have still := here.still
  have reads' : t.Reads .data (f t).toNat a := is ▸ reads.congr still.table still.mmuEnabled still.selector
  have word : t.demux.ram a = ram a := here.outside a away
  obtain ⟨u, run, done⟩ := here.push (D := D) (v := .word (ram a)) (le_refl g.size) word (if_pos room)
  refine ⟨u, ?_, done⟩
  unfold Sim.pushAt
  rw [exec_bind_ok (exec_get t), exec_bind_ok (exec_memRead reads')]
  exact run

/-- **`iaddrl_b` and `iaddrf_b`** of a word that is not in the window. -/
theorem At.iaddrFar {op : Op} (base : Cpu (Demux ι) → Word) {n : Int} {x : Word} {a : Nat}
    (is : instruction (demuxOps D) op = Sim.pushAt (demuxOps D) fun k => base k + k.irHigh)
    (still : ∀ w, base (t.fetched w) = base t) (here : At (g.carry s d ram) pc m t)
    (code : CodeAt (g.carry s d ram) inside pc (op.wordB (BitVec.ofInt 16 n) :: rest)) (low : -128 ≤ n) (high : n < 128)
    (addr : base t + BitVec.ofInt 16 n = x) (reads : g.k.Reads .data x.toNat a) (away : ∀ i < g.size, a ≠ g.data i)
    (room : m.ws.length < g.size) :
    ∃ u, StepIn D inside t u ∧ At (g.carry s d ram) (pc + 1) { m with ws := .word (ram a) :: m.ws } u := by
  have byte : (t.fetched (op.wordB (BitVec.ofInt 16 n))).irHigh = BitVec.ofInt 16 n := by
    rw [irHigh_wordB _ op _ rfl, byteValue_ofInt low high]
  refine here.step code (op.decode_wordB _) ?_
  rw [is]
  exact (here.fetched _).pushFar (by rw [still, byte, addr]) reads away room

end Carry

/-! ### Calls with a result -/

/-- The words that a call leaves for its result. -/
def Op.callWords : Op → Option Word
  | .call0W => some 0
  | .call1W => some 1
  | .call2W => some 2
  | _ => none

section Call

variable {D : Devices ι} {g : Window ι} {pc : Nat} {t : Cpu (Demux ι)} {inside : Nat → Prop} {rest : List Word} {op : Op}
  {words target : Word}

theorem instruction_call {μ : Type} (ops : DemuxOps μ) (is : op.callWords = some words) :
    instruction ops op = Sim.callW ops words := by
  unfold Op.callWords at is
  split at is
  all_goals first
    | (obtain rfl := Option.some.inj is; rfl)
    | cases is

/-- The words for the result are left before the frame. -/
theorem exec_enter_words (words target : Word) (t : Cpu (Demux ι)) :
    (enter (demuxOps D) words target).exec t = (enter (demuxOps D) 0 target).exec (t.withSP (t.sp + words)) := by
  have same : ((t.withSP (t.sp + words)).withSP ((t.withSP (t.sp + words)).sp + 0)) = t.withSP (t.sp + words) := by
    rw [show (t.withSP (t.sp + words)).sp + 0 = t.sp + words from BitVec.add_zero _]
    rfl
  unfold enter
  rw [exec_bind_ok (exec_modify _ t), exec_bind_ok (exec_modify _ (t.withSP (t.sp + words))), same]

/-- **A call with words left for its result**: the window begins above them. -/
theorem At.callW (is : op.callWords = some words) (start : g.k = t) (base : g.base = t.sp + words)
    (code : CodeAt g inside t.pc (op.word :: target :: rest)) (room : 4 ≤ g.size) :
    ∃ u, StepIn D inside t u ∧ At g (target.toNat * 8) ⟨.word t.bp, .addr 4, frame t.bp t.ap (t.pc + 2)⟩ u := by
  subst start
  -- before the call the stack pointer is below the window, and no word of it is known
  let empty : Window ι :=
    { g with
      base := g.k.sp
      size := 0
      mapped := fun i low => absurd low (Nat.not_lt_zero i)
      apart := fun i low => absurd low (Nat.not_lt_zero i) }
  have here : At empty g.k.pc ⟨.word g.k.ap, .word g.k.bp, []⟩ g.k :=
    ⟨rfl, rfl, rfl, (BitVec.add_zero g.k.sp).symm, le_refl 0, fun i v found =>
      absurd (Mach.load_lt found) (Nat.not_lt_zero i), fun a away => rfl, .refl _⟩
  have code' : CodeAt empty inside g.k.pc (op.word :: target :: rest) := by
    intro j w found
    obtain ⟨within, a, reads, word, -⟩ := code j w found
    exact ⟨within, a, reads, word, fun i low => absurd low (Nat.not_lt_zero i)⟩
  refine here.step code' (Op.decode_word _) ?_
  have fetched := here.fetched op.word
  have next := fetched.exec_operand (D := D) code'.tail
  have above : At g (g.k.pc + 2) ⟨.word g.k.ap, .word g.k.bp, []⟩
      ((((g.k.fetched op.word).withPC (g.k.pc + 2)).withSP (g.k.sp + words))) :=
    ⟨rfl, rfl, rfl, base ▸ (BitVec.add_zero g.base).symm, Nat.zero_le _, fun i v found =>
      absurd (Mach.load_lt found) (Nat.not_lt_zero i), fun a away => rfl,
      ⟨rfl, rfl, rfl, rfl, rfl, rfl, rfl, rfl, rfl, rfl, rfl⟩⟩
  obtain ⟨u, run, there, ir⟩ := above.enterFrame (D := D) target (by simpa using room)
  refine ⟨u, ?_, ?_, ir⟩
  · rw [instruction_call _ is]
    unfold Sim.callW
    rw [exec_bind_ok next, exec_enter_words]
    exact run
  · rw [List.append_nil] at there
    exact there

end Call

end RlCpu.Sim
