/-
**Routines of a listing.**

An `Image` is a listing and where its labels stand. `Here P g c t`: the processor `t` is before the lines of `c`, with
the stack of `c` in the window `g`. `Goes size c c'`: from `c` the processor comes to `c'`, in any window of `size`
words.

* `exec_goes`: what `exec` says of a listing, the processor does.
* `Serves l size args results`: the routine at `l` takes the words `args` on the stack to `results`, and uses `size`
  words. `Serves.call` is its call from other code, in the window of the caller.
* `placed bs org`: the listing `bs` from the block `org` of the code on.
* `Stays size c`: from `c` the processor never leaves the image. `Stays.of_returns` is the rule for a loop.
-/

import RlCpu.Sim.Window

namespace RlCpu.Sim

open RlCpu.Kernel RlCpu.Lib Relation

variable {ι L : Type}

/-- A listing in the code segment. -/
structure Image (L : Type) where
  codeAt : L → List (Instr L)
  addr : L → Word
  inside : Nat → Prop
  low : ∀ pc, inside pc → pc < 0x80000

namespace Image

/-- The words of lines of the listing. -/
def words (P : Image L) (code : List (Instr L)) : List Word := code.flatMap (Instr.words P.addr)

/-- The code of every label is in its place. -/
def Loaded (P : Image L) (g : Window ι) : Prop :=
  ∀ l, CodeAt g P.inside ((P.addr l).toNat * 8) (P.words (P.codeAt l))

theorem words_cons (P : Image L) (line : Instr L) (code : List (Instr L)) :
    P.words (line :: code) = line.words P.addr ++ P.words code := List.flatMap_cons

end Image

/-- Lines of the listing, and a stack. -/
abbrev Config (L : Type) := List (Instr L) × Mach

/-- The processor is before the lines of `c`, with its stack. -/
def Here (P : Image L) (g : Window ι) (c : Config L) (t : Cpu (Demux ι)) : Prop :=
  ∃ pc, At g pc c.2 t ∧ CodeAt g P.inside pc (P.words c.1)

section Goes

variable (D : Devices ι) (P : Image L) {size : Nat} {c c' c'' : Config L}

/-- From `c` the processor comes to `c'`. -/
def Goes (size : Nat) (c c' : Config L) : Prop :=
  ∀ g : Window ι, size ≤ g.size → P.Loaded g → ∀ t, Here P g c t →
    ∃ u, ReflTransGen (StepIn D P.inside) t u ∧ Here P g c' u

/-- From `c` the processor comes to `c'`, with at least one step. -/
def Moves (size : Nat) (c c' : Config L) : Prop :=
  ∀ g : Window ι, size ≤ g.size → P.Loaded g → ∀ t, Here P g c t →
    ∃ u, TransGen (StepIn D P.inside) t u ∧ Here P g c' u

/-- From `c` the processor never comes to an end of the steps in the image. -/
def Stays (size : Nat) (c : Config L) : Prop :=
  ∀ g : Window ι, size ≤ g.size → P.Loaded g → ∀ t, Here P g c t → ∀ u, ¬ Ends (StepIn D P.inside) t u

variable {D P}

theorem Goes.refl (c : Config L) : Goes D P size c c := fun _ _ _ t here => ⟨t, .refl, here⟩

theorem Goes.trans (first : Goes D P size c c') (second : Goes D P size c' c'') : Goes D P size c c'' := by
  intro g fits loaded t here
  obtain ⟨u, steps, there⟩ := first g fits loaded t here
  obtain ⟨w, steps', there'⟩ := second g fits loaded u there
  exact ⟨w, steps.trans steps', there'⟩

theorem Moves.goes (moves : Moves D P size c c') : Goes D P size c c' := by
  intro g fits loaded t here
  obtain ⟨u, steps, there⟩ := moves g fits loaded t here
  exact ⟨u, steps.to_reflTransGen, there⟩

theorem Moves.trans_goes (first : Moves D P size c c') (second : Goes D P size c' c'') : Moves D P size c c'' := by
  intro g fits loaded t here
  obtain ⟨u, steps, there⟩ := first g fits loaded t here
  obtain ⟨w, steps', there'⟩ := second g fits loaded u there
  exact ⟨w, steps.trans_left steps', there'⟩

theorem Goes.stays (goes : Goes D P size c c') (stays : Stays D P size c') : Stays D P size c := by
  intro g fits loaded t here w ends
  obtain ⟨u, steps, there⟩ := goes g fits loaded t here
  exact stays g fits loaded u there w (ends.of_steps (stepIn_deterministic _ _) steps)

theorem Goes.forget (goes : Goes D P size c c') (i : Nat) : Goes D P size c (c'.1, c'.2.forget i) := by
  intro g fits loaded t here
  obtain ⟨u, steps, pc, there, code⟩ := goes g fits loaded t here
  exact ⟨u, steps, pc, there.forget i, code⟩

/-- **A loop without end**: from one of its states the processor comes to another. -/
theorem Stays.of_returns {α : Type} (state : α → Config L) (again : α → Prop)
    (returns : ∀ a, again a → ∃ b, again b ∧ Moves D P size (state a) (state b)) {a : α} (start : again a) :
    Stays D P size (state a) := by
  intro g fits loaded t here u
  refine not_ends_of_returns (stepIn_deterministic _ _) (P := fun t => ∃ a, again a ∧ Here P g (state a) t) ?_
    ⟨a, start, here⟩ u
  rintro s ⟨a, holds, here⟩
  obtain ⟨b, holds', moves⟩ := returns a holds
  obtain ⟨w, steps, there⟩ := moves g fits loaded s here
  exact ⟨w, steps, b, holds', there⟩

/-- **A loop with an end**: each turn is the last one or makes `measure` less, and does not change where the loop
ends. By induction on the measure. -/
theorem goes_loop (size : Nat) {α : Type} (state final : α → Config L) (measure : α → Nat)
    (turn : ∀ a, Goes D P size (state a) (final a) ∨
      ∃ b, measure b < measure a ∧ Goes D P size (state a) (state b) ∧ final b = final a) (a : α) :
    Goes D P size (state a) (final a) := by
  induction is : measure a using Nat.strong_induction_on generalizing a with
  | _ n ih =>
    rcases turn a with last | ⟨b, less, goes, same⟩
    · exact last
    · exact same ▸ goes.trans (ih _ (is ▸ less) b rfl)

/-! ### Listings -/

/-- The lines and the stack where a listing stops. -/
def Exit.config : Exit L → Config L
  | .run code m => (code, m)
  | .ret m => ([.plain .ret], m)

variable {line : Instr L} {code : List (Instr L)} {m m' : Mach} {e : Exit L} {stop : L → Bool} {fuel :
  Nat} {l : L} {op : Op}

theorem moves_stepVal (made : m.stepVal size line = some m') : Moves D P size (line :: code, m) (code, m') := by
  rintro g fits loaded t ⟨pc, here, at'⟩
  rw [P.words_cons] at at'
  obtain ⟨u, step, there⟩ := here.stepVal (D := D) _ _ fits at' made
  refine ⟨u, .single step, _, there, ?_⟩
  rw [← line.length_words P.addr]
  exact at'.right

theorem moves_jumpW : Moves D P size (.link .jumpW l :: code, m) (P.codeAt l, m) := by
  rintro g fits loaded t ⟨pc, here, at'⟩
  obtain ⟨u, step, there⟩ := here.jumpW (D := D) at'
  exact ⟨u, .single step, _, there, loaded l⟩

theorem moves_branch {compare : Word → Word → Bool} {v1 v2 : Word} {ws : List Val} (is : op.compare = some compare)
    (top : m.ws = .word v2 :: .word v1 :: ws) :
    Moves D P size (.link op l :: code, m)
      (if compare v1 v2 then P.codeAt l else code, { m with ws := ws }) := by
  rintro g fits loaded t ⟨pc, here, at'⟩
  obtain ⟨u, step, there⟩ := here.branch (D := D) at' is top
  refine ⟨u, .single step, _, there, ?_⟩
  by_cases taken : compare v1 v2 = true
  · rw [if_pos taken, if_pos taken]
    exact loaded l
  · rw [if_neg taken, if_neg taken]
    exact at'.tail.tail

/-- **The first line of a listing**, which is no call and no return. -/
theorem exec_next (noRet : line ≠ .plain .ret) (noCall : ∀ l, line ≠ .link .call0W l)
    (run : exec size P.codeAt stop (fuel + 1) (line :: code) m = some e) :
    ∃ c, Moves D P size (line :: code, m) c ∧
      (e = .run c.1 c.2 ∨ exec size P.codeAt stop fuel c.1 c.2 = some e) := by
  unfold exec at run
  split at run
  case h_1 => exact absurd rfl noRet
  case h_2 l => exact absurd rfl (noCall l)
  case h_3 l =>
    refine ⟨_, moves_jumpW, ?_⟩
    split at run
    case isTrue => exact Or.inl (Option.some.inj run).symm
    case isFalse => exact Or.inr run
  case h_4 op l _ _ =>
    split at run
    case h_1 compare v2 v1 ws is top =>
      refine ⟨_, moves_branch is top, ?_⟩
      split at run
      case isTrue taken =>
        rw [if_pos taken]
        split at run
        case isTrue => exact Or.inl (Option.some.inj run).symm
        case isFalse => exact Or.inr run
      case isFalse taken =>
        rw [if_neg taken]
        exact Or.inr run
    case h_2 => cases run
  case h_5 =>
    obtain ⟨m', made, run⟩ := Option.bind_eq_some_iff.mp run
    exact ⟨_, moves_stepVal made, Or.inr run⟩

/-- **What a listing does, the processor does.** By induction on the lines run. -/
theorem exec_goes (run : exec size P.codeAt stop fuel code m = some e) : Goes D P size (code, m) e.config := by
  induction fuel generalizing code m with
  | zero =>
    obtain rfl := Option.some.inj run
    exact .refl _
  | succ fuel ih =>
    cases code with
    | nil => cases run
    | cons line code =>
      by_cases ret : line = .plain .ret
      · subst ret
        obtain rfl := Option.some.inj run
        rintro g fits loaded t ⟨pc, here, at'⟩
        exact ⟨t, .refl, pc, here, (show CodeAt _ _ _ ([Op.ret.word] ++ _) from at').left⟩
      · by_cases call : ∃ l, line = .link .call0W l
        · obtain ⟨l, rfl⟩ := call
          obtain rfl := Option.some.inj run
          exact .refl _
        · obtain ⟨c, moves, rfl | rest⟩ := exec_next (D := D) ret (fun l is => call ⟨l, is⟩) run
          · exact moves.goes
          · exact moves.goes.trans (ih rest)

theorem exec_moves (noRet : line ≠ .plain .ret) (noCall : ∀ l, line ≠ .link .call0W l)
    (run : exec size P.codeAt stop (fuel + 1) (line :: code) m = some e) : Moves D P size (line :: code, m) e.config := by
  obtain ⟨c, moves, rfl | rest⟩ := exec_next (D := D) noRet noCall run
  · exact moves
  · exact moves.trans_goes (exec_goes rest)

end Goes

/-! ### Calls -/

section Sub

variable {g : Window ι} {pc : Nat} {m : Mach} {t u : Cpu (Demux ι)} {inside : Nat → Prop} {off : Nat}

theorem ofNat_offset (base : Word) (off i : Nat) :
    base + BitVec.ofNat 16 off + BitVec.ofNat 16 i = base + BitVec.ofNat 16 (off + i) := by
  rw [BitVec.add_assoc, BitVec.ofNat_add]

/-- The window from its word `off` on, as it is now. -/
def At.sub (here : At g pc m t) (off : Nat) : Window ι where
  k := t
  base := g.base + BitVec.ofNat 16 off
  size := g.size - off
  data i := g.data (off + i)
  mapped i low := by
    rw [ofNat_offset]
    exact here.writes (by omega)
  apart i lowI j lowJ same := by
    have := g.apart (off + i) (by omega) (off + j) (by omega) same
    omega
  quiet := by
    have quiet := here.quiet
    rw [Bool.and_eq_false_iff] at quiet
    exact quiet

/-- Numbers are the same words in every window. -/
def Val.IsNumber : Val → Prop
  | .word _ => True
  | _ => False

theorem Val.is_number {v : Val} {w : Word} {base base' : Word} (number : v.IsNumber) (is : v.Is base w) :
    v.Is base' w := by
  cases v with
  | word x => exact is
  | addr => exact number.elim
  | any => exact number.elim

theorem At.sub_code {p : Nat} {ws : List Word} (here : At g pc m t) (code : CodeAt g inside p ws) : CodeAt
    (here.sub off) inside p ws := by
  intro j w found
  obtain ⟨within, a, reads, word, away⟩ := code j w found
  refine ⟨within, a, reads.congr here.still.table here.still.mmuEnabled here.still.selector,
    (here.outside a away).trans word, fun i low => away _ ?_⟩
  exact Nat.add_lt_of_lt_sub' low

theorem At.enter_sub {top below : List Val} {ap : Val} {n : Nat}
    (here : At g pc ⟨ap, .addr (n + below.length), top ++ below⟩ t) (numbers : ∀ v ∈ top, v.IsNumber) :
    At (here.sub below.length) pc ⟨.any, .addr n, top⟩ t := by
  have length : (top ++ below).length = top.length + below.length := List.length_append
  refine ⟨here.pc, trivial, ?_, ?_, ?_, fun i v found => ?_, fun a away => rfl, .refl t⟩
  · show t.bp = _
    rw [At.sub, ofNat_offset, Nat.add_comm below.length n]
    exact here.bp
  · show t.sp = _
    rw [At.sub, ofNat_offset, here.sp, length, Nat.add_comm]
  · have room := here.room
    show top.length ≤ g.size - below.length
    simp only [length] at room
    omega
  · have low := Mach.load_lt found
    rw [Mach.load_eq] at found
    have mem : v ∈ top := List.mem_reverse.mp (List.mem_of_getElem? found)
    refine Val.is_number (numbers v mem) (here.words (below.length + i) v ?_)
    rw [Mach.load_eq, List.reverse_append, List.getElem?_append_right (by simp)]
    simpa using found

/-- What a call leaves, in the window of its caller. -/
theorem At.leave_sub {top results below : List Val} {ap bp ap' : Val} {x y : Word} {n pc' : Nat}
    (here : At g pc ⟨ap', .addr (n + below.length), top ++ below⟩ t)
    (there : At (here.sub below.length) pc' ⟨.word x, .word y, results⟩ u) (numbers : ∀ v ∈ results, v.IsNumber)
    (isAP : ap.Is g.base x) (isBP : bp.Is g.base y) : At g pc' ⟨ap, bp, results ++ below⟩ u := by
  have length : (results ++ below).length = results.length + below.length := List.length_append
  have enough : below.length ≤ g.size := by
    have room := here.room
    simp only [List.length_append] at room
    omega
  refine ⟨there.pc, ?_, ?_, ?_, ?_, fun i v found => ?_, fun a away => ?_, here.still.trans there.still⟩
  · rwa [show u.ap = x from there.ap]
  · rwa [show u.bp = y from there.bp]
  · rw [there.sp, length, At.sub, ofNat_offset, Nat.add_comm]
  · have room := there.room
    rw [length]
    show _ ≤ g.size
    have : (here.sub below.length).size = g.size - below.length := rfl
    simp only at room
    omega
  · rw [Mach.load_eq, List.reverse_append] at found
    by_cases low : i < below.length
    · rw [List.getElem?_append_left (by simpa using low)] at found
      rw [there.outside (g.data i) fun j inside same => ?_]
      · refine here.words i v ?_
        rw [Mach.load_eq, List.reverse_append, List.getElem?_append_left (by simpa using low)]
        exact found
      · have := g.apart i (by omega) (below.length + j) (Nat.add_lt_of_lt_sub' inside) same
        omega
    · rw [List.getElem?_append_right (by simpa using low), List.length_reverse] at found
      have mem : v ∈ results := List.mem_reverse.mp (List.mem_of_getElem? found)
      have word := there.words (i - below.length) v (by rw [Mach.load_eq]; exact found)
      rw [show (here.sub below.length).data (i - below.length) = g.data (below.length + (i - below.length)) from rfl,
        Nat.add_sub_cancel' (Nat.le_of_not_lt low)] at word
      exact Val.is_number (numbers v mem) word
  · rw [there.outside a fun j inside => away _ (Nat.add_lt_of_lt_sub' inside)]
    exact here.outside a away

end Sub

/-- The stack of a routine at its start. -/
def entry (args : List Word) (bp ap : Word) (back : Nat) : Mach :=
  ⟨.any, .addr (args.length + 4), frame bp ap back ++ args.map .word⟩

section Serves

variable (D : Devices ι) (P : Image L)

/-- **The routine at `l` takes the words `args` to `results`**, on a stack with `size` words from the first argument
on. -/
structure Serves (size : Nat) (l : L) (args results : List Word) : Prop where
  room : args.length + 4 ≤ size
  length : results.length = args.length
  goes : ∀ bp ap back, ∃ ap' top code, Goes D P size (P.codeAt l, entry args bp ap back)
    (.plain .ret :: code, ⟨ap', .addr (args.length + 4), top ++ (frame bp ap back ++ results.map .word)⟩)

/-- The routine at `l` never returns with the words `args`. -/
structure Hangs (size : Nat) (l : L) (args : List Word) : Prop where
  room : args.length + 4 ≤ size
  stays : ∀ bp ap back, Stays D P size (P.codeAt l, entry args bp ap back)

variable {D P} {size need : Nat} {l : L} {args results : List Word} {g : Window ι} {pc : Nat} {ap bp : Val}
  {below : List Val} {t : Cpu (Demux ι)} {rest : List Word} {code : List (Instr L)}

theorem At.sub_loaded {m : Mach} (here : At g pc m t) (loaded : P.Loaded g) (off : Nat) : P.Loaded (here.sub off) :=
  fun l => here.sub_code (loaded l)

/-- The stack of a routine before its `ret`, with `top` above the frame. -/
def exit (top : List Val) (results : List Word) (bp ap : Word) (back : Nat) : Exit L :=
  .ret ⟨.any, .addr (results.length + 4), top ++ (frame bp ap back ++ results.map .word)⟩

theorem Serves.of_goes (room : args.length + 4 ≤ size) (length : results.length = args.length)
    (run : ∀ bp ap back, ∃ top, Goes D P size (P.codeAt l, entry args bp ap back) (exit top results bp ap back).config) :
    Serves D P size l args results := by
  refine ⟨room, length, fun bp ap back => ?_⟩
  obtain ⟨top, goes⟩ := run bp ap back
  refine ⟨.any, top, [], ?_⟩
  rw [← length]
  exact goes

/-- A routine that runs to its `ret`. -/
theorem Serves.of_exec {stop : L → Bool} {fuel : Nat} (top : List Val) (room : args.length + 4 ≤ size)
    (length : results.length = args.length)
    (run : ∀ bp ap back, exec size P.codeAt stop fuel (P.codeAt l) (entry args bp ap back) =
      some (exit top results bp ap back)) : Serves D P size l args results :=
  .of_goes room length fun bp ap back => ⟨top, exec_goes (run bp ap back)⟩

/-- Two labels of one place. -/
theorem Serves.alias {l' : L} (serves : Serves D P size l args results) (same : P.codeAt l' = P.codeAt l) :
    Serves D P size l' args results :=
  ⟨serves.room, serves.length, same ▸ serves.goes⟩

theorem Hangs.alias {l' : L} (hangs : Hangs D P size l args) (same : P.codeAt l' = P.codeAt l) :
    Hangs D P size l' args :=
  ⟨hangs.room, same ▸ hangs.stays⟩

/-- A call up to the first line of its routine, in the window of the routine. -/
theorem At.called (here : At g pc ⟨ap, bp, args.map .word ++ below⟩ t)
    (code : CodeAt g P.inside pc (Op.call0W.word :: P.addr l :: rest)) (loaded : P.Loaded g)
    (room : args.length + 4 ≤ need) (fits : need + below.length ≤ g.size) :
    ∃ u, StepIn D P.inside t u ∧
      ∃ there : At g ((P.addr l).toNat * 8) ⟨.any, .addr ((args.length + 4) + below.length),
        (frame t.bp t.ap (pc + 2) ++ args.map .word) ++ below⟩ u,
      Here P (there.sub below.length) (P.codeAt l, entry args t.bp t.ap (pc + 2)) u := by
  have length : (args.map Val.word ++ below).length = args.length + below.length := by
    rw [List.length_append, List.length_map]
  obtain ⟨u, step, there⟩ := here.call0W (D := D) code (by simp only [length]; omega)
  have there' : At g ((P.addr l).toNat * 8) ⟨.any, .addr ((args.length + 4) + below.length),
      (frame t.bp t.ap (pc + 2) ++ args.map .word) ++ below⟩ u := by
    rw [List.append_assoc, show args.length + 4 + below.length = (args.map Val.word ++ below).length + 4 by omega]
    exact there
  refine ⟨u, step, there', _, there'.enter_sub fun v mem => ?_, there'.sub_code (loaded l)⟩
  rcases List.mem_append.mp mem with inFrame | inArgs
  · unfold frame at inFrame
    simp only [List.mem_cons, List.not_mem_nil, or_false] at inFrame
    rcases inFrame with rfl | rfl | rfl | rfl <;> trivial
  · obtain ⟨w, -, rfl⟩ := List.mem_map.mp inArgs
    trivial

/-- **A routine called.** -/
theorem Serves.atCall (serves : Serves D P need l args results)
    (here : At g pc ⟨ap, bp, args.map .word ++ below⟩ t)
    (code : CodeAt g P.inside pc (Op.call0W.word :: P.addr l :: rest)) (loaded : P.Loaded g)
    (fits : need + below.length ≤ g.size) (low : pc + 2 < 0x80000) :
    ∃ u, TransGen (StepIn D P.inside) t u ∧ At g (pc + 2) ⟨ap, bp, results.map .word ++ below⟩ u := by
  obtain ⟨u, step, there, entered⟩ := here.called (D := D) code loaded serves.room fits
  obtain ⟨ap', top, rest, goes⟩ := serves.goes t.bp t.ap (pc + 2)
  have enough : need ≤ (there.sub below.length).size := Nat.le_sub_of_add_le fits
  obtain ⟨v, steps, pc', atRet, codeRet⟩ := goes _ enough (there.sub_loaded loaded _) u entered
  have length : (results.map Val.word).length = args.length := by rw [List.length_map, serves.length]
  have atRet' : At (there.sub below.length) pc' ⟨ap', .addr ((results.map Val.word).length + 4),
      top ++ (frame t.bp t.ap (pc + 2) ++ results.map .word)⟩ v := by
    rw [length]
    exact atRet
  obtain ⟨w, last, back⟩ := atRet'.ret (D := D) codeRet low
  refine ⟨w, (TransGen.head' step steps).tail last, there.leave_sub back (fun v mem => ?_) here.ap here.bp⟩
  obtain ⟨x, -, rfl⟩ := List.mem_map.mp mem
  trivial

theorem Hangs.atCall (hangs : Hangs D P need l args) (here : At g pc ⟨ap, bp, args.map .word ++ below⟩ t)
    (code : CodeAt g P.inside pc (Op.call0W.word :: P.addr l :: rest)) (loaded : P.Loaded g)
    (fits : need + below.length ≤ g.size) (u : Cpu (Demux ι)) : ¬ Ends (StepIn D P.inside) t u := by
  intro ends
  obtain ⟨v, step, there, entered⟩ := here.called (D := D) code loaded hangs.room fits
  exact hangs.stays _ _ _ _ (Nat.le_sub_of_add_le fits) (there.sub_loaded loaded _) v entered u
    (ends.of_steps (stepIn_deterministic _ _) (.single step))

/-- A call in the listing. -/
theorem Serves.call (size : Nat) (ap bp : Val) (below : List Val) (code : List (Instr L))
    (serves : Serves D P need l args results) (fits : need + below.length ≤ size) (next : code ≠ []) :
    Moves D P size (.link .call0W l :: code, ⟨ap, bp, args.map .word ++ below⟩)
      (code, ⟨ap, bp, results.map .word ++ below⟩) := by
  rintro g room loaded t ⟨pc, here, at'⟩
  have after : CodeAt g P.inside (pc + 2) (P.words code) := at'.tail.tail
  have low : pc + 2 < 0x80000 := by
    obtain ⟨line, code, rfl⟩ := List.exists_cons_of_ne_nil next
    rw [P.words_cons] at after
    cases line <;> exact P.low _ (after 0 _ rfl).1
  obtain ⟨u, steps, there⟩ := serves.atCall here at' loaded (fits.trans room) low
  exact ⟨u, steps, pc + 2, there, after⟩

theorem Hangs.call (ap bp : Val) (below : List Val) (hangs : Hangs D P need l args) (fits : need + below.length ≤ size) :
    Stays D P size (.link .call0W l :: code, ⟨ap, bp, args.map .word ++ below⟩) := by
  rintro g room loaded t ⟨pc, here, at'⟩ u
  exact hangs.atCall here at' loaded (fits.trans room) u

end Serves

/-! ### A listing in its place -/

/-- A number of blocks of code. -/
def blocksOf (bs : List (Block L)) : Nat := (bs.map Block.blocks).sum

section Placed

variable [DecidableEq L] (bs : List (Block L)) (l : L)

/-- The place of a label in a listing. -/
def indexOf : Nat := bs.findIdx fun b => l ∈ b.labels

/-- The lines from a label on. -/
def linesFrom : List (Instr L) := codeFrom (bs.drop (indexOf bs l))

/-- The blocks of code before a label. -/
def offsetOf : Nat := blocksOf (bs.take (indexOf bs l))

end Placed

theorem length_flatMap_words (addr : L → Word) (code : List (Instr L)) :
    (code.flatMap (Instr.words addr)).length = (code.map Instr.size).sum := by
  induction code with
  | nil => rfl
  | cons line code ih =>
    rw [List.flatMap_cons, List.length_append, line.length_words, ih, List.map_cons, List.sum_cons]

theorem Block.length_code (addr : L → Word) (b : Block L) : (b.code.flatMap (Instr.words addr)).length = 8 * b.blocks := by
  rw [length_flatMap_words]
  unfold Block.code Block.blocks
  have pad : ∀ n, ((List.replicate n (Instr.plain Op.nop : Instr L)).map Instr.size).sum = n := fun n => by
    rw [List.map_replicate, List.sum_replicate_nat, Instr.size, Nat.mul_one]
  rw [List.map_append, List.sum_append, pad, show (b.body.map Instr.size).sum = b.used from rfl]
  omega

/-- The length of a listing. -/
theorem words_codeFrom_length (addr : L → Word) (bs : List (Block L)) :
    ((codeFrom bs).flatMap (Instr.words addr)).length = 8 * blocksOf bs := by
  induction bs with
  | nil => rfl
  | cons b bs ih =>
    have codes : codeFrom (b :: bs) = b.code ++ codeFrom bs := rfl
    have first : blocksOf (b :: bs) = b.blocks + blocksOf bs := List.sum_cons
    rw [codes, List.flatMap_append, List.length_append, b.length_code, ih, first, Nat.mul_add]

/-- **The words of a listing from one of its blocks on.** By induction on the blocks before it. -/
theorem words_codeFrom_drop (addr : L → Word) (bs : List (Block L)) (n : Nat) :
    (codeFrom (bs.drop n)).flatMap (Instr.words addr) =
      ((codeFrom bs).flatMap (Instr.words addr)).drop (8 * blocksOf (bs.take n)) := by
  induction n generalizing bs with
  | zero => rfl
  | succ n ih =>
    cases bs with
    | nil => rfl
    | cons b bs =>
      have first : blocksOf (b :: bs.take n) = b.blocks + blocksOf (bs.take n) := List.sum_cons
      have codes : codeFrom (b :: bs) = b.code ++ codeFrom bs := rfl
      rw [List.drop_succ_cons, ih, List.take_succ_cons, first, codes, List.flatMap_append, Nat.mul_add,
        ← b.length_code addr, ← List.drop_drop, List.drop_left]

section Placed

variable [DecidableEq L] (bs : List (Block L)) (org : Nat)

/-- The words of code of a listing at the block `org`. -/
def InListing (pc : Nat) : Prop := org * 8 ≤ pc ∧ pc < (org + blocksOf bs) * 8

/-- A listing at the block `org`, with the code `caller` that calls it. -/
def placed (fits : org + blocksOf bs ≤ 0x10000) (caller : Nat → Prop) (low : ∀ pc, caller pc → pc < 0x80000) : Image L where
  codeAt := linesFrom bs
  addr l := BitVec.ofNat 16 (org + offsetOf bs l)
  inside pc := InListing bs org pc ∨ caller pc
  low pc within := by
    rcases within with ⟨-, high⟩ | called
    · omega
    · exact low pc called

variable {bs org} {fits : org + blocksOf bs ≤ 0x10000} {caller : Nat → Prop} {low : ∀ pc, caller pc → pc < 0x80000}

/-- Where the words of the listing are in their place, the code of each of its labels is. -/
theorem placed_loaded {g : Window ι} (nonempty : ∀ l, offsetOf bs l < blocksOf bs)
    (code : CodeAt g (placed bs org fits caller low).inside (org * 8)
      ((placed bs org fits caller low).words (codeFrom bs))) :
    (placed bs org fits caller low).Loaded g := by
  intro l
  have here := code.drop (8 * offsetOf bs l)
  have inside := nonempty l
  have addr : ((placed bs org fits caller low).addr l).toNat = org + offsetOf bs l := by
    show (BitVec.ofNat 16 (org + offsetOf bs l)).toNat = _
    rw [BitVec.toNat_ofNat]
    omega
  rw [addr, Nat.add_mul, Nat.mul_comm (offsetOf bs l)]
  have words := words_codeFrom_drop (placed bs org fits caller low).addr bs (indexOf bs l)
  rw [Image.words] at here ⊢
  show CodeAt _ _ _ ((codeFrom (bs.drop (indexOf bs l))).flatMap _)
  rw [words]
  exact here

end Placed

end RlCpu.Sim
