/-
**The code of trees (`dumpCode` of `trans2.cpp`, the directives of `assembler.cpp`).**

`layout addr pos lines` is the code of lines of the output that stands at the word `pos`: a label goes to the next block of
eight words. `Framed` says what the stack of a procedure is: the words of its variables, and below and between them the
words that it found.

* `Tree.takes_assign`, `Cmp.branches`: the code of an assignment and of a branch.
* `Framed.store`: a value put into a variable changes nothing else.
-/

import RlCpu.Binutils.ExpressionCode
import RlCpu.Binutils.Statements

namespace RlCpu.Binutils

open RlCpu.Kernel RlCpu.Lib RlCpu.Lib.Abort RlCpu.Sim Relation

/-! ### Layout -/

/-- The words of a line of the output at the word `pos` of the code, with the labels at `addr`. -/
def OutLine.words (addr : Text → Word) (pos : Nat) : OutLine → Option (List Word)
  | .op entry => entry.assemble.map fun ws => ws.map (AsmWord.value addr)
  | .directive name _ =>
      if name = "label".toList then some (List.replicate ((8 - pos % 8) % 8) Op.nop.word)
      else if name = "endproc".toList then some [Op.ret.word]
      else if name = "proc".toList then some []
      else none

/-- The code of lines of the output. -/
def layout (addr : Text → Word) : Nat → List OutLine → Option (List Word)
  | _, [] => some []
  | pos, line :: lines => do
    let ws ← line.words addr pos
    let more ← layout addr (pos + ws.length) lines
    return ws ++ more

/-- The label of a line of the output. -/
def OutLine.label : OutLine → Option Text
  | .op _ => none
  | .directive name text => if name = "label".toList then some text else none

/-- The labels of lines of the output, with the words where they stand. -/
def labels (addr : Text → Word) : Nat → List OutLine → List (Text × Nat)
  | _, [] => []
  | pos, line :: lines =>
    let next := pos + ((line.words addr pos).getD []).length
    line.label.toList.map (fun text => (text, next)) ++ labels addr next lines

section Layout

variable {addr : Text → Word} {pos : Nat} {ws : List Word}

theorem layout_bind (first second : List OutLine) : layout addr pos (first ++ second) =
    (layout addr pos first).bind fun vs => (layout addr (pos + vs.length) second).map (vs ++ ·) := by
  induction first generalizing pos with
  | nil =>
    show layout addr pos second = (layout addr pos second).map fun us => us
    rw [Option.map_id']
  | cons line lines ih =>
    show ((line.words addr pos).bind fun ws => (layout addr (pos + ws.length) (lines ++ second)).bind fun more =>
      some (ws ++ more)) = ((line.words addr pos).bind fun ws => (layout addr (pos + ws.length) lines).bind fun more =>
        some (ws ++ more)).bind _
    rw [Option.bind_assoc]
    refine congrArg _ (funext fun ws => ?_)
    rw [ih, Option.bind_assoc, Option.bind_assoc]
    refine congrArg _ (funext fun vs => ?_)
    rw [Option.bind_some, Option.bind_map, Option.map_eq_bind, List.length_append, Nat.add_assoc]
    refine congrArg _ (funext fun us => ?_)
    exact congrArg some (List.append_assoc _ _ _).symm

theorem layout_append {first second : List OutLine} (is : layout addr pos (first ++ second) = some ws) :
    ∃ vs us, layout addr pos first = some vs ∧ layout addr (pos + vs.length) second = some us ∧ ws = vs ++ us := by
  rw [layout_bind] at is
  obtain ⟨vs, first, rest⟩ := Option.bind_eq_some_iff.mp is
  obtain ⟨us, second, rfl⟩ := Option.map_eq_some_iff.mp rest
  exact ⟨vs, us, first, second, rfl⟩

theorem layout_concat {first second : List OutLine} {vs us : List Word} (isFirst : layout addr pos first = some vs)
    (isSecond : layout addr (pos + vs.length) second = some us) : layout addr pos (first ++ second) = some (vs ++ us) := by
  rw [layout_bind, isFirst, Option.bind_some, isSecond]
  rfl

theorem labels_append {first second : List OutLine} (is : layout addr pos first = some ws) :
    labels addr pos (first ++ second) = labels addr pos first ++ labels addr (pos + ws.length) second := by
  induction first generalizing pos ws with
  | nil =>
    obtain rfl := Option.some.inj is
    rfl
  | cons line lines ih =>
    obtain ⟨here, put, rest⟩ := Option.bind_eq_some_iff.mp is
    obtain ⟨words, more, whole⟩ := Option.bind_eq_some_iff.mp rest
    obtain rfl := Option.some.inj whole
    have next : (line.words addr pos).getD [] = here := by rw [put, Option.getD_some]
    simp only [List.cons_append, labels, next]
    rw [ih more, List.append_assoc, List.length_append, Nat.add_assoc]

theorem layout_single (line : OutLine) : layout addr pos [line] = line.words addr pos := by
  show ((line.words addr pos).bind fun ws => some (ws ++ [])) = _
  cases line.words addr pos with
  | none => rfl
  | some ws => exact congrArg some (List.append_nil ws)

/-- The code of entries does not depend on where it stands. -/
theorem layout_ops (entries : List RcEntry) : layout addr pos (entries.map .op) = linked addr entries := by
  induction entries generalizing pos with
  | nil => rfl
  | cons entry entries ih =>
    show ((entry.assemble.map fun ws => ws.map (AsmWord.value addr)).bind fun ws =>
      (layout addr (pos + ws.length) (entries.map .op)).bind fun more => some (ws ++ more)) =
        entry.assemble.bind fun ws => (linked addr entries).bind fun rest => some (ws.map (AsmWord.value addr) ++ rest)
    rw [Option.bind_map]
    refine congrArg _ (funext fun ws => ?_)
    show ((layout addr _ (entries.map .op)).bind _) = _
    rw [ih]

end Layout

/-! ### The words of a stack -/

/-- A value put into the words `i` and following of a stack. -/
def Size.put (i : Nat) (ws : List Val) : (n : Size) → BitVec n.bits → List Val
  | .one, a => ws.set (ws.length - 1 - i) (.word a)
  | .two, a => (ws.set (ws.length - 1 - i) (.word (low a))).set (ws.length - 1 - (i + 1)) (.word (high a))

theorem reverse_set {ws : List Val} {i : Nat} (inside : i < ws.length) (v : Val) (k : Nat) :
    (ws.set (ws.length - 1 - i) v).reverse[k]? = if k = i then some v else ws.reverse[k]? := by
  by_cases low : k < ws.length
  · rw [List.getElem?_reverse (by rwa [List.length_set]), List.getElem?_reverse low, List.length_set]
    by_cases same : k = i
    · rw [if_pos same, same, List.getElem?_set_self (by omega)]
    · rw [if_neg same, List.getElem?_set_ne (by omega)]
  · have high : ws.length ≤ k := Nat.le_of_not_lt low
    rw [if_neg (by omega), List.getElem?_eq_none (by simpa using high), List.getElem?_eq_none (by simpa using high)]

theorem Size.put_length (i : Nat) (ws : List Val) (n : Size) (a : BitVec n.bits) : (n.put i ws a).length = ws.length := by
  cases n with
  | one => exact List.length_set
  | two => exact List.length_set.trans List.length_set

/-- The words after a value is put into some of them. -/
theorem Size.reverse_put {i : Nat} {ws : List Val} {n : Size} (a : BitVec n.bits) (inside : i + n.words ≤ ws.length)
    (k : Nat) :
    (n.put i ws a).reverse[k]? =
      if i ≤ k ∧ k < i + n.words then ((n.wordsOf a).map .word).reverse[k - i]? else ws.reverse[k]? := by
  cases n with
  | one =>
    have inside' : i + 1 ≤ ws.length := inside
    refine (reverse_set (by omega) _ k).trans ?_
    show (if k = i then _ else _) = if i ≤ k ∧ k < i + 1 then [Val.word a][k - i]? else _
    by_cases same : k = i
    · rw [if_pos same, if_pos (by omega), same, Nat.sub_self]
      rfl
    · rw [if_neg same, if_neg (by omega)]
  | two =>
    have inside' : i + 2 ≤ ws.length := inside
    have length : (ws.set (ws.length - 1 - i) (Val.word (low a))).length = ws.length := List.length_set
    have second : ((ws.set (ws.length - 1 - i) (Val.word (low a))).set
        ((ws.set (ws.length - 1 - i) (Val.word (low a))).length - 1 - (i + 1)) (Val.word (high a))).reverse[k]? = _ :=
      reverse_set (by omega) _ k
    rw [length, reverse_set (by omega)] at second
    refine second.trans ?_
    show _ = if i ≤ k ∧ k < i + 2 then [Val.word (low a), Val.word (high a)][k - i]? else _
    by_cases top : k = i + 1
    · rw [if_pos top, if_pos (by omega), top, Nat.add_sub_cancel_left]
      rfl
    · rw [if_neg top]
      by_cases same : k = i
      · rw [if_pos same, if_pos (by omega), same, Nat.sub_self]
        rfl
      · rw [if_neg same, if_neg (by omega)]

/-! ### The variables of a procedure -/

/-- Where the words of a procedure are on a stack: the parameters from `args` on, and from `frame` on the words for the
arguments of its calls and the locals. -/
structure Areas where
  args : Nat
  frame : Nat
  nArgs : Nat
  nLocals : Nat
  nParams : Nat
  apart : args + nParams ≤ frame

namespace Areas

variable (A : Areas)

/-- The first word of an area. -/
def base (area : Area) : Nat := area.base A.nArgs A.args A.frame

/-- The words of an area. -/
def count : Area → Nat := varCount A.nLocals A.nParams

/-- The word `k` of the stack is that of a variable, or of an argument of a call. -/
def Has (k : Nat) : Prop :=
  (∃ area j, j < A.count area ∧ k = A.base area + j) ∨ (A.frame ≤ k ∧ k < A.frame + A.nArgs)

/-- **The stack of a procedure**: the words of its variables, and the others as they were in `below`. -/
structure Framed (below : List Val) (env : Env) (ws : List Val) : Prop where
  length : ws.length = below.length
  vars : ∀ area j, j < A.count area → ws.reverse[A.base area + j]? = some (.word (env area j))
  args : A.frame + A.nArgs ≤ ws.length
  other : ∀ k, ¬ A.Has k → ws.reverse[k]? = below.reverse[k]?

variable {A}

theorem disjoint {area other : Area} {j k : Nat} (inside : j < A.count area) (inside' : k < A.count other)
    (same : A.base area + j = A.base other + k) : area = other ∧ j = k := by
  have apart := A.apart
  cases area <;> cases other
  · exact ⟨rfl, Nat.add_left_cancel same⟩
  · change A.frame + A.nArgs + j = A.args + k at same
    change k < A.nParams at inside'
    exfalso
    omega
  · change A.args + j = A.frame + A.nArgs + k at same
    change j < A.nParams at inside
    exfalso
    omega
  · exact ⟨rfl, Nat.add_left_cancel same⟩

/-- No variable is among the arguments of calls. -/
theorem not_argument {area : Area} {j : Nat} (inside : j < A.count area) :
    ¬ (A.frame ≤ A.base area + j ∧ A.base area + j < A.frame + A.nArgs) := by
  have apart := A.apart
  cases area with
  | locals =>
    show ¬ (A.frame ≤ A.frame + A.nArgs + j ∧ A.frame + A.nArgs + j < A.frame + A.nArgs)
    omega
  | params =>
    change j < A.nParams at inside
    show ¬ (A.frame ≤ A.args + j ∧ A.args + j < A.frame + A.nArgs)
    omega

variable {below ws : List Val} {env : Env}

theorem Framed.inside (framed : A.Framed below env ws) {area : Area} {j : Nat} (low : j < A.count area) :
    A.base area + j < ws.length := by
  have found := framed.vars area j low
  simpa using (List.getElem?_eq_some_iff.mp found).1

/-- The words of an assignment. -/
theorem store_word (env : Env) (area : Area) (offset : Nat) (n : Size) (a : BitVec n.bits) (x : Area) (j : Nat) :
    some (Val.word (env.store area offset n a x j)) = if x = area ∧ offset ≤ j ∧ j < offset + n.words then
      ((n.wordsOf a).map Val.word).reverse[j - offset]? else some (.word (env x j)) := by
  cases n with
  | one =>
    change Word at a
    show some (Val.word (if x = area ∧ j = offset then a else env x j)) =
      if x = area ∧ offset ≤ j ∧ j < offset + 1 then [Val.word a][j - offset]? else _
    by_cases here : x = area ∧ j = offset
    · obtain ⟨rfl, rfl⟩ := here
      rw [if_pos ⟨rfl, rfl⟩, if_pos ⟨rfl, by omega, by omega⟩, Nat.sub_self]
      rfl
    · rw [if_neg here, if_neg (fun is => here ⟨is.1, by omega⟩)]
  | two =>
    show some (Val.word (if x = area ∧ j = offset + 1 then high a else if x = area ∧ j = offset then low a else env x j)) =
      if x = area ∧ offset ≤ j ∧ j < offset + 2 then [Val.word (low a), Val.word (high a)][j - offset]? else _
    by_cases top : x = area ∧ j = offset + 1
    · obtain ⟨rfl, rfl⟩ := top
      rw [if_pos ⟨rfl, rfl⟩, if_pos ⟨rfl, by omega, by omega⟩, Nat.add_sub_cancel_left]
      rfl
    · rw [if_neg top]
      by_cases here : x = area ∧ j = offset
      · obtain ⟨rfl, rfl⟩ := here
        rw [if_pos ⟨rfl, rfl⟩, if_pos ⟨rfl, by omega, by omega⟩, Nat.sub_self]
        rfl
      · rw [if_neg here, if_neg fun is => ?_]
        have : j ≠ offset := fun same => here ⟨is.1, same⟩
        have : j ≠ offset + 1 := fun same => top ⟨is.1, same⟩
        omega

/-- **An assignment changes the words of its variable alone.** -/
theorem Framed.store (framed : A.Framed below env ws) {area : Area} {offset : Nat} {n : Size} (a : BitVec n.bits)
    (low : offset + n.words ≤ A.count area) :
    A.Framed below (env.store area offset n a) (n.put (A.base area + offset) ws a) := by
  have positive : 0 < n.words := by cases n <;> decide
  have inside : A.base area + offset + n.words ≤ ws.length := by
    have last := framed.inside (show offset + n.words - 1 < A.count area by omega)
    omega
  refine ⟨(Size.put_length _ _ n a).trans framed.length, fun x j small => ?_,
    (Size.put_length _ _ n a).symm ▸ framed.args, fun k none => ?_⟩
  · rw [Size.reverse_put a inside, store_word]
    by_cases here : A.base area + offset ≤ A.base x + j ∧ A.base x + j < A.base area + offset + n.words
    · obtain ⟨k, is⟩ := Nat.exists_eq_add_of_le here.1
      have both : x = area ∧ j = offset + k := disjoint small (by omega) (by omega)
      obtain ⟨rfl, rfl⟩ := both
      rw [if_pos here, if_pos ⟨rfl, by omega, by omega⟩]
      congr 1
      omega
    · rw [if_neg here, framed.vars x j small, if_neg]
      rintro ⟨rfl, within⟩
      exact here (by omega)
  · rw [Size.reverse_put a inside, framed.other k none, if_neg]
    intro within
    exact none (.inl ⟨area, k - A.base area, by omega, by omega⟩)

/-- **The words of the arguments may become any others.** -/
theorem Framed.argument (framed : A.Framed below env ws) {ws' : List Val} (length : ws'.length = ws.length)
    (same : ∀ k, ¬ (A.frame ≤ k ∧ k < A.frame + A.nArgs) → ws'.reverse[k]? = ws.reverse[k]?) : A.Framed below env ws' := by
  refine ⟨length.trans framed.length, fun area j small => ?_, length ▸ framed.args, fun k none => ?_⟩
  · rw [same _ (not_argument small)]
    exact framed.vars area j small
  · rw [same k fun within => none (.inr within)]
    exact framed.other k none

end Areas

/-! ### What the code of trees does -/

variable {ι : Type} {D : Devices ι} {p : MathPlace} {addr : Text → Word} {size : Nat} {ap bp : Val} {ws : List Val}

theorem Mach.save_of_lt {i : Nat} {v : Val} (inside : i < ws.length) :
    Mach.save ⟨ap, bp, ws⟩ i v = some ⟨ap, bp, ws.set (ws.length - 1 - i) v⟩ := if_pos inside

/-- `ASGN` -/
theorem Takes.store {n : Size} {i : Nat} (a : BitVec n.bits) (inside : i + n.words ≤ ws.length) :
    Takes D p.image addr size (sizedEntry .store n.words).toList ⟨ap, bp, n.stack a (.addr i :: ws)⟩
      ⟨ap, bp, n.put i ws a⟩ := by
  cases n with
  | one => exact .plain .store rfl (Mach.save_of_lt inside)
  | two =>
    have inside' : i + 2 ≤ ws.length := inside
    refine .plain .store2 rfl ?_
    show (Mach.save ⟨ap, bp, ws⟩ i (.word (low a))).bind _ = _
    rw [Mach.save_of_lt (by omega), Option.bind_some,
      Mach.save_of_lt (show i + 1 < (ws.set _ _).length by rw [List.length_set]; omega), List.length_set]
    rfl

section Values

variable {A : Areas} {below : List Val} {env : Env} {n : Size}

/-- An expression, on the stack of a procedure with a few words above it. -/
theorem Expr.takes_framed (names : NamesRoutines addr p.image) (e : Expr n) (fits : e.Fits A.count)
    (framed : A.Framed below env ws) (top : List Val) (room : (top ++ ws).length + e.height + mathDepth ≤ size) :
    Takes D p.image addr size (e.code A.nArgs) ⟨.addr A.args, .addr A.frame, top ++ ws⟩
      ⟨.addr A.args, .addr A.frame, n.stack (e.eval .target env) (top ++ ws)⟩ := by
  refine e.takes names room fun x mem => ?_
  have found := framed.vars x.1 x.2 (fits x mem)
  show Mach.load _ (A.base x.1 + x.2) = _
  rw [Mach.load_eq, List.reverse_append, List.getElem?_append_left (List.getElem?_eq_some_iff.mp found).1]
  exact found

/-- **The code of an assignment.** -/
theorem Tree.takes_assign (names : NamesRoutines addr p.image) {area : Area} {offset : Nat} (e : Expr n)
    (fits : e.Fits A.count) (low : offset + n.words ≤ A.count area)
    (framed : A.Framed below env ws) (room : ws.length + 1 + e.height + mathDepth ≤ size) :
    Takes D p.image addr size (area.entry A.nArgs offset :: e.code A.nArgs ++ (sizedEntry .store n.words).toList)
      ⟨.addr A.args, .addr A.frame, ws⟩
      ⟨.addr A.args, .addr A.frame, n.put (A.base area + offset) ws (e.eval .target env)⟩ := by
  have positive : 0 < n.words := by cases n <;> decide
  have inside := framed.inside (show offset + n.words - 1 < A.count area by omega)
  have address : Takes D p.image addr size [area.entry A.nArgs offset] ⟨.addr A.args, .addr A.frame, ws⟩ _ :=
    .address A.nArgs area offset (by omega)
  have value : Takes D p.image addr size (e.code A.nArgs)
      ⟨.addr A.args, .addr A.frame, [.addr (A.base area + offset)] ++ ws⟩ _ := e.takes_framed names fits framed _ room
  have enough : A.base area + offset + n.words ≤ ws.length := by omega
  exact (address.append value).append (.store _ enough)

/-- `ARG` -/
theorem Takes.argument {frame cArg : Nat} (v : BitVec n.bits) (inside : frame + cArg + n.words ≤ ws.length)
    (room : ws.length + n.words < size) : Takes D p.image addr size ((argEntries cArg n.words).getD [])
      ⟨ap, .addr frame, n.stack v ws⟩ ⟨ap, .addr frame, n.put (frame + cArg) ws v⟩ := by
  have address : Takes D p.image addr size [addrlEntry 0 (natText cArg)] ⟨ap, .addr frame, n.stack v ws⟩ _ :=
    .addrl 0 cArg (by rw [Size.stack_length]; exact room)
  rw [addrlEntry_natText, Nat.zero_add] at address
  cases n with
  | one => exact address.append (.plain .rstore rfl (Mach.save_of_lt inside))
  | two =>
    have inside' : frame + cArg + 2 ≤ ws.length := inside
    refine address.append (.plain .rstore2 rfl ?_)
    show (Mach.save ⟨ap, .addr frame, ws⟩ (frame + cArg) (.word (low v))).bind _ = _
    rw [Mach.save_of_lt (by omega), Option.bind_some,
      Mach.save_of_lt (show frame + cArg + 1 < (ws.set _ _).length by rw [List.length_set]; omega), List.length_set]
    rfl

theorem Argument.words_length (M : Meaning) (env : Env) (a : Argument) : (a.words M env).length = a.size.words := by
  obtain ⟨n, t, e⟩ := a
  cases n <;> rfl

theorem argWords_length (M : Meaning) (env : Env) (args : List Argument) : (argWords M env args).length = argCount args := by
  induction args with
  | nil => rfl
  | cons a args ih =>
    show (a.words M env ++ argWords M env args).length = a.size.words + argCount args
    rw [List.length_append, a.words_length, ih]

/-- **The code of arguments** puts them behind those that are there. By induction on them. -/
theorem takes_args (names : NamesRoutines addr p.image) {args : List Argument} {cArg : Nat} {done : List Word}
    (fits : ∀ a ∈ args, a.value.Fits A.count) (few : cArg + argCount args ≤ A.nArgs) (framed : A.Framed below env ws)
    (count : done.length = cArg) (holds : ∀ j w, done[j]? = some w → ws.reverse[A.frame + j]? = some (.word w))
    (room : ∀ a ∈ args, below.length + a.value.height + mathDepth ≤ size) :
    ∃ ws', Takes D p.image addr size (argsCode A.nArgs cArg args) ⟨.addr A.args, .addr A.frame, ws⟩
        ⟨.addr A.args, .addr A.frame, ws'⟩ ∧ A.Framed below env ws' ∧
      ∀ j w, (done ++ argWords .target env args)[j]? = some w → ws'.reverse[A.frame + j]? = some (.word w) := by
  induction args generalizing ws cArg done with
  | nil =>
    refine ⟨ws, .nil _, framed, fun j w found => holds j w ?_⟩
    rw [← found]
    exact congrArg (·[j]?) (List.append_nil done).symm
  | cons a args ih =>
    have here := room a List.mem_cons_self
    have words : cArg + (a.size.words + argCount args) ≤ A.nArgs := few
    have two : a.size.words ≤ 2 := by cases a.size <;> decide
    have sixtyFour : mathDepth = 64 := rfl
    have length := framed.length
    have bound := framed.args
    have inside : A.frame + cArg + a.size.words ≤ ws.length := by omega
    let v := a.value.eval .target env
    have value : Takes D p.image addr size (a.value.code A.nArgs) ⟨.addr A.args, .addr A.frame, ws⟩
        ⟨.addr A.args, .addr A.frame, a.size.stack v ws⟩ :=
      a.value.takes_framed names (fits a List.mem_cons_self) framed [] (by rw [List.nil_append]; omega)
    have put : Takes D p.image addr size ((argEntries cArg a.size.words).getD [])
        ⟨.addr A.args, .addr A.frame, a.size.stack v ws⟩ _ := .argument v inside (by omega)
    have framed' : A.Framed below env (a.size.put (A.frame + cArg) ws v) :=
      framed.argument (Size.put_length _ _ _ _) fun k outside => by
        rw [Size.reverse_put v inside, if_neg fun within => outside (by omega)]
    have count' : (done ++ a.words .target env).length = cArg + a.size.words := by
      rw [List.length_append, a.words_length, count]
    have holds' : ∀ j w, (done ++ a.words .target env)[j]? = some w →
        (a.size.put (A.frame + cArg) ws v).reverse[A.frame + j]? = some (.word w) := fun j w found => by
      rw [Size.reverse_put v inside]
      by_cases old : j < cArg
      · rw [List.getElem?_append_left (count ▸ old)] at found
        rw [if_neg (by omega)]
        exact holds j w found
      · have new : j < cArg + a.size.words := count' ▸ (List.getElem?_eq_some_iff.mp found).1
        rw [List.getElem?_append_right (by omega), count] at found
        rw [if_pos (by omega), ← List.map_reverse, List.getElem?_map, show A.frame + j - (A.frame + cArg) = j - cArg by omega]
        exact congrArg (Option.map Val.word) found
    obtain ⟨ws', rest, last, all⟩ := ih (fun b mem => fits b (List.mem_cons_of_mem _ mem)) (by omega) framed' count' holds'
      fun b mem => room b (List.mem_cons_of_mem _ mem)
    refine ⟨ws', (value.append put).append rest, last, fun j w found => all j w ?_⟩
    rw [List.append_assoc]
    exact found

end Values

/-! ### Branches -/

/-- The routine of a comparison. -/
def Cmp.label (t : Ty) : Cmp → MathLabel
  | .eq => match t with | .signed => .cmpEQI2 | .unsigned => .cmpEQU2
  | .ne => match t with | .signed => .cmpNEI2 | .unsigned => .cmpNEU2
  | .order c => match t with | .signed => c.signed | .unsigned => c.unsigned

/-- The name of the routine, with the rest of the line. -/
def Cmp.text (c : Cmp) (t : Ty) (target : Nat) : Text := "__builtin_cmp_".toList ++ c.line t .two target

/-- The branch of a comparison. -/
def Cmp.op (t : Ty) : Cmp → Op
  | .eq => .eqW
  | .ne => .neW
  | .order .ge => match t with | .signed => .geW | .unsigned => .ugeW
  | .order .gt => match t with | .signed => .gtW | .unsigned => .ugtW
  | .order .le => match t with | .signed => .leW | .unsigned => .uleW
  | .order .lt => match t with | .signed => .ltW | .unsigned => .ultW

/-- The comparisons are where the linker has put them; the assembler takes the first word of the text. -/
def NamesCmps (addr : Text → Word) (P : Image MathLabel) : Prop :=
  ∀ (c : Cmp) t target, addr (c.text t target) = P.addr (c.label t)

section Branches

variable {n : Size}

/-- The routines of the comparisons. -/
theorem cmp_serves (c : Cmp) (t : Ty) (a b : BitVec 32) : ∃ x y z, Serves D p.image 12 (c.label t) (double b ++ double a)
    [x, y, z, flag (c.holds .target t .two a b)] := by
  cases c with
  | eq => cases t with
    | signed => exact ⟨_, _, _, (eq_serves a b).alias rfl⟩
    | unsigned => exact ⟨_, _, _, eq_serves a b⟩
  | ne => cases t with
    | signed => exact ⟨_, _, _, (ne_serves a b).alias rfl⟩
    | unsigned => exact ⟨_, _, _, ne_serves a b⟩
  | order c => cases t with
    | signed => exact ⟨_, _, _, signed_serves c a b⟩
    | unsigned => exact ⟨_, _, _, unsigned_serves c a b⟩

/-- The comparison of a branch. -/
theorem Cmp.op_compare (c : Cmp) (t : Ty) :
    ∃ compare, (c.op t).compare = some compare ∧ ∀ a b, compare a b = c.holds .target t .one a b := by
  rcases c with _ | _ | c
  · exact ⟨_, rfl, fun a b => decide_eq_decide.mpr BitVec.toInt_inj⟩
  · exact ⟨_, rfl, fun a b => decide_eq_decide.mpr BitVec.toInt_inj.not⟩
  · cases c <;> cases t <;> refine ⟨_, rfl, fun a b => ?_⟩
    all_goals first
      | rfl
      | exact decide_eq_decide.mpr Int.ofNat_le.symm

/-- The code of a branch for words, with its label. -/
theorem Cmp.linked_branch {c : Cmp} {t : Ty} {target : Nat} {code : List Word}
    (is : linked addr [rcEntry (c.rc t) (labelText target) .word .link] = some code) :
    code = [(c.op t).word, addr (labelText target)] := by
  obtain ⟨here, assembled, rfl⟩ := linked_single is
  have words : (rcEntry (c.rc t) (labelText target) .word .link).assemble =
      some [.num (c.op t).word, .label (labelText target)] := by
    rcases c with _ | _ | c
    · rfl
    · rfl
    · cases c <;> cases t <;> rfl
  obtain rfl := Option.some.inj (words.symm.trans assembled)
  rfl

/-- **The code of a branch**: it goes to the label if the comparison holds, and else on. -/
theorem Cmp.branches (cmps : NamesCmps addr p.image) (c : Cmp) (t : Ty) (a b : BitVec n.bits) (target : Nat)
    {g : Window ι} (fits : size ≤ g.size) (loaded : p.image.Loaded g) (room : ws.length + mathDepth ≤ size)
    {code : List Word} (is : linked addr (c.entries t n target) = some code) {pc : Nat} (low : pc + code.length < 0x80000)
    (at' : CodeAt g p.image.inside pc code) {k : Cpu (Demux ι)} (here : At g pc ⟨ap, bp, n.stack b (n.stack a ws)⟩ k) :
    ∃ u, ReflTransGen (StepIn D p.image.inside) k u ∧
      At g (if c.holds .target t n a b then (addr (labelText target)).toNat * 8 else pc + code.length) ⟨ap, bp, ws⟩ u := by
  have room' : ws.length + 64 ≤ size := room
  cases n with
  | one =>
    obtain rfl := Cmp.linked_branch is
    obtain ⟨compare, decides, holds⟩ := c.op_compare t
    obtain ⟨u, step, there⟩ := here.branch (D := D) at' decides rfl
    refine ⟨u, .single step, ?_⟩
    rw [← holds a b]
    exact there
  | two =>
    obtain ⟨x, y, z, serves⟩ := cmp_serves (D := D) (p := p) c t a b
    have call : Takes D p.image addr size [rcEntry .call0 (c.text t target) .word .link]
        ⟨ap, bp, (double b ++ double a).map .word ++ ws⟩ _ :=
      .call serves (cmps c t target) rfl (by omega)
    have drop : Takes D p.image addr size [rcEntry .discard ['3'] .word .char]
        ⟨ap, bp, [x, y, z].map .word ++ (.word (flag (c.holds .target t .two a b)) :: ws)⟩ _ :=
      .dropped (show natText 3 = ['3'] from Nat.toDigits_of_lt_base (by decide)) (show 3 < 127 by decide)
    have zero : Takes D p.image addr size [rcEntry .cnst ['0'] .word .char]
        ⟨ap, bp, .word (flag (c.holds .target t .two a b)) :: ws⟩ _ :=
      .literal rfl (show _ = some 0 from rfl) (.inl ⟨rfl, by decide⟩) (show ws.length + 1 < size by omega)
    have before := (call.append drop).append zero
    obtain ⟨vs, us, first, second, rfl⟩ := linked_append (show linked addr
      (([rcEntry .call0 (c.text t target) .word .link] ++ [rcEntry .discard ['3'] .word .char] ++
        [rcEntry .cnst ['0'] .word .char]) ++ [rcEntry (Cmp.ne.rc t) (labelText target) .word .link]) = some code from is)
    obtain rfl := Cmp.linked_branch second
    rw [List.length_append] at low ⊢
    obtain ⟨u, steps, there⟩ := before g fits loaded vs first pc (by omega) at'.left k here
    obtain ⟨v, step, last⟩ := there.branch (D := D) at'.right (show Op.neW.compare = some _ from rfl) rfl
    refine ⟨v, steps.tail step, ?_⟩
    have decides : decide ((flag (c.holds .target t .two a b)).toInt ≠ (BitVec.ofInt 16 0).toInt) =
        c.holds .target t .two a b := by
      cases c.holds .target t .two a b <;> decide
    rw [← Nat.add_assoc]
    simp only [decides] at last
    exact last

/-- The words in front of a label do nothing. -/
theorem At.nops {g : Window ι} {inside : Nat → Prop} {m : Mach} (n : Nat) {pc : Nat} {t : Cpu (Demux ι)}
    (here : At g pc m t) (code : CodeAt g inside pc (List.replicate n Op.nop.word)) :
    ∃ u, ReflTransGen (StepIn D inside) t u ∧ At g (pc + n) m u := by
  induction n generalizing pc t with
  | zero => exact ⟨t, .refl, here⟩
  | succ n ih =>
    obtain ⟨u, step, there⟩ := here.stepVal (D := D) (L := MathLabel) (fun _ => 0) (.plain .nop) (le_refl g.size) code rfl
    obtain ⟨v, steps, last⟩ := ih there code.tail
    refine ⟨v, .head step steps, ?_⟩
    rw [Nat.add_comm n 1, ← Nat.add_assoc]
    exact last

/-- The code of a jump. -/
theorem At.jumps {g : Window ι} {inside : Nat → Prop} {target : Nat} (fits : size ≤ g.size) (room : ws.length < size)
    {code : List Word} (is : linked addr [addrgEntry (labelText target), rcEntry .jump [] .word .none] = some code)
    {pc : Nat} (at' : CodeAt g inside pc code) {k : Cpu (Demux ι)} (here : At g pc ⟨ap, bp, ws⟩ k) :
    ∃ u, ReflTransGen (StepIn D inside) k u ∧ At g ((addr (labelText target)).toNat * 8) ⟨ap, bp, ws⟩ u := by
  obtain rfl : [Op.cnstW.word, addr (labelText target), Op.jump.word] = code := Option.some.inj is
  obtain ⟨u, step, there⟩ := here.step (D := D) at' (Op.decode_word _)
    ((here.fetched _).pushRegW fits at'.tail (Mach.push_of_lt room))
  have jump : Does g (instruction (demuxOps D) .jump) (u.fetched Op.jump.word)
      ((addr (labelText target)).toNat * 8) ⟨ap, bp, ws⟩ := by
    refine ((there.fetched _).pop rfl).bind fun x v isX here _ => ?_
    obtain rfl := isX
    have moved : At g _ ⟨ap, bp, ws⟩ (v.jump (addr (labelText target))) :=
      here.keep ⟨rfl, rfl, rfl, rfl, rfl, rfl, rfl, rfl, rfl, rfl, rfl⟩ rfl (Cpu.jump_pc v _) rfl rfl rfl
    exact At.modify (f := fun k => k.jump (addr (labelText target))) moved rfl
  obtain ⟨v, last, jumped⟩ := there.step (D := D) at'.tail.tail (Op.decode_word _) jump
  exact ⟨v, .tail (.single step) last, jumped⟩

end Branches

end RlCpu.Binutils
