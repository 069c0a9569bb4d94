/-
**Shifts by a constant (`parseOp` of `trans2.cpp`).**

For the shift of a word by a constant `parseOp` takes the constant back and puts out so many shifts by one; for
another shift it calls a routine of `math.s`. A constant is put out as the value of its low word, so its text has no
sign, and the shifts are as many as the routine would count.

* `parseShift_cnst`: what `parseOp` puts out for a constant.
* `Shifted.steps`: what the shifts by one do.
* `helpers_right`: the multiplications, the shifts and the unsigned comparisons of `math.s`, and these.
-/

import RlCpu.Binutils.MulShift
import RlCpu.Binutils.Translator

namespace RlCpu.Binutils

open RlCpu.Kernel RlCpu.Lib RlCpu.Sim Relation

/-! ### What is put out -/

/-- `CNST`: the entry of the word `i` of a constant. -/
def cnstEntry (val : BitVec 64) (i : Nat) : RcEntry :=
  let cval := (cnstWord val i).toNat
  rcEntry .cnst (natText cval) .word (if cval ≤ 127 then .char else .word)

/-- `genBuiltin`, for an operand of one word on top. -/
def genBuiltin (line : Text) : List RcEntry :=
  [rcEntry .call0 ("__builtin_".toList ++ line) .word .link, rcEntry .discard ['1'] .word .char]

/-- `LSH` and `RSH`: `name` is the shift by one. -/
def parseShift (name : Rc) (line : Text) (opSize : Nat) (output : List RcEntry) : List RcEntry :=
  match output.getLast? with
  | some back =>
      if opSize = 1 ∧ back.name = .cnst then
        output.dropLast ++ List.replicate (atoi back.arg).toNat (rcEntry name [] .word .none)
      else output ++ genBuiltin line
  | none => output ++ genBuiltin line

/-- The text of a number is read back. -/
theorem atoi_natText (n : Nat) : atoi (natText n) = n := by
  obtain ⟨c, rest, text, digit⟩ := (natText_isNumber n).cons
  have whole := (takeWhile_number (natText_isNumber n).2 (show EndsNumber [] from fun _ mem => nomatch mem)).1
  have value := decimal_natText n
  rw [List.append_nil] at whole
  rw [text] at whole value ⊢
  unfold atoi
  split
  case h_1 is =>
    rw [(List.cons.inj is).1] at digit
    exact absurd digit (by decide)
  case h_2 is =>
    rw [(List.cons.inj is).1] at digit
    exact absurd digit (by decide)
  case h_3 => rw [whole, value]

/-- **A shift by a constant**: as many shifts by one as the low word of the constant says. -/
theorem parseShift_cnst (name : Rc) (line : Text) (val : BitVec 64) (output : List RcEntry) :
    parseShift name line 1 (output ++ [cnstEntry val 0]) =
      output ++ List.replicate (cnstWord val 0).toNat (rcEntry name [] .word .none) := by
  have number : atoi (cnstEntry val 0).arg = (cnstWord val 0).toNat := atoi_natText _
  unfold parseShift
  rw [List.getLast?_concat, List.dropLast_concat]
  have constant : 1 = 1 ∧ (cnstEntry val 0).name = .cnst := ⟨rfl, rfl⟩
  show (if 1 = 1 ∧ (cnstEntry val 0).name = Rc.cnst then _ else _) = _
  rw [if_pos constant, number, Int.toNat_natCast]

/-! ### What the shifts do -/

/-- The words of entries without arguments. -/
def entryWords (entries : List RcEntry) : Option (List Word) := entries.mapM fun entry => entry.op.map Op.word

/-- A processor before the code of entries, with `a` on its stack. -/
structure ShiftSite (ι : Type) (entries : List RcEntry) (a : Word) where
  window : Window ι
  words : List Word
  assembled : entryWords entries = some words
  code : CodeAt window (fun _ => True) window.k.pc words
  stack : At window window.k.pc ⟨.word window.k.ap, .word window.k.bp, [.word a]⟩ window.k

variable {ι : Type} {D : Devices ι} {p : MathPlace}

/-- Shifts by one, as many as stand in the code. By induction on their number. -/
theorem unary_steps {g : Window ι} {inside : Nat → Prop} {op : Op} {f : Word → Word} {ap bp : Val} {ws : List Val}
    (unary : ∀ size m, Mach.stepPlain size m op = Mach.unary size f m) (n : Nat) {pc : Nat} {a : Word} {t : Cpu (Demux ι)}
    (here : At g pc ⟨ap, bp, .word a :: ws⟩ t) (code : CodeAt g inside pc (List.replicate n op.word)) :
    ∃ u, ReflTransGen (StepIn D inside) t u ∧ At g (pc + n) ⟨ap, bp, .word (f^[n] a) :: ws⟩ u := by
  induction n generalizing pc a t with
  | zero => exact ⟨t, .refl, here⟩
  | succ n ih =>
    have low : ws.length < g.size := here.room
    have made : Mach.stepVal (L := MathLabel) g.size ⟨ap, bp, .word a :: ws⟩ (.plain op) =
        some ⟨ap, bp, .word (f a) :: ws⟩ := by
      show Mach.stepPlain g.size _ op = _
      rw [unary]
      exact if_pos low
    obtain ⟨u, step, there⟩ := here.stepVal (D := D) (fun _ => 0) (.plain op) (le_refl _) code made
    obtain ⟨v, steps, last⟩ := ih there code.tail
    refine ⟨v, .head step steps, ?_⟩
    rw [Function.iterate_succ_apply, Nat.add_comm n 1, ← Nat.add_assoc]
    exact last

theorem entryWords_replicate {entry : RcEntry} {op : Op} (is : entry.op = some op) (n : Nat) :
    entryWords (List.replicate n entry) = some (List.replicate n op.word) := by
  induction n with
  | zero => rfl
  | succ n ih =>
    have first : entry.op.map Op.word = some op.word := by rw [is]; rfl
    unfold entryWords at ih ⊢
    rw [List.replicate_succ, List.mapM_cons, first, ih]
    rfl

/-- **What shifts by one leave.** -/
theorem ShiftSite.steps {entry : RcEntry} (op : Op) {f : Word → Word} {n : Nat} {a : Word} (is : entry.op = some op)
    (unary : ∀ size m, Mach.stepPlain size m op = Mach.unary size f m) (site : ShiftSite ι (List.replicate n entry) a) :
    ∃ t, Steps D site.window.k t ∧ At site.window (site.window.k.pc + site.words.length)
      ⟨.word site.window.k.ap, .word site.window.k.bp, [.word (f^[n] a)]⟩ t := by
  have words : site.words = List.replicate n op.word :=
    Option.some.inj (site.assembled.symm.trans (entryWords_replicate is n))
  have code := site.code
  rw [words] at code ⊢
  rw [List.length_replicate]
  obtain ⟨t, steps, there⟩ := unary_steps (D := D) unary n site.stack code
  exact ⟨t, ReflTransGen.mono (r := StepIn D fun _ => True) (fun _ _ step => step.1) _ _ steps, there⟩

/-! ### The routines -/

/-- Every call of the routine at `l` with `args` returns, with `ws` in their place and nothing else changed. -/
def Returns (D : Devices ι) (l : MathLabel) (args : List Word) (ws : List Val) : Prop :=
  ∀ site : CallSite ι l args [], site.Leads D site.next ws

theorem Returns.of_serves {l : MathLabel} {args results : List Word} {ws : List Val} {need : Nat}
    (serves : ∀ p : MathPlace, Serves D p.image need l args results) (depth : need ≤ mathDepth)
    (shows : ∀ base, List.Forall₂ (Val.Is base) ws results) : Returns D l args ws :=
  fun site => (CallSite.leads_iff (serves site.place) depth (shows 0).length_eq).mpr (shows _)

theorem word_shows (base x y : Word) : List.Forall₂ (Val.Is base) [.any, .word y] [x, y] :=
  .cons trivial (.cons rfl .nil)

theorem double_shows (base x : Word) (a : BitVec 32) :
    List.Forall₂ (Val.Is base) [.any, .word (high a), .word (low a)] (x :: double a) :=
  .cons trivial (.cons rfl (.cons rfl .nil))

theorem product_shows (base : Word) (a b : BitVec 32) :
    List.Forall₂ (Val.Is base) [.any, .any, .word (high a), .word (low a)] (double b ++ double a) :=
  .cons trivial (.cons trivial (.cons rfl (.cons rfl .nil)))

theorem flag_shows (base x y z w : Word) : List.Forall₂ (Val.Is base) [.any, .any, .any, .word w] [x, y, z, w] :=
  .cons trivial (.cons trivial (.cons trivial (.cons rfl .nil)))

/-- **The multiplications, the shifts and the unsigned comparisons are right**: every call returns with the result in
its slot, and nothing else changed; and a shift by a constant leaves what the routine leaves for it. -/
theorem helpers_right (D : Devices ι) :
    (∀ a b, Returns D .MULU1 [b, a] [.any, .word (a * b)] ∧ Returns D .MULI1 [b, a] [.any, .word (a * b)]) ∧
    (∀ a b, Returns D .MULU2 (double b ++ double a) [.any, .any, .word (high (a * b)), .word (low (a * b))] ∧
      Returns D .MULI2 (double b ++ double a) [.any, .any, .word (high (a * b)), .word (low (a * b))]) ∧
    (∀ n a, Returns D .LSHU1 [n, a] [.any, .word (a <<< n.toNat)] ∧
      Returns D .RSHU1 [n, a] [.any, .word (a >>> n.toNat)]) ∧
    (∀ n a, Returns D .LSHU2 (n :: double a) [.any, .word (high (a <<< n.toNat)), .word (low (a <<< n.toNat))] ∧
      Returns D .RSHU2 (n :: double a) [.any, .word (high (a >>> n.toNat)), .word (low (a >>> n.toNat))]) ∧
    (∀ a b, Returns D .cmpEQU2 (double b ++ double a) [.any, .any, .any, .word (flag (a = b))] ∧
      Returns D .cmpNEU2 (double b ++ double a) [.any, .any, .any, .word (flag (a ≠ b))]) ∧
    (∀ (c : Order) (a b), Returns D c.unsigned (double b ++ double a)
      [.any, .any, .any, .word (flag (c.holds a.toNat b.toNat))]) ∧
    ∀ (left : Bool) (line : Text) (val : BitVec 64) (output : List RcEntry), ∃ entries,
      parseShift (if left then .lsh else .rsh) line 1 (output ++ [cnstEntry val 0]) = output ++ entries ∧
      ∀ a, ∀ site : ShiftSite ι entries a, ∃ t, Steps D site.window.k t ∧
        At site.window (site.window.k.pc + site.words.length) ⟨.word site.window.k.ap, .word site.window.k.bp,
          [.word (if left then a <<< (cnstWord val 0).toNat else a >>> (cnstWord val 0).toNat)]⟩ t := by
  refine ⟨fun a b => ?_, fun a b => ?_, fun n a => ⟨?_, ?_⟩, fun n a => ⟨?_, ?_⟩, fun a b => ⟨?_, ?_⟩, fun c a b => ?_,
    fun left line val output => ?_⟩
  · have serves := fun p : MathPlace => mulu1_serves (D := D) (p := p) b a
    rw [mul_comm a b]
    exact ⟨.of_serves serves (by decide) fun base => word_shows base _ _,
      .of_serves (fun p => (serves p).alias rfl) (by decide) fun base => word_shows base _ _⟩
  · have serves := fun p : MathPlace => mulu2_serves (D := D) (p := p) a b
    exact ⟨.of_serves serves (by decide) fun base => product_shows base _ _,
      .of_serves (fun p => (serves p).alias rfl) (by decide) fun base => product_shows base _ _⟩
  · exact .of_serves (fun p => lshu1_serves n a) (by decide) fun base => word_shows base _ _
  · exact .of_serves (fun p => rshu1_serves n a) (by decide) fun base => word_shows base _ _
  · exact .of_serves (fun p => lshu2_serves n a) (by decide) fun base => double_shows base _ _
  · exact .of_serves (fun p => rshu2_serves n a) (by decide) fun base => double_shows base _ _
  · exact .of_serves (fun p => eq_serves a b) (by decide) fun base => flag_shows base _ _ _ _
  · exact .of_serves (fun p => ne_serves a b) (by decide) fun base => flag_shows base _ _ _ _
  · exact .of_serves (fun p => unsigned_serves c a b) (by decide) fun base => flag_shows base _ _ _ _
  · refine ⟨_, parseShift_cnst _ line val output, fun a site => ?_⟩
    cases left with
    | true =>
      have steps := site.steps (D := D) .lsh (f := fun a => a <<< 1) rfl fun _ _ => rfl
      rw [iterate_shiftLeft] at steps
      exact steps
    | false =>
      have steps := site.steps (D := D) .rsh (f := fun a => a >>> 1) rfl fun _ _ => rfl
      rw [iterate_ushiftRight] at steps
      exact steps

/-! ### A machine with a shift

The code is at 256 and the stack at 16384, with the MMU off and no devices. -/

section Machine

variable (words : List Word) (a : Word)

def shiftMachine : Cpu (Demux Unit) :=
  { ra := 0, rb := 0, ap := 0x10, bp := 0x20, sp := 0x4001, pc := 0x100, ir := 0, s := 0, d := 0,
    commitEnabled := true, intEnabled := false, userMode := false, mmuEnabled := false, mmuEntrySelector := 0,
    shadow := ⟨0, 0, 0, 0, 0, 0⟩,
    demux :=
      { ram := fun p => if p < 0x4000 then words.getD (p - 0x100) 0 else a
        table := fun _ => 0
        intCtl := ⟨0, 0, fun _ => 0⟩
        mmuLastFailPage := 0
        devs := () } }

/-- The one word of its stack. -/
def shiftWindow : Window Unit where
  k := shiftMachine words a
  base := 0x4000
  size := 1
  data i := 0x4000 + i
  mapped i inside := by
    have low : i < 1 := inside
    exact .of_off_add rfl (show 0x4000 + i < 2 ^ 16 by omega)
  apart i _ j _ same := Nat.add_left_cancel same
  quiet := .inl rfl

variable {words a}

theorem shiftMachine_reads {p : Nat} (low : p < 0x4000) : (shiftMachine words a).Reads .code p p :=
  .of_off rfl (by decide) (by omega)

/-- The entries of the shift on that machine. -/
def shiftSite {entries : List RcEntry} (assembled : entryWords entries = some words) (short : words.length ≤ 0x1000) :
    ShiftSite Unit entries a where
  window := shiftWindow words a
  words := words
  assembled := assembled
  code := by
    intro j w is
    have low : j < words.length := (List.getElem?_eq_some_iff.mp is).1
    refine ⟨trivial, 0x100 + j, shiftMachine_reads (show 0x100 + j < 0x4000 by omega), ?_, fun i _ same => ?_⟩
    · show (if 0x100 + j < 0x4000 then words.getD (0x100 + j - 0x100) 0 else a) = w
      rw [if_pos (by omega), Nat.add_sub_cancel_left, List.getD_eq_getElem?_getD, is, Option.getD_some]
    · have same' : 0x100 + j = 0x4000 + i := same
      omega
  stack := by
    refine ⟨rfl, rfl, rfl, rfl, le_rfl, fun i v found => ?_, fun a away => rfl, .refl _⟩
    cases i with
    | zero => exact Option.some.inj found ▸ rfl
    | succ i => cases found

end Machine

/-- `x << 4` of `0x1234` is four shifts by one; `0x1234 * 3` is a call of the routine. -/
theorem helpers_right_shift :
    (∃ entries, parseShift .lsh "lshu1".toList 1 [cnstEntry 0 1, cnstEntry 4 0] = [cnstEntry 0 1] ++ entries ∧
      entryWords entries = some (List.replicate 4 Op.lsh.word)) ∧
    (∃ t, Steps noDevice (shiftMachine (List.replicate 4 Op.lsh.word) 0x1234) t ∧ t.pc = 0x104 ∧
      t.demux.ram 0x4000 = 0x2340) ∧
    (callSite .MULU1 [3, 0x1234] [] (by decide) (by decide)).Leads noDevice 0x102 [.any, .word 0x369c] := by
  obtain ⟨products, -, -, -, -, -, shifts⟩ := helpers_right noDevice
  obtain ⟨entries, parsed, runs⟩ := shifts true "lshu1".toList 4 [cnstEntry 0 1]
  have four : parseShift .lsh "lshu1".toList 1 ([cnstEntry 0 1] ++ [cnstEntry 4 0]) =
      [cnstEntry 0 1] ++ List.replicate 4 (rcEntry .lsh [] .word .none) := parseShift_cnst .lsh _ 4 _
  obtain rfl : entries = List.replicate 4 (rcEntry .lsh [] .word .none) :=
    List.append_cancel_left (parsed.symm.trans four)
  have is : (rcEntry .lsh [] .word .none).op = some .lsh := rfl
  have assembled := entryWords_replicate is 4
  obtain ⟨t, steps, there⟩ := runs 0x1234 (shiftSite assembled (by decide))
  refine ⟨⟨_, parsed, assembled⟩, ⟨t, steps, there.pc, there.words 0 _ rfl⟩, ?_⟩
  exact (products 0x1234 3).1 (callSite _ _ _ _ _)

end RlCpu.Binutils
