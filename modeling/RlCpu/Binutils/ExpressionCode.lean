/-
**The code of integer expressions (`parseOp` of `trans2.cpp`, and `math.s`).**

The code of an expression works on a stack above the variables of its procedure: `BP` is the word `frame` of the window,
with the words for the arguments of calls and the locals above it, and `AP` the word `args`, where the parameters are.

* `Expr.takes`: the code pushes the value, by induction on the expression.
* `expression_compiled`: the translator puts out the code, the processor runs it, with the routines, and the value is the
  one of C where no negative number is widened or shifted to the right.
-/

import RlCpu.Binutils.Expressions

namespace RlCpu.Binutils

open RlCpu.Kernel RlCpu.Lib RlCpu.Sim Relation

/-! ### What the code does -/

/-- The operators that have a routine. -/
inductive Helper
  | mul | lsh | rsh
  deriving DecidableEq, Repr

namespace Helper

def lcc : Helper → LccOp
  | .mul => .mul
  | .lsh => .lsh
  | .rsh => .rsh

/-- The routine of `math.s`. -/
def label : Helper → Ty → Size → MathLabel
  | .mul, .signed, .one => .MULI1
  | .mul, .unsigned, .one => .MULU1
  | .mul, .signed, .two => .MULI2
  | .mul, .unsigned, .two => .MULU2
  | .lsh, .signed, .one => .LSHI1
  | .lsh, .unsigned, .one => .LSHU1
  | .lsh, .signed, .two => .LSHI2
  | .lsh, .unsigned, .two => .LSHU2
  | .rsh, .signed, .one => .RSHI1
  | .rsh, .unsigned, .one => .RSHU1
  | .rsh, .signed, .two => .RSHI2
  | .rsh, .unsigned, .two => .RSHU2

/-- The name of the routine in the output. -/
def text (h : Helper) (t : Ty) (n : Size) : Text := "__builtin_".toList ++ opname h.lcc t n

end Helper

/-- The routines are where the linker has put them. -/
def NamesRoutines (addr : Text → Word) (P : Image MathLabel) : Prop :=
  ∀ (h : Helper) t n, addr (h.text t n) = P.addr (h.label t n)

variable {ι : Type} {D : Devices ι} {p : MathPlace} {addr : Text → Word} {size : Nat} {ap bp : Val} {ws : List Val}

/-- The stack with a value on top. -/
def Size.stack (n : Size) (a : BitVec n.bits) (ws : List Val) : List Val := (n.wordsOf a).map .word ++ ws

theorem double_append (x y : Word) : double (x ++ y) = [x, y] := by
  have value : (x ++ y).toNat = x.toNat * 65536 + y.toNat := by
    rw [BitVec.toNat_append, ← Nat.shiftLeft_add_eq_or_of_lt y.isLt, Nat.shiftLeft_eq]
  have small := y.isLt
  have highs : high (x ++ y) = x := BitVec.eq_of_toNat_eq (by rw [toNat_high, value]; omega)
  have lows : low (x ++ y) = y := BitVec.eq_of_toNat_eq (by rw [toNat_low, value]; omega)
  unfold double
  rw [highs, lows]

section Entries

variable {n : Size}

theorem Takes.constant (t : Ty) (c : BitVec 32) (room : ws.length + 1 < size) :
    Takes D p.image addr size ((List.range n.words).map (cnstEntry (atol (t.text c)))) ⟨ap, bp, ws⟩
      ⟨ap, bp, n.stack (c.setWidth n.bits) ws⟩ := by
  obtain ⟨isLow, isHigh⟩ := cnstWord_text t c
  have first : Takes D p.image addr size [cnstEntry (atol (t.text c)) 0] ⟨ap, bp, ws⟩ _ :=
    .cnst _ (Nat.lt_of_succ_lt room)
  rw [isLow] at first
  cases n with
  | one => exact first
  | two =>
    have second : Takes D p.image addr size [cnstEntry (atol (t.text c)) 1] ⟨ap, bp, .word (low c) :: ws⟩ _ :=
      .cnst _ room
    rw [isHigh] at second
    have value : c.setWidth 32 = c := BitVec.setWidth_eq c
    show Takes D p.image addr size _ _ ⟨ap, bp, Size.two.stack (c.setWidth 32) ws⟩
    rw [value]
    exact first.append second

/-- The first word of an area. -/
def Area.base (nArgs args frame : Nat) : Area → Nat
  | .locals => frame + nArgs
  | .params => args

/-- The address of a variable. -/
theorem Takes.address {args frame : Nat} (nArgs : Nat) (area : Area) (offset : Nat) (room : ws.length < size) :
    Takes D p.image addr size [area.entry nArgs offset] ⟨.addr args, .addr frame, ws⟩
      ⟨.addr args, .addr frame, .addr (area.base nArgs args frame + offset) :: ws⟩ := by
  cases area with
  | locals =>
    have address : Takes D p.image addr size [addrlEntry nArgs (natText offset)] ⟨.addr args, .addr frame, ws⟩ _ :=
      .addrl nArgs offset room
    rw [← Nat.add_assoc] at address
    exact address
  | params => exact .addrf offset room

/-- The value of a variable, whose area starts at the word `i` of the stack. -/
theorem Takes.fetch {entry : RcEntry} {offset i : Nat} {env : Nat → Word} (room : ws.length + 1 < size)
    (address : Takes D p.image addr size [entry] ⟨ap, bp, ws⟩ ⟨ap, bp, .addr (i + offset) :: ws⟩)
    (holds : ∀ j < n.words, Mach.load ⟨ap, bp, ws⟩ (i + (offset + j)) = some (.word (env (offset + j)))) :
    Takes D p.image addr size (entry :: (indirEntry n.words).toList) ⟨ap, bp, ws⟩
      ⟨ap, bp, n.stack (n.fetch env offset) ws⟩ := by
  cases n with
  | one =>
    exact address.append (.indir (Nat.lt_of_succ_lt room) (holds 0 (by decide)))
  | two =>
    have both := address.append (.indir2 room (holds 0 (by decide)) (holds 1 (by decide)))
    have words : Size.two.stack (Size.two.fetch env offset) ws = .word (env (offset + 1)) :: .word (env offset) :: ws :=
      congrArg (fun words : List Word => words.map Val.word ++ ws) (double_append _ _)
    rw [words]
    exact both

/-- An operator of two words. -/
theorem Takes.binary (op : Op) {name : Rc} {f : Word → Word → Word} {a b c : Word}
    (is : (rcEntry name [] .word .none).op = some op) (step : ∀ size m, Mach.stepPlain size m op = Mach.binary size f m)
    (value : f b a = c) (room : ws.length < size) :
    Takes D p.image addr size [rcEntry name [] .word .none] ⟨ap, bp, Size.stack .one b (Size.stack .one a ws)⟩
      ⟨ap, bp, Size.stack .one c ws⟩ :=
  .plain op is ((step _ _).trans (by rw [← value]; exact Mach.push_of_lt room))

/-- An operator of two double words. -/
theorem Takes.binary2 (op : Op) {name : Rc} {f : BitVec 32 → BitVec 32 → BitVec 32} {a b c : BitVec 32}
    (is : (rcEntry name [] .dword .none).op = some op) (step : ∀ size m, Mach.stepPlain size m op = Mach.binary2 size f m)
    (value : f b a = c) (room : ws.length + 1 < size) :
    Takes D p.image addr size [rcEntry name [] .dword .none] ⟨ap, bp, Size.stack .two b (Size.stack .two a ws)⟩
      ⟨ap, bp, Size.stack .two c ws⟩ := by
  refine .plain op is ((step _ _).trans ?_)
  show Mach.push2 size ⟨ap, bp, ws⟩ (f (high b ++ low b) (high a ++ low a)) = _
  rw [high_append_low, high_append_low, value]
  show (Mach.push size ⟨ap, bp, ws⟩ (.word (low c))).bind _ = _
  rw [Mach.push_of_lt (Nat.lt_of_succ_lt room), Option.bind_some]
  exact Mach.push_of_lt room

/-- A constant that is not read from a line. -/
theorem Takes.literal {text : Text} {n : Int} {argType : ArgRc} (numeric : isNumeric text = true)
    (number : evaluateExpr text = some n) (range : argType = .char ∧ -128 ≤ n ∧ n < 128 ∨ argType = .word)
    (room : ws.length < size) : Takes D p.image addr size [rcEntry .cnst text .word argType] ⟨ap, bp, ws⟩
      ⟨ap, bp, .word (BitVec.ofInt 16 n) :: ws⟩ := by
  rcases range with ⟨rfl, range⟩ | rfl
  · exact .byte .cnstB n rfl rfl numeric number range (Mach.push_of_lt room)
  · exact .word .cnstW n rfl rfl numeric number fun g fits pc t here code =>
      here.pushRegW fits code (Mach.push_of_lt room)

theorem allOnes_xor (a : BitVec 32) : BitVec.allOnes 32 ^^^ a = ~~~a := by
  rw [BitVec.xor_comm, BitVec.xor_allOnes]

theorem one_add_not (a : BitVec 32) : 1#32 + ~~~a = -a := by
  rw [BitVec.add_comm, ← BitVec.neg_eq_not_add]

/-- `BCOM` -/
theorem Takes.bcom (a : BitVec n.bits) (room : ws.length + 3 < size) :
    Takes D p.image addr size ((bcomEntries n.words).getD []) ⟨ap, bp, n.stack a ws⟩ ⟨ap, bp, n.stack (~~~a) ws⟩ := by
  cases n with
  | one =>
    change Word at a
    refine .word .bxorW 0xffff rfl rfl rfl (show _ = some 0xffff from rfl) fun g fits pc t here code => ?_
    have made : Mach.unary size (fun x => x ^^^ BitVec.ofInt 16 0xffff) ⟨ap, bp, .word a :: ws⟩ =
        some ⟨ap, bp, .word (~~~a) :: ws⟩ := by
      show Mach.push size ⟨ap, bp, ws⟩ (.word (a ^^^ BitVec.allOnes 16)) = _
      rw [BitVec.xor_allOnes]
      exact Mach.push_of_lt (by omega)
    exact here.binaryW fits code made
  | two =>
    change BitVec 32 at a
    have low : Takes D p.image addr size [rcEntry .cnst "0xffff".toList .word .word] ⟨ap, bp, Size.stack .two a ws⟩ _ :=
      .literal rfl (show _ = some 0xffff from rfl) (.inr rfl) (by show ws.length + 2 < size; omega)
    have high : Takes D p.image addr size [rcEntry .cnst "0xffff".toList .word .word]
        ⟨ap, bp, .word 0xffff :: Size.stack .two a ws⟩ _ :=
      .literal rfl (show _ = some 0xffff from rfl) (.inr rfl) (by show ws.length + 3 < size; omega)
    have xor : Takes D p.image addr size [rcEntry .bxor [] .dword .none]
        ⟨ap, bp, Size.stack .two (BitVec.allOnes 32) (Size.stack .two a ws)⟩ ⟨ap, bp, Size.stack .two (~~~a) ws⟩ :=
      .binary2 .bxor2 rfl (fun _ _ => rfl) (allOnes_xor a) (by omega)
    exact low.append (high.append xor)

/-- `NEG` -/
theorem Takes.neg (a : BitVec n.bits) (room : ws.length + 3 < size) :
    Takes D p.image addr size ((negEntries n.words).getD []) ⟨ap, bp, n.stack a ws⟩ ⟨ap, bp, n.stack (-a) ws⟩ := by
  have other : Takes D p.image addr size _ ⟨ap, bp, n.stack a ws⟩ _ := .bcom a room
  cases n with
  | one =>
    change Word at a
    refine other.append (.byte .addB 1 rfl rfl rfl (show _ = some 1 from rfl) (by decide) ?_)
    show Mach.push size ⟨ap, bp, ws⟩ (.word (~~~a + 1#16)) = _
    rw [← BitVec.neg_eq_not_add]
    exact Mach.push_of_lt (by omega)
  | two =>
    change BitVec 32 at a
    have low : Takes D p.image addr size [rcEntry .cnst "0x01".toList .word .char]
        ⟨ap, bp, Size.stack .two (~~~a) ws⟩ _ :=
      .literal rfl (show _ = some 1 from rfl) (.inl ⟨rfl, by decide⟩) (by show ws.length + 2 < size; omega)
    have high : Takes D p.image addr size [rcEntry .cnst "0x00".toList .word .char]
        ⟨ap, bp, .word 1 :: Size.stack .two (~~~a) ws⟩ _ :=
      .literal rfl (show _ = some 0 from rfl) (.inl ⟨rfl, by decide⟩) (by show ws.length + 3 < size; omega)
    have add : Takes D p.image addr size [rcEntry .add [] .dword .none]
        ⟨ap, bp, Size.stack .two (1#32) (Size.stack .two (~~~a) ws)⟩ ⟨ap, bp, Size.stack .two (-a) ws⟩ :=
      .binary2 .add2 rfl (fun _ _ => rfl) (one_add_not a) (by omega)
    exact other.append (low.append (high.append add))

theorem natText_words (n : Size) : natText n.words = [n.char] := by
  cases n <;> exact Nat.toDigits_of_lt_base (by decide)

/-- Entries that drop words below which the result is. -/
theorem Takes.dropped {top : List Word} {arg : Text} (text : natText top.length = arg) (small : top.length < 127) :
    Takes D p.image addr size [rcEntry .discard arg .word .char] ⟨ap, bp, top.map .word ++ ws⟩ ⟨ap, bp, ws⟩ := by
  have length : (top.map Val.word).length = top.length := List.length_map _
  exact .discard (length ▸ small) (length ▸ text)

/-- `CVI` and its like. -/
theorem Takes.convert {m : Size} (a : BitVec m.bits) (room : ws.length + 1 < size) :
    Takes D p.image addr size (convertEntries m.words n.words) ⟨ap, bp, m.stack a ws⟩
      ⟨ap, bp, n.stack (a.setWidth n.bits) ws⟩ := by
  cases m with
  | one =>
    cases n with
    | one =>
      have same : a.setWidth Size.one.bits = a := BitVec.setWidth_eq a
      rw [same]
      exact .nil _
    | two =>
      change Word at a
      have words : Size.two.stack (a.setWidth 32) ws = .word 0 :: .word a :: ws := by
        have small := a.isLt
        have highs : high (a.setWidth 32) = 0 :=
          BitVec.eq_of_toNat_eq (by rw [toNat_high, BitVec.toNat_setWidth_of_le (by decide)]; exact Nat.div_eq_of_lt small)
        have lows : low (a.setWidth 32) = a :=
          BitVec.eq_of_toNat_eq (by rw [toNat_low, BitVec.toNat_setWidth_of_le (by decide)]; exact Nat.mod_eq_of_lt small)
        show .word (high (a.setWidth 32)) :: .word (low (a.setWidth 32)) :: ws = _
        rw [highs, lows]
      show Takes D p.image addr size _ _ ⟨ap, bp, Size.two.stack (a.setWidth 32) ws⟩
      rw [words]
      exact .literal rfl (show _ = some 0 from rfl) (.inl ⟨rfl, by decide⟩) room
  | two =>
    cases n with
    | one =>
      have drop : Takes D p.image addr size [rcEntry .discard ['1'] .word .char]
          ⟨ap, bp, [high a].map .word ++ Size.one.stack (low a) ws⟩ _ :=
        .dropped (natText_words .one) (show 1 < 127 by decide)
      exact drop
    | two =>
      have same : a.setWidth Size.two.bits = a := BitVec.setWidth_eq a
      rw [same]
      exact .nil _

/-! ### Routines -/

/-- The routines of multiplication. -/
theorem mul_serves (t : Ty) (a b : BitVec n.bits) : ∃ need ≤ mathDepth, ∃ top : List Word, top.length = n.words ∧
    Serves D p.image need (Helper.mul.label t n) (n.wordsOf b ++ n.wordsOf a) (top ++ n.wordsOf (a * b)) := by
  cases n with
  | one =>
    change Word at a b
    have serves := mulu1_serves (D := D) (p := p) b a
    rw [BitVec.mul_comm] at serves
    cases t with
    | signed => exact ⟨10, by decide, [0], rfl, serves.alias rfl⟩
    | unsigned => exact ⟨10, by decide, [0], rfl, serves⟩
  | two =>
    have serves := mulu2_serves (D := D) (p := p) a b
    cases t with
    | signed => exact ⟨40, by decide, double 0, rfl, serves.alias rfl⟩
    | unsigned => exact ⟨40, by decide, double 0, rfl, serves⟩

/-- The routine of a shift. -/
def shiftHelper (left : Bool) : Helper := if left then .lsh else .rsh

/-- The routines of the shifts. -/
theorem shift_serves (left : Bool) (t : Ty) (a : BitVec n.bits) (count : Word) : ∃ need ≤ mathDepth,
    Serves D p.image need ((shiftHelper left).label t n) (count :: n.wordsOf a)
      (0 :: n.wordsOf (if left then a <<< count.toNat else a >>> count.toNat)) := by
  cases n with
  | one =>
    cases left with
    | true => cases t with
      | signed => exact ⟨10, by decide, (lshu1_serves count a).alias rfl⟩
      | unsigned => exact ⟨10, by decide, lshu1_serves count a⟩
    | false => cases t with
      | signed => exact ⟨10, by decide, (rshu1_serves count a).alias rfl⟩
      | unsigned => exact ⟨10, by decide, rshu1_serves count a⟩
  | two =>
    cases left with
    | true => cases t with
      | signed => exact ⟨24, by decide, (lshu2_serves count a).alias rfl⟩
      | unsigned => exact ⟨24, by decide, lshu2_serves count a⟩
    | false => cases t with
      | signed => exact ⟨24, by decide, (rshu2_serves count a).alias rfl⟩
      | unsigned => exact ⟨24, by decide, rshu2_serves count a⟩

/-- `DIV` and its like: a call of a routine whose result is below `top`. -/
theorem Takes.builtin (top : List Word) {need : Nat} {l : MathLabel} {args results : List Word} {text arg : Text}
    (serves : Serves D p.image need l args (top ++ results)) (name : addr text = p.image.addr l)
    (label : isNumeric text = false) (depth : need ≤ mathDepth) (drops : natText top.length = arg)
    (small : top.length < 127) (room : ws.length + mathDepth ≤ size) :
    Takes D p.image addr size [rcEntry .call0 text .word .link, rcEntry .discard arg .word .char]
      ⟨ap, bp, args.map .word ++ ws⟩ ⟨ap, bp, results.map .word ++ ws⟩ := by
  have call : Takes D p.image addr size [rcEntry .call0 text .word .link] ⟨ap, bp, args.map .word ++ ws⟩
      ⟨ap, bp, (top ++ results).map .word ++ ws⟩ := .call serves name label (by omega)
  rw [List.map_append, List.append_assoc] at call
  exact call.append (.dropped drops small)

theorem BinOp.entries_mul (t : Ty) (n : Size) : BinOp.mul.entries t n =
    [rcEntry .call0 (Helper.mul.text t n) .word .link, rcEntry .discard [n.char] .word .char] := by
  cases n <;> rfl

theorem genBuiltin_shift (left : Bool) (t : Ty) (n : Size) : genBuiltin (opname (shiftOp left) t n) =
    [rcEntry .call0 ((shiftHelper left).text t n) .word .link, rcEntry .discard ['1'] .word .char] := by
  cases left <;> rfl

theorem Size.stack_stack (a b : BitVec n.bits) : n.stack b (n.stack a ws) = (n.wordsOf b ++ n.wordsOf a).map .word ++ ws := by
  unfold stack
  rw [List.map_append, List.append_assoc]

/-- An operator of two operands. -/
theorem Takes.bin (names : NamesRoutines addr p.image) (op : BinOp) (t : Ty) (a b : BitVec n.bits)
    (room : ws.length + mathDepth ≤ size) : Takes D p.image addr size (op.entries t n)
      ⟨ap, bp, n.stack b (n.stack a ws)⟩ ⟨ap, bp, n.stack (op.eval a b) ws⟩ := by
  have room' : ws.length + 64 ≤ size := room
  by_cases mul : op = .mul
  · subst mul
    obtain ⟨need, depth, top, length, serves⟩ := mul_serves (D := D) (p := p) t a b
    rw [BinOp.entries_mul, Size.stack_stack]
    exact .builtin top serves (names .mul t n) rfl depth (by rw [length, natText_words])
      (by rw [length]; cases n <;> decide) room
  · cases n with
    | one =>
      change Word at a b
      have small : ws.length < size := by omega
      cases op with
      | add => exact .binary .add rfl (fun _ _ => rfl) (BitVec.add_comm b a) small
      | sub => exact .binary .sub rfl (fun _ _ => rfl) rfl small
      | band => exact .binary .band rfl (fun _ _ => rfl) (BitVec.and_comm b a) small
      | bor => exact .binary .bor rfl (fun _ _ => rfl) (BitVec.or_comm b a) small
      | bxor => exact .binary .bxor rfl (fun _ _ => rfl) (BitVec.xor_comm b a) small
      | mul => exact absurd rfl mul
    | two =>
      change BitVec 32 at a b
      have small : ws.length + 1 < size := by omega
      cases op with
      | add => exact .binary2 .add2 rfl (fun _ _ => rfl) (BitVec.add_comm b a) small
      | sub => exact .binary2 (f := fun a b => b - a) .sub2 rfl (fun _ _ => rfl) rfl small
      | band => exact .binary2 (f := (· &&& ·)) .band2 rfl (fun _ _ => rfl) (BitVec.and_comm b a) small
      | bor => exact .binary2 .bor2 rfl (fun _ _ => rfl) (BitVec.or_comm b a) small
      | bxor => exact .binary2 .bxor2 rfl (fun _ _ => rfl) (BitVec.xor_comm b a) small
      | mul => exact absurd rfl mul

/-- Shifts by one. By induction on their number. -/
theorem Takes.shifts (op : Op) {name : Rc} {f : Word → Word} (is : (rcEntry name [] .word .none).op = some op)
    (unary : ∀ size m, Mach.stepPlain size m op = Mach.unary size f m) (count : Nat) {a : Word} (room : ws.length < size) :
    Takes D p.image addr size (List.replicate count (rcEntry name [] .word .none)) ⟨ap, bp, .word a :: ws⟩
      ⟨ap, bp, .word (f^[count] a) :: ws⟩ := by
  induction count generalizing a with
  | zero => exact .nil _
  | succ count ih =>
    have step : Takes D p.image addr size [rcEntry name [] .word .none] ⟨ap, bp, .word a :: ws⟩
        ⟨ap, bp, .word (f a) :: ws⟩ := .plain op is ((unary _ _).trans (Mach.push_of_lt room))
    exact step.append (ih (a := f a))

/-- An inline shift. -/
theorem Takes.inline (left : Bool) (count : Nat) {a : Word} (room : ws.length < size) :
    Takes D p.image addr size (List.replicate count (rcEntry (shiftRc left) [] .word .none)) ⟨ap, bp, .word a :: ws⟩
      ⟨ap, bp, .word (if left then a <<< count else a >>> count) :: ws⟩ := by
  cases left with
  | true => exact iterate_shiftLeft count a ▸ .shifts .lsh rfl (fun _ _ => rfl) count room
  | false => exact iterate_ushiftRight count a ▸ .shifts .rsh rfl (fun _ _ => rfl) count room

theorem Size.wordsOf_length (a : BitVec n.bits) : (n.wordsOf a).length = n.words := by
  cases n <;> rfl

theorem Size.stack_length (a : BitVec n.bits) (ws : List Val) : (n.stack a ws).length = ws.length + n.words := by
  cases n
  · rfl
  · rfl

/-- A value on top does not move the words below. -/
theorem Size.load_stack {a : BitVec n.bits} {i : Nat} {v : Val} (found : Mach.load ⟨ap, bp, ws⟩ i = some v) :
    Mach.load ⟨ap, bp, n.stack a ws⟩ i = some v := by
  cases n with
  | one => exact Mach.load_cons_of_some found
  | two => exact Mach.load_cons_of_some (Mach.load_cons_of_some found)

end Entries

/-- **The code of an expression pushes its value.** By induction on the expression: the words that wait below an operand
are those of the operands before it, and no operand changes a variable. -/
theorem Expr.takes (names : NamesRoutines addr p.image) {nArgs args frame : Nat} {env : Area → Nat → Word} {n : Size}
    (e : Expr n) (room : ws.length + e.height + mathDepth ≤ size)
    (holds : ∀ x ∈ e.vars, Mach.load ⟨.addr args, .addr frame, ws⟩ (x.1.base nArgs args frame + x.2) =
      some (.word (env x.1 x.2))) :
    Takes D p.image addr size (e.code nArgs) ⟨.addr args, .addr frame, ws⟩
      ⟨.addr args, .addr frame, n.stack (e.eval .target env) ws⟩ := by
  have deep : mathDepth = 64 := rfl
  induction e generalizing ws with
  | cnst n t c => exact .constant t c (by omega)
  | var n t area offset =>
    refine .fetch (by omega) (.address nArgs area offset (by omega)) fun j inside => holds (area, offset + j) ?_
    exact List.mem_map.mpr ⟨j, List.mem_range.mpr inside, rfl⟩
  | neg t a ih => exact (ih room holds).append (.neg _ (by omega))
  | bcom t a ih => exact (ih room holds).append (.bcom _ (by omega))
  | @bin n op t a b iha ihb =>
    have height : (bin op t a b).height = max a.height (n.words + b.height) := rfl
    rw [height] at room
    have first := iha (by omega) fun j mem => holds j (List.mem_append_left _ mem)
    have second : Takes D p.image addr size _ ⟨.addr args, .addr frame, n.stack (a.eval .target env) ws⟩ _ :=
      ihb (by rw [Size.stack_length]; omega) fun j mem => Size.load_stack (holds j (List.mem_append_right _ mem))
    exact (first.append second).append (.bin names op t _ _ (by omega))
  | @shift n left t a count iha ihc =>
    have height : (shift left t a count).height = max a.height (n.words + count.height) := rfl
    rw [height] at room
    have first := iha (by omega) fun j mem => holds j (List.mem_append_left _ mem)
    rcases code_shift left t a (count.code_spec nArgs) with ⟨rfl, w, ⟨-, value⟩, made⟩ | made
    · have is : count.eval .target env = w := (List.cons.inj (value env)).1
      have target : (shift left t a count).eval .target env =
          if left then a.eval .target env <<< w.toNat else a.eval .target env >>> w.toNat := by rw [← is]; rfl
      have small : ws.length < size := by omega
      rw [made, target]
      exact first.append (.inline left w.toNat small)
    · have second : Takes D p.image addr size _ ⟨.addr args, .addr frame, n.stack (a.eval .target env) ws⟩ _ :=
        ihc (by rw [Size.stack_length]; omega) fun j mem => Size.load_stack (holds j (List.mem_append_right _ mem))
      obtain ⟨need, depth, serves⟩ := shift_serves (D := D) (p := p) left t (a.eval .target env) (count.eval .target env)
      rw [made, genBuiltin_shift]
      have call : Takes D p.image addr size
          [rcEntry .call0 ((shiftHelper left).text t n) .word .link, rcEntry .discard ['1'] .word .char]
          ⟨.addr args, .addr frame, (count.eval .target env :: n.wordsOf (a.eval .target env)).map .word ++ ws⟩ _ :=
        .builtin [0] serves (names (shiftHelper left) t n) rfl depth (natText_words .one) (show 1 < 127 by decide) (by omega)
      exact (first.append second).append call
  | convert n source result a ih => exact (ih room holds).append (.convert _ (by omega))

/-! ### Expressions on a machine -/

section Anywhere

/-- The routines, called from everywhere. -/
def MathPlace.anywhere (org : Nat) (fits : org + blocksOf mathS ≤ 0x10000) : MathPlace :=
  ⟨org, fits, (· < 0x80000), fun _ low => low⟩

variable {g : Window ι} {org : Nat} {fits : org + blocksOf mathS ≤ 0x10000}

/-- Code that stands anywhere. -/
theorem code_anywhere {pc : Nat} {ws : List Word} (code : CodeAt g (fun _ => True) pc ws) (low : pc + ws.length ≤ 0x80000) :
    CodeAt g (MathPlace.anywhere org fits).image.inside pc ws :=
  code.within fun j here => Or.inr (show pc + j < 0x80000 by omega)

theorem loaded_anywhere (library : CodeAt g (fun _ => True) (org * 8)
    ((codeFrom mathS).flatMap (Instr.words fun l => BitVec.ofNat 16 (org + offsetOf mathS l)))) :
    (MathPlace.anywhere org fits).image.Loaded g := by
  have length := words_codeFrom_length (fun l => BitVec.ofNat 16 (org + offsetOf mathS l)) mathS
  have code : CodeAt g (MathPlace.anywhere org fits).image.inside _ _ := code_anywhere library (by rw [length]; omega)
  exact placed_loaded offsetOf_lt code

end Anywhere

/-- **The code of an expression on a machine**: the processor is before it, `BP` is the word `frame` of the window and
`AP` the word `args`, the variables are `env`, and the routines are at the block `org`. -/
structure ExprSite (ι : Type) {n : Size} (e : Expr n) (nArgs : Nat) where
  addr : Text → Word
  org : Nat
  fits : org + blocksOf mathS ≤ 0x10000
  window : Window ι
  args : Nat
  frame : Nat
  below : List Val
  env : Area → Nat → Word
  words : List Word
  assembled : linked addr (e.code nArgs) = some words
  code : CodeAt window (fun _ => True) window.k.pc words
  back : window.k.pc + words.length < 0x80000
  library : CodeAt window (fun _ => True) (org * 8)
    ((codeFrom mathS).flatMap (Instr.words fun l => BitVec.ofNat 16 (org + offsetOf mathS l)))
  names : ∀ (h : Helper) t n, addr (h.text t n) = BitVec.ofNat 16 (org + offsetOf mathS (h.label t n))
  stack : At window window.k.pc ⟨.addr args, .addr frame, below⟩ window.k
  holds : ∀ x ∈ e.vars, Mach.load ⟨.addr args, .addr frame, below⟩ (x.1.base nArgs args frame + x.2) =
    some (.word (env x.1 x.2))
  deep : below.length + e.height + mathDepth ≤ window.size

/-- **Integer expressions are compiled right**: the translator puts out the code of the tree, and the processor runs it,
comes behind it and has pushed the value, the low word first; nothing else has changed below it. The value is the one of
C where no negative number is widened or shifted to the right. -/
theorem expression_compiled (D : Devices ι) {n : Size} (e : Expr n) (s : Translator) :
    Translator.parseLines e.lines s = some (s.put (e.code s.nArgs)) ∧
    ∀ site : ExprSite ι e s.nArgs, ∃ t, Steps D site.window.k t ∧
      At site.window (site.window.k.pc + site.words.length)
        ⟨.addr site.args, .addr site.frame, n.stack (e.eval .target site.env) site.below⟩ t ∧
      (e.NonNegative site.env → e.eval .target site.env = e.eval .language site.env) := by
  refine ⟨e.parsed s, fun site => ?_⟩
  let place := MathPlace.anywhere site.org site.fits
  have names : NamesRoutines site.addr place.image := site.names
  have takes : Takes D place.image site.addr site.window.size (e.code s.nArgs)
      ⟨.addr site.args, .addr site.frame, site.below⟩ _ := e.takes names site.deep site.holds
  obtain ⟨t, steps, there⟩ := takes site.window (le_refl _) (loaded_anywhere site.library) site.words site.assembled _
    site.back (code_anywhere site.code (le_of_lt site.back)) site.window.k site.stack
  have walk : Steps D site.window.k t := ReflTransGen.mono (fun _ _ step => step.1) _ _ steps
  exact ⟨t, walk, there, e.eval_language site.env⟩

/-! ### A machine with code

The code is at 256, the routines at block 512 and the stack at 16384, where `BP` points to, with the MMU off and no
devices. -/

section Machine

variable (code stack : List Word)

/-- The machine before the code. -/
def codeMachine : Cpu (Demux Unit) :=
  { ra := 0, rb := 0, ap := 0x4000, bp := 0x4000, sp := 0x4000 + BitVec.ofNat 16 stack.length, pc := 0x100,
    ir := 0, s := 0, d := 0,
    commitEnabled := true, intEnabled := false, userMode := false, mmuEnabled := false, mmuEntrySelector := 0,
    shadow := ⟨0, 0, 0, 0, 0, 0⟩,
    demux :=
      { ram := fun a =>
          if a < 0x1000 then code.getD (a - 0x100) 0
          else if a < 0x4000 then mathWords.getD (a - 0x1000) 0
          else stack.reverse.getD (a - 0x4000) 0
        table := fun _ => 0
        intCtl := ⟨0, 0, fun _ => 0⟩
        mmuLastFailPage := 0
        devs := () } }

/-- The words of its stack. -/
def codeWindow : Window Unit where
  k := codeMachine code stack
  base := 0x4000
  size := 1024
  data i := 0x4000 + i
  mapped i inside := by
    have low : i < 1024 := inside
    exact .of_off_add rfl (show 0x4000 + i < 2 ^ 16 by omega)
  apart i _ j _ same := Nat.add_left_cancel same
  quiet := .inl rfl

variable {code stack}

/-- Words of the code of the machine. -/
theorem codeMachine_at {p : Nat} {ws : List Word} (high : p + ws.length ≤ 0x4000)
    (found : ∀ j w, ws[j]? = some w → (codeMachine code stack).demux.ram (p + j) = w) :
    CodeAt (codeWindow code stack) (fun _ => True) p ws := by
  intro j w is
  have low : j < ws.length := (List.getElem?_eq_some_iff.mp is).1
  have reads : (codeMachine code stack).Reads .code (p + j) (p + j) := .of_off rfl (by decide) (by omega)
  refine ⟨trivial, p + j, reads, found j w is, fun i _ same => ?_⟩
  have same' : p + j = 0x4000 + i := same
  omega

/-- The code. -/
theorem codeMachine_code (short : code.length ≤ 0xf00) : CodeAt (codeWindow code stack) (fun _ => True) 0x100 code := by
  refine codeMachine_at (by omega) fun j w found => ?_
  have low : j < code.length := (List.getElem?_eq_some_iff.mp found).1
  show (if 0x100 + j < 0x1000 then code.getD (0x100 + j - 0x100) 0 else _) = w
  rw [if_pos (by omega), Nat.add_sub_cancel_left, List.getD_eq_getElem?_getD, found, Option.getD_some]

/-- There is room for the routines. -/
theorem library_fits : 512 + blocksOf mathS ≤ 0x10000 := by decide

/-- The routines. -/
theorem codeMachine_library : CodeAt (codeWindow code stack) (fun _ => True) (512 * 8) mathWords := by
  have length : mathWords.length = 8 * blocksOf mathS := words_codeFrom_length _ mathS
  have blocks : blocksOf mathS ≤ 1000 := by decide
  refine codeMachine_at (by omega) fun j w found => ?_
  have low : j < mathWords.length := (List.getElem?_eq_some_iff.mp found).1
  show (if 512 * 8 + j < 0x1000 then _ else if 512 * 8 + j < 0x4000 then mathWords.getD
    (512 * 8 + j - 0x1000) 0 else _) = w
  rw [if_neg (by omega), if_pos (by omega), Nat.add_sub_cancel_left, List.getD_eq_getElem?_getD, found, Option.getD_some]

/-- The stack. -/
theorem codeMachine_stack (few : stack.length ≤ 1024) : At (codeWindow code stack) 0x100
    ⟨.addr 0, .addr 0, stack.map .word⟩ (codeMachine code stack) := by
  refine ⟨rfl, rfl, rfl, ?_, ?_, fun i v found => ?_, fun _ _ => rfl, .refl _⟩
  · rw [List.length_map]
    rfl
  · rw [List.length_map]
    exact few
  · rw [Mach.load_eq, ← List.map_reverse, List.getElem?_map] at found
    obtain ⟨w, is, rfl⟩ := Option.map_eq_some_iff.mp found
    show (if 0x4000 + i < 0x1000 then _ else if 0x4000 + i < 0x4000 then _ else stack.reverse.getD
      (0x4000 + i - 0x4000) 0) = w
    rw [if_neg (by omega), if_neg (by omega), Nat.add_sub_cancel_left, List.getD_eq_getElem?_getD, is, Option.getD_some]

end Machine

/-- The routines by their names in the output, and other names. -/
def symbolsOf (table : List (Text × MathLabel)) (own : Text → Word) (name : Text) : Word :=
  match table.find? fun x => x.1 = name with
  | some x => BitVec.ofNat 16 (512 + offsetOf mathS x.2)
  | none => own name

/-- The names of the routines of operators. -/
def helperNames : List (Text × MathLabel) :=
  [Helper.mul, .lsh, .rsh].flatMap fun h => [Ty.signed, .unsigned].flatMap fun t =>
    [Size.one, .two].map fun n => (h.text t n, h.label t n)

/-- `(x * -3) << 2` -/
def scaled : Expr .one :=
  .shift true .signed (.bin .mul .signed (.var .one .signed .locals 0) (.cnst .one .signed (-3))) (.cnst .one .signed 2)

/-- The code of it, with a routine. -/
def scaledWords : List Word := ((linked (symbolsOf helperNames fun _ => 0) (scaled.code 0)).getD [])

/-- It, with 7 for `x`. -/
def scaledSite : ExprSite Unit scaled 0 where
  addr := symbolsOf helperNames fun _ => 0
  org := 512
  fits := library_fits
  window := codeWindow scaledWords [7]
  args := 0
  frame := 0
  below := [.word 7]
  env _ _ := 7
  words := scaledWords
  assembled := by decide +kernel
  code := codeMachine_code (by decide +kernel)
  back := show 0x100 + scaledWords.length < 0x80000 by decide +kernel
  library := codeMachine_library
  names h t n := by cases h <;> cases t <;> cases n <;> rfl
  stack := codeMachine_stack (show 1 ≤ 1024 by decide)
  holds y mem := by
    obtain rfl : y = (.locals, 0) := List.mem_singleton.mp mem
    rfl
  deep := show 1 + scaled.height + 64 ≤ 1024 by decide

/-- It is -84. -/
theorem expression_compiled_scaled : ∃ t, Steps noDevices scaledSite.window.k t ∧
    At scaledSite.window (0x100 + scaledWords.length) ⟨.addr 0, .addr 0, [.word (-84), .word 7]⟩ t := by
  obtain ⟨t, steps, there, -⟩ := (expression_compiled noDevices scaled ⟨[], 0, 0, 0⟩).2 scaledSite
  exact ⟨t, steps, there⟩

end RlCpu.Binutils
