/-
**Listings of assembly, and what they do to a stack.**

`Instr L` is a line of assembly with labels `L`, and a `Block` is what stands between labels; the assembler fills a
block up with `nop`. `codeFrom` is a listing from a block on.

`Mach` is a stack above a fixed word. A `Val` on it is a number, the address of a word of the stack, or a word that
nobody has written. `stepVal` is an instruction on it, and `exec` runs a listing: it follows branches and jumps, and
stops before a call, at `ret`, before a label of `stop` and when `fuel` instructions are done.
-/

import RlCpu.Sim.Code

namespace RlCpu.Sim

open RlCpu.Kernel

/-! ### Lines and blocks -/

/-- A line of assembly: an operation alone, with a byte, with a word, or with a label. -/
inductive Instr (L : Type)
  | plain (op : Op)
  | byte (op : Op) (arg : Int)
  | wide (op : Op) (arg : Word)
  | link (op : Op) (label : L)

namespace Instr

variable {L : Type}

/-- The words of code of a line, with the labels at `addr`. -/
def words (addr : L → Word) : Instr L → List Word
  | .plain op => [op.word]
  | .byte op arg => [op.wordB (BitVec.ofInt 16 arg)]
  | .wide op arg => [op.word, arg]
  | .link op label => [op.word, addr label]

/-- How many words they are. -/
def size : Instr L → Nat
  | .plain _ => 1
  | .byte _ _ => 1
  | .wide _ _ => 2
  | .link _ _ => 2

theorem length_words (addr : L → Word) (i : Instr L) : (i.words addr).length = i.size := by
  cases i <;> rfl

end Instr

/-- The lines between the labels of a place and the next labels. -/
structure Block (L : Type) where
  labels : List L
  body : List (Instr L)

namespace Block

variable {L : Type}

/-- The words of the lines. -/
def used (b : Block L) : Nat := (b.body.map Instr.size).sum

/-- The lines, and the words that the assembler adds for the next label. -/
def code (b : Block L) : List (Instr L) := b.body ++ List.replicate ((8 - b.used % 8) % 8) (.plain .nop)

/-- The length in blocks of code. -/
def blocks (b : Block L) : Nat := (b.used + 7) / 8

end Block

/-- A listing from its first block on. -/
def codeFrom {L : Type} : List (Block L) → List (Instr L)
  | [] => []
  | b :: bs => b.code ++ codeFrom bs

/-! ### Stacks -/

/-- A word of the stack. -/
inductive Val
  | word (w : Word)
  | addr (i : Nat)
  | any

/-- `w` is the word, for a stack that begins at `base`. -/
def Val.Is (base : Word) : Val → Word → Prop
  | .word x, w => w = x
  | .addr i, w => w = base + BitVec.ofNat 16 i
  | .any, _ => True

/-- An address moved on. -/
def Val.offset : Val → Int → Option Nat
  | .addr i, n => if 0 ≤ (i : Int) + n then some ((i : Int) + n).toNat else none
  | _, _ => none

/-- `AP`, `BP` and the stack, its top first. -/
structure Mach where
  ap : Val
  bp : Val
  ws : List Val

namespace Mach

/-- The word `i` of the stack. -/
def load (m : Mach) (i : Nat) : Option Val := if i < m.ws.length then m.ws[m.ws.length - 1 - i]? else none

/-- The word `i` of the stack is `v`. -/
def save (m : Mach) (i : Nat) (v : Val) : Option Mach :=
  if i < m.ws.length then some { m with ws := m.ws.set (m.ws.length - 1 - i) v } else none

/-- A word pushed, on a stack of `size` words at most. -/
def push (size : Nat) (m : Mach) (v : Val) : Option Mach :=
  if m.ws.length < size then some { m with ws := v :: m.ws } else none

/-- A double word pushed. -/
def push2 (size : Nat) (m : Mach) (w : BitVec 32) : Option Mach :=
  (m.push size (.word (w.setWidth 16))).bind fun m => m.push size (.word ((w >>> 16).setWidth 16))

/-- `lsh` and its like. -/
def unary (size : Nat) (f : Word → Word) (m : Mach) : Option Mach :=
  match m.ws with
  | .word a :: ws => push size { m with ws := ws } (.word (f a))
  | _ => none

/-- `add` and its like. -/
def binary (size : Nat) (f : Word → Word → Word) (m : Mach) : Option Mach :=
  match m.ws with
  | .word a :: .word b :: ws => push size { m with ws := ws } (.word (f a b))
  | _ => none

/-- `add2` and its like. -/
def binary2 (size : Nat) (f : BitVec 32 → BitVec 32 → BitVec 32) (m : Mach) : Option Mach :=
  match m.ws with
  | .word ah :: .word al :: .word bh :: .word bl :: ws => push2 size { m with ws := ws } (f (ah ++ al) (bh ++ bl))
  | _ => none

/-- An operation without an operand. -/
def stepPlain (size : Nat) (m : Mach) : Op → Option Mach
  | .nop => some m
  | .add => m.binary size (· + ·)
  | .band => m.binary size (· &&& ·)
  | .bor => m.binary size (· ||| ·)
  | .bxor => m.binary size (· ^^^ ·)
  | .sub => m.binary size fun a b => b - a
  | .add2 => m.binary2 size (· + ·)
  | .band2 => m.binary2 size (· &&& ·)
  | .bor2 => m.binary2 size (· ||| ·)
  | .bxor2 => m.binary2 size (· ^^^ ·)
  | .sub2 => m.binary2 size fun a b => b - a
  | .lsh => m.unary size (· <<< 1)
  | .rsh => m.unary size (· >>> 1)
  | .dupOp =>
      match m.ws with
      | v :: ws => (push size { m with ws := ws } v).bind fun m => m.push size v
      | _ => none
  | .indir =>
      match m.ws with
      | .addr i :: ws => (load { m with ws := ws } i).bind fun v => push size { m with ws := ws } v
      | _ => none
  | .indir2 =>
      match m.ws with
      | .addr i :: ws => (load { m with ws := ws } i).bind fun v => (push size { m with ws := ws } v).bind fun m =>
          (m.load (i + 1)).bind fun v => m.push size v
      | _ => none
  | .store =>
      match m.ws with
      | v :: .addr i :: ws => save { m with ws := ws } i v
      | _ => none
  | .rstore =>
      match m.ws with
      | .addr i :: v :: ws => save { m with ws := ws } i v
      | _ => none
  | .store2 =>
      match m.ws with
      | h :: l :: .addr i :: ws => (save { m with ws := ws } i l).bind fun m => m.save (i + 1) h
      | _ => none
  | .rstore2 =>
      match m.ws with
      | .addr i :: h :: l :: ws => (save { m with ws := ws } i l).bind fun m => m.save (i + 1) h
      | _ => none
  | _ => none

/-- An operation with a byte. -/
def stepByte (size : Nat) (m : Mach) (n : Int) : Op → Option Mach
  | .cnstB => m.push size (.word (BitVec.ofInt 16 n))
  | .addrlB => (m.bp.offset n).bind fun i => m.push size (.addr i)
  | .iaddrlB => (m.bp.offset n).bind fun i => (m.load i).bind fun v => m.push size v
  | .addB => m.unary size (· + BitVec.ofInt 16 n)
  | .subB => m.unary size (· - BitVec.ofInt 16 n)
  | .bandB => m.unary size (· &&& BitVec.ofInt 16 n)
  | .discardB => if 0 ≤ n ∧ n.toNat ≤ m.ws.length then some { m with ws := m.ws.drop n.toNat } else none
  | .allocB =>
      if 0 ≤ n ∧ m.ws.length + n.toNat ≤ size then some { m with ws := List.replicate n.toNat .any ++ m.ws } else none
  | _ => none

/-- An operation with a word. -/
def stepWide (size : Nat) (m : Mach) (val : Word) : Op → Option Mach
  | .cnstW => m.push size (.word val)
  | .bandW => m.unary size (· &&& val)
  | _ => none

/-- An instruction that is no branch, call or return. -/
def stepVal {L : Type} (size : Nat) (m : Mach) : Instr L → Option Mach
  | .plain op => m.stepPlain size op
  | .byte op n => if -128 ≤ n ∧ n < 128 then m.stepByte size n op else none
  | .wide op val => m.stepWide size val op
  | .link _ _ => none

end Mach

/-- The comparison of a branch. -/
def Op.compare : Op → Option (Word → Word → Bool)
  | .eqW => some fun v1 v2 => v1.toInt = v2.toInt
  | .geW => some fun v1 v2 => v1.toInt ≥ v2.toInt
  | .gtW => some fun v1 v2 => v1.toInt > v2.toInt
  | .leW => some fun v1 v2 => v1.toInt ≤ v2.toInt
  | .ltW => some fun v1 v2 => v1.toInt < v2.toInt
  | .neW => some fun v1 v2 => v1.toInt ≠ v2.toInt
  | .ugeW => some fun v1 v2 => v1.toNat ≥ v2.toNat
  | .ugtW => some fun v1 v2 => v1.toNat > v2.toNat
  | .uleW => some fun v1 v2 => v1.toNat ≤ v2.toNat
  | .ultW => some fun v1 v2 => v1.toNat < v2.toNat
  | _ => none

/-- Where a listing stops: before its lines `code`, or at a `ret`. -/
inductive Exit (L : Type)
  | run (code : List (Instr L)) (m : Mach)
  | ret (m : Mach)

section Exec

variable {L : Type} (size : Nat) (codeAt : L → List (Instr L)) (stop : L → Bool)

/-- **A listing run.** -/
def exec : (fuel : Nat) → List (Instr L) → Mach → Option (Exit L)
  | 0, code, m => some (.run code m)
  | _ + 1, [], _ => none
  | fuel + 1, i :: is, m =>
      match i with
      | .plain .ret => some (.ret m)
      | .link .call0W l => some (.run (.link .call0W l :: is) m)
      | .link .jumpW l => if stop l then some (.run (codeAt l) m) else exec fuel (codeAt l) m
      | .link op l =>
          match op.compare, m.ws with
          | some compare, .word v2 :: .word v1 :: ws =>
              if compare v1 v2 then
                if stop l then some (.run (codeAt l) { m with ws := ws }) else exec fuel (codeAt l) { m with ws := ws }
              else exec fuel is { m with ws := ws }
          | _, _ => none
      | i => (m.stepVal size i).bind (exec fuel is)

end Exec

end RlCpu.Sim
