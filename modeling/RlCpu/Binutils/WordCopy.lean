/-
**Copies of words (`__builtin_memcpy` of `rt.s`, `memcpy` of the kernel's `memcpy.s`).**

Both routines have the source in `S`, the destination in `D` and the end of the source on the stack, and copy a word
with each turn until `S` is the end. They differ in where their arguments are: below the frame, or at the caller's
`BP`.

* `copy_loop`: the turns, with what is copied after each of them.
* `copy_right`: a call copies the words and comes back, where the destination is apart from the source, the frame and
  the code.
-/

import RlCpu.Sim.Hdd
import RlCpu.Sim.Routine
import RlCpu.Sim.Transfer

namespace RlCpu.Binutils

open RlCpu.Kernel RlCpu.Lib RlCpu.Sim Relation

variable {ι : Type} {D : Devices ι}

/-! ### The routines -/

/-- The labels of a routine: its name, `_loop` and `_end`. -/
inductive CopyLabel
  | memcpy | loop | done
  deriving DecidableEq

/-- The listing, with the instruction that loads an argument and the places of the arguments. -/
def copyBlocks (load : Op) (dst src n : Int) : List (Block CopyLabel) :=
  [
    ⟨[.memcpy], [
      .byte load src, .plain .dupOp, .plain .pops, .byte load n, .plain .add, .byte load dst, .plain .popd]⟩,
    ⟨[.loop], [
      .plain .dupOp, .plain .pushs, .link .eqW .done, .plain .sdmi, .link .jumpW .loop]⟩,
    ⟨[.done], [
      .plain .ret]⟩
  ]

/-- `__builtin_memcpy` -/
def builtinMemcpy : List (Block CopyLabel) := copyBlocks .iaddrlB (-7) (-6) (-5)

/-- `memcpy` -/
def memcpy : List (Block CopyLabel) := copyBlocks .iaddrfB 0 1 2

/-- One of the two routines. -/
inductive Copier
  | builtin
  | kernel

namespace Copier

def blocks : Copier → List (Block CopyLabel)
  | builtin => builtinMemcpy
  | kernel => memcpy

/-- What its arguments are addressed from, with the frame above `base` and the caller's `BP`. -/
def origin : Copier → (base bp : Word) → Word
  | builtin, base, _ => base + 4
  | kernel, _, bp => bp

/-- The instruction that loads them. -/
def load : Copier → Op
  | builtin => .iaddrlB
  | kernel => .iaddrfB

/-- The places of `dst`, `src` and `n`. -/
def dstAt : Copier → Int
  | builtin => -7
  | kernel => 0
def srcAt : Copier → Int
  | builtin => -6
  | kernel => 1
def nAt : Copier → Int
  | builtin => -5
  | kernel => 2

theorem blocks_length (r : Copier) : blocksOf r.blocks = 3 := by
  cases r <;> rfl

end Copier

/-- The words of the stack that a call uses: its frame, the end of the source and the operands of the comparison. -/
abbrev frameWords : Nat := 7

/-! ### Calls -/

/-- A processor before a call, with `words` words to be left for the result. The word at the data address `x` is found
at `cell x`, and the frame can be written. -/
structure Caller (ι : Type) where
  k : Cpu (Demux ι)
  quiet : k.intEnabled = false ∨ k.demux.intCtl.irqLineStatus = false
  words : Word
  cell : Word → Nat
  injective : Function.Injective cell
  frame : ∀ i < frameWords,
    k.Writes .data (k.sp + words + BitVec.ofNat 16 i).toNat (cell (k.sp + words + BitVec.ofNat 16 i))

namespace Caller

variable (c : Caller ι)

/-- Where the frame begins. -/
abbrev base : Word := c.k.sp + c.words

/-- The address of a word of the frame. -/
abbrev frameAt (i : Nat) : Word := c.base + BitVec.ofNat 16 i

theorem offset_inj {x : Word} {i j : Nat} (lowI : i < 65536) (lowJ : j < 65536)
    (same : x + BitVec.ofNat 16 i = x + BitVec.ofNat 16 j) : i = j := by
  have words := congrArg BitVec.toNat ((BitVec.add_right_inj x).mp same)
  rw [BitVec.toNat_ofNat, BitVec.toNat_ofNat] at words
  omega

/-- The frame. -/
def window : Window ι where
  k := c.k
  base := c.base
  size := frameWords
  data i := c.cell (c.frameAt i)
  mapped := c.frame
  apart i lowI j lowJ same := offset_inj (lowI.trans (by decide)) (lowJ.trans (by decide)) (c.injective same)
  quiet := c.quiet

end Caller

/-- **A call of a copy routine**: the processor is before the `call0_w`, or one that leaves words for a result, and
the routine stands at the block `org`. -/
structure CopyCall (ι : Type) (r : Copier) extends Caller ι where
  op : Op
  calls : op.callWords = some words
  org : Nat
  fits : org + blocksOf r.blocks ≤ 0x10000
  library : CodeAt toCaller.window (fun _ => True) (org * 8)
    ((codeFrom r.blocks).flatMap (Instr.words fun l => BitVec.ofNat 16 (org + offsetOf r.blocks l)))
  call : CodeAt toCaller.window (fun _ => True) k.pc [op.word, BitVec.ofNat 16 (org + offsetOf r.blocks .memcpy)]
  back : k.pc + 2 < 0x80000
  away : ∀ pc, k.pc ≤ pc → pc ≤ k.pc + 2 → ¬ InListing r.blocks org pc

namespace CopyCall

variable {r : Copier} (c : CopyCall ι r)

/-- The address of the argument at `n`. -/
def argAt (n : Int) : Word := r.origin c.base c.k.bp + BitVec.ofInt 16 n

/-- The argument. -/
def arg (n : Int) : Word := c.k.demux.ram (c.cell (c.argAt n))

abbrev dst : Word := c.arg r.dstAt
abbrev src : Word := c.arg r.srcAt
abbrev n : Nat := (c.arg r.nAt).toNat

/-- The address of a word of the destination. -/
abbrev dstWord (i : Nat) : Word := c.dst + BitVec.ofNat 16 i

/-- The address of a word of the source. -/
abbrev srcWord (i : Nat) : Word := c.src + BitVec.ofNat 16 i

/-- The memory that the routine needs: the arguments, apart from the frame, and the source can be read, and the
destination can be written. -/
structure Mapped : Prop where
  args : ∀ n : Int, n = r.dstAt ∨ n = r.srcAt ∨ n = r.nAt →
    c.k.Reads .data (c.argAt n).toNat (c.cell (c.argAt n)) ∧ ∀ i < frameWords, c.argAt n ≠ c.frameAt i
  reads : ∀ i < c.n, c.k.Reads .data (c.srcWord i).toNat (c.cell (c.srcWord i))
  writes : ∀ i < c.n, c.k.Writes .data (c.dstWord i).toNat (c.cell (c.dstWord i))

/-- The code of the routine and of the call. -/
def Inside (pc : Nat) : Prop := InListing r.blocks c.org pc ∨ c.k.pc ≤ pc ∧ pc < c.k.pc + 2

/-- The words of the code are not among the first `n` of the destination. -/
def CodeApart (n : Nat) : Prop := ∀ pc a, c.Inside pc → c.k.Reads .code pc a → ∀ i < n, a ≠ c.cell (c.dstWord i)

/-- The words of the destination are not among those of the source and of the frame. -/
structure Apart : Prop where
  source : ∀ i < c.n, ∀ j < c.n, c.dstWord i ≠ c.srcWord j
  frame : ∀ i < c.n, ∀ f < frameWords, c.dstWord i ≠ c.frameAt f

/-- The memory `ram` after `i` words are copied. The word of the frame that has the end of the source is copied as
that. -/
structure Copied (i : Nat) (ram : Nat → Word) : Prop where
  copied : ∀ j < i, (∀ f < frameWords, c.srcWord j ≠ c.frameAt f) →
    ram (c.cell (c.dstWord j)) = c.k.demux.ram (c.cell (c.srcWord j))
  ended : ∀ j < i, c.srcWord j = c.frameAt 4 → ram (c.cell (c.dstWord j)) = c.srcWord c.n
  kept : ∀ a, (∀ j < i, a ≠ c.cell (c.dstWord j)) → ram a = c.k.demux.ram a

/-- **The processor has come back**: the words are copied, and nothing else has changed but the frame, `S` and `D`. -/
structure Returned (t : Cpu (Demux ι)) : Prop where
  pc : t.pc = c.k.pc + 2
  ap : t.ap = c.k.ap
  bp : t.bp = c.k.bp
  sp : t.sp = c.k.sp + c.words
  copied : ∀ i < c.n, (∀ f < frameWords, c.srcWord i ≠ c.frameAt f) →
    t.demux.ram (c.cell (c.dstWord i)) = c.k.demux.ram (c.cell (c.srcWord i))
  kept : ∀ a, (∀ i < c.n, a ≠ c.cell (c.dstWord i)) → (∀ f < frameWords, a ≠ c.cell (c.frameAt f)) →
    t.demux.ram a = c.k.demux.ram a
  still : Still ((c.k.withS t.s).withD t.d) t

variable (D) in
/-- The call does what is asked of it: it comes back with every word of the source copied. -/
def Copies : Prop :=
  ∃ t, Ends (StepIn D c.Inside) c.k t ∧ c.Returned t ∧
    ∀ i < c.n, t.demux.ram (c.cell (c.dstWord i)) = c.k.demux.ram (c.cell (c.srcWord i))

/-! ### The code -/

/-- The routine in its place, and the call. -/
def image : Image CopyLabel :=
  placed r.blocks c.org c.fits (fun pc => c.k.pc ≤ pc ∧ pc < c.k.pc + 2) fun _ within =>
    lt_of_lt_of_le within.2 c.back.le

/-- Where the code of a label begins. -/
def place (l : CopyLabel) : Nat := (c.image.addr l).toNat * 8

theorem offsetOf_lt (l : CopyLabel) : offsetOf r.blocks l < blocksOf r.blocks := by
  cases r <;> cases l <;> decide

theorem place_eq (l : CopyLabel) : c.place l = (c.org + offsetOf r.blocks l) * 8 := by
  have low := offsetOf_lt (r := r) l
  have fits := c.fits
  show (BitVec.ofNat 16 (c.org + offsetOf r.blocks l)).toNat * 8 = _
  rw [BitVec.toNat_ofNat, Nat.mod_eq_of_lt (by omega)]

/-- The loop follows the loads. -/
theorem place_loop : c.place .loop = c.place .memcpy + 8 := by
  rw [place_eq, place_eq]
  have first : offsetOf r.blocks .memcpy = 0 := by cases r <;> rfl
  have second : offsetOf r.blocks .loop = 1 := by cases r <;> rfl
  omega

/-- The return follows the loop. -/
theorem place_done : c.place .loop + 8 = c.place .done := by
  rw [place_eq, place_eq]
  have first : offsetOf r.blocks .loop = 1 := by cases r <;> rfl
  have second : offsetOf r.blocks .done = 2 := by cases r <;> rfl
  omega

theorem loaded : c.image.Loaded c.window := by
  refine placed_loaded offsetOf_lt (c.library.within fun j low => Or.inl ⟨Nat.le_add_right _ _, ?_⟩)
  rw [words_codeFrom_length] at low
  omega

theorem words_memcpy : ∃ rest, c.image.words (c.image.codeAt .memcpy) =
    r.load.wordB (BitVec.ofInt 16 r.srcAt) :: Op.dupOp.word :: Op.pops.word :: r.load.wordB (BitVec.ofInt 16 r.nAt) ::
      Op.add.word :: r.load.wordB (BitVec.ofInt 16 r.dstAt) :: Op.popd.word :: Op.nop.word :: rest := by
  cases r <;> exact ⟨_, rfl⟩

theorem words_loop : ∃ rest, c.image.words (c.image.codeAt .loop) =
    Op.dupOp.word :: Op.pushs.word :: Op.eqW.word :: c.image.addr .done :: Op.sdmi.word :: Op.jumpW.word ::
      c.image.addr .loop :: rest := by
  cases r <;> exact ⟨_, rfl⟩

theorem words_done : ∃ rest, c.image.words (c.image.codeAt .done) = Op.ret.word :: rest := by
  cases r <;> exact ⟨_, rfl⟩

/-! ### The turns -/

section Turns

variable {c} {i : Nat} {ram : Nat → Word} {t : Cpu (Demux ι)}

/-- The code is there while words are copied. -/
theorem loaded_carry (copied : c.Copied i ram) (codeApart : c.CodeApart i) (s d : Word) (l : CopyLabel) :
    CodeAt (c.window.carry s d ram) c.image.inside (c.place l) (c.image.words (c.image.codeAt l)) :=
  (c.loaded l).carry fun p a inside reads => copied.kept a fun j low => codeApart p a inside reads j low

theorem CodeApart.of_le {n : Nat} (codeApart : c.CodeApart n) (less : i ≤ n) : c.CodeApart i :=
  fun pc a inside reads j low => codeApart pc a inside reads j (low.trans_le less)

/-- The frame of the call. -/
def saved (c : CopyCall ι r) : List Val := Sim.frame c.k.bp c.k.ap (c.k.pc + 2)

/-- The processor is before a turn, after `i` words are copied. -/
def Looping (c : CopyCall ι r) (i : Nat) (ram : Nat → Word) (t : Cpu (Demux ι)) : Prop :=
  At (c.window.carry (c.srcWord i) (c.dstWord i) ram) (c.place .loop)
    ⟨.word c.k.bp, .addr 4, .word (c.srcWord c.n) :: c.saved⟩ t

theorem n_lt (c : CopyCall ι r) : c.n < 65536 := (c.arg r.nAt).isLt

theorem next_word (x : Word) (i : Nat) : x + BitVec.ofNat 16 i + 1 = x + BitVec.ofNat 16 (i + 1) := by
  rw [BitVec.add_assoc]
  congr 1
  exact (BitVec.ofNat_add i 1).symm

/-- One more word copied. -/
theorem Copied.next (copied : c.Copied i ram) (less : i < c.n) (apart : c.Apart) {x : Word}
    (word : (∀ f < frameWords, c.srcWord i ≠ c.frameAt f) → x = ram (c.cell (c.srcWord i)))
    (isEnd : c.srcWord i = c.frameAt 4 → x = c.srcWord c.n) :
    c.Copied (i + 1) (Function.update ram (c.cell (c.dstWord i)) x) := by
  have before : ∀ j < i + 1, j ≠ i →
      j < i ∧ Function.update ram (c.cell (c.dstWord i)) x (c.cell (c.dstWord j)) = ram (c.cell (c.dstWord j)) := by
    intro j low other
    have n := c.n_lt
    refine ⟨by omega, Function.update_of_ne (fun same => ?_) _ _⟩
    exact other (Caller.offset_inj (by omega) (by omega) (c.injective same))
  refine ⟨fun j low off => ?_, fun j low same => ?_, fun a out => ?_⟩
  · by_cases this : j = i
    · subst this
      rw [Function.update_self, word off]
      exact copied.kept _ fun j' low' same => apart.source j' (by omega) j less (c.injective same).symm
    · obtain ⟨low', kept⟩ := before j low this
      exact kept.trans (copied.copied j low' off)
  · by_cases this : j = i
    · subst this
      rw [Function.update_self, isEnd same]
    · obtain ⟨low', kept⟩ := before j low this
      exact kept.trans (copied.ended j low' same)
  · rw [Function.update_of_ne (out i (Nat.lt_succ_self i))]
    exact copied.kept a fun j low => out j (low.trans (Nat.lt_succ_self i))

/-- The comparison of a turn. -/
theorem copy_test (looping : c.Looping i ram t) (copied : c.Copied i ram) (less : i ≤ c.n) (codeApart : c.CodeApart i) :
    ∃ u, ReflTransGen (StepIn D c.image.inside) t u ∧
      At (c.window.carry (c.srcWord i) (c.dstWord i) ram) (if i = c.n then c.place .done else c.place .loop + 4)
        ⟨.word c.k.bp, .addr 4, .word (c.srcWord c.n) :: c.saved⟩ u := by
  obtain ⟨rest, words⟩ := c.words_loop
  have code := loaded_carry copied codeApart (c.srcWord i) (c.dstWord i) .loop
  rw [words] at code
  obtain ⟨u1, step1, here⟩ := At.stepVal (D := D) c.image.addr (.plain .dupOp) looping (le_refl frameWords) code rfl
  obtain ⟨u2, step2, here⟩ := here.pushs (D := D) code.tail (show 6 < 7 by decide)
  obtain ⟨u3, step3, here⟩ := here.branch (D := D) code.tail.tail rfl rfl
  refine ⟨u3, ((ReflTransGen.single step1).tail step2).tail step3, ?_⟩
  have taken : (if decide ((c.srcWord c.n).toInt = (c.srcWord i).toInt) = true then c.place .done
      else c.place .loop + 1 + 1 + 2) =
      if i = c.n then c.place .done else c.place .loop + 4 := by
    by_cases last : i = c.n
    · rw [if_pos last, if_pos (decide_eq_true (by rw [last]))]
    · have n := c.n_lt
      have other : ¬ decide ((c.srcWord c.n).toInt = (c.srcWord i).toInt) = true := by
        rw [decide_eq_true_eq, BitVec.toInt_inj]
        exact fun same => last (Caller.offset_inj (by omega) n same.symm)
      rw [if_neg last, if_neg other]
  exact taken ▸ here

/-- The cells of the destination are not in the frame. -/
theorem Apart.away (apart : c.Apart) {j : Nat} (less : j < c.n) :
    ∀ f < c.window.size, c.cell (c.dstWord j) ≠ c.window.data f :=
  fun f low same => apart.frame j less f low (c.injective same)

/-- A turn up to its jump. -/
theorem copy_move (looping : c.Looping i ram t) (copied : c.Copied i ram) (less : i < c.n) (mapped : c.Mapped)
    (apart : c.Apart) (codeApart : c.CodeApart i) :
    ∃ u x, ReflTransGen (StepIn D c.image.inside) t u ∧
      ((∀ f < frameWords, c.srcWord i ≠ c.frameAt f) → x = ram (c.cell (c.srcWord i))) ∧
      (c.srcWord i = c.frameAt 4 → x = c.srcWord c.n) ∧
      At (c.window.carry (c.srcWord (i + 1)) (c.dstWord (i + 1)) (Function.update ram (c.cell (c.dstWord i)) x))
        (c.place .loop + 5) ⟨.word c.k.bp, .addr 4, .word (c.srcWord c.n) :: c.saved⟩ u := by
  obtain ⟨u, steps, here⟩ := copy_test (D := D) looping copied less.le codeApart
  rw [if_neg less.ne] at here
  obtain ⟨rest, words⟩ := c.words_loop
  have code := loaded_carry copied codeApart (c.srcWord i) (c.dstWord i) .loop
  rw [words] at code
  have code' : CodeAt (c.window.carry (c.srcWord i) (c.dstWord i) ram) c.image.inside (c.place .loop + 4)
      (Op.sdmi.word :: Op.jumpW.word :: c.image.addr .loop :: rest) := code.tail.tail.tail.tail
  obtain ⟨v, step, moved⟩ := here.sdmi (D := D) code' (mapped.reads i less) (mapped.writes i less) (apart.away less)
  rw [next_word, next_word] at moved
  refine ⟨v, u.demux.ram (c.cell (c.srcWord i)), steps.tail step, fun off => ?_, fun same => ?_, moved⟩
  · exact here.outside _ fun f low same => off f low (c.injective same)
  · exact same ▸ here.words 4 (.word (c.srcWord c.n)) rfl

/-- **One turn.** -/
theorem copy_turn (looping : c.Looping i ram t) (copied : c.Copied i ram) (less : i < c.n) (mapped : c.Mapped)
    (apart : c.Apart) (codeApart : c.CodeApart c.n) :
    ∃ u ram', ReflTransGen (StepIn D c.image.inside) t u ∧ c.Copied (i + 1) ram' ∧ c.Looping (i + 1) ram' u := by
  obtain ⟨u, x, steps, word, isEnd, here⟩ :=
    copy_move (D := D) looping copied less mapped apart (codeApart.of_le less.le)
  have copied' := copied.next less apart word isEnd
  obtain ⟨rest, words⟩ := c.words_loop
  have code := loaded_carry copied' (codeApart.of_le less) (c.srcWord (i + 1)) (c.dstWord (i + 1)) .loop
  rw [words] at code
  obtain ⟨v, step, looping'⟩ := here.jumpW (D := D) code.tail.tail.tail.tail.tail
  exact ⟨v, _, steps.tail step, copied', looping'⟩

/-- **The turns up to the last word.** By induction on the words that are left. -/
theorem copy_loop (mapped : c.Mapped) (apart : c.Apart) (codeApart : c.CodeApart c.n) (left : Nat)
    (looping : c.Looping i ram t) (copied : c.Copied i ram) (rest : i + left = c.n) :
    ∃ u ram', ReflTransGen (StepIn D c.image.inside) t u ∧ c.Copied c.n ram' ∧ c.Looping c.n ram' u := by
  induction left generalizing i ram t with
  | zero =>
    obtain rfl : i = c.n := rest
    exact ⟨t, ram, .refl, copied, looping⟩
  | succ left ih =>
    obtain ⟨u, ram', steps, copied', looping'⟩ :=
      copy_turn (D := D) looping copied (by omega) mapped apart codeApart
    obtain ⟨v, ram'', steps', last⟩ := ih looping' copied' (by omega)
    exact ⟨v, ram'', steps.trans steps', last⟩

/-- The return. -/
theorem copy_ret {s d : Word} (here : At (c.window.carry s d ram) (c.place .done)
      ⟨.word c.k.bp, .addr 4, .word (c.srcWord c.n) :: c.saved⟩ t)
    (code : CodeAt (c.window.carry s d ram) c.image.inside (c.place .done) (c.image.words (c.image.codeAt .done))) :
    ∃ u, StepIn D c.image.inside t u ∧
      At (c.window.carry s d ram) (c.k.pc + 2) ⟨.word c.k.ap, .word c.k.bp, []⟩ u := by
  obtain ⟨rest, words⟩ := c.words_done
  rw [words] at code
  have atRet : At (c.window.carry s d ram) (c.place .done) ⟨.word c.k.bp, .addr (([] : List Val).length + 4),
      [.word (c.srcWord c.n)] ++ (Sim.frame c.k.bp c.k.ap (c.k.pc + 2) ++ [])⟩ t := by
    rw [List.append_nil]
    exact here
  exact atRet.ret (D := D) code c.back

/-- What follows the last turn. -/
theorem copy_end (looping : c.Looping c.n ram t) (copied : c.Copied c.n ram) (codeApart : c.CodeApart c.n) :
    ∃ u, ReflTransGen (StepIn D c.image.inside) t u ∧
      At (c.window.carry (c.srcWord c.n) (c.dstWord c.n) ram) (c.k.pc + 2) ⟨.word c.k.ap, .word c.k.bp, []⟩ u := by
  obtain ⟨u, steps, here⟩ := copy_test (D := D) looping copied (le_refl _) codeApart
  rw [if_pos rfl] at here
  obtain ⟨v, step, back⟩ := copy_ret (D := D) here (loaded_carry copied codeApart _ _ .done)
  exact ⟨v, steps.tail step, back⟩

end Turns

/-! ### The start -/

section Start

variable {c} {s d : Word} {pc : Nat} {ws : List Val} {t : Cpu (Demux ι)}

/-- The memory before the first turn. -/
theorem codeApart_none (c : CopyCall ι r) : c.CodeApart 0 := fun _ _ _ _ j low => absurd low (Nat.not_lt_zero j)

theorem copied_none (c : CopyCall ι r) : c.Copied 0 c.k.demux.ram :=
  ⟨fun j low => absurd low (Nat.not_lt_zero j), fun j low => absurd low (Nat.not_lt_zero j), fun _ _ => rfl⟩

/-- An argument loaded. -/
theorem copy_load (mapped : c.Mapped) {n : Int} (is : n = r.dstAt ∨ n = r.srcAt ∨ n = r.nAt)
    (here : At (c.window.carry s d c.k.demux.ram) pc ⟨.word c.k.bp, .addr 4, ws⟩ t) {rest : List Word}
    (code : CodeAt (c.window.carry s d c.k.demux.ram) c.image.inside pc (r.load.wordB (BitVec.ofInt 16 n) :: rest))
    (room : ws.length < frameWords) :
    ∃ u, StepIn D c.image.inside t u ∧
      At (c.window.carry s d c.k.demux.ram) (pc + 1) ⟨.word c.k.bp, .addr 4, .word (c.arg n) :: ws⟩ u := by
  obtain ⟨reads, off⟩ := mapped.args n is
  have away : ∀ f < c.window.size, c.cell (c.argAt n) ≠ c.window.data f :=
    fun f low same => off f low (c.injective same)
  have range : -128 ≤ n ∧ n < 128 := by
    rcases is with rfl | rfl | rfl <;> cases r <;> decide
  cases r with
  | builtin =>
    have bp : t.bp + BitVec.ofInt 16 n = c.argAt n := by rw [show t.bp = c.base + 4 from here.bp]; rfl
    exact here.iaddrFar Cpu.bp rfl (fun _ => rfl) code range.1 range.2 bp reads away room
  | kernel =>
    have ap : t.ap + BitVec.ofInt 16 n = c.argAt n := by rw [show t.ap = c.k.bp from here.ap]; rfl
    exact here.iaddrFar Cpu.ap rfl (fun _ => rfl) code range.1 range.2 ap reads away room

/-- **From the call to the first turn.** -/
theorem copy_start (mapped : c.Mapped) :
    ∃ t, ReflTransGen (StepIn D c.image.inside) c.k t ∧ c.Looping 0 c.k.demux.ram t := by
  have call : CodeAt c.window c.image.inside c.k.pc [c.op.word, c.image.addr .memcpy] := by
    refine c.call.within fun j low => Or.inr ⟨Nat.le_add_right _ _, ?_⟩
    exact Nat.add_lt_add_left low _
  obtain ⟨u0, step0, here⟩ := At.callW (D := D) (g := c.window) (t := c.k) c.calls rfl rfl call (show 4 ≤ 7 by decide)
  have code : ∀ s d, CodeAt (c.window.carry s d c.k.demux.ram) c.image.inside (c.place .memcpy)
      (c.image.words (c.image.codeAt .memcpy)) :=
    fun s d => loaded_carry c.copied_none c.codeApart_none s d .memcpy
  obtain ⟨rest, words⟩ := c.words_memcpy
  rw [words] at code
  obtain ⟨u1, step1, here⟩ := copy_load (D := D) mapped (Or.inr (Or.inl rfl)) here.carried (code _ _) (show 4 < 7 by decide)
  obtain ⟨u2, step2, here⟩ := At.stepVal (D := D) c.image.addr (.plain .dupOp) here (le_refl frameWords) (code _ _).tail rfl
  obtain ⟨u3, step3, here⟩ := here.pops (D := D) (code _ _).tail.tail
  obtain ⟨u4, step4, here⟩ := copy_load (D := D) mapped (Or.inr (Or.inr rfl)) here (code _ _).tail.tail.tail
    (show 5 < 7 by decide)
  obtain ⟨u5, step5, here⟩ := At.stepVal (D := D) c.image.addr (.plain .add) here (le_refl frameWords)
      (code _ _).tail.tail.tail.tail rfl
  obtain ⟨u6, step6, here⟩ := copy_load (D := D) mapped (Or.inl rfl) here (code _ _).tail.tail.tail.tail.tail
    (show 5 < 7 by decide)
  obtain ⟨u7, step7, here⟩ := here.popd (D := D) (code _ _).tail.tail.tail.tail.tail.tail
  obtain ⟨u8, step8, here⟩ := At.stepVal (D := D) c.image.addr (.plain .nop) here (le_refl frameWords)
      (code _ _).tail.tail.tail.tail.tail.tail.tail rfl
  have loads := ((((ReflTransGen.single step0).tail step1).tail step2).tail step3).tail step4
  refine ⟨u8, (((loads.tail step5).tail step6).tail step7).tail step8, ?_⟩
  have last : c.arg r.nAt + c.src = c.srcWord c.n := by
    rw [BitVec.add_comm]
    exact congrArg (c.src + ·) ((BitVec.ofNat_toNat 16 (c.arg r.nAt)).trans (BitVec.setWidth_eq _)).symm
  have first : ∀ x : Word, x + BitVec.ofNat 16 0 = x := fun x => BitVec.add_zero x
  show At (c.window.carry (c.srcWord 0) (c.dstWord 0) c.k.demux.ram) (c.place .loop)
    ⟨.word c.k.bp, .addr 4, .word (c.srcWord c.n) :: c.saved⟩ u8
  rw [c.place_loop, ← last, show c.srcWord 0 = c.src from first _, show c.dstWord 0 = c.dst from first _]
  exact here

end Start

/-! ### The call -/

section Call

variable {c}

/-- A run that comes back has ended. -/
theorem ends_of_back {pc : Nat} (is : pc = c.k.pc + 2) {t : Cpu (Demux ι)}
    (steps : ReflTransGen (StepIn D c.image.inside) c.k t) (back : t.pc = pc) : Ends (StepIn D c.Inside) c.k t := by
  refine ⟨steps, fun u step => ?_⟩
  have inside : c.Inside (c.k.pc + 2) := is ▸ back ▸ step.2
  rcases inside with library | call
  · exact c.away (c.k.pc + 2) (Nat.le_add_right _ _) (le_refl _) library
  · exact absurd call.2 (lt_irrefl _)

/-- The call up to its end. -/
theorem copy_runs (mapped : c.Mapped) (apart : c.Apart) (codeApart : c.CodeApart c.n) :
    ∃ t ram, Ends (StepIn D c.Inside) c.k t ∧ c.Copied c.n ram ∧
      At (c.window.carry (c.srcWord c.n) (c.dstWord c.n) ram) (c.k.pc + 2) ⟨.word c.k.ap, .word c.k.bp, []⟩ t := by
  obtain ⟨t0, start, looping⟩ := copy_start (D := D) mapped
  obtain ⟨t1, ram, turns, copied, looping'⟩ :=
    copy_loop (D := D) mapped apart codeApart c.n looping c.copied_none (Nat.zero_add _)
  obtain ⟨t, last, here⟩ := copy_end (D := D) looping' copied codeApart
  exact ⟨t, ram, ends_of_back rfl ((start.trans turns).trans last) here.pc, copied, here⟩

/-- What is read of the code when the word at `b` has become `x`. -/
theorem code_changed {b : Nat} {x : Word} (s d : Word) {p : Nat} {ws ws' : List Word}
    (code : CodeAt c.window c.image.inside p ws)
    (is : ∀ j w', ws'[j]? = some w' → ∃ w, ws[j]? = some w ∧
      ∀ a, c.image.inside (p + j) → c.k.Reads .code (p + j) a → w' = if a = b then x else w) :
    CodeAt (c.window.carry s d (Function.update c.k.demux.ram b x)) c.image.inside p ws' := by
  intro j w' found'
  obtain ⟨w, found, changed⟩ := is j w' found'
  obtain ⟨within, a, reads, word, away⟩ := code j w found
  refine ⟨within, a, reads.congr rfl rfl rfl, ?_, away⟩
  have same : c.k.demux.ram a = w := word
  rw [changed a within reads, ← same]
  exact Function.update_apply _ _ _ _

/-- **A destination on the operand of the jump**, with the place of the end as the first word of the source: the
routine comes back after one word. -/
theorem copy_cut (mapped : c.Mapped) (apart : c.Apart) (nonempty : 0 < c.n)
    (off : ∀ f < frameWords, c.srcWord 0 ≠ c.frameAt f)
    (operand : c.k.Reads .code (c.place .loop + 6) (c.cell (c.dstWord 0)))
    (only : ∀ p a, c.Inside p → c.k.Reads .code p a → a = c.cell (c.dstWord 0) → p = c.place .loop + 6)
    (done : c.k.demux.ram (c.cell (c.srcWord 0)) = c.image.addr .done) :
    ∃ t, Ends (StepIn D c.Inside) c.k t ∧
      ∀ a, a ≠ c.cell (c.dstWord 0) → (∀ f < frameWords, a ≠ c.cell (c.frameAt f)) → t.demux.ram a = c.k.demux.ram a := by
  obtain ⟨t0, start, looping⟩ := copy_start (D := D) mapped
  obtain ⟨t1, x, moves, word, -, here⟩ :=
    copy_move (D := D) looping c.copied_none nonempty mapped apart c.codeApart_none
  obtain rfl : x = c.image.addr .done := (word off).trans done
  obtain ⟨rest, words⟩ := c.words_loop
  have code := c.loaded .loop
  rw [words] at code
  have jump : CodeAt (c.window.carry (c.srcWord 1) (c.dstWord 1)
      (Function.update c.k.demux.ram (c.cell (c.dstWord 0)) (c.image.addr .done))) c.image.inside (c.place .loop + 5)
      [Op.jumpW.word, c.image.addr .done] := by
    refine code_changed _ _ code.tail.tail.tail.tail.tail fun j w' found => ?_
    match j with
    | 0 =>
      refine ⟨_, rfl, fun a within reads => ?_⟩
      have other : a ≠ c.cell (c.dstWord 0) := fun same => absurd (only _ a within reads same) (by omega)
      rw [if_neg other]
      exact (Option.some.inj found).symm
    | 1 =>
      refine ⟨_, rfl, fun a within reads => ?_⟩
      have same : a = c.cell (c.dstWord 0) := Except.ok.inj (reads.found.symm.trans operand.found)
      rw [if_pos same]
      exact (Option.some.inj found).symm
    | j + 2 => exact absurd found (by simp)
  obtain ⟨t2, jumped, here⟩ := here.jumpW (D := D) jump
  have ret : CodeAt (c.window.carry (c.srcWord 1) (c.dstWord 1)
      (Function.update c.k.demux.ram (c.cell (c.dstWord 0)) (c.image.addr .done))) c.image.inside (c.place .done)
      (c.image.words (c.image.codeAt .done)) := by
    refine code_changed _ _ (c.loaded .done) fun j w found => ⟨w, found, fun a within reads => ?_⟩
    have after : c.place .loop + 8 = c.place .done := c.place_done
    have other : a ≠ c.cell (c.dstWord 0) := fun same => by
      have place := only _ a within reads same
      have here : c.place .done + j = c.place .loop + 6 := place
      omega
    rw [if_neg other]
  obtain ⟨t, returned, here⟩ := copy_ret (D := D) here ret
  refine ⟨t, ends_of_back rfl (((start.trans moves).tail jumped).tail returned) here.pc, fun a other frame => ?_⟩
  exact (here.outside a frame).trans (Function.update_of_ne other _ _)

/-- **A call of a copy routine**: where the destination is apart from the source, from the frame and from the code, it
comes back with every word of the source that is not in the frame copied, and `AP`, `BP`, the stack of the caller and
all the other memory off the frame as they were. -/
theorem copy_right (mapped : c.Mapped) (apart : c.Apart) (codeApart : c.CodeApart c.n) :
    ∃ t, Ends (StepIn D c.Inside) c.k t ∧ c.Returned t := by
  obtain ⟨t, ram, ends, copied, here⟩ := copy_runs (D := D) mapped apart codeApart
  refine ⟨t, ends, here.pc, here.ap, here.bp, here.sp.trans (BitVec.add_zero _), fun i less off => ?_,
    fun a out frame => ?_, ?_⟩
  · exact (here.outside _ (apart.away less)).trans (copied.copied i less off)
  · exact (here.outside a frame).trans (copied.kept a out)
  · have still := here.still
    exact ⟨rfl, rfl, still.commitEnabled, still.intEnabled, still.userMode, still.mmuEnabled, still.selector, still.table,
      still.intCtl, still.mmuLastFailPage, still.devs⟩

end Call

end CopyCall

/-! ### Machines with a call

The routine is at block 512, the call at 256, the arguments at 16384, with the frame behind them, and `given` at
20480; the MMU is off and there are no devices. -/

namespace Copier

/-- `memcpy` returns an int. -/
def callOp : Copier → Op
  | builtin => .call0W
  | kernel => .call1W
def resultWords : Copier → Word
  | builtin => 0
  | kernel => 1

variable (r : Copier) (dst src n : Word) (given : List Word)

/-- The words of the routine. -/
def code : List Word := (codeFrom r.blocks).flatMap (Instr.words fun l => BitVec.ofNat 16 (512 + offsetOf r.blocks l))

def machine : Cpu (Demux Unit) :=
  { ra := 0, rb := 0, ap := 0x10, bp := 0x4000, sp := 0x4003, pc := 0x100, ir := 0, s := 0, d := 0,
    commitEnabled := true, intEnabled := false, userMode := false, mmuEnabled := false, mmuEntrySelector := 0,
    shadow := ⟨0, 0, 0, 0, 0, 0⟩,
    demux :=
      { ram := fun a =>
          if a < 0x1000 then [r.callOp.word, 512].getD (a - 0x100) 0
          else if a < 0x4000 then r.code.getD (a - 0x1000) 0
          else if a < 0x5000 then [dst, src, n].getD (a - 0x4000) 0
          else given.getD (a - 0x5000) 0
        table := fun _ => 0
        intCtl := ⟨0, 0, fun _ => 0⟩
        mmuLastFailPage := 0
        devs := () } }

variable {r dst src n given}

theorem machine_writes (x : Word) : (machine r dst src n given).Writes .data x.toNat x.toNat :=
  .of_off rfl (by decide) x.isLt

theorem machine_reads {p : Nat} (low : p < 0x4000) : (machine r dst src n given).Reads .code p p :=
  .of_off rfl (by decide) (by omega)

variable (r dst src n given) in
/-- What makes the call. -/
def caller : Caller Unit where
  k := machine r dst src n given
  quiet := .inl rfl
  words := r.resultWords
  cell := BitVec.toNat
  injective _ _ := BitVec.eq_of_toNat_eq
  frame _ _ := machine_writes _

/-- Words of the code of the machine. -/
theorem machine_code {p : Nat} {ws : List Word} (high : p + ws.length ≤ 0x4000)
    (found : ∀ j w, ws[j]? = some w → (machine r dst src n given).demux.ram (p + j) = w) :
    CodeAt (caller r dst src n given).window (fun _ => True) p ws := by
  intro j w is
  have low : j < ws.length := (List.getElem?_eq_some_iff.mp is).1
  refine ⟨trivial, p + j, machine_reads (by omega), found j w is, fun i small same => ?_⟩
  have words : r.resultWords.toNat ≤ 1 := by cases r <;> decide
  have less : i < 7 := small
  have base : p + j = (0x4003 + r.resultWords + BitVec.ofNat 16 i).toNat := same
  rw [BitVec.toNat_add, BitVec.toNat_add, BitVec.toNat_ofNat, show (0x4003 : Word).toNat = 0x4003 from rfl] at base
  omega

variable (r dst src n given) in
/-- The call on that machine. -/
def site : CopyCall Unit r where
  toCaller := caller r dst src n given
  op := r.callOp
  calls := by cases r <;> rfl
  org := 512
  fits := by cases r <;> decide
  library := by
    have high : 512 * 8 + r.code.length ≤ 0x4000 := by cases r <;> decide
    show CodeAt _ _ _ r.code
    refine machine_code high fun j w found => ?_
    have low : j < r.code.length := (List.getElem?_eq_some_iff.mp found).1
    show (if 512 * 8 + j < 0x1000 then _ else if 512 * 8 + j < 0x4000 then r.code.getD (512 * 8 + j - 0x1000) 0 else _) = w
    rw [if_neg (by omega), if_pos (by omega), Nat.add_sub_cancel_left, List.getD_eq_getElem?_getD, found, Option.getD_some]
  call := by
    have words : [r.callOp.word, (512 : Word)] = [r.callOp.word, BitVec.ofNat 16 (512 + offsetOf r.blocks .memcpy)] := by
      cases r <;> rfl
    rw [← words]
    refine machine_code (show 0x100 + 2 ≤ 0x4000 by decide) fun j w is => ?_
    have low : j < 2 := (List.getElem?_eq_some_iff.mp is).1
    show (if 0x100 + j < 0x1000 then [r.callOp.word, 512].getD (0x100 + j - 0x100) 0 else _) = w
    rw [if_pos (by omega), Nat.add_sub_cancel_left, List.getD_eq_getElem?_getD, is, Option.getD_some]
  back := show 0x100 + 2 < 0x80000 by decide
  away pc _ high := by
    have high' : pc ≤ 0x102 := high
    rintro ⟨low, -⟩
    omega

/-- The arguments are below the frame. -/
theorem args_away (r : Copier) : ∀ n ∈ [r.dstAt, r.srcAt, r.nAt], ∀ i < frameWords,
    r.origin (0x4003 + r.resultWords) 0x4000 + BitVec.ofInt 16 n ≠ 0x4003 + r.resultWords + BitVec.ofNat 16 i := by
  cases r <;> decide

theorem site_mapped : (site r dst src n given).Mapped := by
  refine ⟨fun place is => ⟨(machine_writes _).reads, r.args_away place ?_⟩, fun i _ => (machine_writes _).reads,
    fun i _ => machine_writes _⟩
  rw [List.mem_cons, List.mem_cons, List.mem_singleton]
  exact is

/-- The words of the code of the machine. -/
theorem site_code {pc a : Nat} (inside : (site r dst src n given).Inside pc)
    (reads : (machine r dst src n given).Reads .code pc a) : pc = a ∧ a < 0x1018 := by
  have blocks := r.blocks_length
  have low : pc < 0x1018 := by
    rcases inside with ⟨-, high⟩ | ⟨-, high⟩
    · have high' : pc < (512 + blocksOf r.blocks) * 8 := high
      omega
    · exact lt_trans (show pc < 0x102 from high) (by decide)
  have same : pc = a := Except.ok.inj ((machine_reads (by omega)).found.symm.trans reads.found)
  exact ⟨same, same ▸ low⟩

/-- A destination behind the code of the machine. -/
theorem site_apart (behind : ∀ i < (site r dst src n given).n, 0x1018 ≤ ((site r dst src n given).dstWord i).toNat) :
    (site r dst src n given).CodeApart (site r dst src n given).n := by
  intro pc a inside reads i less same
  have low := (site_code inside reads).2
  have high := behind i less
  have isWord : a = ((site r dst src n given).dstWord i).toNat := same
  omega

/-- Two words copied. -/
theorem copy_right_two :
    (∃ t, Ends (StepIn noDevices (site .builtin 0x6000 0x5000 2 [5, 7]).Inside) (machine .builtin 0x6000 0x5000 2 [5, 7]) t ∧
      (site .builtin 0x6000 0x5000 2 [5, 7]).Returned t) ∧
    ∃ t, Ends (StepIn noDevices (site .kernel 0x6000 0x5000 2 [5, 7]).Inside) (machine .kernel 0x6000 0x5000 2 [5, 7]) t ∧
      (site .kernel 0x6000 0x5000 2 [5, 7]).Returned t :=
  ⟨CopyCall.copy_right site_mapped ⟨by decide, by decide⟩ (site_apart (by decide)),
    CopyCall.copy_right site_mapped ⟨by decide, by decide⟩ (site_apart (by decide))⟩

/-- A source in the frame, at the end of the source that the routine keeps there. -/
def frameSite (r : Copier) : CopyCall Unit r := site r 0x6000 (0x4007 + r.resultWords) 1 []

theorem frameSite_fails (r : Copier) : (frameSite r).Mapped ∧ (frameSite r).Apart ∧ ¬ (frameSite r).Copies noDevices := by
  have one : (frameSite r).n = 1 := by cases r <;> rfl
  have apart : (frameSite r).Apart := by cases r <;> exact ⟨by decide, by decide⟩
  have codeApart : (frameSite r).CodeApart (frameSite r).n := site_apart (by cases r <;> decide)
  refine ⟨site_mapped, apart, fun copies => ?_⟩
  obtain ⟨t, ends, -, all⟩ := copies
  obtain ⟨u, ram, ends', copied, here⟩ := CopyCall.copy_runs (D := noDevices) (c := frameSite r) site_mapped apart codeApart
  obtain rfl := ends.unique (stepIn_deterministic _ _) ends'
  have less : 0 < (frameSite r).n := by rw [one]; decide
  have isEnd : t.demux.ram _ = (frameSite r).srcWord (frameSite r).n :=
    (here.outside _ (apart.away less)).trans (copied.ended 0 less (by cases r <;> decide))
  have before := (all 0 less).symm.trans isEnd
  cases r <;> exact absurd before (by decide)

/-- A destination that begins with the operand of the jump. -/
def codeSite (r : Copier) : CopyCall Unit r := site r 0x100e 0x5000 2 [514, 7]

theorem codeSite_fails (r : Copier) : (codeSite r).Mapped ∧ (codeSite r).Apart ∧ ¬ (codeSite r).Copies noDevices := by
  have two : (codeSite r).n = 2 := by cases r <;> rfl
  have apart : (codeSite r).Apart := by cases r <;> exact ⟨by decide, by decide⟩
  refine ⟨site_mapped, apart, fun copies => ?_⟩
  obtain ⟨t, ends, -, all⟩ := copies
  have less : 0 < (codeSite r).n := by rw [two]; decide
  obtain ⟨u, ends', kept⟩ := CopyCall.copy_cut (D := noDevices) (c := codeSite r) site_mapped apart less
    (by cases r <;> decide) (by cases r <;> exact machine_reads (by decide))
    (fun pc a inside reads same => by
      obtain ⟨rfl, -⟩ := site_code inside reads
      rw [same]
      cases r <;> rfl)
    (by cases r <;> decide +kernel)
  obtain rfl := ends.unique (stepIn_deterministic _ _) ends'
  have second := (all 1 (by rw [two]; decide)).symm.trans (kept _ (by cases r <;> decide) (by cases r <;> decide))
  cases r <;> exact absurd second (by decide +kernel)

/-- **A source in the frame, or a destination in the code**: the words are not all copied. -/
theorem copy_overlaps :
    ((frameSite .builtin).Mapped ∧ (frameSite .builtin).Apart ∧ ¬ (frameSite .builtin).Copies noDevices) ∧
    ((frameSite .kernel).Mapped ∧ (frameSite .kernel).Apart ∧ ¬ (frameSite .kernel).Copies noDevices) ∧
    ((codeSite .builtin).Mapped ∧ (codeSite .builtin).Apart ∧ ¬ (codeSite .builtin).Copies noDevices) ∧
    ((codeSite .kernel).Mapped ∧ (codeSite .kernel).Apart ∧ ¬ (codeSite .kernel).Copies noDevices) :=
  ⟨frameSite_fails .builtin, frameSite_fails .kernel, codeSite_fails .builtin, codeSite_fails .kernel⟩

end Copier

end RlCpu.Binutils
