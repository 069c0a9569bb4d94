/-
**The arithmetic routines (`math.s`).**

The C compiler calls a routine for a multiplication, a division, a shift and a comparison of double words. `mathS` is
their listing, block by block, without those for floating point; `math org inside` is the listing at the block `org`
of the code.
-/

import RlCpu.Sim.Routine

namespace RlCpu.Binutils

open RlCpu.Kernel RlCpu.Lib RlCpu.Sim Relation

/-- The labels of `math.s`, without `__builtin_`, `cmp_` and `$`. -/
inductive MathLabel
  | MULI1 | MULU1 | multBegin | skip | multEnd | MULU2 | MULI2 | l17 | l20 | l18 | LSHI1 | LSHU1 | lshi1Loop
  | lshi1End | LSHI2 | LSHU2 | l4 | l7 | l5 | RSHI1 | RSHU1 | rshi1Loop | rshi1End | RSHI2 | RSHU2 | l11 | l14 | l12
  | DIVU1 | DIVI1 | divu1_2 | divu1_3 | divu1_1 | MODU1 | MODI1 | DIVU2 | DIVI2 | l2_d2 | l6_d2 | l7_d2 | l9_d2
  | l12_d2 | l10_d2 | MODU2 | MODI2 | cmpGEU2 | cmpGTU2 | cmpLEU2 | cmpLTU2 | cmpGEI2 | cmpGeiCnt | cmpGTI2
  | cmpGtiCnt | cmpLEI2 | cmpLeiCnt | cmpLTI2 | cmpLtiCnt | cmpEQU2 | cmpEQI2 | cmpNEU2 | cmpNEI2 | cmpTrue
  | cmpFalse
  deriving DecidableEq

/-- `math.s` -/
def mathS : List (Block MathLabel) :=
  [
    ⟨[.MULI1, .MULU1], [
      .byte .cnstB 0]⟩,
    ⟨[.multBegin], [
      .byte .iaddrlB (-5), .byte .cnstB 0, .link .eqW .multEnd, .byte .iaddrlB (-5), .byte .bandB 1, .byte .cnstB 0,
      .link .eqW .skip, .byte .iaddrlB 0, .byte .iaddrlB (-6), .plain .add, .byte .addrlB 0, .plain .rstore]⟩,
    ⟨[.skip], [
      .byte .iaddrlB (-6), .plain .lsh, .byte .addrlB (-6), .plain .rstore, .byte .iaddrlB (-5), .plain .rsh,
      .byte .addrlB (-5), .plain .rstore, .link .jumpW .multBegin]⟩,
    ⟨[.multEnd], [
      .byte .iaddrlB 0, .byte .addrlB (-6), .plain .rstore, .plain .ret]⟩,
    ⟨[.MULU2, .MULI2], [
      .byte .allocB 3, .byte .addrlB 0, .byte .cnstB 0, .byte .cnstB 0, .plain .store2, .link .jumpW .l18]⟩,
    ⟨[.l17], [
      .byte .addrlB (-6), .plain .indir2, .byte .cnstB 1, .byte .cnstB 0, .plain .band2, .byte .cnstB 0,
      .byte .cnstB 0, .link .call0W .cmpEQU2, .byte .discardB 3, .byte .cnstB 0, .link .neW .l20, .byte .addrlB 0,
      .byte .addrlB 0, .plain .indir2, .byte .addrlB (-8), .plain .indir2, .plain .add2, .plain .store2]⟩,
    ⟨[.l20], [
      .byte .addrlB 2, .byte .cnstB 1, .plain .store, .byte .addrlB (-8), .byte .addrlB (-8), .plain .indir2,
      .byte .iaddrlB 2, .link .call0W .LSHU2, .byte .discardB 1, .plain .store2, .byte .addrlB (-6),
      .byte .addrlB (-6), .plain .indir2, .byte .iaddrlB 2, .link .call0W .RSHU2, .byte .discardB 1, .plain .store2]⟩,
    ⟨[.l18], [
      .byte .addrlB (-6), .plain .indir2, .byte .cnstB 0, .byte .cnstB 0, .link .call0W .cmpNEU2, .byte .discardB 3,
      .byte .cnstB 0, .link .neW .l17, .byte .addrlB 0, .plain .indir2, .byte .addrlB (-8), .plain .rstore2,
      .plain .ret]⟩,
    ⟨[.LSHI1, .LSHU1, .lshi1Loop], [
      .byte .iaddrlB (-5), .byte .cnstB 0, .link .eqW .lshi1End, .byte .iaddrlB (-6), .plain .lsh,
      .byte .addrlB (-6), .plain .rstore, .byte .iaddrlB (-5), .byte .subB 1, .byte .addrlB (-5), .plain .rstore,
      .link .jumpW .lshi1Loop]⟩,
    ⟨[.lshi1End], [
      .plain .ret]⟩,
    ⟨[.LSHI2, .LSHU2], [
      .byte .allocB 5, .byte .addrlB 0, .byte .addrlB (-7), .plain .store, .byte .addrlB 2, .byte .addrlB (-6),
      .plain .store, .link .jumpW .l5]⟩,
    ⟨[.l4], [
      .byte .addrlB 1, .byte .cnstB 0, .plain .store, .byte .iaddrlB 0, .plain .indir, .byte .cnstB 0,
      .wide .cnstW 32768, .byte .cnstB 0, .plain .band2, .byte .cnstB 0, .byte .cnstB 0, .link .call0W .cmpEQI2,
      .byte .discardB 3, .byte .cnstB 0, .link .neW .l7, .byte .addrlB 1, .byte .cnstB 1, .plain .store]⟩,
    ⟨[.l7], [
      .byte .iaddrlB 0, .byte .iaddrlB 0, .plain .indir, .plain .lsh, .plain .store, .byte .iaddrlB 2,
      .byte .iaddrlB 2, .plain .indir, .plain .lsh, .byte .iaddrlB 1, .plain .add, .plain .store,
      .byte .addrlB (-5), .byte .iaddrlB (-5), .byte .subB 1, .plain .store]⟩,
    ⟨[.l5], [
      .byte .iaddrlB (-5), .byte .cnstB 0, .link .neW .l4, .plain .ret]⟩,
    ⟨[.RSHI1, .RSHU1, .rshi1Loop], [
      .byte .iaddrlB (-5), .byte .cnstB 0, .link .eqW .lshi1End, .byte .iaddrlB (-6), .plain .rsh,
      .byte .addrlB (-6), .plain .rstore, .byte .iaddrlB (-5), .byte .subB 1, .byte .addrlB (-5), .plain .rstore,
      .link .jumpW .rshi1Loop]⟩,
    ⟨[.rshi1End], [
      .plain .ret]⟩,
    ⟨[.RSHI2, .RSHU2], [
      .byte .allocB 6, .byte .addrlB 2, .byte .addrlB (-7), .plain .store, .byte .addrlB 0, .byte .addrlB (-6),
      .plain .store, .link .jumpW .l12]⟩,
    ⟨[.l11], [
      .byte .addrlB 3, .byte .cnstB 0, .plain .store, .byte .addrlB 1, .byte .iaddrlB 3, .plain .store,
      .byte .iaddrlB 0, .plain .indir, .byte .bandB 1, .byte .iaddrlB 3, .link .eqW .l14, .byte .addrlB 1,
      .wide .cnstW 32768, .plain .store]⟩,
    ⟨[.l14], [
      .byte .iaddrlB 2, .byte .iaddrlB 2, .plain .indir, .plain .rsh, .byte .iaddrlB 1, .plain .add, .plain .store,
      .byte .iaddrlB 0, .byte .iaddrlB 0, .plain .indir, .plain .rsh, .plain .store, .byte .addrlB (-5),
      .byte .iaddrlB (-5), .byte .subB 1, .plain .store]⟩,
    ⟨[.l12], [
      .byte .iaddrlB (-5), .byte .cnstB 0, .link .neW .l11, .plain .ret]⟩,
    ⟨[.DIVU1, .DIVI1], [
      .byte .cnstB 0, .byte .cnstB 0, .link .jumpW .divu1_3]⟩,
    ⟨[.divu1_2], [
      .byte .addrlB 1, .byte .iaddrlB 1, .byte .addB 1, .plain .store, .byte .addrlB 0, .byte .iaddrlB 0,
      .byte .iaddrlB (-5), .plain .add, .plain .store]⟩,
    ⟨[.divu1_3], [
      .byte .iaddrlB 0, .byte .iaddrlB (-6), .link .uleW .divu1_2, .byte .addrlB 1, .byte .iaddrlB 1, .byte .subB 1,
      .plain .store, .byte .iaddrlB 1, .byte .addrlB (-6), .plain .rstore, .plain .ret]⟩,
    ⟨[.divu1_1, .MODU1, .MODI1], [
      .byte .iaddrlB (-6), .plain .dupOp, .byte .iaddrlB (-5), .link .call0W .DIVU1, .byte .discardB 1,
      .byte .iaddrlB (-5), .link .call0W .MULI1, .byte .discardB 1, .plain .sub, .byte .addrlB (-6), .plain .rstore,
      .plain .ret]⟩,
    ⟨[.DIVU2, .DIVI2], [
      .byte .allocB 8, .byte .addrlB 0, .byte .addrlB (-6), .plain .indir2, .plain .store2, .byte .addrlB 2,
      .byte .cnstB 1, .byte .cnstB 0, .plain .store2, .byte .addrlB 4, .byte .cnstB 0, .byte .cnstB 0,
      .plain .store2, .byte .addrlB 0, .plain .indir2, .byte .addrlB (-8), .plain .indir2, .link .call0W .cmpLEU2,
      .byte .discardB 3, .byte .cnstB 0, .link .neW .l2_d2, .byte .cnstB 0, .byte .cnstB 0, .byte .addrlB (-8),
      .plain .rstore2, .plain .ret]⟩,
    ⟨[.l2_d2], [
      .byte .addrlB 0, .plain .indir2, .byte .addrlB (-8), .plain .indir2, .link .call0W .cmpNEU2,
      .byte .discardB 3, .byte .cnstB 0, .link .neW .l7_d2, .byte .cnstB 1, .byte .cnstB 0, .byte .addrlB (-8),
      .plain .rstore2, .plain .ret]⟩,
    ⟨[.l6_d2], [
      .byte .addrlB 6, .byte .cnstB 1, .plain .store, .byte .addrlB 0, .byte .addrlB 0, .plain .indir2,
      .byte .iaddrlB 6, .link .call0W .LSHU2, .byte .discardB 1, .plain .store2, .byte .addrlB 2, .byte .addrlB 2,
      .plain .indir2, .byte .iaddrlB 6, .link .call0W .LSHU2, .byte .discardB 1, .plain .store2]⟩,
    ⟨[.l7_d2], [
      .byte .addrlB 0, .plain .indir2, .byte .addrlB (-8), .plain .indir2, .link .call0W .cmpLEU2,
      .byte .discardB 3, .byte .cnstB 0, .link .neW .l6_d2, .byte .addrlB 6, .byte .cnstB 1, .plain .store,
      .byte .addrlB 0, .byte .addrlB 0, .plain .indir2, .byte .iaddrlB 6, .link .call0W .RSHU2, .byte .discardB 1,
      .plain .store2, .byte .addrlB 2, .byte .addrlB 2, .plain .indir2, .byte .iaddrlB 6, .link .call0W .RSHU2,
      .byte .discardB 1, .plain .store2, .link .jumpW .l10_d2]⟩,
    ⟨[.l9_d2], [
      .byte .addrlB (-8), .plain .indir2, .byte .addrlB 0, .plain .indir2, .link .call0W .cmpLTU2,
      .byte .discardB 3, .byte .cnstB 0, .link .neW .l12_d2, .byte .addrlB (-8), .byte .addrlB (-8), .plain .indir2,
      .byte .addrlB 0, .plain .indir2, .plain .sub2, .plain .store2, .byte .addrlB 4, .byte .addrlB 4,
      .plain .indir2, .byte .addrlB 2, .plain .indir2, .plain .bor2, .plain .store2]⟩,
    ⟨[.l12_d2], [
      .byte .addrlB 7, .byte .cnstB 1, .plain .store, .byte .addrlB 2, .byte .addrlB 2, .plain .indir2,
      .byte .iaddrlB 7, .link .call0W .RSHU2, .byte .discardB 1, .plain .store2, .byte .addrlB 0, .byte .addrlB 0,
      .plain .indir2, .byte .iaddrlB 7, .link .call0W .RSHU2, .byte .discardB 1, .plain .store2]⟩,
    ⟨[.l10_d2], [
      .byte .addrlB 2, .plain .indir2, .byte .cnstB 0, .byte .cnstB 0, .link .call0W .cmpNEU2, .byte .discardB 3,
      .byte .cnstB 0, .link .neW .l9_d2, .byte .addrlB 4, .plain .indir2, .byte .addrlB (-8), .plain .rstore2,
      .plain .ret]⟩,
    ⟨[.MODU2, .MODI2], [
      .byte .allocB 4, .byte .addrlB 0, .byte .addrlB (-8), .plain .indir2, .plain .store2, .byte .addrlB 2,
      .byte .addrlB (-6), .plain .indir2, .plain .store2, .byte .addrlB 0, .plain .indir2, .byte .addrlB 0,
      .plain .indir2, .byte .addrlB 2, .plain .indir2, .link .call0W .DIVU2, .byte .discardB 2, .byte .addrlB 2,
      .plain .indir2, .link .call0W .MULU2, .byte .discardB 2, .plain .sub2, .byte .addrlB (-8), .plain .rstore2,
      .plain .ret]⟩,
    ⟨[.cmpGEU2], [
      .byte .addrlB (-8), .byte .iaddrlB (-7), .byte .iaddrlB (-5), .link .ultW .cmpFalse, .byte .iaddrlB (-7),
      .byte .iaddrlB (-5), .link .ugtW .cmpTrue, .byte .iaddrlB (-8), .byte .iaddrlB (-6), .link .ultW .cmpFalse,
      .link .jumpW .cmpTrue]⟩,
    ⟨[.cmpGTU2], [
      .byte .addrlB (-8), .byte .iaddrlB (-7), .byte .iaddrlB (-5), .link .ultW .cmpFalse, .byte .iaddrlB (-7),
      .byte .iaddrlB (-5), .link .ugtW .cmpTrue, .byte .iaddrlB (-8), .byte .iaddrlB (-6), .link .uleW .cmpFalse,
      .link .jumpW .cmpTrue]⟩,
    ⟨[.cmpLEU2], [
      .byte .addrlB (-8), .byte .iaddrlB (-7), .byte .iaddrlB (-5), .link .ugtW .cmpFalse, .byte .iaddrlB (-7),
      .byte .iaddrlB (-5), .link .ultW .cmpTrue, .byte .iaddrlB (-8), .byte .iaddrlB (-6), .link .ugtW .cmpFalse,
      .link .jumpW .cmpTrue]⟩,
    ⟨[.cmpLTU2], [
      .byte .addrlB (-8), .byte .iaddrlB (-7), .byte .iaddrlB (-5), .link .ugtW .cmpFalse, .byte .iaddrlB (-7),
      .byte .iaddrlB (-5), .link .ultW .cmpTrue, .byte .iaddrlB (-8), .byte .iaddrlB (-6), .link .ugeW .cmpFalse,
      .link .jumpW .cmpTrue]⟩,
    ⟨[.cmpGEI2], [
      .byte .addrlB (-8), .byte .iaddrlB (-7), .byte .iaddrlB (-5), .link .ltW .cmpFalse, .byte .iaddrlB (-7),
      .byte .iaddrlB (-5), .link .gtW .cmpTrue, .byte .iaddrlB (-8), .byte .iaddrlB (-6), .link .eqW .cmpTrue,
      .byte .iaddrlB (-8), .byte .iaddrlB (-6), .link .uleW .cmpGeiCnt, .byte .iaddrlB (-7), .wide .bandW 0x8000,
      .byte .cnstB 0, .link .neW .cmpFalse, .link .jumpW .cmpTrue]⟩,
    ⟨[.cmpGeiCnt], [
      .byte .iaddrlB (-7), .wide .bandW 0x8000, .byte .cnstB 0, .link .neW .cmpTrue, .link .jumpW .cmpFalse]⟩,
    ⟨[.cmpGTI2], [
      .byte .addrlB (-8), .byte .iaddrlB (-7), .byte .iaddrlB (-5), .link .ltW .cmpFalse, .byte .iaddrlB (-7),
      .byte .iaddrlB (-5), .link .gtW .cmpTrue, .byte .iaddrlB (-8), .byte .iaddrlB (-6), .link .eqW .cmpFalse,
      .byte .iaddrlB (-8), .byte .iaddrlB (-6), .link .uleW .cmpGtiCnt, .byte .iaddrlB (-7), .wide .bandW 0x8000,
      .byte .cnstB 0, .link .neW .cmpFalse, .link .jumpW .cmpTrue]⟩,
    ⟨[.cmpGtiCnt], [
      .byte .iaddrlB (-7), .wide .bandW 0x8000, .byte .cnstB 0, .link .neW .cmpTrue, .link .jumpW .cmpFalse]⟩,
    ⟨[.cmpLEI2], [
      .byte .addrlB (-8), .byte .iaddrlB (-7), .byte .iaddrlB (-5), .link .gtW .cmpFalse, .byte .iaddrlB (-7),
      .byte .iaddrlB (-5), .link .ltW .cmpTrue, .byte .iaddrlB (-8), .byte .iaddrlB (-6), .link .eqW .cmpTrue,
      .byte .iaddrlB (-8), .byte .iaddrlB (-6), .link .ugeW .cmpLeiCnt, .byte .iaddrlB (-7), .wide .bandW 0x8000,
      .byte .cnstB 0, .link .neW .cmpFalse, .link .jumpW .cmpTrue]⟩,
    ⟨[.cmpLeiCnt], [
      .byte .iaddrlB (-7), .wide .bandW 0x8000, .byte .cnstB 0, .link .neW .cmpTrue, .link .jumpW .cmpFalse]⟩,
    ⟨[.cmpLTI2], [
      .byte .addrlB (-8), .byte .iaddrlB (-7), .byte .iaddrlB (-5), .link .gtW .cmpFalse, .byte .iaddrlB (-7),
      .byte .iaddrlB (-5), .link .ltW .cmpTrue, .byte .iaddrlB (-8), .byte .iaddrlB (-6), .link .eqW .cmpFalse,
      .byte .iaddrlB (-8), .byte .iaddrlB (-6), .link .ugeW .cmpLtiCnt, .byte .iaddrlB (-7), .wide .bandW 0x8000,
      .byte .cnstB 0, .link .neW .cmpFalse, .link .jumpW .cmpTrue]⟩,
    ⟨[.cmpLtiCnt], [
      .byte .iaddrlB (-7), .wide .bandW 0x8000, .byte .cnstB 0, .link .neW .cmpTrue, .link .jumpW .cmpFalse]⟩,
    ⟨[.cmpEQU2, .cmpEQI2], [
      .byte .addrlB (-8), .byte .iaddrlB (-7), .byte .iaddrlB (-5), .link .neW .cmpFalse, .byte .iaddrlB (-8),
      .byte .iaddrlB (-6), .link .neW .cmpFalse, .link .jumpW .cmpTrue]⟩,
    ⟨[.cmpNEU2, .cmpNEI2], [
      .byte .addrlB (-8), .byte .iaddrlB (-7), .byte .iaddrlB (-5), .link .neW .cmpTrue, .byte .iaddrlB (-8),
      .byte .iaddrlB (-6), .link .neW .cmpTrue, .link .jumpW .cmpFalse]⟩,
    ⟨[.cmpTrue], [
      .byte .cnstB 1, .plain .store, .plain .ret]⟩,
    ⟨[.cmpFalse], [
      .byte .cnstB 0, .plain .store, .plain .ret]⟩
  ]

/-- Every label is in the listing. -/
theorem offsetOf_lt (l : MathLabel) : offsetOf mathS l < blocksOf mathS := by
  cases l <;> decide

/-- `math.s` at the block `org`, with the code `caller` that calls it. -/
structure MathPlace where
  org : Nat
  fits : org + blocksOf mathS ≤ 0x10000
  caller : Nat → Prop
  low : ∀ pc, caller pc → pc < 0x80000

/-- The listing in its place. -/
def MathPlace.image (p : MathPlace) : Image MathLabel := placed mathS p.org p.fits p.caller p.low

/-! ### Double words -/

/-- The word of a double word on top. -/
def high (a : BitVec 32) : Word := (a >>> 16).setWidth 16

/-- The word of a double word below. -/
def low (a : BitVec 32) : Word := a.setWidth 16

/-- A double word on the stack. -/
def double (a : BitVec 32) : List Word := [high a, low a]

theorem toNat_high (a : BitVec 32) : (high a).toNat = a.toNat / 65536 := by
  unfold high
  rw [BitVec.toNat_setWidth, BitVec.toNat_ushiftRight, Nat.shiftRight_eq_div_pow]
  omega

theorem toNat_low (a : BitVec 32) : (low a).toNat = a.toNat % 65536 := BitVec.toNat_setWidth 16 a

theorem high_append_low (a : BitVec 32) : high a ++ low a = a := by
  apply BitVec.eq_of_toNat_eq
  rw [BitVec.toNat_append, ← Nat.shiftLeft_add_eq_or_of_lt (low a).isLt, Nat.shiftLeft_eq, toNat_high, toNat_low]
  omega

theorem eq_of_words {a b : BitVec 32} (highs : high a = high b) (lows : low a = low b) : a = b := by
  rw [← high_append_low a, ← high_append_low b, highs, lows]

/-- A double word with its sign. -/
theorem toInt_words (a : BitVec 32) : a.toInt = (high a).toInt * 65536 + (low a).toNat := by
  rw [BitVec.toInt_eq_toNat_cond, BitVec.toInt_eq_toNat_cond, toNat_high, toNat_low]
  omega

/-! ### Calls of the routines -/

/-- The words of the stack, from the first argument on, that the routines use at most. -/
abbrev mathDepth : Nat := 64

/-- **A call of the routine at `l`**, with `args` on the stack, its top first: the processor is before the `call0_w`,
and the words `after` follow it. -/
structure CallSite (ι : Type) (l : MathLabel) (args after : List Word) where
  org : Nat
  fits : org + blocksOf mathS ≤ 0x10000
  window : Window ι
  deep : mathDepth ≤ window.size
  stack : At window window.k.pc ⟨.word window.k.ap, .word window.k.bp, args.map .word⟩ window.k
  library : CodeAt window (fun _ => True) (org * 8)
    ((codeFrom mathS).flatMap (Instr.words fun l => BitVec.ofNat 16 (org + offsetOf mathS l)))
  call : CodeAt window (fun _ => True) window.k.pc
    (Op.call0W.word :: BitVec.ofNat 16 (org + offsetOf mathS l) :: after)
  back : window.k.pc + 2 + after.length < 0x80000
  apart : ∀ pc, window.k.pc ≤ pc → pc ≤ window.k.pc + 2 + after.length → ¬ InListing mathS org pc

namespace CallSite

variable {ι : Type} {l : MathLabel} {args after : List Word} (site : CallSite ι l args after)

/-- Where the call is. -/
abbrev pc : Nat := site.window.k.pc

/-- Where the call and the words after it end. -/
abbrev next : Nat := site.pc + 2 + after.length

/-- The routines, and the words of the call. -/
def place : MathPlace where
  org := site.org
  fits := site.fits
  caller p := site.pc ≤ p ∧ p < site.next
  low _ within := within.2.trans site.back

/-- The call alone. -/
def bare : CallSite ι l args [] where
  org := site.org
  fits := site.fits
  window := site.window
  deep := site.deep
  stack := site.stack
  library := site.library
  call := (show CodeAt _ _ _ ([_, _] ++ _) from site.call).left
  back := by
    have := site.back
    simp only [List.length_nil]
    omega
  apart pc low high := site.apart pc low (high.trans (Nat.le_add_right _ _))

/-- **From the call the processor comes to `pc`**, where it leaves the routines and the call for the first time: `ws`
is in place of the arguments, and nothing but the words after them has changed. -/
def Leads (D : Devices ι) (pc : Nat) (ws : List Val) : Prop :=
  ∃ t, Ends (StepIn D site.place.image.inside) site.window.k t ∧
    At site.window pc ⟨.word site.window.k.ap, .word site.window.k.bp, ws⟩ t

/-- The address `p` is neither in the routines nor in the call. -/
def Outside (p : Nat) : Prop := ¬ site.place.image.inside p

variable {site} {D : Devices ι}

theorem library_inside : CodeAt site.window site.place.image.inside (site.org * 8)
    (site.place.image.words (codeFrom mathS)) := by
  refine site.library.within fun j low => Or.inl ⟨Nat.le_add_right _ _, ?_⟩
  have length := words_codeFrom_length (fun l => BitVec.ofNat 16 (site.org + offsetOf mathS l)) mathS
  rw [length] at low
  show _ < (site.org + blocksOf mathS) * 8
  omega

theorem call_inside : CodeAt site.window site.place.image.inside site.pc
    (Op.call0W.word :: site.place.image.addr l :: after) := by
  refine site.call.within fun j low => Or.inr ⟨Nat.le_add_right _ _, ?_⟩
  show site.pc + j < site.pc + 2 + after.length
  simp only [List.length_cons] at low
  omega

theorem loaded : site.place.image.Loaded site.window := placed_loaded offsetOf_lt library_inside

variable {need pc : Nat} {results : List Word} {ws : List Val} {u : Cpu (Demux ι)}

/-- The call itself. -/
theorem called (serves : Serves D site.place.image need l args results) (depth : need ≤ mathDepth) :
    ∃ u, ReflTransGen (StepIn D site.place.image.inside) site.window.k u ∧
      At site.window (site.pc + 2) ⟨.word site.window.k.ap, .word site.window.k.bp, results.map .word⟩ u := by
  have here : At site.window site.pc ⟨.word site.window.k.ap, .word site.window.k.bp, args.map .word ++ []⟩
      site.window.k := by
    rw [List.append_nil]
    exact site.stack
  obtain ⟨u, steps, there⟩ := serves.atCall here call_inside loaded (depth.trans site.deep)
    (lt_of_le_of_lt (Nat.le_add_right _ _) site.back)
  rw [List.append_nil] at there
  exact ⟨u, steps.to_reflTransGen, there⟩

theorem outside_next : site.Outside site.next := by
  rintro (inListing | ⟨-, inCall⟩)
  · exact site.apart _ ((Nat.le_add_right _ _).trans (Nat.le_add_right _ _)) (le_refl _) inListing
  · exact lt_irrefl _ inCall

theorem leads_of_steps (steps : ReflTransGen (StepIn D site.place.image.inside) site.window.k u)
    (there : At site.window pc ⟨.word site.window.k.ap, .word site.window.k.bp, ws⟩ u) (outside : site.Outside pc) :
    site.Leads D pc ws :=
  ⟨u, ⟨steps, fun _ step => outside (there.pc ▸ step.2)⟩, there⟩

/-- **What a call of a routine that returns leaves.** -/
theorem leads_iff {site : CallSite ι l args []} (serves : Serves D site.place.image need l args results)
    (depth : need ≤ mathDepth) (length : ws.length = results.length) :
    site.Leads D site.next ws ↔ List.Forall₂ (Val.Is site.window.base) ws results := by
  obtain ⟨u, steps, there⟩ := called serves depth
  obtain ⟨t, ends, there⟩ := leads_of_steps steps there outside_next
  rw [← there.words_iff length]
  constructor
  · rintro ⟨t', ends', there'⟩
    rwa [ends.unique (stepIn_deterministic _ _) ends']
  · intro there'
    exact ⟨t, ends, there'⟩

/-- A call of a routine that never returns leads nowhere. -/
theorem not_leads (hangs : Hangs D site.place.image need l args) (depth : need ≤ mathDepth) :
    ¬ site.Leads D pc ws := by
  rintro ⟨t, ends, -⟩
  have here : At site.window site.pc ⟨.word site.window.k.ap, .word site.window.k.bp, args.map .word ++ []⟩
      site.window.k := by
    rw [List.append_nil]
    exact site.stack
  exact hangs.atCall here call_inside loaded (depth.trans site.deep) t ends

end CallSite

/-! ### A machine with a call

The routines are at block 512, the call at 256 and the stack at 16384, with the MMU off and no devices. -/

section Machine

variable (l : MathLabel) (args after : List Word)

/-- The words of the call. -/
def callWords : List Word := Op.call0W.word :: BitVec.ofNat 16 (512 + offsetOf mathS l) :: after

/-- The words of the routines. -/
def mathWords : List Word := (codeFrom mathS).flatMap (Instr.words fun l => BitVec.ofNat 16 (512 + offsetOf mathS l))

/-- The machine before the call. -/
def callMachine : Cpu (Demux Unit) :=
  { ra := 0, rb := 0, ap := 0x10, bp := 0x20, sp := 0x4000 + BitVec.ofNat 16 args.length, pc := 0x100,
    ir := 0, s := 0, d := 0,
    commitEnabled := true, intEnabled := false, userMode := false, mmuEnabled := false, mmuEntrySelector := 0,
    shadow := ⟨0, 0, 0, 0, 0, 0⟩,
    demux :=
      { ram := fun a =>
          if a < 0x1000 then (callWords l after).getD (a - 0x100) 0
          else if a < 0x4000 then mathWords.getD (a - 0x1000) 0
          else args.reverse.getD (a - 0x4000) 0
        table := fun _ => 0
        intCtl := ⟨0, 0, fun _ => 0⟩
        mmuLastFailPage := 0
        devs := () } }

theorem callMachine_reads {p : Nat} (low : p < 0x4000) : (callMachine l args after).Reads .code p p :=
  .of_off rfl (by decide) (by omega)

/-- The words of its stack. -/
def callWindow : Window Unit where
  k := callMachine l args after
  base := 0x4000
  size := mathDepth
  data i := 0x4000 + i
  mapped i inside := by
    have low : i < 64 := inside
    exact .of_off_add rfl (show 0x4000 + i < 2 ^ 16 by omega)
  apart i _ j _ same := Nat.add_left_cancel same
  quiet := .inl rfl

variable {l args after}

/-- Words of the code of the machine. -/
theorem callMachine_code {p : Nat} {ws : List Word} (high : p + ws.length ≤ 0x4000)
    (found : ∀ j w, ws[j]? = some w → (callMachine l args after).demux.ram (p + j) = w) :
    CodeAt (callWindow l args after) (fun _ => True) p ws := by
  intro j w is
  have low : j < ws.length := (List.getElem?_eq_some_iff.mp is).1
  refine ⟨trivial, p + j, callMachine_reads l args after (by omega), found j w is, fun i _ same => ?_⟩
  have same' : p + j = 0x4000 + i := same
  omega

variable (l args after) in
/-- The call on that machine. -/
def callSite (few : args.length ≤ mathDepth) (short : after.length ≤ 8) : CallSite Unit l args after where
  org := 512
  fits := by decide
  window := callWindow l args after
  deep := le_refl _
  stack := by
    refine ⟨rfl, rfl, rfl, ?_, ?_, fun i v found => ?_, fun a away => rfl, .refl _⟩
    · rw [List.length_map]
      rfl
    · rw [List.length_map]
      exact few
    · rw [Mach.load_eq, ← List.map_reverse, List.getElem?_map] at found
      obtain ⟨w, is, rfl⟩ := Option.map_eq_some_iff.mp found
      show (if 0x4000 + i < 0x1000 then _ else if 0x4000 + i < 0x4000 then _ else args.reverse.getD
        (0x4000 + i - 0x4000) 0) = w
      rw [if_neg (by omega), if_neg (by omega), Nat.add_sub_cancel_left, List.getD_eq_getElem?_getD, is, Option.getD_some]
  library := by
    have length : mathWords.length = 8 * blocksOf mathS := words_codeFrom_length _ mathS
    have blocks : blocksOf mathS ≤ 1000 := by decide
    have high : 512 * 8 + mathWords.length ≤ 0x4000 := by
      rw [length]
      omega
    show CodeAt _ _ _ mathWords
    refine callMachine_code high fun j w found => ?_
    have low : j < mathWords.length := (List.getElem?_eq_some_iff.mp found).1
    show (if 512 * 8 + j < 0x1000 then _ else if 512 * 8 + j < 0x4000 then mathWords.getD
      (512 * 8 + j - 0x1000) 0 else _) = w
    rw [if_neg (by omega), if_pos (by omega), Nat.add_sub_cancel_left, List.getD_eq_getElem?_getD, found, Option.getD_some]
  call := by
    have length : (callWords l after).length = after.length + 2 := rfl
    refine callMachine_code (by show 0x100 + (callWords l after).length ≤ 0x4000; omega) fun j w is => ?_
    have low : j < (callWords l after).length := (List.getElem?_eq_some_iff.mp is).1
    show (if 0x100 + j < 0x1000 then (callWords l after).getD (0x100 + j - 0x100) 0 else _) = w
    have found : (callWords l after)[j]? = some w := is
    rw [if_pos (by omega), Nat.add_sub_cancel_left, List.getD_eq_getElem?_getD, found, Option.getD_some]
  back := by
    show 0x100 + 2 + after.length < 0x80000
    omega
  apart pc _ high := by
    have high' : pc ≤ 0x100 + 2 + after.length := high
    rintro ⟨low, -⟩
    omega

end Machine

end RlCpu.Binutils
