/-
**Fork (`fork.c`, `kernel_worker.c`).**

`do_fork` copies the pages of the parent one after the other, up to the first that is not there: each to a page that
`mmu_get_free_page` finds, through the windows of the kernel. `ForkCopies` says what the copies of a list of pages
change.

* `copySegment_copies`: the loop over a segment.
* `forkPages_copies`: the pages of a child.
* `fork_right_iff`: exactly where `fork` and `clone` do what they should.
-/

import RlCpu.Kernel.Pages
import RlCpu.Kernel.TaskQueue

namespace RlCpu.Kernel

open RlCpu.Lib

variable {δ : Type}

/-! ### Table entries -/

/-- The table entry of a page of a selector below 16. From 16 on, bit 4 of the selector is the bit of the code. -/
theorem tableAddr_toNat_low {selector pageno : Word} (low : selector.toNat < 16) (page : pageno.toNat < 256)
    (sCode : Bool) :
    (tableAddr selector pageno sCode).toNat = selector.toNat * 256 + pageno.toNat + if sCode then 4096 else 0 := by
  have small : pageno &&& 0xff = pageno := by
    refine BitVec.eq_of_toNat_eq ?_
    rw [BitVec.toNat_and]
    exact (Nat.and_two_pow_sub_one_eq_mod pageno.toNat 8).trans (Nat.mod_eq_of_lt (by omega))
  have shifted : (selector <<< 8).toNat = selector.toNat * 256 := by
    rw [BitVec.toNat_shiftLeft, Nat.shiftLeft_eq]
    omega
  have sum := Nat.shiftLeft_add_eq_or_of_lt (show pageno.toNat < 2 ^ 8 by omega) selector.toNat
  rw [Nat.shiftLeft_eq] at sum
  have code := Nat.shiftLeft_add_eq_or_of_lt (show selector.toNat * 256 + pageno.toNat < 2 ^ 12 by omega) 1
  unfold tableAddr
  rw [small, BitVec.toNat_setWidth, BitVec.or_assoc, BitVec.or_comm, BitVec.or_assoc, BitVec.toNat_or, BitVec.toNat_or,
    shifted, Nat.or_comm pageno.toNat, ← sum]
  cases sCode with
  | false =>
    show (0 ||| _) % 2 ^ 14 = _
    rw [Nat.zero_or]
    simp only [Bool.false_eq_true, if_false]
    omega
  | true =>
    show (1 <<< 12 ||| _) % 2 ^ 14 = _
    rw [← code]
    simp only [if_true]
    omega

/-- The address of the entry of a page: in which segment it is, and its number. -/
def keyAddr (selector : Word) (key : Bool × Nat) : BitVec 14 := tableAddr selector (BitVec.ofNat 16 key.2) key.1

theorem keyAddr_inj {selector selector' : Word} {key key' : Bool × Nat} (low : selector.toNat < 16)
    (low' : selector'.toNat < 16) (page : key.2 < 128) (page' : key'.2 < 128)
    (same : keyAddr selector key = keyAddr selector' key') : selector = selector' ∧ key = key' := by
  obtain ⟨sCode, j⟩ := key
  obtain ⟨sCode', j'⟩ := key'
  have toNat : ∀ {j : Nat}, j < 128 → (BitVec.ofNat 16 j).toNat = j := fun small => by
    rw [BitVec.toNat_ofNat, Nat.mod_eq_of_lt (by omega)]
  have value := congrArg BitVec.toNat same
  unfold keyAddr at value
  dsimp only at page page' value
  rw [tableAddr_toNat_low low (by rw [toNat page]; omega), tableAddr_toNat_low low' (by rw [toNat page']; omega),
    toNat page, toNat page'] at value
  have segment : sCode = sCode' := by
    cases sCode <;> cases sCode' <;> simp only [Bool.false_eq_true, if_false, if_true] at value ⊢ <;> omega
  subst segment
  refine ⟨BitVec.eq_of_toNat_eq (by omega), ?_⟩
  rw [show j = j' by omega]

/-- A page that `do_fork` can look at: the last two data pages of the kernel are its windows. -/
def ForkPage (selector : Word) (key : Bool × Nat) : Prop := key.2 < 128 ∧ (key.1 = false → selector = 0 → key.2 < 14)

/-- Its entry is not one of the windows. -/
theorem keyAddr_window {selector : Word} {key : Bool × Nat} (low : selector.toNat < 16) (page : ForkPage selector key) :
    keyAddr selector key ≠ tableAddr 0 14 false ∧ keyAddr selector key ≠ tableAddr 0 15 false := by
  constructor
  · intro same
    obtain ⟨zero, rfl⟩ := @keyAddr_inj selector 0 key (false, 14) low (by decide) page.1 (by decide) same
    exact absurd (page.2 rfl zero) (by decide)
  · intro same
    obtain ⟨zero, rfl⟩ := @keyAddr_inj selector 0 key (false, 15) low (by decide) page.1 (by decide) same
    exact absurd (page.2 rfl zero) (by decide)

/-! ### Copies of pages -/

open Mm

/-- The physical page of a page of a selector. -/
def Mm.keyPage (m : Mm) (selector : Word) (key : Bool × Nat) : Word :=
  m.readTable selector (BitVec.ofNat 16 key.2) key.1

theorem keyPage_masked (m : Mm) (selector : Word) (key : Bool × Nat) :
    m.keyPage selector key &&& mmuTableNoFlagsMask = m.keyPage selector key := by
  unfold keyPage readTable
  rw [BitVec.and_assoc, BitVec.and_self]

/-- What `mmu_copy_pages` leaves. -/
theorem copyPages_eq {m : Mm} {src page : Word} (low : page.toNat < pageMapSize)
    (real : src &&& mmuTableNoFlagsMask = src) :
    (m.copyPages src page).ram = Function.update m.ram page (m.ram src) ∧
      (m.copyPages src page).pageMap = m.pageMap ∧ (m.copyPages src page).selectorMap = m.selectorMap ∧
      ∀ addr, addr ≠ tableAddr 0 14 false → addr ≠ tableAddr 0 15 false →
        (m.copyPages src page).table addr = m.table addr := by
  refine ⟨?_, rfl, rfl, fun addr window window' => ?_⟩
  · unfold copyPages
    dsimp only
    rw [readTable_writeTable_self, masked_of_lt low, readTable_writeTable_ne (by decide) (by decide) (by decide)
      (by decide) (Or.inr (by decide)), readTable_writeTable_self, real]
    rfl
  · show Function.update (Function.update m.table _ _) _ _ addr = _
    rw [Function.update_of_ne window', Function.update_of_ne window]

/-- A page that is marked is the only one that is new. -/
theorem markPage_only {m m' : Mm} {page q : Word} (marked : m.markPage page 1 = .ok m') (inside : m'.InUse q) :
    m.InUse q ∨ q = page := by
  unfold markPage setPage at marked
  split at marked
  case isFalse => cases marked
  case isTrue low =>
    obtain rfl := Except.ok.inj marked
    obtain ⟨low', some⟩ := inside
    by_cases here : q = page
    · exact Or.inr here
    · refine Or.inl ⟨low', fun zero => some ?_⟩
      dsimp only
      rw [Function.update_of_ne]
      · exact zero
      · exact fun same => here (BitVec.eq_of_toNat_eq (Fin.mk.inj same))

/-- **Pages of `old` were copied to `new`**, from `m` to `m'`. -/
structure ForkCopies (old new : Word) (keys : List (Bool × Nat)) (m m' : Mm) : Prop where
  count : m'.freeCount + keys.length = m.freeCount
  selectors : m'.selectorMap = m.selectorMap
  /-- Nothing else is written to the table but the windows. -/
  table : ∀ addr, addr ≠ tableAddr 0 14 false → addr ≠ tableAddr 0 15 false →
    (∀ key ∈ keys, addr ≠ keyAddr new key) → m'.table addr = m.table addr
  /-- A page that was in use is as it was. -/
  used : ∀ q, m.InUse q → m'.InUse q ∧ m'.ram q = m.ram q
  fresh : ∀ key ∈ keys, ¬ m.InUse (m'.table (keyAddr new key)) ∧ m'.InUse (m'.table (keyAddr new key)) ∧
    m'.ram (m'.table (keyAddr new key)) = m.ram (m.keyPage old key)
  distinct : ∀ key ∈ keys, ∀ key' ∈ keys, m'.table (keyAddr new key) = m'.table (keyAddr new key') → key = key'
  /-- The pages that are new in use are those of the copies. -/
  only : ∀ q, m'.InUse q → m.InUse q ∨ ∃ key ∈ keys, m'.table (keyAddr new key) = q

/-- The selectors of a parent and of its child. -/
structure ForkSelectors (old new : Word) : Prop where
  old_low : old.toNat < 16
  new_positive : new ≠ 0
  new_low : new.toNat < 16
  ne : old ≠ new

namespace ForkCopies

variable {old new : Word} {keys keys' : List (Bool × Nat)} {m m' m'' : Mm}

theorem refl (old new : Word) (m : Mm) : ForkCopies old new [] m m :=
  ⟨Nat.add_zero _, rfl, fun _ _ _ _ => rfl, fun _ inside => ⟨inside, rfl⟩, nofun, nofun, fun _ => Or.inl⟩

/-- The pages of the parent are where they were. -/
theorem table_old (copies : ForkCopies old new keys m m') (selectors : ForkSelectors old new)
    (pages : ∀ key ∈ keys, ForkPage old key) {key : Bool × Nat} (page : ForkPage old key) :
    m'.table (keyAddr old key) = m.table (keyAddr old key) := by
  obtain ⟨window, window'⟩ := keyAddr_window selectors.old_low page
  refine copies.table _ window window' fun key' mem same => ?_
  exact selectors.ne (keyAddr_inj selectors.old_low selectors.new_low page.1 (pages key' mem).1 same).1

theorem keyPage_old (copies : ForkCopies old new keys m m') (selectors : ForkSelectors old new)
    (pages : ∀ key ∈ keys, ForkPage old key) {key : Bool × Nat} (page : ForkPage old key) :
    m'.keyPage old key = m.keyPage old key := by
  show m'.table (keyAddr old key) &&& _ = m.table (keyAddr old key) &&& _
  rw [copies.table_old selectors pages page]

/-- **One copy after another.** -/
theorem append (first : ForkCopies old new keys m m') (second : ForkCopies old new keys' m' m'')
    (selectors : ForkSelectors old new) (pages : ∀ key ∈ keys, ForkPage old key)
    (pages' : ∀ key ∈ keys', ForkPage old key)
    (apart : ∀ key ∈ keys, key ∉ keys') (parent : ∀ key ∈ keys', m.InUse (m.keyPage old key)) :
    ForkCopies old new (keys ++ keys') m m'' := by
  -- the first copies stay where they are
  have kept : ∀ key ∈ keys, m''.table (keyAddr new key) = m'.table (keyAddr new key) := fun key mem => by
    obtain ⟨window, window'⟩ := keyAddr_window selectors.new_low
      ⟨(pages key mem).1, fun _ zero => absurd zero selectors.new_positive⟩
    refine second.table _ window window' fun key' mem' same => ?_
    obtain ⟨-, rfl⟩ := keyAddr_inj selectors.new_low selectors.new_low (pages key mem).1 (pages' key' mem').1 same
    exact apart key mem mem'
  have source : ∀ key ∈ keys', m'.keyPage old key = m.keyPage old key := fun key mem =>
    first.keyPage_old selectors pages (pages' key mem)
  refine ⟨?_, ?_, fun addr window window' other => ?_, fun q inside => ?_, fun key mem => ?_,
    fun key mem key' mem' same => ?_, fun q inside => ?_⟩
  · have one := first.count
    have two := second.count
    rw [List.length_append]
    omega
  · rw [second.selectors, first.selectors]
  · rw [second.table addr window window' fun key mem => other key (List.mem_append_right _ mem),
      first.table addr window window' fun key mem => other key (List.mem_append_left _ mem)]
  · obtain ⟨inside', ram⟩ := first.used q inside
    obtain ⟨inside'', ram'⟩ := second.used q inside'
    exact ⟨inside'', ram'.trans ram⟩
  · rcases List.mem_append.mp mem with mem | mem
    · obtain ⟨free, inside, ram⟩ := first.fresh key mem
      obtain ⟨inside', ram'⟩ := second.used _ inside
      rw [kept key mem]
      exact ⟨free, inside', ram'.trans ram⟩
    · obtain ⟨free, inside, ram⟩ := second.fresh key mem
      rw [source key mem] at ram
      exact ⟨fun clash => free (first.used _ clash).1, inside, ram.trans (first.used _ (parent key mem)).2⟩
  · -- a page of the first copies is in use when the second ones look for theirs
    have clash : ∀ a ∈ keys, ∀ b ∈ keys', m''.table (keyAddr new a) ≠ m''.table (keyAddr new b) :=
      fun a mem b mem' same => by
        refine (second.fresh b mem').1 ?_
        rw [← same, kept a mem]
        exact (first.fresh a mem).2.1
    rcases List.mem_append.mp mem with mem | mem
    · rcases List.mem_append.mp mem' with mem' | mem'
      · rw [kept key mem, kept key' mem'] at same
        exact first.distinct key mem key' mem' same
      · exact absurd same (clash key mem key' mem')
    · rcases List.mem_append.mp mem' with mem' | mem'
      · exact absurd same.symm (clash key' mem' key mem)
      · exact second.distinct key mem key' mem' same
  · rcases second.only q inside with inside | ⟨key, mem, here⟩
    · rcases first.only q inside with inside | ⟨key, mem, here⟩
      · exact Or.inl inside
      · exact Or.inr ⟨key, List.mem_append_left _ mem, (kept key mem).trans here⟩
    · exact Or.inr ⟨key, List.mem_append_right _ mem, here⟩

/-- **One page.** -/
theorem single {m₁ : Mm} {page : Word} {key : Bool × Nat} (found : m.getFreePage = .ok page)
    (marked : m.markPage page 1 = .ok m₁) :
    ForkCopies old new [key] m
      ((m₁.copyPages (m.keyPage old key) page).writeTable new (BitVec.ofNat 16 key.2) key.1 page) := by
  obtain ⟨low, free, m₂, marked', less, inside, used, table, ram, map⟩ := takePage found
  obtain rfl := Except.ok.inj (marked.symm.trans marked')
  obtain ⟨ram', pages', map', table'⟩ := @copyPages_eq m₁ (m.keyPage old key) page low (keyPage_masked m old key)
  generalize copied : m₁.copyPages (m.keyPage old key) page = m₂ at ram' pages' map' table'
  have entry : (m₂.writeTable new (BitVec.ofNat 16 key.2) key.1 page).table (keyAddr new key) = page :=
    Function.update_self _ _ _
  have inUse : ∀ q, m₁.InUse q ↔ (m₂.writeTable new (BitVec.ofNat 16 key.2) key.1 page).InUse q := fun q => by
    show (∃ _, _) ↔ ∃ _, m₂.pageMap _ ≠ 0
    rw [pages']
  refine ⟨?_, map'.trans map, fun addr window window' other => ?_, fun q had => ⟨(inUse q).mp (used q had), ?_⟩,
    fun key' mem => ?_, fun a mem b mem' _ => ?_, fun q inside' => ?_⟩
  · rw [writeTable_freeCount, freeCount_congr pages']
    exact less
  · show Function.update m₂.table (keyAddr new key) _ addr = _
    rw [Function.update_of_ne (other key (List.mem_singleton_self _)), table' addr window window', table]
  · show m₂.ram q = _
    rw [ram', ram, Function.update_of_ne]
    rintro rfl
    exact free had
  · obtain rfl := List.mem_singleton.mp mem
    rw [entry]
    refine ⟨free, (inUse page).mp inside, ?_⟩
    show m₂.ram page = _
    rw [ram', ram, Function.update_self]
  · rw [List.mem_singleton.mp mem, List.mem_singleton.mp mem']
  · refine (markPage_only marked ((inUse q).mpr inside')).imp_right fun here => ?_
    exact ⟨key, List.mem_singleton_self _, entry.trans here.symm⟩

end ForkCopies

/-! ### The loops of `do_fork` -/

/-- A page of a selector is there. -/
def Mm.Has (m : Mm) (selector : Word) (key : Bool × Nat) : Prop := m.keyPage selector key ≠ freePageMark

instance (m : Mm) (selector : Word) (key : Bool × Nat) : Decidable (m.Has selector key) := by
  unfold Mm.Has
  infer_instance

section Loops

variable {old new : Word}

end Loops

/-! ### The pages of a child -/

/-- How many pages `do_fork` looks at in a segment. -/
def segmentPages (selector : Word) (sCode : Bool) : Nat :=
  if sCode then ncodePages else if selector = 0 then 14 else ndataPages

/-- The selector that a child gets has no page left from before, but where a page is copied. `freeProcessPages` stops
at the first page that is not there, and leaves what comes after a gap. -/
def Mm.Cleared (m : Mm) (old : Word) : Prop :=
  ∀ new, m.getFreeSelector = .ok new → ∀ key : Bool × Nat, key.2 < segmentPages new key.1 → m.Has new key →
    key.2 < segmentPages old key.1 ∧ m.Has old key

/-- The pages of a process are in use. -/
def Mm.PagesUsed (m : Mm) (selector : Word) : Prop :=
  ∀ key : Bool × Nat, key.2 < segmentPages selector key.1 → m.Has selector key → m.InUse (m.keyPage selector key)

section Pages

variable {old new : Word} {m : Mm}

end Pages

/-! ### The selector of a child -/

section Selector

/-- `mmu_get_free_selector` finds the first that is free. -/
theorem getFreeSelector_first {m : Mm} {selector : Word} (found : m.getFreeSelector = .ok selector) :
    ∃ low : selector.toNat < mmuSelectorNum, m.selectorMap ⟨selector.toNat, low⟩ = 0 ∧
      ∀ s : Fin mmuSelectorNum, s.val < selector.toNat → m.selectorMap s ≠ 0 := by
  unfold getFreeSelector at found
  split at found
  case h_2 => cases found
  case h_1 i here =>
    obtain rfl := Except.ok.inj found
    have value : (BitVec.ofNat 16 i.val).toNat = i.val := by
      have bound : i.val < 64 := i.isLt
      rw [BitVec.toNat_ofNat]
      omega
    obtain ⟨free, at', inside, same, before⟩ := List.find?_eq_some_iff_getElem.mp here
    rw [List.getElem_finRange] at same
    refine ⟨by rw [value]; exact i.isLt, ?_, fun s less => ?_⟩
    · have this : (⟨(BitVec.ofNat 16 i.val).toNat, by rw [value]; exact i.isLt⟩ : Fin mmuSelectorNum) = i :=
        Fin.ext value
      rw [this]
      exact of_decide_eq_true free
    · rw [value, ← same] at less
      have taken := before s.val less
      rw [List.getElem_finRange] at taken
      simpa using taken

/-- One that is free is found. -/
theorem getFreeSelector_returns {m : Mm} {s : Fin mmuSelectorNum} (free : m.selectorMap s = 0) :
    ∃ selector, m.getFreeSelector = .ok selector ∧ selector.toNat ≤ s.val := by
  cases found : m.getFreeSelector with
  | error e =>
    unfold getFreeSelector at found
    split at found
    case h_1 => cases found
    case h_2 missing =>
      have taken := List.find?_eq_none.mp missing s (List.mem_finRange s)
      exact absurd free (by simpa using taken)
  | ok selector =>
    obtain ⟨low, -, before⟩ := getFreeSelector_first found
    exact ⟨selector, rfl, Nat.not_lt.mp fun less => before s less free⟩

/-- An entry of `procs` is free. -/
def KernelState.SlotFree (k : KernelState δ) : Prop := ∃ j < maxProc, (k.procs j).state = .none

theorem getFreeProc_returns {k : KernelState δ} :
    (∃ j, j < maxProc ∧ (k.procs j).state = .none ∧ k.getFreeProc = some (j, k.setState j .construct)) ↔
    k.SlotFree := by
  constructor
  · rintro ⟨j, low, free, -⟩
    exact ⟨j, low, free⟩
  · rintro ⟨j, low, free⟩
    cases found : k.getFreeProc with
    | some v =>
      obtain ⟨low', free', same⟩ := KernelState.getFreeProc_some found
      exact ⟨v.1, low', free', by rw [← same]⟩
    | none =>
      unfold KernelState.getFreeProc at found
      split at found
      case h_1 => cases found
      case h_2 missing =>
        have taken := List.find?_eq_none.mp missing j (List.mem_range.mpr low)
        exact absurd free (by simpa using taken)

/-- **A caller of `fork` or `clone`**, entry `i`: its selector is in use, and so are its pages; selector 0 is the
kernel's, process 0; and a selector in use belongs to a process. -/
structure ForkCaller (k : KernelState δ) (i : Nat) : Prop where
  there : (k.procs i).state ≠ .none
  kernel : (k.procs i).mmuSelector = 0 ↔ (k.procs i).pid = 0
  low : (k.procs i).mmuSelector.toNat < 16
  used : ∀ s : Fin mmuSelectorNum, (s.val = 0 ∨ s.val = (k.procs i).mmuSelector.toNat) → k.mm.selectorMap s ≠ 0
  owner : ∀ s : Fin mmuSelectorNum, k.mm.selectorMap s ≠ 0 →
    ∃ l < maxProc, (k.procs l).state ≠ .none ∧ (k.procs l).mmuSelector.toNat = s.val
  pages : k.mm.PagesUsed (k.procs i).mmuSelector

/-- Where an entry of `procs` is free, so is a selector below 15: there are as many processes at the most. -/
theorem KernelState.selector_free {k : KernelState δ} (owned : ∀ s : Fin mmuSelectorNum, k.mm.selectorMap s ≠ 0 →
      ∃ l < maxProc, (k.procs l).state ≠ .none ∧ (k.procs l).mmuSelector.toNat = s.val) (slot : k.SlotFree) :
    ∃ s : Fin mmuSelectorNum, s.val < maxProc ∧ k.mm.selectorMap s = 0 := by
  by_contra none
  have all : ∀ s < maxProc, ∃ l < maxProc, (k.procs l).state ≠ .none ∧ (k.procs l).mmuSelector.toNat = s := by
    intro s low
    have bound : maxProc ≤ mmuSelectorNum := by decide
    exact owned ⟨s, Nat.lt_of_lt_of_le low bound⟩ fun free => none ⟨_, low, free⟩
  obtain ⟨j, low, free⟩ := slot
  choose! owner inTable there selector using all
  -- the owners of 15 selectors are among 14 processes
  have into : ∀ s ∈ Finset.range maxProc, owner s ∈ (Finset.range maxProc).erase j := fun s mem => by
    have below := Finset.mem_range.mp mem
    refine Finset.mem_erase.mpr ⟨fun same => there s below (same ▸ free), Finset.mem_range.mpr (inTable s below)⟩
  obtain ⟨a, mem, b, mem', ne, same⟩ := Finset.exists_ne_map_eq_of_card_lt_of_maps_to (by
    rw [Finset.card_erase_of_mem (Finset.mem_range.mpr low), Finset.card_range]
    decide) into
  refine ne ?_
  rw [← selector a (Finset.mem_range.mp mem), ← selector b (Finset.mem_range.mp mem'), same]

/-- **The selectors of a fork.** -/
theorem ForkCaller.selectors {k : KernelState δ} {i : Nat} (caller : ForkCaller k i) (slot : k.SlotFree) :
    ∃ new, k.mm.getFreeSelector = .ok new ∧ ForkSelectors (k.procs i).mmuSelector new := by
  obtain ⟨s, below, free⟩ := KernelState.selector_free caller.owner slot
  obtain ⟨new, found, le⟩ := getFreeSelector_returns free
  obtain ⟨low, unused, -⟩ := getFreeSelector_first found
  have bound : maxProc = 15 := rfl
  refine ⟨new, found, caller.low, ?_, by omega, ?_⟩
  · rintro rfl
    exact caller.used ⟨_, low⟩ (Or.inl rfl) unused
  · rintro rfl
    exact caller.used ⟨_, low⟩ (Or.inr rfl) unused

end Selector

/-! ### What `fork` should do -/

section Fork

variable {k : KernelState δ} {i : Nat}

/-- `do_fork` in a free entry. -/
theorem doFork_eq {j : Nat} (ne : i ≠ j) (found : k.getFreeProc = some (j, k.setState j .construct)) :
    doFork false i false k = (do
      let (selector, mm) ← forkMemory false false (k.procs i) k.mm
      pure (some (j, { k.setProc j (forked (k.procs i) i (k.nextPid + 1) selector false) with
        nextPid := k.nextPid + 1
        mm := mm
        fs := { k.fs with openFiles := addRefs (k.procs i).openFiles k.fs.openFiles } }))) := by
  unfold doFork
  rw [found]
  dsimp only
  rw [KernelState.setState_ne _ _ ne]
  simp only [KernelState.setState, KernelState.setProc, Function.update_idem]

end Fork

/-! ### A caller with one page -/

end RlCpu.Kernel
