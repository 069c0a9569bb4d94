/-
**Free pages, and the data pages of a new image (`mm.c`, `execve.c`).**

`freeCount` is the number of pages that no table entry uses. `mmu_get_free_page` finds one as long as there is
one, and marking it takes one away.

* `getFreePage_returns`, `takePage`: one page.
* `Loaded`: the first data pages of a selector are real, in use and distinct.
* `uputs_written`: the words that `uputs` stores are read back.
-/

import RlCpu.Kernel.UserMem
import Mathlib.Data.Fintype.Card

namespace RlCpu.Kernel

open RlCpu.Lib

namespace Mm

/-! ### One page -/

/-- The number of free pages. -/
def freeCount (m : Mm) : Nat := (Finset.univ.filter fun i => m.pageMap i = 0).card

theorem freeCount_congr {m m' : Mm} (same : m'.pageMap = m.pageMap) : m'.freeCount = m.freeCount := by
  unfold freeCount
  rw [same]

@[simp] theorem writeTable_freeCount (m : Mm) (process pageno : Word) (sCode : Bool) (entry : Word) :
    (m.writeTable process pageno sCode entry).freeCount = m.freeCount := freeCount_congr rfl

section Free

variable {m m' : Mm} {page : Word}

/-- `mmu_get_free_page` finds a page exactly where one is free. -/
theorem getFreePage_returns : (∃ page, m.getFreePage = .ok page) ↔ 0 < m.freeCount := by
  unfold getFreePage freeCount
  rw [Finset.card_pos]
  cases found : (List.finRange pageMapSize).find? fun i => m.pageMap i = 0 with
  | some i =>
    have zero := List.find?_some found
    refine iff_of_true ⟨_, rfl⟩ ⟨i, Finset.mem_filter.mpr ⟨Finset.mem_univ i, by simpa using zero⟩⟩
  | none =>
    refine iff_of_false (fun ⟨_, clash⟩ => by cases clash) fun ⟨i, mem⟩ => ?_
    have used := List.find?_eq_none.mp found i (List.mem_finRange i)
    exact used (by simpa using (Finset.mem_filter.mp mem).2)

/-- **A page taken**: it is a real one that nobody had, and there is one less. -/
theorem takePage (found : m.getFreePage = .ok page) :
    page.toNat < pageMapSize ∧ ¬ m.InUse page ∧ ∃ m', m.markPage page 1 = .ok m' ∧
      m'.freeCount + 1 = m.freeCount ∧ m'.InUse page ∧ (∀ q, m.InUse q → m'.InUse q) ∧ m'.table = m.table ∧
      m'.ram = m.ram ∧ m'.selectorMap = m.selectorMap := by
  obtain ⟨low, free⟩ := getFreePage_free found
  refine ⟨low, free, ?_⟩
  have zero : m.pageMap ⟨page.toNat, low⟩ = 0 := by
    by_contra some
    exact free ⟨low, some⟩
  have marked : m.markPage page 1 =
      .ok { m with pageMap := Function.update m.pageMap ⟨page.toNat, low⟩ 1 } := by
    unfold markPage setPage
    rw [dif_pos low]
  obtain ⟨used, kept, table, ram⟩ := setPage_ok (fun _ => by decide) marked
  refine ⟨_, marked, ?_, used, kept, table, ram, rfl⟩
  have less : (Finset.univ.filter fun i => Function.update m.pageMap ⟨page.toNat, low⟩ (1 : Word) i = 0) =
      (Finset.univ.filter fun i => m.pageMap i = 0).erase ⟨page.toNat, low⟩ := by
    ext i
    rw [Finset.mem_erase, Finset.mem_filter, Finset.mem_filter]
    by_cases here : i = ⟨page.toNat, low⟩
    · subst here
      rw [Function.update_self]
      exact iff_of_false (fun clash => absurd clash.2 (by decide)) fun clash => clash.1 rfl
    · rw [Function.update_of_ne here]
      exact ⟨fun mem => ⟨here, mem⟩, fun mem => mem.2⟩
  unfold freeCount
  dsimp only
  rw [less]
  exact Finset.card_erase_add_one (Finset.mem_filter.mpr ⟨Finset.mem_univ _, zero⟩)

end Free

/-! ### Data pages that were loaded -/

/-- The table entry of data page `j`. -/
def dataEntry (m : Mm) (selector : Word) (j : Nat) : Word := m.table (tableAddr selector (BitVec.ofNat 16 j) false)

/-- **The first `n` data pages of a selector are real, without flags, in use and distinct.** -/
structure Loaded (m : Mm) (selector : Word) (n : Nat) : Prop where
  real : ∀ j < n, (m.dataEntry selector j).toNat < pageMapSize
  used : ∀ j < n, m.InUse (m.dataEntry selector j)
  distinct : ∀ i < n, ∀ j < n, m.dataEntry selector i = m.dataEntry selector j → i = j

section Loaded

variable {m m' : Mm} {selector page : Word} {n : Nat}

theorem loaded_zero : Loaded m selector 0 := ⟨nofun, nofun, nofun⟩

theorem Loaded.congr (loaded : Loaded m selector n) (same : ∀ j < n, m'.dataEntry selector j = m.dataEntry selector j)
    (used : ∀ q, m.InUse q → m'.InUse q) : Loaded m' selector n := by
  refine ⟨fun j low => ?_, fun j low => ?_, fun i low j low' clash => ?_⟩
  · rw [same j low]
    exact loaded.real j low
  · rw [same j low]
    exact used _ (loaded.used j low)
  · rw [same i low, same j low'] at clash
    exact loaded.distinct i low j low' clash

/-- Another entry of the table is written. -/
theorem dataEntry_write_ne {process pageno entry : Word} {j : Nat} (low : selector.toNat < mmuSelectorNum)
    (small : j < 16) (low' : process.toNat < mmuSelectorNum) (small' : pageno.toNat < 16)
    (ne : selector ≠ process ∨ BitVec.ofNat 16 j ≠ pageno) :
    (m.writeTable process pageno false entry).dataEntry selector j = m.dataEntry selector j := by
  unfold writeTable dataEntry
  dsimp only
  rw [Function.update_of_ne]
  intro same
  have inside : (BitVec.ofNat 16 j).toNat < 16 := by
    rw [BitVec.toNat_ofNat, Nat.mod_eq_of_lt (by omega)]
    exact small
  obtain ⟨rfl, rfl⟩ := tableAddr_inj low inside low' small' same
  exact ne.elim (fun clash => clash rfl) fun clash => clash rfl

/-- **One more page**: `m'` is the memory where the page was marked. -/
theorem Loaded.take (loaded : Loaded m selector n) (low : selector.toNat < mmuSelectorNum) (small : n < 16)
    (real : page.toNat < pageMapSize) (free : ¬ m.InUse page) (used : m'.InUse page)
    (kept : ∀ q, m.InUse q → m'.InUse q) (table : ∀ j < n, m'.dataEntry selector j = m.dataEntry selector j) :
    Loaded (m'.writeTable selector (BitVec.ofNat 16 n) false page) selector (n + 1) := by
  have last : (m'.writeTable selector (BitVec.ofNat 16 n) false page).dataEntry selector n = page :=
    Function.update_self _ _ _
  have old : ∀ j < n, (m'.writeTable selector (BitVec.ofNat 16 n) false page).dataEntry selector j =
      m.dataEntry selector j := fun j before => by
    rw [dataEntry_write_ne low (by omega) low (by rw [BitVec.toNat_ofNat]; omega), table j before]
    refine Or.inr fun same => ?_
    have value := congrArg BitVec.toNat same
    rw [BitVec.toNat_ofNat, BitVec.toNat_ofNat] at value
    omega
  have apart : ∀ j < n, m.dataEntry selector j ≠ page := fun j before same => free (same ▸ loaded.used j before)
  refine ⟨fun j before => ?_, fun j before => ?_, fun i before j before' same => ?_⟩
  · rcases Nat.lt_succ_iff_lt_or_eq.mp before with less | rfl
    · rw [old j less]
      exact loaded.real j less
    · rw [last]
      exact real
  · rcases Nat.lt_succ_iff_lt_or_eq.mp before with less | rfl
    · rw [old j less]
      exact kept _ (loaded.used j less)
    · rw [last]
      exact used
  · rcases Nat.lt_succ_iff_lt_or_eq.mp before with less | rfl
    · rcases Nat.lt_succ_iff_lt_or_eq.mp before' with less' | rfl
      · rw [old i less, old j less'] at same
        exact loaded.distinct i less j less' same
      · rw [old i less, last] at same
        exact absurd same (apart i less)
    · rcases Nat.lt_succ_iff_lt_or_eq.mp before' with less' | rfl
      · rw [old j less', last] at same
        exact absurd same.symm (apart j less')
      · rfl

/-- No page of the process has flags. -/
def Plain (m : Mm) (selector : Word) : Prop := ∀ addr : Word, m.readTableFlags selector (addr >>> 12) false = 0

/-- The page of an address. -/
theorem Loaded.pageOf (loaded : Loaded m selector 16) (addr : Word) :
    m.pageOf selector addr = m.dataEntry selector (addr >>> 12).toNat := by
  have real := loaded.real _ (page_lt addr)
  unfold dataEntry at real
  unfold Mm.pageOf readTable dataEntry
  rw [BitVec.ofNat_toNat, BitVec.setWidth_eq] at real ⊢
  exact masked_of_lt real

/-- **All 16 pages loaded**: they are the process's own, all mapped, and without flags. -/
theorem Loaded.own (loaded : Loaded m selector 16) (positive : selector ≠ 0) (low : selector.toNat < mmuSelectorNum) :
    m.Private selector ∧ (∀ addr, m.Mapped selector addr) ∧ m.Plain selector := by
  refine ⟨⟨positive, low, fun a b _ same => ?_, fun a _ => ?_⟩, fun addr => ?_, fun addr => ?_⟩
  · rw [loaded.pageOf, loaded.pageOf] at same
    exact BitVec.eq_of_toNat_eq (loaded.distinct _ (page_lt a) _ (page_lt b) same)
  · rw [loaded.pageOf]
    exact loaded.used _ (page_lt a)
  · unfold Mapped
    rw [loaded.pageOf]
    intro mark
    have real := loaded.real _ (page_lt addr)
    rw [mark] at real
    exact absurd real (by decide)
  · have real := loaded.real _ (page_lt addr)
    unfold dataEntry at real
    rw [BitVec.ofNat_toNat, BitVec.setWidth_eq] at real
    unfold readTableFlags
    rw [← masked_of_lt real, BitVec.and_assoc, show mmuTableNoFlagsMask &&& mmuTableFlagsMask = 0#16 from rfl,
      BitVec.and_zero]
    rfl

end Loaded

end Mm

open Mm

/-! ### What `uputs` stores -/

section Stores

variable {m : Mm} {selector : Word}

/-- A page without flags is not fixed. -/
theorem checkAndFixPage_plain (plain : m.Plain selector) (addr : Word) (wr : Bool) :
    checkAndFixPage selector (addr >>> 12) false wr m = .ok (false, m) := by
  unfold checkAndFixPage
  dsimp only
  rw [if_neg fun here => here.1 (plain addr)]
  rfl

/-- The windows of the kernel, and the memory, say nothing of the flags of a process. -/
theorem Mm.Plain.window (plain : m.Plain selector) (own : m.Private selector) (entry : Word) :
    (m.writeTable 0 14 false entry).Plain selector := by
  intro addr
  unfold readTableFlags writeTable
  dsimp only
  rw [Function.update_of_ne]
  · exact plain addr
  · intro same
    exact own.positive (tableAddr_inj own.low (page_lt addr) (by decide) (by decide) same).1

theorem enterPage_plain (plain : m.Plain selector) (own : m.Private selector) (addr pagenoU : Word) (wr : Bool) :
    ∃ m', enterPage selector addr pagenoU wr m = .ok m' ∧ m'.Plain selector := by
  unfold enterPage
  split
  · rw [checkAndFixPage_plain plain]
    exact ⟨_, rfl, plain.window own _⟩
  · exact ⟨_, rfl, plain⟩

/-- The loop of `uputs` returns. By induction on the words left. -/
theorem uputsLoop_returns : ∀ (s : List Word) {addr pagenoU : Word} {m : Mm}, m.Private selector → m.Plain selector →
    Shown m selector pagenoU → ∃ m', uputsLoop selector false s addr pagenoU m = .ok m' := by
  intro s
  induction s with
  | nil => exact fun _ _ _ => ⟨_, rfl⟩
  | cons c s ih =>
    intro addr pagenoU m own plain shown
    obtain ⟨m₁, entered, plain₁⟩ := enterPage_plain plain own addr pagenoU true
    obtain ⟨first, shown₁⟩ := @enterPage_keeps _ _ _ _ _ (fun _ => True) _ own shown entered
    obtain ⟨second, shown₂⟩ := store_window first.own shown₁ c
    obtain ⟨m', rest⟩ := @ih (addr + 1) _ _ second.own plain₁ shown₂
    refine ⟨m', ?_⟩
    unfold uputsLoop
    rw [entered]
    exact rest

/-- The word just stored. -/
theorem load_store {addr : Word} (shown : Shown m selector (addr >>> 12)) (val : Word) :
    (m.store 0 (windowAddr addr) val).load selector addr = val := by
  unfold store
  rw [windowAddr_page, windowAddr_offset, shown (page_lt addr)]
  unfold poke load
  dsimp only
  show Function.update m.ram _ _ (m.readTable selector (addr >>> 12) false) _ = val
  rw [Function.update_self, Function.update_self]

/-- The words stored by the loop of `uputs`. By induction on the words left. -/
theorem uputsLoop_written : ∀ (s : List Word) {addr pagenoU : Word} {m m' : Mm}, m.Private selector →
    (∀ a, m.Mapped selector a) → Shown m selector pagenoU → s.length ≤ 2 ^ 16 →
    uputsLoop selector false s addr pagenoU m = .ok m' →
    ∀ (j : Nat) (low : j < s.length), m'.load selector (addr + BitVec.ofNat 16 j) = s[j] := by
  intro s
  induction s with
  | nil => exact fun _ _ _ _ _ j low => absurd low (Nat.not_lt_zero j)
  | cons c s ih =>
    intro addr pagenoU m m' own mapped shown short put j low
    unfold uputsLoop at put
    obtain ⟨m₁, entered, put⟩ := bind_ok put
    obtain ⟨first, shown₁⟩ := @enterPage_keeps _ _ _ _ _ (fun _ => True) _ own shown entered
    obtain ⟨second, shown₂⟩ := store_window first.own shown₁ c
    have mapped₂ : ∀ a, (m₁.store 0 (windowAddr addr) c).Mapped selector a := fun a =>
      (second.mapped a).mpr ((first.mapped a).mpr (mapped a))
    dsimp only at put
    rw [if_neg fun clash => Bool.false_ne_true clash.1] at put
    rw [List.length_cons] at short low
    cases j with
    | zero =>
      -- the rest of the words does not come back to the first address
      have out : ¬ InRange (addr + 1) s.length addr := by
        unfold InRange
        rw [show addr - (addr + 1) = 0xffff by bv_omega]
        show ¬ 65535 < s.length
        omega
      have kept := (uputsLoop_keeps s second.own shown₂ put).load addr (mapped₂ addr) out
      rw [show addr + BitVec.ofNat 16 0 = addr from BitVec.add_zero addr, kept, load_store shown₁]
      rfl
    | succ j =>
      have here := ih second.own mapped₂ shown₂ (by omega) put j (by omega)
      rw [add_ofNat_succ, here]
      rfl

/-- **`uputs` to pages without flags**: it returns, and the words are there. -/
theorem uputs_written {addr : Word} {s : List Word} (own : m.Private selector) (mapped : ∀ a, m.Mapped selector a)
    (plain : m.Plain selector) (short : s.length ≤ 2 ^ 16) :
    ∃ m', uputs selector addr false s m = .ok m' ∧
      ∀ (j : Nat) (low : j < s.length), m'.load selector (addr + BitVec.ofNat 16 j) = s[j] := by
  obtain ⟨m', put⟩ := @uputsLoop_returns selector s addr 0xffff m own plain shown_start
  exact ⟨m', put, uputsLoop_written s own mapped shown_start short put⟩

end Stores

/-! ### What `ugets` reads -/

/-- Only the entry of the kernel's window differs. -/
def Windowed (m m' : Mm) : Prop := ∃ entry, m' = m.writeTable 0 14 false entry

namespace Windowed

variable {m m' m'' : Mm} {selector : Word}

theorem refl (m : Mm) : Windowed m m := by
  refine ⟨m.table (tableAddr 0 14 false), ?_⟩
  unfold writeTable
  rw [Function.update_eq_self]

theorem trans (first : Windowed m m') (second : Windowed m' m'') : Windowed m m'' := by
  obtain ⟨entry, rfl⟩ := first
  obtain ⟨entry', rfl⟩ := second
  refine ⟨entry', ?_⟩
  unfold writeTable
  dsimp only
  rw [Function.update_idem]

theorem symm (windowed : Windowed m m') : Windowed m' m := by
  obtain ⟨entry, rfl⟩ := windowed
  refine ⟨m.table (tableAddr 0 14 false), ?_⟩
  unfold writeTable
  dsimp only
  rw [Function.update_idem, Function.update_eq_self]

/-- A process sees the same. -/
theorem load (windowed : Windowed m m') (positive : selector ≠ 0) (low : selector.toNat < mmuSelectorNum) :
    m'.load selector = m.load selector := by
  obtain ⟨entry, rfl⟩ := windowed
  funext addr
  unfold Mm.load
  rw [readTable_writeTable_ne (by decide) (by decide) low (page_lt addr) (Or.inl positive)]
  rfl

/-- Another entry of the table is the same. -/
theorem readTable (windowed : Windowed m m') {process pageno : Word} {sCode : Bool}
    (apart : tableAddr process pageno sCode ≠ tableAddr 0 14 false) :
    m'.readTable process pageno sCode = m.readTable process pageno sCode := by
  obtain ⟨entry, rfl⟩ := windowed
  unfold Mm.readTable writeTable
  dsimp only
  rw [Function.update_of_ne apart]

theorem writeTable (windowed : Windowed m m') {process pageno : Word} {sCode : Bool}
    (apart : tableAddr process pageno sCode ≠ tableAddr 0 14 false) (entry : Word) :
    Windowed (m.writeTable process pageno sCode entry) (m'.writeTable process pageno sCode entry) := by
  obtain ⟨window, rfl⟩ := windowed
  refine ⟨window, ?_⟩
  unfold Mm.writeTable
  dsimp only
  rw [Function.update_comm apart]

theorem decPageRefcnt (windowed : Windowed m m') {page : Word} {r : Mm} (done : m.decPageRefcnt page = .ok r) :
    ∃ r', m'.decPageRefcnt page = .ok r' ∧ Windowed r r' := by
  obtain ⟨entry, rfl⟩ := windowed
  unfold Mm.decPageRefcnt setPage at done ⊢
  split at done
  case isTrue low =>
    obtain rfl := Except.ok.inj done
    exact ⟨_, dif_pos low, entry, rfl⟩
  case isFalse => cases done

theorem freeCount (windowed : Windowed m m') : m'.freeCount = m.freeCount := by
  obtain ⟨entry, rfl⟩ := windowed
  exact writeTable_freeCount _ _ _ _ _

/-- The loop of `freeProcessPages`. By induction on the pages. -/
theorem freePages {sCode : Bool} : ∀ (l : List Nat) {m m' r : Mm}, Windowed m m' →
    (∀ j ∈ l, tableAddr selector (BitVec.ofNat 16 j) sCode ≠ tableAddr 0 14 false) →
    Kernel.freePages selector sCode l m = .ok r → ∃ r', Kernel.freePages selector sCode l m' = .ok r' ∧ Windowed r r' := by
  intro l
  induction l with
  | nil =>
    intro m m' r windowed _ done
    obtain rfl := Except.ok.inj done
    exact ⟨m', rfl, windowed⟩
  | cons pageno l ih =>
    intro m m' r windowed apart done
    have here := apart pageno List.mem_cons_self
    unfold Kernel.freePages at done ⊢
    dsimp only at done ⊢
    rw [windowed.readTable here]
    split at done
    case isTrue mark =>
      obtain rfl := Except.ok.inj done
      exact ⟨m', if_pos mark, windowed⟩
    case isFalse page =>
      obtain ⟨m₁, less, done⟩ := bind_ok done
      obtain ⟨m₁', less', next⟩ := windowed.decPageRefcnt less
      obtain ⟨r', rest, last⟩ := ih (next.writeTable here freePageMark) (fun j mem => apart j (List.mem_cons_of_mem _ mem))
        done
      refine ⟨r', ?_, last⟩
      rw [if_neg page, less']
      exact rest

theorem freeProcessPages (windowed : Windowed m m') (positive : selector ≠ 0) (low : selector.toNat < mmuSelectorNum)
    {r : Mm} (done : Kernel.freeProcessPages selector m = .ok r) :
    ∃ r', Kernel.freeProcessPages selector m' = .ok r' ∧ Windowed r r' := by
  have code : ∀ j ∈ List.range ncodePages, tableAddr selector (BitVec.ofNat 16 j) true ≠ tableAddr 0 14 false := by
    intro j _ same
    have bit := congrArg (fun addr => addr.getLsbD 12) same
    simp [tableAddr] at bit
  have data : ∀ j ∈ List.range ndataPages, tableAddr selector (BitVec.ofNat 16 j) false ≠ tableAddr 0 14 false := by
    intro j mem same
    have small : j < 16 := List.mem_range.mp mem
    have inside : (BitVec.ofNat 16 j).toNat < 16 := by
      rw [BitVec.toNat_ofNat]
      omega
    exact positive (tableAddr_inj low inside (by decide) (by decide) same).1
  unfold Kernel.freeProcessPages at done ⊢
  obtain ⟨m₁, first, second⟩ := bind_ok done
  obtain ⟨m₁', first', next⟩ := windowed.freePages _ code first
  obtain ⟨r', second', last⟩ := next.freePages _ data second
  exact ⟨r', by rw [first']; exact second', last⟩

end Windowed

section Reads

variable {m : Mm} {selector : Word}

/-- A page shown in the window. -/
theorem mapWindow_shown (positive : selector ≠ 0) (low : selector.toNat < mmuSelectorNum) (m : Mm) (addr : Word) :
    Shown (m.mapWindow selector addr) selector (addr >>> 12) := by
  intro _
  unfold mapWindow
  rw [readTable_writeTable_self, readTable_masked,
    readTable_writeTable_ne (by decide) (by decide) low (page_lt addr) (Or.inl positive)]

theorem checkAndFixPage_false (pageno : Word) (isCode : Bool) :
    checkAndFixPage selector pageno isCode false m = .ok (false, m) := by
  unfold checkAndFixPage
  dsimp only
  rw [if_neg fun here => Bool.false_ne_true here.2.2]
  rfl

/-- **`ugetc` reads what the process sees.** -/
theorem ugetc_reads (positive : selector ≠ 0) (low : selector.toNat < mmuSelectorNum) (addr : Word) :
    ∃ m', ugetc selector addr m = .ok (m.load selector addr, m') ∧ Windowed m m' := by
  have windowed : Windowed m (m.mapWindow selector addr) := ⟨_, rfl⟩
  refine ⟨m.mapWindow selector addr, ?_, windowed⟩
  unfold ugetc
  rw [checkAndFixPage_false, ← windowed.load positive low, ← load_window (mapWindow_shown positive low m addr)]
  rfl

theorem enterPage_reads (positive : selector ≠ 0) (low : selector.toNat < mmuSelectorNum) (addr pagenoU : Word)
    (shown : Shown m selector pagenoU) :
    ∃ m', enterPage selector addr pagenoU false m = .ok m' ∧ Windowed m m' ∧ Shown m' selector (addr >>> 12) := by
  unfold enterPage
  split
  · rw [checkAndFixPage_false]
    exact ⟨_, rfl, ⟨_, rfl⟩, mapWindow_shown positive low m addr⟩
  case isFalse same => exact ⟨m, rfl, .refl m, not_not.mp same ▸ shown⟩

/-- At most `length` words from `addr` on, up to the first 0. -/
def readString (view : Word → Word) : Nat → Word → List Word
  | 0, _ => []
  | length + 1, addr => if view addr = 0 then [0] else view addr :: readString view length (addr + 1)

/-- The loop of `ugets` up to a 0. By induction on the words left. -/
theorem ugetsLoop_reads (positive : selector ≠ 0) (low : selector.toNat < mmuSelectorNum) : ∀ (length : Nat)
    (addr pagenoU : Word) (m : Mm), Shown m selector pagenoU →
    ∃ m', ugetsLoop selector true length addr pagenoU m = .ok (readString (m.load selector) length addr, m') ∧
      Windowed m m' := by
  intro length
  induction length with
  | zero => exact fun addr pagenoU m _ => ⟨m, rfl, .refl m⟩
  | succ length ih =>
    intro addr pagenoU m shown
    obtain ⟨m₁, entered, first, shown₁⟩ := enterPage_reads positive low addr pagenoU shown
    obtain ⟨m₂, rest, second⟩ := ih (addr + 1) (addr >>> 12) m₁ shown₁
    rw [first.load positive low] at rest
    have here : m₁.load 0 (windowAddr addr) = m.load selector addr := by
      rw [load_window shown₁, first.load positive low]
    unfold ugetsLoop readString
    rw [entered]
    show ∃ m', (if true = true ∧ m₁.load 0 (windowAddr addr) = 0 then _ else _ : Except Fault _) = _ ∧ _
    rw [here]
    by_cases zero : m.load selector addr = 0
    · rw [if_pos zero, if_pos ⟨rfl, zero⟩, zero]
      exact ⟨m₁, rfl, first⟩
    · rw [if_neg zero, if_neg fun clash => zero clash.2, rest]
      exact ⟨m₂, rfl, first.trans second⟩

/-- **`ugets` reads the string that the process sees.** -/
theorem ugets_reads (positive : selector ≠ 0) (low : selector.toNat < mmuSelectorNum) (addr : Word) (length : Nat) :
    ∃ m', ugets selector addr length true m = .ok (readString (m.load selector) length addr, m') ∧ Windowed m m' :=
  ugetsLoop_reads positive low length addr 0xffff m shown_start

/-- A string in memory, with its 0. -/
def StringAt (view : Word → Word) (addr : Word) (s : List Word) : Prop :=
  (∀ (c : Nat) (inside : c < s.length), view (addr + BitVec.ofNat 16 c) = s[c] ∧ s[c] ≠ 0) ∧
    view (addr + BitVec.ofNat 16 s.length) = 0

/-- The words read of a string: as many as fit. By induction on the string. -/
theorem readString_of {view : Word → Word} : ∀ (s : List Word) (length : Nat) (addr : Word), StringAt view addr s →
    readString view length addr = (s ++ [0]).take length := by
  intro s
  induction s with
  | nil =>
    intro length addr here
    have zero : view addr = 0 := by
      rw [← BitVec.add_zero addr]
      exact here.2
    cases length with
    | zero => rfl
    | succ length =>
      unfold readString
      rw [if_pos zero]
      simp
  | cons w s ih =>
    intro length addr here
    obtain ⟨chars, ends⟩ := here
    have first := chars 0 (Nat.succ_pos _)
    rw [show addr + BitVec.ofNat 16 0 = addr from BitVec.add_zero addr] at first
    cases length with
    | zero => rfl
    | succ length =>
      have tail : StringAt view (addr + 1) s := by
        refine ⟨fun c inside => ?_, ?_⟩
        · rw [← add_ofNat_succ]
          exact chars (c + 1) (Nat.succ_lt_succ inside)
        · rw [← add_ofNat_succ]
          exact ends
      unfold readString
      rw [first.1, if_neg first.2, ih length (addr + 1) tail]
      rfl

end Reads

end RlCpu.Kernel
