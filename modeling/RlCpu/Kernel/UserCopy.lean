/-
**Copies to and from the memory of a process (`uputs`, `ugets`).**

The words go through one window of the kernel, page by page. A page that is shared is copied to a free page first.

`Mm.NeedsCopy`: a data page is read-only and has other users. `Mm.Foreign`: a physical page that others use too, or only
others. `copiesNeeded`: the pages of a range that have to be copied.

* `checkAndFixPage_fixed`: what a fix-up does to the tables, the counts and the memory of others.
* `uputsLoop_returns_iff`: `uputs` comes to its end exactly where there are free pages for the copies.
* `userCopy_right_iff`: and then the words are there, and nothing else has changed.
* `userCopy_no_page`: with no free page it does not.
-/

import RlCpu.Kernel.Pages

namespace RlCpu.Kernel

open RlCpu.Lib

/-! ### Shared pages -/

namespace Mm

/-- The count of a page. -/
def refcntOf (m : Mm) (page : Word) : Word :=
  if low : page.toNat < pageMapSize then m.pageMap ⟨page.toNat, low⟩ else 0

/-- The data page `pageno` of the process is read-only and has other users: a write copies it. -/
def NeedsCopy (m : Mm) (selector pageno : Word) : Prop :=
  m.readTableFlags selector pageno false &&& pageFlagReadOnly ≠ 0 ∧ 1 < m.refcntOf (m.readTable selector pageno false)

instance (m : Mm) (selector pageno : Word) : Decidable (m.NeedsCopy selector pageno) := by
  unfold NeedsCopy
  infer_instance

/-- The page `q` is in use, and the process has it only where it needs a copy. -/
def Foreign (m : Mm) (selector q : Word) : Prop :=
  m.InUse q ∧ ∀ pageno : Word, pageno.toNat < 16 → m.readTable selector pageno false = q → m.NeedsCopy selector pageno

/-- What the fix-up of a page does. -/
structure Fixed (m m' : Mm) (selector pageno : Word) : Prop where
  table : ∀ a, a ≠ tableAddr selector pageno false → a ≠ tableAddr 0 14 false → a ≠ tableAddr 0 15 false →
    m'.table a = m.table a
  needs : ∀ other : Word, other.toNat < 16 →
    (m'.NeedsCopy selector other ↔ m.NeedsCopy selector other ∧ other ≠ pageno)
  free : m'.freeCount + (if m.NeedsCopy selector pageno then 1 else 0) = m.freeCount
  foreign : ∀ q, m.Foreign selector q → m'.Foreign selector q ∧ m'.ram q = m.ram q

section Fix

variable {m m' : Mm} {selector pageno q : Word}

/-- The first address of a page. -/
theorem page_shift (small : pageno.toNat < 16) : (pageno <<< 12) >>> 12 = pageno := by
  refine BitVec.eq_of_toNat_eq ?_
  rw [page_toNat, BitVec.toNat_shiftLeft, Nat.shiftLeft_eq]
  omega

/-- The pages of a process are different ones. -/
theorem Private.page_ne (own : m.Private selector) (mapped : ∀ a, m.Mapped selector a) {other : Word}
    (small : pageno.toNat < 16) (small' : other.toNat < 16) (ne : other ≠ pageno) :
    m.readTable selector other false ≠ m.readTable selector pageno false := by
  intro same
  have pages := own.distinct (other <<< 12) (pageno <<< 12) (mapped _) (by
    unfold pageOf
    rw [page_shift small, page_shift small']
    exact same)
  rw [page_shift small, page_shift small'] at pages
  exact ne pages

theorem Private.page_used (own : m.Private selector) (mapped : ∀ a, m.Mapped selector a) (small : pageno.toNat < 16) :
    m.InUse (m.readTable selector pageno false) := by
  have used := own.used (pageno <<< 12) (mapped _)
  unfold pageOf at used
  rwa [page_shift small] at used

/-- One page is fixed, the others are as they were. -/
theorem needs_fixed (flags : m'.readTableFlags selector pageno false = 0)
    (entry : ∀ other : Word, other.toNat < 16 → other ≠ pageno →
      m'.table (tableAddr selector other false) = m.table (tableAddr selector other false))
    (count : ∀ other : Word, other.toNat < 16 → other ≠ pageno →
      m'.refcntOf (m.readTable selector other false) = m.refcntOf (m.readTable selector other false))
    (other : Word) (small : other.toNat < 16) :
    m'.NeedsCopy selector other ↔ m.NeedsCopy selector other ∧ other ≠ pageno := by
  by_cases same : other = pageno
  · subst same
    refine iff_of_false (fun needs => ?_) fun both => both.2 rfl
    have clash := needs.1
    rw [flags] at clash
    exact clash rfl
  · have table := entry other small same
    have page : m'.readTable selector other false = m.readTable selector other false := congrArg (· &&& _) table
    unfold NeedsCopy
    rw [page, count other small same]
    unfold readTableFlags
    rw [table]
    exact (and_iff_left same).symm

/-- What is no page of the process that is fixed is as it was. -/
theorem Foreign.fixed (foreign : m.Foreign selector q) (used : m'.InUse q)
    (fixed : m'.readTable selector pageno false = q → False)
    (entry : ∀ other : Word, other.toNat < 16 → other ≠ pageno →
      m'.table (tableAddr selector other false) = m.table (tableAddr selector other false))
    (needs : ∀ other : Word, other.toNat < 16 →
      (m'.NeedsCopy selector other ↔ m.NeedsCopy selector other ∧ other ≠ pageno)) : m'.Foreign selector q := by
  refine ⟨used, fun other small here => ?_⟩
  have ne : other ≠ pageno := fun same => fixed (same ▸ here)
  have page : m'.readTable selector other false = m.readTable selector other false :=
    congrArg (· &&& _) (entry other small ne)
  exact (needs other small).mpr ⟨foreign.2 other small (page ▸ here), ne⟩

/-- An entry written without flags. -/
theorem writeTableFlags_zero : m.writeTableFlags selector pageno false 0 =
    m.writeTable selector pageno false (m.readTable selector pageno false) := by
  unfold writeTableFlags
  congr 1
  exact BitVec.or_zero

theorem flags_writeTableFlags_zero :
    (m.writeTableFlags selector pageno false 0).readTableFlags selector pageno false = 0 := by
  rw [writeTableFlags_zero]
  unfold readTableFlags writeTable
  dsimp only
  rw [Function.update_self, ← readTable_masked, BitVec.and_assoc,
    show mmuTableNoFlagsMask &&& mmuTableFlagsMask = 0#16 from rfl, BitVec.and_zero]
  rfl

/-- A count that is not 0 before and after. -/
theorem setPage_counts {page : Word} {count : Word → Word} (done : m.setPage page count = .ok m')
    (some : ∀ low : page.toNat < pageMapSize, m.pageMap ⟨page.toNat, low⟩ ≠ 0)
    (some' : ∀ low : page.toNat < pageMapSize, count (m.pageMap ⟨page.toNat, low⟩) ≠ 0) :
    m'.freeCount = m.freeCount ∧ (∀ q, m'.InUse q ↔ m.InUse q) ∧ ∀ q, q ≠ page → m'.refcntOf q = m.refcntOf q := by
  unfold Mm.setPage at done
  split at done
  case isFalse => cases done
  case isTrue low =>
    obtain rfl := Except.ok.inj done
    have zero : ∀ i, Function.update m.pageMap ⟨page.toNat, low⟩ (count (m.pageMap ⟨page.toNat, low⟩)) i = 0 ↔
        m.pageMap i = 0 := fun i => by
      by_cases here : i = ⟨page.toNat, low⟩
      · rw [here, Function.update_self]
        exact iff_of_false (some' low) (some low)
      · rw [Function.update_of_ne here]
    refine ⟨?_, fun q => ?_, fun q ne => ?_⟩
    · unfold freeCount
      simp only [zero]
    · unfold InUse
      simp only [ne_eq, zero]
    · unfold refcntOf
      split
      case isTrue low' =>
        refine Function.update_of_ne (fun same => ne ?_) _ _
        exact BitVec.eq_of_toNat_eq (Fin.mk.inj same)
      case isFalse => rfl

/-- A free page that is marked. -/
theorem markPage_counts {page : Word} (done : m.markPage page 1 = .ok m') (ne : q ≠ page) :
    m'.refcntOf q = m.refcntOf q := by
  unfold markPage setPage at done
  split at done
  case isFalse => cases done
  case isTrue low =>
    obtain rfl := Except.ok.inj done
    unfold refcntOf
    split
    case isTrue low' =>
      refine Function.update_of_ne (fun same => ne ?_) _ _
      exact BitVec.eq_of_toNat_eq (Fin.mk.inj same)
    case isFalse => rfl

theorem refcntOf_eq {page : Word} (low : page.toNat < pageMapSize) : m.refcntOf page = m.pageMap ⟨page.toNat, low⟩ :=
  dif_pos low

/-- **What a fix-up does.** -/
theorem checkAndFixPage_fixed (own : m.Private selector) (mapped : ∀ a, m.Mapped selector a) (small : pageno.toNat < 16)
    {moved : Bool} (fixed : checkAndFixPage selector pageno false true m = .ok (moved, m')) :
    Fixed m m' selector pageno := by
  unfold checkAndFixPage at fixed
  dsimp only at fixed
  have used := own.page_used mapped small
  split at fixed
  case isFalse plain =>
    obtain ⟨-, rfl⟩ := Prod.mk.inj (Except.ok.inj fixed)
    have none : ¬ m.NeedsCopy selector pageno := fun needs => plain ⟨fun zero => ?_, needs.1, rfl⟩
    · refine ⟨fun _ _ _ _ => rfl, fun other _ => ?_, by rw [if_neg none, Nat.add_zero], fun q foreign => ⟨foreign, rfl⟩⟩
      exact ⟨fun needs => ⟨needs, fun same => none (same ▸ needs)⟩, fun both => both.1⟩
    · have clash := needs.1
      rw [zero] at clash
      exact clash rfl
  case isTrue readOnly =>
    obtain ⟨refcnt, count, fixed⟩ := bind_ok fixed
    obtain ⟨low, rfl⟩ := getPageRefcnt_ok count
    rw [← refcntOf_eq low] at fixed
    split at fixed
    case isFalse single =>
      obtain ⟨-, rfl⟩ := Prod.mk.inj (Except.ok.inj fixed)
      have none : ¬ m.NeedsCopy selector pageno := fun needs => single needs.2
      have entry : ∀ other : Word, other.toNat < 16 → other ≠ pageno →
          (m.writeTableFlags selector pageno false 0).table (tableAddr selector other false) =
            m.table (tableAddr selector other false) := fun other small' ne =>
        Function.update_of_ne (fun same => ne (tableAddr_inj own.low small' own.low small same).2) _ _
      have needs := needs_fixed flags_writeTableFlags_zero entry fun _ _ _ => rfl
      refine ⟨fun a here _ _ => Function.update_of_ne here _ _, needs, ?_, fun q foreign => ⟨?_, rfl⟩⟩
      · rw [if_neg none, Nat.add_zero]
        exact freeCount_congr rfl
      · refine foreign.fixed foreign.1 (fun here => none ?_) entry needs
        rw [readTable_writeTableFlags 0 own.low small own.low small] at here
        exact foreign.2 pageno small here
    case isTrue shared =>
      obtain ⟨m₁, less, fixed⟩ := bind_ok fixed
      obtain ⟨target, found, fixed⟩ := bind_ok fixed
      obtain ⟨m₂, marked, fixed⟩ := bind_ok fixed
      obtain ⟨-, rfl⟩ := Prod.mk.inj (Except.ok.inj fixed)
      have copied : m.NeedsCopy selector pageno := ⟨readOnly.2.1, shared⟩
      have many : ∀ low : (m.readTable selector pageno false).toNat < pageMapSize, 1 < m.pageMap ⟨_, low⟩ :=
        fun low => refcntOf_eq low ▸ shared
      obtain ⟨free₁, used₁, count₁⟩ := setPage_counts less (fun low => by have := many low; bv_omega)
        (fun low => by have := many low; bv_omega)
      obtain ⟨-, -, table₁, ram₁⟩ := setPage_ok (fun low => by have := many low; bv_omega) less
      obtain ⟨fits, free, m₂', marked', free₂, taken, used₂, table₂, ram₂, -⟩ := takePage found
      obtain rfl := Except.ok.inj (marked.symm.trans marked')
      have table : m₂.table = m.table := table₂.trans table₁
      have inUse : ∀ q, m.InUse q → m₂.InUse q := fun q here => used₂ q ((used₁ q).mpr here)
      have notTarget : ∀ q, m.InUse q → q ≠ target := fun q here same => free ((used₁ _).mpr (same ▸ here))
      have entry : ∀ a, a ≠ tableAddr selector pageno false → a ≠ tableAddr 0 14 false → a ≠ tableAddr 0 15 false →
          (((m₂.writeTable selector pageno false target).copyPages
            (m.readTable selector pageno false) target).writeTableFlags
            selector pageno false 0).table a = m.table a := fun a here first second => by
        refine (Function.update_of_ne here _ _).trans ?_
        refine (Function.update_of_ne second _ _).trans ?_
        refine (Function.update_of_ne first _ _).trans ?_
        exact (Function.update_of_ne here _ _).trans (congrFun table a)
      have others : ∀ other : Word, other.toNat < 16 → other ≠ pageno →
          (((m₂.writeTable selector pageno false target).copyPages
            (m.readTable selector pageno false) target).writeTableFlags
            selector pageno false 0).table (tableAddr selector other false) = m.table (tableAddr selector other false) :=
        fun other small' ne => entry _ (fun same => ne (tableAddr_inj own.low small' own.low small same).2)
          (fun same => own.positive (tableAddr_inj own.low small' (by decide) (by decide) same).1)
          (fun same => own.positive (tableAddr_inj own.low small' (by decide) (by decide) same).1)
      have needs := needs_fixed flags_writeTableFlags_zero others fun other small' ne => by
        have first := own.page_ne mapped small small' ne
        have second := notTarget _ (own.page_used mapped small')
        exact (markPage_counts marked second).trans (count₁ _ first)
      have page : (((m₂.writeTable selector pageno false target).copyPages (m.readTable selector pageno false)
          target).writeTableFlags selector pageno false 0).readTable selector pageno false = target := by
        rw [readTable_writeTableFlags 0 own.low small own.low small]
        have moved : ((m₂.writeTable selector pageno false target).copyPages (m.readTable selector pageno false)
            target).pageOf selector (pageno <<< 12) =
              (m₂.writeTable selector pageno false target).pageOf selector (pageno <<< 12) :=
          copyPages_pageOf own.positive own.low (pageno <<< 12)
        unfold pageOf at moved
        rw [page_shift small] at moved
        exact moved.trans (readTable_writeTable_self.trans (masked_of_lt fits))
      refine ⟨entry, needs, ?_, fun q foreign => ⟨?_, ?_⟩⟩
      · rw [if_pos copied, ← free₁, ← free₂]
        exact congrArg (· + 1) (freeCount_congr rfl)
      · exact foreign.fixed (inUse q foreign.1) (fun here => notTarget q foreign.1 (here.symm.trans page)) others needs
      · refine (congrFun (copyPages_ram readTable_masked (masked_of_lt fits)) q).trans ?_
        show Function.update m₂.ram target (m₂.ram _) q = _
        rw [Function.update_of_ne (notTarget q foreign.1), ram₂, ram₁]

/-- **A fix-up returns, unless it has no free page.** -/
theorem checkAndFixPage_returns (own : m.Private selector) (mapped : ∀ a, m.Mapped selector a)
    (small : pageno.toNat < 16) : (∃ v, checkAndFixPage selector pageno false true m = .ok v) ↔
      (m.NeedsCopy selector pageno → 0 < m.freeCount) := by
  obtain ⟨low, used⟩ := own.page_used mapped small
  have count : m.getPageRefcnt (m.readTable selector pageno false) =
      .ok (m.refcntOf (m.readTable selector pageno false)) := by
    unfold getPageRefcnt
    rw [dif_pos low, refcntOf_eq low]
  unfold checkAndFixPage
  dsimp only
  by_cases needs : m.NeedsCopy selector pageno
  · have readOnly : m.readTableFlags selector pageno false ≠ 0 ∧
        m.readTableFlags selector pageno false &&& pageFlagReadOnly ≠ 0 ∧ true = true := by
      refine ⟨fun zero => needs.1 ?_, needs.1, rfl⟩
      rw [zero]
      rfl
    have less : m.decPageRefcnt (m.readTable selector pageno false) = .ok { m with
        pageMap := Function.update m.pageMap ⟨_, low⟩ (m.pageMap ⟨_, low⟩ - 1) } := by
      unfold decPageRefcnt setPage
      rw [dif_pos low]
    have many : 1 < m.pageMap ⟨_, low⟩ := refcntOf_eq low ▸ needs.2
    obtain ⟨free₁, -, -⟩ := setPage_counts less (fun low' => by have := many; bv_omega)
        (fun low' => by have := many; bv_omega)
    rw [if_pos readOnly, count]
    show (∃ v, (if 1 < m.refcntOf _ then _ else _ : Except Fault (Bool × Mm)) = .ok v) ↔ _
    rw [if_pos needs.2, less, ← free₁, forall_prop_of_true needs, ← getFreePage_returns]
    constructor
    · rintro ⟨v, done⟩
      obtain ⟨m₁, same, done⟩ := bind_ok done
      obtain rfl := Except.ok.inj same
      obtain ⟨target, found, -⟩ := bind_ok done
      exact ⟨target, found⟩
    · rintro ⟨target, found⟩
      obtain ⟨-, -, m', marked, -⟩ := takePage found
      exact ⟨_, ok_bind rfl (ok_bind found (ok_bind marked rfl))⟩
  · refine iff_of_true ?_ fun clash => absurd clash needs
    split
    case isTrue readOnly =>
      rw [count]
      show ∃ v, (if 1 < m.refcntOf _ then _ else _ : Except Fault (Bool × Mm)) = .ok v
      rw [if_neg fun shared => needs ⟨readOnly.2.1, shared⟩]
      exact ⟨_, rfl⟩
    case isFalse => exact ⟨_, rfl⟩

end Fix

/-- The data pages that a write to the `n` words from `addr` on copies. -/
def copiesNeeded (m : Mm) (selector addr : Word) (n : Nat) : Nat :=
  ((Finset.univ : Finset (Fin 16)).filter fun j : Fin 16 => m.NeedsCopy selector (BitVec.ofNat 16 j.val) ∧
    ∃ i < n, ((addr + BitVec.ofNat 16 i) >>> 12).toNat = j.val).card

end Mm

open Mm

/-! ### The loop of `uputs` -/

/-- Nothing of the kernel or of another process has changed. -/
structure OthersKept (m m' : Mm) (selector : Word) : Prop where
  table : ∀ a, (∀ pageno : Word, pageno.toNat < 16 → a ≠ tableAddr selector pageno false) → a ≠ tableAddr 0 14 false →
    a ≠ tableAddr 0 15 false → m'.table a = m.table a
  foreign : ∀ q, m.Foreign selector q → m'.Foreign selector q ∧ m'.ram q = m.ram q

/-- The page that the loop is in was fixed when it came there. -/
def Clean (m : Mm) (selector pagenoU : Word) : Prop := pagenoU.toNat < 16 → ¬ m.NeedsCopy selector pagenoU

section Loop

variable {m m' m'' : Mm} {selector addr pagenoU pageno : Word}

theorem clean_start : Clean m selector 0xffff := fun clash => absurd clash (by decide)

theorem OthersKept.refl (m : Mm) (selector : Word) : OthersKept m m selector :=
  ⟨fun _ _ _ _ => rfl, fun _ foreign => ⟨foreign, rfl⟩⟩

theorem OthersKept.trans (first : OthersKept m m' selector) (second : OthersKept m' m'' selector) :
    OthersKept m m'' selector := by
  refine ⟨fun a own left right => (second.table a own left right).trans (first.table a own left right),
    fun q foreign => ?_⟩
  obtain ⟨foreign, same⟩ := first.foreign q foreign
  obtain ⟨foreign, same'⟩ := second.foreign q foreign
  exact ⟨foreign, same'.trans same⟩

theorem Mm.Fixed.kept (fixed : Fixed m m' selector pageno) (small : pageno.toNat < 16) : OthersKept m m' selector :=
  ⟨fun a own left right => fixed.table a (own pageno small) left right, fixed.foreign⟩

theorem Mm.Fixed.clean (fixed : Fixed m m' selector pageno) : Clean m' selector pageno := fun small needs =>
  ((fixed.needs pageno small).mp needs).2 rfl

/-- The window of the kernel has nothing to do with it. -/
theorem Mm.Fixed.window (fixed : Fixed m m' selector pageno) (positive : selector ≠ 0)
    (low : selector.toNat < mmuSelectorNum) (entry : Word) :
    Fixed m (m'.writeTable 0 14 false entry) selector pageno := by
  have same : ∀ other : Word, other.toNat < 16 → (m'.writeTable 0 14 false entry).table (tableAddr selector other false) =
      m'.table (tableAddr selector other false) := fun other small =>
    Function.update_of_ne (fun equal => positive (tableAddr_inj low small (by decide) (by decide) equal).1) _ _
  have page : ∀ other : Word, other.toNat < 16 → (m'.writeTable 0 14 false entry).readTable selector other false =
      m'.readTable selector other false := fun other small => congrArg (· &&& _) (same other small)
  have needs : ∀ other : Word, other.toNat < 16 →
      ((m'.writeTable 0 14 false entry).NeedsCopy selector other ↔ m'.NeedsCopy selector other) := fun other small => by
    unfold NeedsCopy readTableFlags
    rw [same other small, page other small]
    exact Iff.rfl
  refine ⟨fun a own left right => ?_, fun other small => (needs other small).trans (fixed.needs other small), ?_,
    fun q foreign => ?_⟩
  · exact (Function.update_of_ne left _ _).trans (fixed.table a own left right)
  · rw [writeTable_freeCount]
    exact fixed.free
  · obtain ⟨⟨used, only⟩, ram⟩ := fixed.foreign q foreign
    refine ⟨⟨used, fun other small here => (needs other small).mpr (only other small ?_)⟩, ram⟩
    rwa [page other small] at here

/-- **A page is entered.** -/
theorem enterPage_fixed (own : m.Private selector) (mapped : ∀ a, m.Mapped selector a)
    (clean : Clean m selector pagenoU)
    (entered : enterPage selector addr pagenoU true m = .ok m') : Fixed m m' selector (addr >>> 12) := by
  unfold enterPage at entered
  split at entered
  case isTrue =>
    obtain ⟨⟨moved, m₁⟩, fixed, entered⟩ := bind_ok entered
    obtain rfl := Except.ok.inj entered
    exact (checkAndFixPage_fixed own mapped (page_lt addr) fixed).window own.positive own.low _
  case isFalse same =>
    obtain rfl := Except.ok.inj entered
    have none : ¬ m.NeedsCopy selector (addr >>> 12) := not_not.mp same ▸ clean (not_not.mp same ▸ page_lt addr)
    refine ⟨fun _ _ _ _ => rfl, fun other _ => ?_, by rw [if_neg none, Nat.add_zero], fun q foreign => ⟨foreign, rfl⟩⟩
    exact ⟨fun needs => ⟨needs, fun same => none (same ▸ needs)⟩, fun both => both.1⟩

theorem enterPage_returns (own : m.Private selector) (mapped : ∀ a, m.Mapped selector a)
    (clean : Clean m selector pagenoU) : (∃ m', enterPage selector addr pagenoU true m = .ok m') ↔
      (m.NeedsCopy selector (addr >>> 12) → 0 < m.freeCount) := by
  unfold enterPage
  by_cases same : addr >>> 12 = pagenoU
  · rw [if_neg (not_not.mpr same)]
    exact iff_of_true ⟨m, rfl⟩ fun needs => absurd (same ▸ needs) (clean (same ▸ page_lt addr))
  · rw [if_pos same, ← checkAndFixPage_returns own mapped (page_lt addr)]
    constructor
    · rintro ⟨m', entered⟩
      obtain ⟨v, fixed, -⟩ := bind_ok entered
      exact ⟨v, fixed⟩
    · rintro ⟨v, fixed⟩
      exact ⟨_, ok_bind fixed rfl⟩

/-- A word stored through the window changes no page of others. -/
theorem store_kept (shown : Shown m selector (addr >>> 12)) (clean : Clean m selector (addr >>> 12)) (val : Word) :
    OthersKept m (m.store 0 (windowAddr addr) val) selector := by
  refine ⟨fun _ _ _ _ => rfl, fun q foreign => ⟨foreign, ?_⟩⟩
  have other : q ≠ m.readTable 0 (windowAddr addr >>> 12) false := fun same => by
    rw [windowAddr_page, shown (page_lt addr)] at same
    exact clean (page_lt addr) (foreign.2 _ (page_lt addr) same.symm)
  exact Function.update_of_ne other _ _

/-- **The loop of `uputs` changes nothing of others.** By induction on the words left. -/
theorem uputsLoop_others : ∀ (s : List Word) {addr pagenoU : Word} {m m' : Mm}, m.Private selector →
    (∀ a, m.Mapped selector a) → Shown m selector pagenoU → Clean m selector pagenoU →
    uputsLoop selector false s addr pagenoU m = .ok m' → OthersKept m m' selector := by
  intro s
  induction s with
  | nil =>
    intro addr pagenoU m m' _ _ _ _ put
    obtain rfl := Except.ok.inj put
    exact .refl m selector
  | cons c s ih =>
    intro addr pagenoU m m' own mapped shown clean put
    unfold uputsLoop at put
    obtain ⟨m₁, entered, put⟩ := bind_ok put
    obtain ⟨first, shown₁⟩ := @enterPage_keeps _ _ _ _ _ (fun _ => True) _ own shown entered
    have fixed := enterPage_fixed own mapped clean entered
    obtain ⟨second, shown₂⟩ := store_window first.own shown₁ c
    have mapped₂ : ∀ a, (m₁.store 0 (windowAddr addr) c).Mapped selector a := fun a =>
      (second.mapped a).mpr ((first.mapped a).mpr (mapped a))
    dsimp only at put
    rw [if_neg fun clash => Bool.false_ne_true clash.1] at put
    refine (fixed.kept (page_lt addr)).trans ((store_kept shown₁ fixed.clean c).trans ?_)
    exact ih second.own mapped₂ shown₂ fixed.clean put

/-- The pages of a range: that of the first word, and those of the rest. -/
theorem touched_succ (addr : Word) (n : Nat) (j : Nat) :
    (∃ i < n + 1, ((addr + BitVec.ofNat 16 i) >>> 12).toNat = j) ↔
      (addr >>> 12).toNat = j ∨ ∃ i < n, ((addr + 1 + BitVec.ofNat 16 i) >>> 12).toNat = j := by
  constructor
  · rintro ⟨i, low, here⟩
    cases i with
    | zero => exact Or.inl (by rwa [BitVec.add_zero] at here)
    | succ i => exact Or.inr ⟨i, Nat.lt_of_succ_lt_succ low, by rwa [← add_ofNat_succ]⟩
  · rintro (here | ⟨i, low, here⟩)
    · exact ⟨0, Nat.succ_pos n, by rwa [BitVec.add_zero]⟩
    · exact ⟨i + 1, Nat.succ_lt_succ low, by rwa [add_ofNat_succ]⟩

/-- The copies of a range, once its first page is fixed. -/
theorem copiesNeeded_succ (fixed : Fixed m m' selector (addr >>> 12)) (n : Nat) :
    m.copiesNeeded selector addr (n + 1) =
      m'.copiesNeeded selector (addr + 1) n + if m.NeedsCopy selector (addr >>> 12) then 1 else 0 := by
  have small := page_lt addr
  have first : BitVec.ofNat 16 (addr >>> 12).toNat = addr >>> 12 :=
    (BitVec.ofNat_toNat 16 _).trans (BitVec.setWidth_eq _)
  have page : ∀ j : Fin 16, (BitVec.ofNat 16 j.val : Word) ≠ addr >>> 12 ↔ (addr >>> 12).toNat ≠ j.val := fun j => by
    refine not_congr ⟨fun same => ?_, fun same => ?_⟩
    · rw [← same, BitVec.toNat_ofNat]
      omega
    · rw [← same, first]
  have rest : ∀ j : Fin 16, m'.NeedsCopy selector (BitVec.ofNat 16 j.val) ↔
      m.NeedsCopy selector (BitVec.ofNat 16 j.val) ∧ (addr >>> 12).toNat ≠ j.val := fun j => by
    rw [fixed.needs _ (by rw [BitVec.toNat_ofNat]; omega), page]
  unfold copiesNeeded
  by_cases needs : m.NeedsCopy selector (addr >>> 12)
  · rw [if_pos needs]
    have all : ((Finset.univ : Finset (Fin 16)).filter fun j : Fin 16 => m.NeedsCopy selector (BitVec.ofNat 16 j.val) ∧
        ∃ i < n + 1, ((addr + BitVec.ofNat 16 i) >>> 12).toNat = j.val) =
        insert ⟨(addr >>> 12).toNat, small⟩ ((Finset.univ : Finset (Fin 16)).filter fun j : Fin 16 =>
          m'.NeedsCopy selector (BitVec.ofNat 16 j.val) ∧
          ∃ i < n, ((addr + 1 + BitVec.ofNat 16 i) >>> 12).toNat = j.val) := by
      ext j
      rw [Finset.mem_insert, Finset.mem_filter, Finset.mem_filter, touched_succ, rest]
      by_cases here : (addr >>> 12).toNat = j.val
      · have equal : j = ⟨(addr >>> 12).toNat, small⟩ := Fin.ext here.symm
        refine iff_of_true ⟨Finset.mem_univ j, ?_, Or.inl here⟩ (Or.inl equal)
        rwa [← here, first]
      · have other : j ≠ ⟨(addr >>> 12).toNat, small⟩ := fun same => here (congrArg Fin.val same).symm
        simp only [here, other, false_or, ne_eq, not_false_eq_true, and_true]
    rw [all, Finset.card_insert_of_notMem]
    rw [Finset.mem_filter, rest]
    exact fun both => both.2.1.2 rfl
  · rw [if_neg needs]
    refine Eq.trans (congrArg Finset.card (Finset.ext fun j => ?_)) (Nat.add_zero _).symm
    rw [Finset.mem_filter, Finset.mem_filter, touched_succ, rest]
    by_cases here : (addr >>> 12).toNat = j.val
    · refine iff_of_false (fun both => needs ?_) fun both => both.2.1.2 here
      have copied := both.2.1
      rwa [← here, first] at copied
    · simp only [here, false_or, ne_eq, not_false_eq_true, and_true]

/-- **The loop of `uputs` comes to its end exactly where there are free pages for the copies.** By induction on the
words left. -/
theorem uputsLoop_returns_iff : ∀ (s : List Word) {addr pagenoU : Word} {m : Mm}, m.Private selector →
    (∀ a, m.Mapped selector a) → Shown m selector pagenoU → Clean m selector pagenoU →
    ((∃ m', uputsLoop selector false s addr pagenoU m = .ok m') ↔
      m.copiesNeeded selector addr s.length ≤ m.freeCount) := by
  intro s
  induction s with
  | nil =>
    intro addr pagenoU m _ _ _ _
    refine iff_of_true ⟨m, rfl⟩ ?_
    unfold copiesNeeded
    rw [Finset.filter_false_of_mem fun j _ both => by obtain ⟨i, low, -⟩ := both.2; exact Nat.not_lt_zero i low]
    exact Nat.zero_le _
  | cons c s ih =>
    intro addr pagenoU m own mapped shown clean
    have unfolded : ∀ m', uputsLoop selector false (c :: s) addr pagenoU m = .ok m' ↔
        ∃ m₁, enterPage selector addr pagenoU true m = .ok m₁ ∧
          uputsLoop selector false s (addr + 1) (addr >>> 12) (m₁.store 0 (windowAddr addr) c) = .ok m' := fun m' => by
      constructor
      · intro put
        unfold uputsLoop at put
        obtain ⟨m₁, entered, put⟩ := bind_ok put
        dsimp only at put
        rw [if_neg fun clash => Bool.false_ne_true clash.1] at put
        exact ⟨m₁, entered, put⟩
      · rintro ⟨m₁, entered, put⟩
        unfold uputsLoop
        refine ok_bind entered ?_
        dsimp only
        rwa [if_neg fun clash => Bool.false_ne_true clash.1]
    by_cases enters : m.NeedsCopy selector (addr >>> 12) → 0 < m.freeCount
    · obtain ⟨m₁, entered⟩ := (@enterPage_returns m selector addr pagenoU own mapped clean).mpr enters
      obtain ⟨first, shown₁⟩ := @enterPage_keeps _ _ _ _ _ (fun _ => True) _ own shown entered
      have fixed := enterPage_fixed own mapped clean entered
      obtain ⟨second, shown₂⟩ := store_window first.own shown₁ c
      have mapped₂ : ∀ a, (m₁.store 0 (windowAddr addr) c).Mapped selector a := fun a =>
        (second.mapped a).mpr ((first.mapped a).mpr (mapped a))
      have later := @ih (addr + 1) _ _ second.own mapped₂ shown₂ fixed.clean
      have counts : m₁.copiesNeeded selector (addr + 1) s.length ≤ m₁.freeCount ↔
          m.copiesNeeded selector addr (c :: s).length ≤ m.freeCount := by
        rw [List.length_cons, copiesNeeded_succ fixed, ← fixed.free]
        exact (Nat.add_le_add_iff_right).symm
      rw [← counts]
      refine Iff.trans ⟨?_, ?_⟩ later
      · rintro ⟨m', put⟩
        obtain ⟨m₂, entered', put⟩ := (unfolded m').mp put
        obtain rfl := Except.ok.inj (entered.symm.trans entered')
        exact ⟨m', put⟩
      · rintro ⟨m', put⟩
        exact ⟨m', (unfolded m').mpr ⟨m₁, entered, put⟩⟩
    · refine iff_of_false ?_ ?_
      · rintro ⟨m', put⟩
        obtain ⟨m₁, entered, -⟩ := (unfolded m').mp put
        exact enters ((enterPage_returns own mapped clean).mp ⟨m₁, entered⟩)
      · obtain ⟨needs, none⟩ := Classical.not_imp.mp enters
        have some : 0 < m.copiesNeeded selector addr (c :: s).length := by
          unfold copiesNeeded
          refine Finset.card_pos.mpr ⟨⟨(addr >>> 12).toNat, page_lt addr⟩,
            Finset.mem_filter.mpr ⟨Finset.mem_univ _, ?_⟩⟩
          refine ⟨?_, (touched_succ addr _ _).mpr (Or.inl rfl)⟩
          rwa [show BitVec.ofNat 16 (addr >>> 12).toNat = addr >>> 12 from
            (BitVec.ofNat_toNat 16 _).trans (BitVec.setWidth_eq _)]
        omega

end Loop

/-! ### What `uputs` and `ugets` return -/

/-- The loop of `uputs`, with the address it comes to. -/
def uputsAddrLoop (selector : Word) (nullTerminated : Bool) : List Word → Word → Word → Mm → Except Fault (Word × Mm)
  | [], addr, _, m => pure (addr, m)
  | c :: s, addr, pagenoU, m => do
      let m ← enterPage selector addr pagenoU true m
      let m := m.store 0 (windowAddr addr) c
      if nullTerminated ∧ c = 0 then pure (addr + 1, m)
      else uputsAddrLoop selector nullTerminated s (addr + 1) (addr >>> 12) m

/-- `uputs`, with what it returns. -/
def uputsCount (selector addr : Word) (nullTerminated : Bool) (s : List Word) (m : Mm) : Except Fault (Word × Mm) := do
  let (last, m) ← uputsAddrLoop selector nullTerminated s addr 0xffff m
  pure (last - addr, m)

/-- The loop of `ugets`, with the address it comes to. -/
def ugetsAddrLoop (selector : Word) (nullTerminated : Bool) :
    Nat → Word → Word → Mm → Except Fault (List Word × Word × Mm)
  | 0, addr, _, m => pure ([], addr, m)
  | length + 1, addr, pagenoU, m => do
      let m ← enterPage selector addr pagenoU false m
      let c := m.load 0 (windowAddr addr)
      if nullTerminated ∧ c = 0 then pure ([c], addr + 1, m)
      else
        let (rest, last, m) ← ugetsAddrLoop selector nullTerminated length (addr + 1) (addr >>> 12) m
        pure (c :: rest, last, m)

/-- `ugets`, with what it returns. -/
def ugetsCount (selector addr : Word) (length : Nat) (nullTerminated : Bool) (m : Mm) :
    Except Fault (List Word × Word × Mm) := do
  let (s, last, m) ← ugetsAddrLoop selector nullTerminated length addr 0xffff m
  pure (s, last - addr, m)

/-- The words that are copied: all of them, or those up to the first 0. -/
def copied (nullTerminated : Bool) : List Word → List Word
  | [] => []
  | c :: s => if nullTerminated ∧ c = 0 then [c] else c :: copied nullTerminated s

section Counts

variable {m m' : Mm} {selector addr : Word}

theorem copied_length_le (nullTerminated : Bool) (s : List Word) : (copied nullTerminated s).length ≤ s.length := by
  induction s with
  | nil => exact Nat.le_refl 0
  | cons c s ih =>
    unfold copied
    split
    · exact Nat.succ_le_succ (Nat.zero_le _)
    · exact Nat.succ_le_succ ih

/-- The loop of `uputs` is the loop over the words that are copied. By induction on the words left. -/
theorem uputsAddrLoop_ok_iff (nullTerminated : Bool) : ∀ (s : List Word) {addr pagenoU last : Word} {m m' : Mm},
    uputsAddrLoop selector nullTerminated s addr pagenoU m = .ok (last, m') ↔
      uputsLoop selector false (copied nullTerminated s) addr pagenoU m = .ok m' ∧
        last = addr + BitVec.ofNat 16 (copied nullTerminated s).length := by
  intro s
  induction s with
  | nil =>
    intro addr pagenoU last m m'
    constructor
    · intro done
      obtain ⟨rfl, rfl⟩ := Prod.mk.inj (Except.ok.inj done)
      exact ⟨rfl, (BitVec.add_zero addr).symm⟩
    · rintro ⟨done, rfl⟩
      obtain rfl := Except.ok.inj done
      exact congrArg Except.ok (Prod.ext (BitVec.add_zero addr).symm rfl)
  | cons c s ih =>
    intro addr pagenoU last m m'
    unfold uputsAddrLoop copied
    by_cases ends : nullTerminated ∧ c = 0
    · rw [if_pos ends]
      constructor
      · intro done
        obtain ⟨m₁, entered, done⟩ := bind_ok done
        dsimp only at done
        rw [if_pos ends] at done
        obtain ⟨rfl, rfl⟩ := Prod.mk.inj (Except.ok.inj done)
        refine ⟨?_, rfl⟩
        unfold uputsLoop
        refine ok_bind entered ?_
        dsimp only
        rw [if_neg fun clash => Bool.false_ne_true clash.1]
        rfl
      · rintro ⟨done, rfl⟩
        unfold uputsLoop at done
        obtain ⟨m₁, entered, done⟩ := bind_ok done
        dsimp only at done
        rw [if_neg fun clash => Bool.false_ne_true clash.1] at done
        obtain rfl := Except.ok.inj done
        refine ok_bind entered ?_
        dsimp only
        rw [if_pos ends]
        rfl
    · rw [if_neg ends, List.length_cons, add_ofNat_succ]
      constructor
      · intro done
        obtain ⟨m₁, entered, done⟩ := bind_ok done
        dsimp only at done
        rw [if_neg ends] at done
        obtain ⟨rest, rfl⟩ := ih.mp done
        refine ⟨?_, rfl⟩
        unfold uputsLoop
        refine ok_bind entered ?_
        dsimp only
        rwa [if_neg fun clash => Bool.false_ne_true clash.1]
      · rintro ⟨done, rfl⟩
        unfold uputsLoop at done
        obtain ⟨m₁, entered, done⟩ := bind_ok done
        dsimp only at done
        rw [if_neg fun clash => Bool.false_ne_true clash.1] at done
        refine ok_bind entered ?_
        dsimp only
        rw [if_neg ends]
        exact ih.mpr ⟨done, rfl⟩

/-- **What `uputs` does and returns**: it stores the words that are copied, and returns their number. -/
theorem uputsCount_ok_iff {nullTerminated : Bool} {s : List Word} {count : Word} :
    uputsCount selector addr nullTerminated s m = .ok (count, m') ↔
      uputsLoop selector false (copied nullTerminated s) addr 0xffff m = .ok m' ∧
        count = BitVec.ofNat 16 (copied nullTerminated s).length := by
  have less : ∀ n : Word, addr + n - addr = n := fun n => by bv_omega
  unfold uputsCount
  constructor
  · intro done
    obtain ⟨⟨last, m₁⟩, stored, done⟩ := bind_ok done
    obtain ⟨rfl, rfl⟩ := Prod.mk.inj (Except.ok.inj done)
    obtain ⟨put, rfl⟩ := (uputsAddrLoop_ok_iff nullTerminated s).mp stored
    exact ⟨put, less _⟩
  · rintro ⟨stored, rfl⟩
    refine ok_bind ((uputsAddrLoop_ok_iff nullTerminated s).mpr ⟨stored, rfl⟩) ?_
    exact congrArg Except.ok (Prod.ext (less _) rfl)

/-- **What the loop of `ugets` reads** where the words `copied s` are in memory. By induction on the words left. -/
theorem ugetsAddrLoop_reads (nullTerminated : Bool) (positive : selector ≠ 0) (low : selector.toNat < mmuSelectorNum) :
    ∀ (s : List Word) {addr pagenoU : Word} {m : Mm}, Shown m selector pagenoU →
    (∀ (j : Nat) (inside : j < (copied nullTerminated s).length),
      m.load selector (addr + BitVec.ofNat 16 j) = (copied nullTerminated s)[j]) →
    ∃ m', ugetsAddrLoop selector nullTerminated s.length addr pagenoU m =
      .ok (copied nullTerminated s, addr + BitVec.ofNat 16 (copied nullTerminated s).length, m') ∧ Windowed m m' := by
  intro s
  induction s with
  | nil =>
    intro addr pagenoU m _ _
    refine ⟨m, ?_, .refl m⟩
    show Except.ok _ = Except.ok _
    rw [copied, List.length_nil, BitVec.add_zero]
  | cons c s ih =>
    intro addr pagenoU m shown words
    obtain ⟨m₁, entered, windowed, shown₁⟩ := enterPage_reads positive low addr pagenoU shown
    have here : m₁.load 0 (windowAddr addr) = c := by
      rw [load_window shown₁, windowed.load positive low]
      have first : (copied nullTerminated (c :: s)).head? = some c := by
        unfold copied
        split <;> rfl
      obtain ⟨rest, eq⟩ := List.head?_eq_some_iff.mp first
      have word := words 0 (by rw [eq]; exact Nat.succ_pos _)
      rw [show addr + BitVec.ofNat 16 0 = addr from BitVec.add_zero addr] at word
      rw [word]
      simp only [eq, List.getElem_cons_zero]
    rw [List.length_cons]
    unfold ugetsAddrLoop
    by_cases ends : nullTerminated ∧ c = 0
    · refine ⟨m₁, ok_bind entered ?_, windowed⟩
      dsimp only
      rw [here, if_pos ends, copied, if_pos ends]
      rfl
    · have tail : copied nullTerminated (c :: s) = c :: copied nullTerminated s := by
        rw [copied, if_neg ends]
      obtain ⟨m₂, rest, windowed'⟩ := @ih (addr + 1) (addr >>> 12) m₁ shown₁ fun j inside => by
        rw [windowed.load positive low, ← add_ofNat_succ, words (j + 1) (by rw [tail]; exact Nat.succ_lt_succ inside)]
        simp only [tail, List.getElem_cons_succ]
      refine ⟨m₂, ok_bind entered ?_, windowed.trans windowed'⟩
      dsimp only
      rw [here, if_neg ends, rest, tail, List.length_cons, add_ofNat_succ]
      rfl

/-- **What `ugets` reads and returns** where the words that are copied are in memory. -/
theorem ugetsCount_reads {nullTerminated : Bool} {s : List Word} (positive : selector ≠ 0)
    (low : selector.toNat < mmuSelectorNum)
    (words : ∀ (j : Nat) (inside : j < (copied nullTerminated s).length),
      m.load selector (addr + BitVec.ofNat 16 j) = (copied nullTerminated s)[j]) :
    ∃ m', ugetsCount selector addr s.length nullTerminated m =
      .ok (copied nullTerminated s, BitVec.ofNat 16 (copied nullTerminated s).length, m') ∧ Windowed m m' := by
  obtain ⟨m', read, windowed⟩ := ugetsAddrLoop_reads nullTerminated positive low s shown_start words
  refine ⟨m', ok_bind read ?_, windowed⟩
  refine congrArg Except.ok (Prod.ext rfl (Prod.ext ?_ rfl))
  show addr + BitVec.ofNat 16 _ - addr = _
  bv_omega

end Counts

/-! ### A copy as a whole -/

/-- The words `s` are at `addr` in the memory of the process, and no other word has changed: not of the process, not of
the kernel, whose pages 14 and 15 are windows, and not of another process, where it has pages of its own or pages that
the process would have to copy. -/
structure UserCopied (m m' : Mm) (selector addr : Word) (s : List Word) : Prop where
  stored : ∀ (j : Nat) (low : j < s.length), m'.load selector (addr + BitVec.ofNat 16 j) = s[j]
  kept : ∀ a, ¬ InRange addr s.length a → m'.load selector a = m.load selector a
  kernel : ∀ a : Word, (a >>> 12).toNat < 14 → m'.load 0 a = m.load 0 a
  others : ∀ other : Word, other ≠ 0 → other ≠ selector → other.toNat < mmuSelectorNum → ∀ a : Word,
    m.Foreign selector (m.pageOf other a) → m'.load other a = m.load other a
  physical : ∀ q, m.Foreign selector q → m'.ram q = m.ram q

/-- The pages of the kernel below its windows are in use, and are none of the process's. -/
def KernelApart (m : Mm) (selector : Word) : Prop :=
  ∀ a : Word, (a >>> 12).toNat < 14 → m.InUse (m.pageOf 0 a) ∧ ∀ b, m.pageOf selector b ≠ m.pageOf 0 a

/-- **A copy to the process and back.** `uputs` returns the number of words copied, they are in place, nothing else has
changed, and `ugets` of the same range then reads them and returns their number. -/
def UserCopyRight (m : Mm) (selector addr : Word) (nullTerminated : Bool) (s : List Word) : Prop :=
  ∃ m', uputsCount selector addr nullTerminated s m = .ok (BitVec.ofNat 16 (copied nullTerminated s).length, m') ∧
    UserCopied m m' selector addr (copied nullTerminated s) ∧
    ∃ m'', ugetsCount selector addr s.length nullTerminated m' =
      .ok (copied nullTerminated s, BitVec.ofNat 16 (copied nullTerminated s).length, m'') ∧ Windowed m' m''

section Copy

variable {m m' : Mm} {selector addr other a : Word}

/-- Where a table entry and its page are as they were, so is the word. -/
theorem OthersKept.load (kept : OthersKept m m' selector) (low : selector.toNat < mmuSelectorNum)
    (low' : other.toNat < mmuSelectorNum) (ne : other ≠ selector) (apart : other ≠ 0 ∨ (a >>> 12).toNat < 14)
    (foreign : m.Foreign selector (m.pageOf other a)) : m'.load other a = m.load other a := by
  have window : ∀ pageno : Word, 14 ≤ pageno.toNat → pageno.toNat < 16 →
      tableAddr other (a >>> 12) false ≠ tableAddr 0 pageno false := fun pageno high small same => by
    obtain ⟨kernel, page⟩ := tableAddr_inj low' (page_lt a) (by decide) small same
    rcases apart with user | below
    · exact user kernel
    · rw [page] at below
      omega
  have entry : m'.table (tableAddr other (a >>> 12) false) = m.table (tableAddr other (a >>> 12) false) :=
    kept.table _ (fun pageno small same => ne (tableAddr_inj low' (page_lt a) low small same).1)
      (window 14 (by decide) (by decide)) (window 15 (by decide) (by decide))
  have page : m'.readTable other (a >>> 12) false = m.readTable other (a >>> 12) false := congrArg (· &&& _) entry
  unfold Mm.load
  rw [page]
  exact congrFun (kept.foreign _ foreign).2 _

theorem KernelApart.foreign (apart : KernelApart m selector) (small : (a >>> 12).toNat < 14) :
    m.Foreign selector (m.pageOf 0 a) := by
  obtain ⟨used, none⟩ := apart a small
  refine ⟨used, fun pageno low here => absurd ?_ (none (pageno <<< 12))⟩
  unfold pageOf
  rw [page_shift low]
  exact here

/-- The words of a copy that has come to its end. -/
theorem userCopied_of_put {s : List Word} (own : m.Private selector) (mapped : ∀ a, m.Mapped selector a)
    (apart : KernelApart m selector) (short : s.length ≤ 2 ^ 16)
    (put : uputsLoop selector false s addr 0xffff m = .ok m') : UserCopied m m' selector addr s := by
  have kept := uputsLoop_others s own mapped shown_start clean_start put
  refine ⟨uputsLoop_written s own mapped shown_start short put, fun a out => ?_, fun a small => ?_,
    fun other user ne low a foreign => ?_, fun q foreign => (kept.foreign q foreign).2⟩
  · exact (uputsLoop_keeps s own shown_start put).load a (mapped a) out
  · exact kept.load own.low (by decide) own.positive.symm (Or.inr small) (apart.foreign small)
  · exact kept.load own.low low ne (Or.inl user) foreign

/-- **User-memory copies**: a copy is right exactly where the read-only pages that it has to copy first are no more than
the free pages. -/
theorem userCopy_right_iff (own : m.Private selector) (mapped : ∀ a, m.Mapped selector a)
    (apart : KernelApart m selector) (nullTerminated : Bool) (s : List Word) (short : s.length < 2 ^ 16) :
    UserCopyRight m selector addr nullTerminated s ↔
      m.copiesNeeded selector addr (copied nullTerminated s).length ≤ m.freeCount := by
  rw [← uputsLoop_returns_iff (copied nullTerminated s) own mapped shown_start clean_start]
  constructor
  · rintro ⟨m', put, -, -⟩
    exact ⟨m', (uputsCount_ok_iff.mp put).1⟩
  · rintro ⟨m', put⟩
    have fits : (copied nullTerminated s).length ≤ 2 ^ 16 := (copied_length_le nullTerminated s).trans short.le
    have done := userCopied_of_put own mapped apart fits put
    have low := own.low
    exact ⟨m', uputsCount_ok_iff.mpr ⟨put, rfl⟩, done, ugetsCount_reads own.positive low done.stored⟩

end Copy

/-! ### Two processes with one page -/

/-- Each selector has 16 data pages, after those of the selector before it; the processes 1 and 2 share the page 19,
as after a fork, and the pages from 48 on are in use `rest` times. -/
def sharedMm (rest : Word) : Mm where
  table a := if a = tableAddr 1 3 false ∨ a = tableAddr 2 3 false then 0x2013
    else (a &&& 0xf).setWidth 16 + 16 * (a >>> 8).setWidth 16
  pageMap i := if i.val = 19 then 2 else if i.val < 48 then 1 else rest
  selectorMap i := if i.val < 3 then 1 else 0
  ram _ _ := 7

theorem sharedMm_pageOf (rest a : Word) : (sharedMm rest).pageOf 1 a = 16#16 + (a >>> 12) := by
  have all : ∀ j : Fin 16, (sharedMm 0).readTable 1 (BitVec.ofNat 16 j.val) false = 16#16 + BitVec.ofNat 16 j.val := by
    decide
  have here := all ⟨(a >>> 12).toNat, page_lt a⟩
  rwa [BitVec.ofNat_toNat, BitVec.setWidth_eq] at here

theorem sharedMm_kernel (rest a : Word) : (sharedMm rest).pageOf 0 a = a >>> 12 := by
  have all : ∀ j : Fin 16, (sharedMm 0).readTable 0 (BitVec.ofNat 16 j.val) false = BitVec.ofNat 16 j.val := by
    decide
  have here := all ⟨(a >>> 12).toNat, page_lt a⟩
  rwa [BitVec.ofNat_toNat, BitVec.setWidth_eq] at here

theorem sharedMm_toNat (rest a : Word) : ((sharedMm rest).pageOf 1 a).toNat = 16 + (a >>> 12).toNat := by
  have := page_lt a
  rw [sharedMm_pageOf, BitVec.toNat_add, BitVec.toNat_ofNat]
  omega

theorem sharedMm_used (rest : Word) {page : Word} (small : page.toNat < 48) : (sharedMm rest).InUse page := by
  refine ⟨small.trans (by decide), ?_⟩
  show (if page.toNat = 19 then 2 else if page.toNat < 48 then 1 else rest) ≠ 0
  rw [if_pos small]
  split
  · decide
  · decide

theorem sharedMm_own (rest : Word) : (sharedMm rest).Private 1 := by
  refine ⟨by decide, by decide, fun a b _ same => ?_, fun a _ => ?_⟩
  · have value := congrArg BitVec.toNat same
    rw [sharedMm_toNat, sharedMm_toNat] at value
    exact BitVec.eq_of_toNat_eq (Nat.add_left_cancel value)
  · have := page_lt a
    exact sharedMm_used rest (by rw [sharedMm_toNat]; omega)

theorem sharedMm_mapped (rest a : Word) : (sharedMm rest).Mapped 1 a := by
  intro free
  have value := congrArg BitVec.toNat free
  have := page_lt a
  rw [sharedMm_toNat, show freePageMark.toNat = 0x1fff from rfl] at value
  omega

theorem sharedMm_apart (rest : Word) : KernelApart (sharedMm rest) 1 := by
  intro a small
  refine ⟨sharedMm_used rest (by rw [sharedMm_kernel]; omega), fun b same => ?_⟩
  have value := congrArg BitVec.toNat same
  rw [sharedMm_toNat, sharedMm_kernel] at value
  omega

theorem userCopy_right_iff_shared : UserCopyRight (sharedMm 0) 1 0x3fff true [5, 6, 0, 8] ↔
    (sharedMm 0).copiesNeeded 1 0x3fff (copied true [5, 6, 0, 8]).length ≤ (sharedMm 0).freeCount :=
  userCopy_right_iff (sharedMm_own 0) (sharedMm_mapped 0) (sharedMm_apart 0) true [5, 6, 0, 8] (by decide)

/-- **With no free page** the word put to a shared page is not there: there is no page to copy it to. -/
theorem userCopy_no_page : ¬ ∀ (m : Mm) (selector addr : Word) (nullTerminated : Bool) (s : List Word),
    m.Private selector → (∀ a, m.Mapped selector a) → KernelApart m selector → s.length < 2 ^ 16 →
    UserCopyRight m selector addr nullTerminated s := by
  intro all
  obtain ⟨m', put, -, -⟩ := all (sharedMm 1) 1 0x3000 false [5] (sharedMm_own 1) (sharedMm_mapped 1) (sharedMm_apart 1)
    (by decide)
  obtain ⟨stored, -⟩ := uputsCount_ok_iff.mp put
  obtain ⟨m₁, entered, -⟩ := bind_ok stored
  have free := (enterPage_returns (sharedMm_own 1) (sharedMm_mapped 1) clean_start).mp ⟨m₁, entered⟩ (by decide)
  have full : (sharedMm 1).freeCount = 0 := by
    unfold freeCount
    rw [Finset.filter_false_of_mem, Finset.card_empty]
    intro i _ zero
    have count : (if i.val = 19 then 2 else if i.val < 48 then 1 else 1 : Word) = 0 := zero
    split at count
    · exact absurd count (by decide)
    · rw [ite_self] at count
      exact absurd count (by decide)
  rw [full] at free
  exact Nat.lt_irrefl 0 free

end RlCpu.Kernel
