/-
**Reading and writing the memory of a process (`ugets`, `uputs`).**

`Mm.Private m selector`: each data page the process has is a physical page of its own, and in use. The
window of the kernel is then the only other way to them, and a page that `check_and_fix_page` copies goes
to a page nobody has. `Mm.Keeps m m' selector seen`: the process sees the same words at the addresses of
`seen`.

* `uputs_frame`: a word outside the range written is as it was.
* `ugets_frame`: nothing in the memory of the process changes.
-/

import RlCpu.Kernel.Mm
import RlCpu.Lib.Refine

namespace RlCpu.Kernel

open RlCpu.Lib

/-- `a` is one of the `n` addresses from `addr` on, which wrap. -/
def InRange (addr : Word) (n : Nat) (a : Word) : Prop := (a - addr).toNat < n

instance (addr : Word) (n : Nat) (a : Word) : Decidable (InRange addr n a) :=
  inferInstanceAs (Decidable (_ < _))

/-- The range after its first address. -/
theorem inRange_succ {addr a : Word} {n : Nat} (out : ¬ InRange addr (n + 1) a) :
    a ≠ addr ∧ ¬ InRange (addr + 1) n a := by
  unfold InRange at *
  have ne : a ≠ addr := by
    rintro rfl
    rw [BitVec.sub_self] at out
    exact out (Nat.succ_pos n)
  refine ⟨ne, ?_⟩
  bv_omega

/-! ### Addresses -/

/-- A page number of the data segment. -/
theorem page_lt (addr : Word) : (addr >>> 12).toNat < 16 := by
  rw [BitVec.toNat_ushiftRight, Nat.shiftRight_eq_div_pow]
  have := addr.isLt
  omega

theorem offset_toNat (addr : Word) : (addr &&& 0xfff).toNat = addr.toNat % 4096 := by
  rw [BitVec.toNat_and]
  exact Nat.and_two_pow_sub_one_eq_mod addr.toNat 12

theorem page_toNat (addr : Word) : (addr >>> 12).toNat = addr.toNat / 4096 := by
  rw [BitVec.toNat_ushiftRight, Nat.shiftRight_eq_div_pow]

/-- An address is its page and its offset. -/
theorem eq_of_page_offset {a b : Word} (page : a >>> 12 = b >>> 12)
    (offset : (a &&& 0xfff).toNat = (b &&& 0xfff).toNat) : a = b := by
  have page' := congrArg BitVec.toNat page
  rw [page_toNat, page_toNat] at page'
  rw [offset_toNat, offset_toNat] at offset
  refine BitVec.eq_of_toNat_eq ?_
  omega

theorem windowAddr_page (addr : Word) : windowAddr addr >>> 12 = 14 := by
  unfold windowAddr
  have small : ((addr &&& 0xfff) >>> 12) = 0#16 := by
    refine BitVec.eq_of_toNat_eq ?_
    rw [page_toNat, offset_toNat]
    have := Nat.mod_lt addr.toNat (show 0 < 4096 by decide)
    show addr.toNat % 4096 / 4096 = 0
    omega
  rw [BitVec.ushiftRight_or_distrib, small]
  decide

theorem windowAddr_offset (addr : Word) : windowAddr addr &&& 0xfff = addr &&& 0xfff := by
  unfold windowAddr
  have high : ((0xfff : Word) &&& (14 <<< 12 : Word)) = 0#16 := by decide
  rw [BitVec.and_comm, BitVec.and_or_distrib_left, high, BitVec.zero_or, BitVec.and_comm 0xfff,
    BitVec.and_assoc, BitVec.and_self]

/-- The table entry of a data page. -/
theorem tableAddr_toNat {selector pageno : Word} (low : selector.toNat < mmuSelectorNum)
    (page : pageno.toNat < 16) :
    (tableAddr selector pageno false).toNat = selector.toNat * 256 + pageno.toNat := by
  have small : pageno &&& 0xff = pageno := by
    refine BitVec.eq_of_toNat_eq ?_
    rw [BitVec.toNat_and]
    exact (Nat.and_two_pow_sub_one_eq_mod pageno.toNat 8).trans (Nat.mod_eq_of_lt (by omega))
  have data : ((if false then 1 else 0 : Word) <<< 12) = 0#16 := by decide
  have low : selector.toNat < 64 := low
  have shifted : (selector <<< 8).toNat = selector.toNat * 256 := by
    rw [BitVec.toNat_shiftLeft, Nat.shiftLeft_eq]
    omega
  have sum := Nat.shiftLeft_add_eq_or_of_lt (show pageno.toNat < 2 ^ 8 by omega) selector.toNat
  rw [Nat.shiftLeft_eq] at sum
  unfold tableAddr
  rw [small, data, BitVec.toNat_setWidth, BitVec.or_zero, BitVec.toNat_or, shifted, ← sum]
  omega

theorem tableAddr_inj {selector pageno selector' pageno' : Word} (low : selector.toNat < mmuSelectorNum)
    (page : pageno.toNat < 16) (low' : selector'.toNat < mmuSelectorNum) (page' : pageno'.toNat < 16)
    (same : tableAddr selector pageno false = tableAddr selector' pageno' false) :
    selector = selector' ∧ pageno = pageno' := by
  have value := congrArg BitVec.toNat same
  rw [tableAddr_toNat low page, tableAddr_toNat low' page'] at value
  exact ⟨BitVec.eq_of_toNat_eq (by omega), BitVec.eq_of_toNat_eq (by omega)⟩

namespace Mm

/-! ### One access -/

section Access

variable {m : Mm} {selector pageno selector' pageno' entry page : Word}

/-- The entry just written. -/
theorem readTable_writeTable_self : (m.writeTable selector pageno false entry).readTable selector pageno false =
    entry &&& mmuTableNoFlagsMask := by
  unfold writeTable readTable
  dsimp only
  rw [Function.update_self]

/-- Another entry. -/
theorem readTable_writeTable_ne (low : selector.toNat < mmuSelectorNum) (small : pageno.toNat < 16)
    (low' : selector'.toNat < mmuSelectorNum) (small' : pageno'.toNat < 16)
    (ne : selector' ≠ selector ∨ pageno' ≠ pageno) :
    (m.writeTable selector pageno false entry).readTable selector' pageno' false =
      m.readTable selector' pageno' false := by
  unfold writeTable readTable
  dsimp only
  rw [Function.update_of_ne]
  intro same
  obtain ⟨rfl, rfl⟩ := tableAddr_inj low' small' low small same
  exact ne.elim (fun clash => clash rfl) fun clash => clash rfl

/-- An entry has no flags when it is read. -/
theorem readTable_masked : m.readTable selector pageno false &&& mmuTableNoFlagsMask =
    m.readTable selector pageno false := by
  unfold readTable
  rw [BitVec.and_assoc, BitVec.and_self]

theorem flags_masked (flags : Word) : (flags <<< mmuTableFlagsShift) &&& mmuTableNoFlagsMask = 0#16 := by
  refine BitVec.eq_of_getLsbD_eq fun i small => ?_
  have mask : ∀ j : Fin 16, 13 ≤ j.val → mmuTableNoFlagsMask.getLsbD j = false := by decide
  rw [BitVec.getLsbD_and, BitVec.getLsbD_shiftLeft, BitVec.getLsbD_zero]
  by_cases low : i < 13
  · simp [low]
  · rw [mask ⟨i, small⟩ (by dsimp only; omega), Bool.and_false]

/-- Flags do not matter to the page of an entry. -/
theorem readTable_writeTableFlags (flags : Word) (low : selector.toNat < mmuSelectorNum) (small : pageno.toNat < 16)
    (low' : selector'.toNat < mmuSelectorNum) (small' : pageno'.toNat < 16) :
    (m.writeTableFlags selector pageno false flags).readTable selector' pageno' false =
      m.readTable selector' pageno' false := by
  unfold writeTableFlags
  by_cases same : selector' = selector ∧ pageno' = pageno
  · obtain ⟨rfl, rfl⟩ := same
    rw [readTable_writeTable_self, BitVec.and_comm, BitVec.and_or_distrib_left, BitVec.and_comm,
      readTable_masked, BitVec.and_comm, flags_masked, BitVec.or_zero]
  · exact readTable_writeTable_ne low small low' small' (not_and_or.mp same)

end Access

/-! ### The pages of a process -/

/-- The page of an address of the process. -/
def pageOf (m : Mm) (selector addr : Word) : Word := m.readTable selector (addr >>> 12) false

/-- The process has a page there. -/
def Mapped (m : Mm) (selector addr : Word) : Prop := m.pageOf selector addr ≠ freePageMark

/-- A physical page is in use. -/
def InUse (m : Mm) (page : Word) : Prop :=
  ∃ low : page.toNat < pageMapSize, m.pageMap ⟨page.toNat, low⟩ ≠ 0

/-- **The data pages of a process are its own.** -/
structure Private (m : Mm) (selector : Word) : Prop where
  positive : selector ≠ 0
  low : selector.toNat < mmuSelectorNum
  distinct : ∀ a b : Word, m.Mapped selector a → m.pageOf selector a = m.pageOf selector b → a >>> 12 = b >>> 12
  used : ∀ a : Word, m.Mapped selector a → m.InUse (m.pageOf selector a)

/-- What the process sees at the addresses of `seen` is the same in both states, and its pages stay its
own. -/
structure Keeps (m m' : Mm) (selector : Word) (seen : Word → Prop) : Prop where
  own : m'.Private selector
  mapped : ∀ a, m'.Mapped selector a ↔ m.Mapped selector a
  load : ∀ a, m.Mapped selector a → seen a → m'.load selector a = m.load selector a

section Frame

variable {m m' m'' : Mm} {selector addr : Word} {seen : Word → Prop}

theorem Keeps.refl (own : m.Private selector) : Keeps m m selector seen := ⟨own, fun _ => Iff.rfl, fun _ _ _ => rfl⟩

theorem Keeps.trans (first : Keeps m m' selector seen) (second : Keeps m' m'' selector seen) :
    Keeps m m'' selector seen :=
  ⟨second.own, fun a => (second.mapped a).trans (first.mapped a), fun a here inside =>
    (second.load a ((first.mapped a).mpr here) inside).trans (first.load a here inside)⟩

theorem Keeps.mono {more : Word → Prop} (keeps : Keeps m m' selector more) (weak : ∀ a, seen a → more a) :
    Keeps m m' selector seen :=
  ⟨keeps.own, keeps.mapped, fun a here inside => keeps.load a here (weak a inside)⟩

/-- A change that leaves the pages of the process, their words, and what is in use. -/
theorem Private.keeps (own : m.Private selector) (page : ∀ a, m'.pageOf selector a = m.pageOf selector a)
    (used : ∀ q, m.InUse q → m'.InUse q) (ram : m'.ram = m.ram) : Keeps m m' selector seen := by
  have mapped : ∀ a, m'.Mapped selector a ↔ m.Mapped selector a := fun a => by
    unfold Mapped
    rw [page]
  refine ⟨⟨own.positive, own.low, fun a b here => ?_, fun a here => ?_⟩, mapped, fun a _ _ => ?_⟩
  · rw [page, page]
    exact own.distinct a b ((mapped a).mp here)
  · rw [page]
    exact used _ (own.used a ((mapped a).mp here))
  · show m'.ram (m'.pageOf selector a) _ = m.ram (m.pageOf selector a) _
    rw [page, ram]

/-- The windows of the kernel are no pages of the process. -/
theorem Private.window (own : m.Private selector) {pageno entry : Word} (small : pageno.toNat < 16) :
    Keeps m (m.writeTable 0 pageno false entry) selector seen :=
  own.keeps (fun a => readTable_writeTable_ne (by decide) small own.low (page_lt a) (Or.inl own.positive))
    (fun _ used => used) rfl

/-- Flags are nothing the process sees. -/
theorem Private.flags (own : m.Private selector) {pageno flags : Word} (small : pageno.toNat < 16) :
    Keeps m (m.writeTableFlags selector pageno false flags) selector seen :=
  own.keeps (fun a => readTable_writeTableFlags flags own.low small own.low (page_lt a))
    (fun _ used => used) rfl

/-- The count of a page changed, to no 0. -/
theorem setPage_ok {page : Word} {count : Word → Word}
    (some : ∀ low : page.toNat < pageMapSize, count (m.pageMap ⟨page.toNat, low⟩) ≠ 0)
    (done : m.setPage page count = .ok m') :
    m'.InUse page ∧ (∀ q, m.InUse q → m'.InUse q) ∧ m'.table = m.table ∧ m'.ram = m.ram := by
  unfold Mm.setPage at done
  split at done
  case isFalse => cases done
  case isTrue low =>
    obtain rfl := Except.ok.inj done
    refine ⟨⟨low, ?_⟩, fun q ⟨inside, used⟩ => ⟨inside, ?_⟩, rfl, rfl⟩
    · show Function.update m.pageMap _ _ _ ≠ 0
      rw [Function.update_self]
      exact some low
    · show Function.update m.pageMap _ _ _ ≠ 0
      by_cases here : (⟨q.toNat, inside⟩ : Fin pageMapSize) = ⟨page.toNat, low⟩
      · rw [here, Function.update_self]
        exact some low
      · rwa [Function.update_of_ne here]

theorem getPageRefcnt_ok {page refcnt : Word} (count : m.getPageRefcnt page = .ok refcnt) :
    ∃ low : page.toNat < pageMapSize, refcnt = m.pageMap ⟨page.toNat, low⟩ := by
  unfold getPageRefcnt at count
  split at count
  case isTrue low => exact ⟨low, (Except.ok.inj count).symm⟩
  case isFalse => cases count

/-- A free page is in use by nobody. -/
theorem getFreePage_free {page : Word} (found : m.getFreePage = .ok page) :
    page.toNat < 4096 ∧ ¬ m.InUse page := by
  unfold getFreePage at found
  split at found
  case h_2 => cases found
  case h_1 i here =>
    obtain rfl := Except.ok.inj found
    have zero := List.find?_some here
    have bound : i.val < 4096 := i.isLt
    have value : (BitVec.ofNat 16 i.val).toNat = i.val := by
      rw [BitVec.toNat_ofNat, Nat.mod_eq_of_lt (by omega)]
    refine ⟨by rw [value]; exact bound, ?_⟩
    rintro ⟨low, used⟩
    have same : (⟨(BitVec.ofNat 16 i.val).toNat, low⟩ : Fin pageMapSize) = i := Fin.ext value
    rw [same] at used
    exact used (by simpa using zero)

/-- `mmu_copy_pages` -/
theorem copyPages_ram {src dst : Word} (fits : src &&& mmuTableNoFlagsMask = src)
    (fits' : dst &&& mmuTableNoFlagsMask = dst) :
    (m.copyPages src dst).ram = Function.update m.ram dst (m.ram src) := by
  have first : ((m.writeTable 0 14 false src).writeTable 0 15 false dst).readTable 0 14 false = src := by
    rw [readTable_writeTable_ne (by decide) (by decide) (by decide) (by decide) (Or.inr (by decide)),
      readTable_writeTable_self, fits]
  have second : ((m.writeTable 0 14 false src).writeTable 0 15 false dst).readTable 0 15 false = dst := by
    rw [readTable_writeTable_self, fits']
  unfold copyPages
  dsimp only
  rw [first, second]
  rfl

theorem copyPages_pageOf {src dst : Word} (positive : selector ≠ 0) (low : selector.toNat < mmuSelectorNum)
    (a : Word) : (m.copyPages src dst).pageOf selector a = m.pageOf selector a := by
  show ((m.writeTable 0 14 false src).writeTable 0 15 false dst).readTable selector (a >>> 12) false = _
  rw [readTable_writeTable_ne (by decide) (by decide) low (page_lt a) (Or.inl positive),
    readTable_writeTable_ne (by decide) (by decide) low (page_lt a) (Or.inl positive)]
  rfl

/-- A page below 4096 fits a table entry. -/
theorem masked_of_lt {page : Word} (low : page.toNat < 4096) : page &&& mmuTableNoFlagsMask = page := by
  refine BitVec.eq_of_toNat_eq ?_
  rw [BitVec.toNat_and]
  exact (Nat.and_two_pow_sub_one_eq_mod page.toNat 13).trans (Nat.mod_eq_of_lt (by omega))

/-- **A page of the process moved** to a page that nobody has, with its words. -/
theorem Private.moved (own : m.Private selector) {target : Word} (here : m.Mapped selector addr)
    (low : target.toNat < 4096) (free : ¬ m.InUse target)
    (page : ∀ a, m'.pageOf selector a = if a >>> 12 = addr >>> 12 then target else m.pageOf selector a)
    (used : ∀ q, m.InUse q → m'.InUse q) (taken : m'.InUse target)
    (ram : m'.ram = Function.update m.ram target (m.ram (m.pageOf selector addr))) :
    Keeps m m' selector seen := by
  have notMark : target ≠ freePageMark := by
    rintro rfl
    exact absurd low (by decide)
  have same : ∀ a : Word, a >>> 12 = addr >>> 12 → m.pageOf selector a = m.pageOf selector addr := fun a equal =>
    congrArg (fun p => m.readTable selector p false) equal
  have other : ∀ a, m.Mapped selector a → m.pageOf selector a ≠ target := fun a mapped equal =>
    free (equal ▸ own.used a mapped)
  have mapped : ∀ a, m'.Mapped selector a ↔ m.Mapped selector a := by
    intro a
    unfold Mapped
    rw [page]
    split
    case isTrue equal =>
      rw [same a equal]
      exact iff_of_true notMark here
    case isFalse => exact Iff.rfl
  refine ⟨⟨own.positive, own.low, fun a b mappedA => ?_, fun a mappedA => ?_⟩, mapped, fun a mappedA _ => ?_⟩
  · rw [page, page]
    have mappedA := (mapped a).mp mappedA
    split <;> split
    case isTrue.isTrue first second => exact fun _ => first.trans second.symm
    case isTrue.isFalse first second =>
      intro equal
      have mappedB : m.Mapped selector b := fun clash => notMark (equal.trans clash)
      exact absurd equal.symm (other b mappedB)
    case isFalse.isTrue => exact fun equal => absurd equal (other a mappedA)
    case isFalse.isFalse => exact own.distinct a b mappedA
  · rw [page]
    split
    · exact taken
    · exact used _ (own.used a ((mapped a).mp mappedA))
  · show m'.ram (m'.pageOf selector a) _ = m.ram (m.pageOf selector a) _
    rw [page, ram]
    split
    case isTrue equal => rw [Function.update_self, same a equal]
    case isFalse => rw [Function.update_of_ne (other a mappedA)]

/-- **`check_and_fix_page` changes nothing the process sees**, also where it copies a shared page. -/
theorem checkAndFixPage_keeps {wr moved : Bool} (own : m.Private selector)
    (fixed : checkAndFixPage selector (addr >>> 12) false wr m = .ok (moved, m')) :
    Keeps m m' selector seen := by
  unfold checkAndFixPage at fixed
  dsimp only at fixed
  split at fixed
  case isFalse =>
    obtain ⟨-, rfl⟩ := Prod.mk.inj (Except.ok.inj fixed)
    exact Keeps.refl own
  case isTrue =>
    obtain ⟨refcnt, count, fixed⟩ := bind_ok fixed
    split at fixed
    case isFalse =>
      obtain ⟨-, rfl⟩ := Prod.mk.inj (Except.ok.inj fixed)
      exact own.flags (page_lt addr)
    case isTrue shared =>
      obtain ⟨m₁, less, fixed⟩ := bind_ok fixed
      obtain ⟨target, found, fixed⟩ := bind_ok fixed
      obtain ⟨m₂, marked, fixed⟩ := bind_ok fixed
      obtain ⟨-, rfl⟩ := Prod.mk.inj (Except.ok.inj fixed)
      obtain ⟨low, rfl⟩ := getPageRefcnt_ok count
      have here : m.Mapped selector addr := fun mark => by
        have low : (m.pageOf selector addr).toNat < 4096 := low
        rw [mark] at low
        exact absurd low (by decide)
      obtain ⟨-, used, table, ram⟩ := setPage_ok (fun _ => by
        have many : 1 < m.pageMap ⟨_, low⟩ := shared
        bv_omega) less
      obtain ⟨fits, free⟩ := getFreePage_free found
      obtain ⟨taken, used', table', ram'⟩ := setPage_ok (fun _ => by decide) marked
      refine own.moved here fits (fun inside => free (used _ inside)) (fun a => ?_)
        (fun q inside => used' q (used q inside)) taken ?_
      · have old : m₂.pageOf selector a = m.pageOf selector a := by
          show m₂.table _ &&& _ = m.table _ &&& _
          rw [table', table]
        show ((_ : Mm).writeTableFlags selector (addr >>> 12) false 0).readTable selector (a >>> 12) false = _
        rw [readTable_writeTableFlags 0 own.low (page_lt addr) own.low (page_lt a)]
        refine (copyPages_pageOf own.positive own.low a).trans ?_
        split
        case isTrue equal =>
          show (m₂.writeTable selector (addr >>> 12) false target).readTable selector (a >>> 12) false = _
          rw [equal, readTable_writeTable_self, masked_of_lt fits]
        case isFalse away =>
          refine (readTable_writeTable_ne own.low (page_lt addr) own.low (page_lt a) (Or.inr away)).trans old
      · refine (copyPages_ram readTable_masked (masked_of_lt fits)).trans ?_
        show Function.update m₂.ram target (m₂.ram _) = _
        rw [ram', ram]
        rfl

end Frame

end Mm

/-! ### The loops -/

open Mm

section Loops

variable {m m' : Mm} {selector addr pagenoU : Word} {seen : Word → Prop}

/-- The kernel's window shows the page `pagenoU` of the process, if that is one. -/
def Shown (m : Mm) (selector pagenoU : Word) : Prop :=
  pagenoU.toNat < 16 → m.readTable 0 14 false = m.readTable selector pagenoU false

theorem shown_start : Shown m selector 0xffff := fun clash => absurd clash (by decide)

/-- After `enterPage` the window shows the page of the address. -/
theorem enterPage_keeps {wr : Bool} (own : m.Private selector) (shown : Shown m selector pagenoU)
    (entered : enterPage selector addr pagenoU wr m = .ok m') :
    Keeps m m' selector seen ∧ Shown m' selector (addr >>> 12) := by
  unfold enterPage at entered
  split at entered
  case isTrue =>
    obtain ⟨⟨moved, m₁⟩, fixed, entered⟩ := bind_ok entered
    obtain rfl := Except.ok.inj entered
    have first : Keeps m m₁ selector seen := checkAndFixPage_keeps own fixed
    have second : Keeps m₁ (m₁.mapWindow selector addr) selector seen := first.own.window (by decide)
    refine ⟨first.trans second, fun _ => ?_⟩
    unfold mapWindow
    rw [readTable_writeTable_self, readTable_masked,
      readTable_writeTable_ne (by decide) (by decide) own.low (page_lt addr) (Or.inl own.positive)]
  case isFalse same =>
    obtain rfl := Except.ok.inj entered
    rw [not_not.mp same]
    exact ⟨Keeps.refl own, shown⟩

/-- The window at an address of the process. -/
theorem load_window (shown : Shown m selector (addr >>> 12)) :
    m.load 0 (windowAddr addr) = m.load selector addr := by
  unfold load
  rw [windowAddr_page, windowAddr_offset, shown (page_lt addr)]

/-- A word written through the window changes that word of the process, and no other. -/
theorem store_window (own : m.Private selector) (shown : Shown m selector (addr >>> 12)) (val : Word) :
    Keeps m (m.store 0 (windowAddr addr) val) selector (fun a => a ≠ addr) ∧
      Shown (m.store 0 (windowAddr addr) val) selector (addr >>> 12) := by
  refine ⟨⟨⟨own.positive, own.low, own.distinct, own.used⟩, fun _ => Iff.rfl, fun a here ne => ?_⟩, shown⟩
  have target : m.store 0 (windowAddr addr) val = m.poke (m.pageOf selector addr) (addr &&& 0xfff).toNat val := by
    unfold store
    rw [windowAddr_page, windowAddr_offset, shown (page_lt addr)]
    rfl
  rw [target]
  show (Function.update m.ram (m.pageOf selector addr) _) (m.pageOf selector a) _ = m.ram (m.pageOf selector a) _
  by_cases page : m.pageOf selector a = m.pageOf selector addr
  · have offset : (a &&& 0xfff).toNat ≠ (addr &&& 0xfff).toNat := fun same =>
      ne (eq_of_page_offset (own.distinct a addr here page) same)
    rw [page, Function.update_self, Function.update_of_ne offset]
  · rw [Function.update_of_ne page]

/-- The loop of `uputs` leaves what is outside its range. By induction on the words left. -/
theorem uputsLoop_keeps {nullTerminated : Bool} : ∀ (s : List Word) {addr pagenoU : Word} {m m' : Mm},
    m.Private selector → Shown m selector pagenoU →
    uputsLoop selector nullTerminated s addr pagenoU m = .ok m' →
    Keeps m m' selector (fun a => ¬ InRange addr s.length a) := by
  intro s
  induction s with
  | nil =>
    intro addr pagenoU m m' own shown put
    obtain rfl := Except.ok.inj put
    exact Keeps.refl own
  | cons c s ih =>
    intro addr pagenoU m m' own shown put
    unfold uputsLoop at put
    obtain ⟨m₁, entered, put⟩ := bind_ok put
    obtain ⟨first, shown₁⟩ := enterPage_keeps own shown entered
    obtain ⟨second, shown₂⟩ := store_window first.own shown₁ c
    have both : Keeps m (m₁.store 0 (windowAddr addr) c) selector (fun a => a ≠ addr) := first.trans second
    dsimp only at put
    split at put
    case isTrue =>
      obtain rfl := Except.ok.inj put
      exact both.mono fun a out => (inRange_succ out).1
    case isFalse =>
      exact (both.mono fun a out => (inRange_succ out).1).trans
        ((ih second.own shown₂ put).mono fun a out => (inRange_succ out).2)

/-- **`uputs` changes the memory of the process in its range only.** -/
theorem uputs_frame {nullTerminated : Bool} {s : List Word} (own : m.Private selector)
    (put : uputs selector addr nullTerminated s m = .ok m') :
    Keeps m m' selector (fun a => ¬ InRange addr s.length a) :=
  uputsLoop_keeps s own shown_start put

/-- A page is only fixed for a write. -/
theorem checkAndFixPage_read {reader pageno : Word} {moved : Bool}
    (fixed : checkAndFixPage reader pageno false false m = .ok (moved, m')) : m' = m := by
  unfold checkAndFixPage at fixed
  dsimp only at fixed
  rw [if_neg (fun here => Bool.false_ne_true here.2.2)] at fixed
  exact (Prod.mk.inj (Except.ok.inj fixed)).2.symm

/-- The loop of `ugets` moves the window only, whoever reads. -/
theorem ugetsLoop_keeps {reader : Word} {nullTerminated : Bool} : ∀ (length : Nat) {addr pagenoU : Word}
    {m m' : Mm} {words : List Word}, m.Private selector →
    ugetsLoop reader nullTerminated length addr pagenoU m = .ok (words, m') → Keeps m m' selector seen := by
  intro length
  induction length with
  | zero =>
    intro addr pagenoU m m' words own got
    obtain ⟨-, rfl⟩ := Prod.mk.inj (Except.ok.inj got)
    exact Keeps.refl own
  | succ length ih =>
    intro addr pagenoU m m' words own got
    unfold ugetsLoop at got
    obtain ⟨m₁, entered, got⟩ := bind_ok got
    have first : Keeps m m₁ selector seen := by
      unfold enterPage at entered
      split at entered
      case isTrue =>
        obtain ⟨⟨moved, m₂⟩, fixed, mapped⟩ := bind_ok entered
        obtain rfl := checkAndFixPage_read fixed
        obtain rfl := Except.ok.inj mapped
        exact own.window (by decide)
      case isFalse =>
        obtain rfl := Except.ok.inj entered
        exact Keeps.refl own
    dsimp only at got
    split at got
    case isTrue =>
      obtain ⟨-, rfl⟩ := Prod.mk.inj (Except.ok.inj got)
      exact first
    case isFalse =>
      obtain ⟨⟨rest, m₂⟩, later, got⟩ := bind_ok got
      obtain ⟨-, rfl⟩ := Prod.mk.inj (Except.ok.inj got)
      exact first.trans (ih first.own later)

/-- Without a terminator to look for, all the words are read. -/
theorem ugetsLoop_length {reader : Word} : ∀ (length : Nat) {addr pagenoU : Word} {m m' : Mm}
    {words : List Word}, ugetsLoop reader false length addr pagenoU m = .ok (words, m') →
    words.length = length := by
  intro length
  induction length with
  | zero =>
    intro addr pagenoU m m' words got
    obtain ⟨rfl, -⟩ := Prod.mk.inj (Except.ok.inj got)
    rfl
  | succ length ih =>
    intro addr pagenoU m m' words got
    unfold ugetsLoop at got
    obtain ⟨m₁, -, got⟩ := bind_ok got
    dsimp only at got
    rw [if_neg (fun here => Bool.false_ne_true here.1)] at got
    obtain ⟨⟨rest, m₂⟩, later, got⟩ := bind_ok got
    obtain ⟨rfl, -⟩ := Prod.mk.inj (Except.ok.inj got)
    exact congrArg (· + 1) (ih later)

/-- `ugets` always returns. -/
theorem ugetsLoop_returns (reader : Word) (nullTerminated : Bool) : ∀ (length : Nat) (addr pagenoU : Word) (m : Mm),
    ∃ v, ugetsLoop reader nullTerminated length addr pagenoU m = .ok v := by
  intro length
  induction length with
  | zero => exact fun addr pagenoU m => ⟨_, rfl⟩
  | succ length ih =>
    intro addr pagenoU m
    have entered : ∃ m₁, enterPage reader addr pagenoU false m = .ok m₁ := by
      unfold enterPage
      split
      · unfold checkAndFixPage
        dsimp only
        rw [if_neg (fun here => Bool.false_ne_true here.2.2)]
        exact ⟨_, rfl⟩
      · exact ⟨_, rfl⟩
    obtain ⟨m₁, entered⟩ := entered
    unfold ugetsLoop
    rw [entered]
    show ∃ v, (if nullTerminated ∧ m₁.load 0 (windowAddr addr) = 0 then _ else _ : Except Fault _) = .ok v
    split
    · exact ⟨_, rfl⟩
    · obtain ⟨v, later⟩ := ih (addr + 1) (addr >>> 12) m₁
      rw [later]
      exact ⟨_, rfl⟩

/-- **`ugets` changes nothing a process sees**, whoever reads. -/
theorem ugets_frame {reader : Word} {nullTerminated : Bool} {length : Nat} {words : List Word}
    (own : m.Private selector) (got : ugets reader addr length nullTerminated m = .ok (words, m')) :
    Keeps m m' selector seen := ugetsLoop_keeps length own got

end Loops

end RlCpu.Kernel
