/-
**Memory management (`mm.c`).**

The MMU table has an entry for each page of each selector, in the code and in the data segment: a
physical page, and two flags above it. `pageMap` counts the entries that use a physical page, and
`selectorMap` says which selectors are in use. Selector 0 is the kernel's; its data pages 14 and 15 are
windows through which the kernel reads and writes pages of processes.

`ram` is the physical memory, by page and offset. Every access of the processor goes through the table,
so an access of the kernel to its window is an access to the page that is mapped there.
-/

import RlCpu.Kernel.BlkM

namespace RlCpu.Kernel

/-! ### Constants and structures -/

/-- `mmuSelectorNum` -/
abbrev mmuSelectorNum : Nat := 64
/-- `pageMapSize` -/
abbrev pageMapSize : Nat := 4096
/-- `pageSize` -/
abbrev pageSize : Nat := 4096
/-- `NCODE_PAGES` -/
abbrev ncodePages : Nat := 128
/-- `NDATA_PAGES` -/
abbrev ndataPages : Nat := 16
/-- `FREE_PAGE_MARK` -/
abbrev freePageMark : Word := 0x1fff
/-- `MMU_TABLE_FLAGS_SHIFT` -/
abbrev mmuTableFlagsShift : Nat := 13
/-- `MMU_TABLE_NO_FLAGS_MASK` -/
abbrev mmuTableNoFlagsMask : Word := 0x1fff
/-- `MMU_TABLE_FLAGS_MASK` -/
abbrev mmuTableFlagsMask : Word := 0xe000
/-- `PAGE_FLAG_READ_ONLY` -/
abbrev pageFlagReadOnly : Word := 1
/-- `PAGE_FLAG_NOT_PRESENT` -/
abbrev pageFlagNotPresent : Word := 2

/-- The MMU, the maps of pages and selectors, and the physical memory. -/
structure Mm where
  table : BitVec 14 → Word
  pageMap : Fin pageMapSize → Word
  selectorMap : Fin mmuSelectorNum → Word
  ram : Word → Nat → Word

/-- The address of a table entry among the I/O addresses, without the bit that selects the MMU. -/
def tableAddr (process pageno : Word) (sCode : Bool) : BitVec 14 :=
  ((process <<< 8) ||| ((if sCode then 1 else 0 : Word) <<< 12) ||| (pageno &&& 0xff)).setWidth 14

namespace Mm

/-! ### The MMU table -/

/-- `mmu_write_table` -/
def writeTable (m : Mm) (process pageno : Word) (sCode : Bool) (entry : Word) : Mm :=
  { m with table := Function.update m.table (tableAddr process pageno sCode) entry }

/-- `mmu_read_table` -/
def readTable (m : Mm) (process pageno : Word) (sCode : Bool) : Word :=
  m.table (tableAddr process pageno sCode) &&& mmuTableNoFlagsMask

/-- `mmu_write_table_flags` -/
def writeTableFlags (m : Mm) (process pageno : Word) (sCode : Bool) (flags : Word) : Mm :=
  m.writeTable process pageno sCode (m.readTable process pageno sCode ||| (flags <<< mmuTableFlagsShift))

/-- `mmu_read_table_flags` -/
def readTableFlags (m : Mm) (process pageno : Word) (sCode : Bool) : Word :=
  (m.table (tableAddr process pageno sCode) &&& mmuTableFlagsMask) >>> mmuTableFlagsShift

/-! ### Pages and selectors -/

/-- `mmu_mark_selector`; there is no check of the bound. -/
def markSelector (m : Mm) (selector : Word) (flag : Word) : Except Fault Mm :=
  if low : selector.toNat < mmuSelectorNum then
    .ok { m with selectorMap := Function.update m.selectorMap ⟨selector.toNat, low⟩ flag }
  else .error .wild

/-- Assign to `pageMap[pageno]`; there is no check of the bound. -/
def setPage (m : Mm) (pageno : Word) (count : Word → Word) : Except Fault Mm :=
  if low : pageno.toNat < pageMapSize then
    .ok { m with pageMap := Function.update m.pageMap ⟨pageno.toNat, low⟩ (count (m.pageMap ⟨pageno.toNat, low⟩)) }
  else .error .wild

/-- `mmu_mark_page` -/
def markPage (m : Mm) (pageno flag : Word) : Except Fault Mm := m.setPage pageno fun _ => flag

/-- `mmu_inc_page_refcnt` -/
def incPageRefcnt (m : Mm) (pageno : Word) : Except Fault Mm := m.setPage pageno (· + 1)

/-- `mmu_dec_page_refcnt` -/
def decPageRefcnt (m : Mm) (pageno : Word) : Except Fault Mm := m.setPage pageno (· - 1)

/-- `mmu_get_page_refcnt` -/
def getPageRefcnt (m : Mm) (pageno : Word) : Except Fault Word :=
  if low : pageno.toNat < pageMapSize then .ok (m.pageMap ⟨pageno.toNat, low⟩) else .error .wild

/-- `mmu_get_free_page`; with no free page the search leaves the array. -/
def getFreePage (m : Mm) : Except Fault Word :=
  match (List.finRange pageMapSize).find? fun i => m.pageMap i = 0 with
  | some i => .ok (BitVec.ofNat 16 i)
  | none => .error .wild

/-- `mmu_get_free_selector`; with no free selector the search leaves the array. -/
def getFreeSelector (m : Mm) : Except Fault Word :=
  match (List.finRange mmuSelectorNum).find? fun i => m.selectorMap i = 0 with
  | some i => .ok (BitVec.ofNat 16 i)
  | none => .error .wild

/-! ### Accesses -/

/-- A word written to the physical memory. -/
def poke (m : Mm) (page : Word) (offset : Nat) (val : Word) : Mm :=
  { m with ram := Function.update m.ram page (Function.update (m.ram page) offset val) }

/-- A word read by the processor from the data segment of a selector. -/
def load (m : Mm) (selector addr : Word) : Word :=
  m.ram (m.readTable selector (addr >>> 12) false) (addr &&& 0xfff).toNat

/-- A word written by the processor to the data segment of a selector, where the flags allow it. -/
def store (m : Mm) (selector addr val : Word) : Mm :=
  m.poke (m.readTable selector (addr >>> 12) false) (addr &&& 0xfff).toNat val

/-- `mmu_copy_pages`, with the windows the kernel uses. -/
def copyPages (m : Mm) (src dst : Word) : Mm :=
  let m := m.writeTable 0 14 false src
  let m := m.writeTable 0 15 false dst
  { m with ram := Function.update m.ram (m.readTable 0 15 false) (m.ram (m.readTable 0 14 false)) }

end Mm

/-! ### Faults and accesses of the kernel -/

/-- `check_and_fix_page`, for the selector of the process. -/
def checkAndFixPage (selector pageno : Word) (isCode wr : Bool) (m : Mm) : Except Fault (Bool × Mm) :=
  let flags := m.readTableFlags selector pageno isCode
  if flags ≠ 0 ∧ flags &&& pageFlagReadOnly ≠ 0 ∧ wr then do
    let srcPage := m.readTable selector pageno isCode
    let refcnt ← m.getPageRefcnt srcPage
    if 1 < refcnt then
      let m ← m.decPageRefcnt srcPage
      let targetPage ← m.getFreePage
      let m ← m.markPage targetPage 1
      let m := m.writeTable selector pageno isCode targetPage
      let m := m.copyPages srcPage targetPage
      pure (true, m.writeTableFlags selector pageno isCode 0)
    else pure (false, m.writeTableFlags selector pageno isCode 0)
  else pure (false, m)

/-- `mmu_interrupt`, for the selector of `cProc`; `failedPage` is what `pushmmu` pushed. -/
def mmuInterrupt (selector failedPage : Word) (m : Mm) : Except Fault Mm := do
  let (_, m) ← checkAndFixPage selector (failedPage &&& 0x7f) (failedPage &&& 0x80 ≠ 0) true m
  pure m

/-- The page of a process mapped to the kernel's window. -/
def Mm.mapWindow (m : Mm) (selector addr : Word) : Mm :=
  m.writeTable 0 14 false (m.readTable selector (addr >>> 12) false)

/-- The address of a word in the window. -/
def windowAddr (addr : Word) : Word := (14 <<< 12) ||| (addr &&& 0xfff)

/-- `ugetc`, with the window the kernel uses. -/
def ugetc (selector addr : Word) (m : Mm) : Except Fault (Word × Mm) := do
  let (_, m) ← checkAndFixPage selector (addr >>> 12) false false m
  let m := m.mapWindow selector addr
  pure (m.load 0 (windowAddr addr), m)

/-- `uputc`, with the window the kernel uses. -/
def uputc (selector addr val : Word) (m : Mm) : Except Fault Mm := do
  let (_, m) ← checkAndFixPage selector (addr >>> 12) false true m
  let m := m.mapWindow selector addr
  pure (m.store 0 (windowAddr addr) val)

/-- The page of `addr` made ready when `addr` is the first address of a loop in it. -/
def enterPage (selector addr pagenoU : Word) (wr : Bool) (m : Mm) : Except Fault Mm :=
  if addr >>> 12 ≠ pagenoU then do
    let (_, m) ← checkAndFixPage selector (addr >>> 12) false wr m
    pure (m.mapWindow selector addr)
  else pure m

/-- The loop of `ugets`, for `length` more words: what it read. -/
def ugetsLoop (selector : Word) (nullTerminated : Bool) :
    Nat → Word → Word → Mm → Except Fault (List Word × Mm)
  | 0, _, _, m => pure ([], m)
  | length + 1, addr, pagenoU, m => do
      let m ← enterPage selector addr pagenoU false m
      let c := m.load 0 (windowAddr addr)
      if nullTerminated ∧ c = 0 then pure ([c], m)
      else
        let (rest, m) ← ugetsLoop selector nullTerminated length (addr + 1) (addr >>> 12) m
        pure (c :: rest, m)

/-- `ugets`, with the window the kernel uses. -/
def ugets (selector addr : Word) (length : Nat) (nullTerminated : Bool) (m : Mm) :
    Except Fault (List Word × Mm) := ugetsLoop selector nullTerminated length addr 0xffff m

/-- The loop of `uputs`. -/
def uputsLoop (selector : Word) (nullTerminated : Bool) :
    List Word → Word → Word → Mm → Except Fault Mm
  | [], _, _, m => pure m
  | c :: s, addr, pagenoU, m => do
      let m ← enterPage selector addr pagenoU true m
      let m := m.store 0 (windowAddr addr) c
      if nullTerminated ∧ c = 0 then pure m
      else uputsLoop selector nullTerminated s (addr + 1) (addr >>> 12) m

/-- `uputs`, with the window the kernel uses. -/
def uputs (selector addr : Word) (nullTerminated : Bool) (s : List Word) (m : Mm) : Except Fault Mm :=
  uputsLoop selector nullTerminated s addr 0xffff m

/-- `umemset`, with the window the kernel uses. -/
def umemset (selector addr : Word) (length : Nat) (v : Word) (m : Mm) : Except Fault Mm :=
  uputsLoop selector false (List.replicate length v) addr 0xffff m

/-! ### The pages of a process -/

/-- A loop of `freeProcessPages`, over the pages of one segment up to the first that is free. -/
def freePages (selector : Word) (sCode : Bool) : List Nat → Mm → Except Fault Mm
  | [], m => pure m
  | pageno :: rest, m =>
      let srcPage := m.readTable selector (BitVec.ofNat 16 pageno) sCode
      if srcPage = freePageMark then pure m
      else do
        let m ← m.decPageRefcnt srcPage
        freePages selector sCode rest
          (m.writeTable selector (BitVec.ofNat 16 pageno) sCode freePageMark)

/-- `freeProcessPages` -/
def freeProcessPages (selector : Word) (m : Mm) : Except Fault Mm := do
  let m ← freePages selector true (List.range ncodePages) m
  freePages selector false (List.range ndataPages) m

/-- A loop of `do_fork` that copies the pages of one segment. -/
def copySegment (old new : Word) (sCode : Bool) : List Nat → Mm → Except Fault Mm
  | [], m => pure m
  | pageno :: rest, m =>
      let srcPage := m.readTable old (BitVec.ofNat 16 pageno) sCode
      if srcPage = freePageMark then pure m
      else do
        let targetPage ← m.getFreePage
        let m ← m.markPage targetPage 1
        let m := m.copyPages srcPage targetPage
        copySegment old new sCode rest (m.writeTable new (BitVec.ofNat 16 pageno) sCode targetPage)

/-- A loop of `do_fork` that shares the pages of one segment. -/
def shareSegment (old new : Word) (sCode : Bool) : List Nat → Mm → Except Fault Mm
  | [], m => pure m
  | pageno :: rest, m =>
      let srcPage := m.readTable old (BitVec.ofNat 16 pageno) sCode
      if srcPage = freePageMark then pure m
      else do
        let m ← m.incPageRefcnt srcPage
        let m := m.writeTable new (BitVec.ofNat 16 pageno) sCode srcPage
        let m := m.writeTableFlags old (BitVec.ofNat 16 pageno) sCode pageFlagReadOnly
        shareSegment old new sCode rest
          (m.writeTableFlags new (BitVec.ofNat 16 pageno) sCode pageFlagReadOnly)

/-- The pages of the new process of `do_fork`. A process with pid 0 has no pages 14 and 15 to copy:
they are the kernel's windows. -/
def forkPages (enableCopyOnWrite : Bool) (pid old new : Word) (m : Mm) : Except Fault Mm :=
  if ¬ enableCopyOnWrite ∨ pid = 0 then do
    let m ← copySegment old new true (List.range ncodePages) m
    copySegment old new false (List.range (if pid = 0 then 14 else ndataPages)) m
  else do
    let m ← shareSegment old new true (List.range ncodePages) m
    shareSegment old new false (List.range (if pid = 0 then 14 else ndataPages)) m

end RlCpu.Kernel
