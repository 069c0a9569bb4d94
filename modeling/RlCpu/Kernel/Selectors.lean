/-
**Selectors of the MMU (`mmu_mark_selector`, `mmu_get_free_selector`, `mmu_write_table`).**

`do_fork` takes the first selector that is not marked, and `do_kernel_task_exit` unmarks the selector of a process
that is no thread. A thread shares the selector of the process that it was cloned from.

* `SelectorsOk k`: the selectors of live processes are marked and below 16, and each marked one belongs to a live
  process that is no thread.
* `TaskOp.Kept`: an exit unmarks no selector that another live process has.
* `selectorRun_right`: runs of such steps.
* `selectorRun_orphans`: a thread that outlives its process.
* `exec_mmuWriteTable`: the entry that the kernel writes is the one that the MMU reads.
-/

import RlCpu.Kernel.Fork
import RlCpu.Kernel.TaskRuns
import RlCpu.Kernel.Ata

namespace RlCpu.Kernel

open RlCpu.Lib

variable {δ : Type}

/-! ### What leaves the marks alone -/

section Marks

variable {m m' : Mm} {selector old new page flags addr pagenoU pid : Word} {sCode wr isCode nullTerminated fixed cow : Bool}

theorem setPage_selectors {count : Word → Word} (returns : m.setPage page count = .ok m') :
    m'.selectorMap = m.selectorMap := by
  unfold Mm.setPage at returns
  split at returns
  · obtain rfl := Except.ok.inj returns
    rfl
  · cases returns

theorem checkAndFixPage_selectors (returns : checkAndFixPage selector page isCode wr m = .ok (fixed, m')) :
    m'.selectorMap = m.selectorMap := by
  unfold checkAndFixPage at returns
  dsimp only at returns
  split at returns
  · obtain ⟨refcnt, -, rest⟩ := bind_ok returns
    split at rest
    · obtain ⟨m₁, dec, rest⟩ := bind_ok rest
      obtain ⟨target, -, rest⟩ := bind_ok rest
      obtain ⟨m₂, mark, rest⟩ := bind_ok rest
      obtain ⟨-, rfl⟩ := Prod.mk.inj (Except.ok.inj rest)
      exact (setPage_selectors mark).trans (setPage_selectors dec)
    · obtain ⟨-, rfl⟩ := Prod.mk.inj (Except.ok.inj rest)
      rfl
  · obtain ⟨-, rfl⟩ := Prod.mk.inj (Except.ok.inj returns)
    rfl

theorem enterPage_selectors (returns : enterPage selector addr pagenoU wr m = .ok m') : m'.selectorMap = m.selectorMap := by
  unfold enterPage at returns
  split at returns
  · obtain ⟨⟨fixed, m₁⟩, fix, rest⟩ := bind_ok returns
    obtain rfl := Except.ok.inj rest
    have fixed := checkAndFixPage_selectors fix
    exact fixed
  · obtain rfl := Except.ok.inj returns
    rfl

theorem ugetsLoop_selectors (length : Nat) : ∀ {addr pagenoU : Word} {m m' : Mm} {s : List Word},
    ugetsLoop selector nullTerminated length addr pagenoU m = .ok (s, m') → m'.selectorMap = m.selectorMap := by
  induction length with
  | zero =>
    intro addr pagenoU m m' s returns
    obtain ⟨-, rfl⟩ := Prod.mk.inj (Except.ok.inj returns)
    rfl
  | succ length ih =>
    intro addr pagenoU m m' s returns
    rw [ugetsLoop] at returns
    obtain ⟨m₁, enter, rest⟩ := bind_ok returns
    dsimp only at rest
    split at rest
    · obtain ⟨-, rfl⟩ := Prod.mk.inj (Except.ok.inj rest)
      exact enterPage_selectors enter
    · obtain ⟨⟨s', m₂⟩, loop, rest⟩ := bind_ok rest
      obtain ⟨-, rfl⟩ := Prod.mk.inj (Except.ok.inj rest)
      exact (ih loop).trans (enterPage_selectors enter)

theorem uputsLoop_selectors (s : List Word) : ∀ {addr pagenoU : Word} {m m' : Mm},
    uputsLoop selector nullTerminated s addr pagenoU m = .ok m' → m'.selectorMap = m.selectorMap := by
  induction s with
  | nil =>
    intro addr pagenoU m m' returns
    obtain rfl := Except.ok.inj returns
    rfl
  | cons c s ih =>
    intro addr pagenoU m m' returns
    rw [uputsLoop] at returns
    obtain ⟨m₁, enter, rest⟩ := bind_ok returns
    dsimp only at rest
    split at rest
    · obtain rfl := Except.ok.inj rest
      have entered := enterPage_selectors enter
      exact entered
    · have entered := enterPage_selectors enter
      exact (ih rest).trans entered

theorem freePages_selectors (pages : List Nat) : ∀ {m m' : Mm},
    freePages selector sCode pages m = .ok m' → m'.selectorMap = m.selectorMap := by
  induction pages with
  | nil =>
    intro m m' returns
    obtain rfl := Except.ok.inj returns
    rfl
  | cons pageno pages ih =>
    intro m m' returns
    rw [freePages] at returns
    split at returns
    · obtain rfl := Except.ok.inj returns
      rfl
    · obtain ⟨m₁, dec, rest⟩ := bind_ok returns
      have freed := setPage_selectors dec
      exact (ih rest).trans freed

theorem freeProcessPages_selectors (returns : freeProcessPages selector m = .ok m') :
    m'.selectorMap = m.selectorMap := by
  obtain ⟨m₁, code, data⟩ := bind_ok returns
  exact (freePages_selectors _ data).trans (freePages_selectors _ code)

theorem copySegment_selectors (pages : List Nat) : ∀ {m m' : Mm},
    copySegment old new sCode pages m = .ok m' → m'.selectorMap = m.selectorMap := by
  induction pages with
  | nil =>
    intro m m' returns
    obtain rfl := Except.ok.inj returns
    rfl
  | cons pageno pages ih =>
    intro m m' returns
    rw [copySegment] at returns
    split at returns
    · obtain rfl := Except.ok.inj returns
      rfl
    · obtain ⟨target, -, rest⟩ := bind_ok returns
      obtain ⟨m₁, mark, rest⟩ := bind_ok rest
      have marked := setPage_selectors mark
      exact (ih rest).trans marked

theorem shareSegment_selectors (pages : List Nat) : ∀ {m m' : Mm},
    shareSegment old new sCode pages m = .ok m' → m'.selectorMap = m.selectorMap := by
  induction pages with
  | nil =>
    intro m m' returns
    obtain rfl := Except.ok.inj returns
    rfl
  | cons pageno pages ih =>
    intro m m' returns
    rw [shareSegment] at returns
    split at returns
    · obtain rfl := Except.ok.inj returns
      rfl
    · obtain ⟨m₁, inc, rest⟩ := bind_ok returns
      have shared := setPage_selectors inc
      exact (ih rest).trans shared

theorem forkPages_selectors (returns : forkPages cow pid old new m = .ok m') : m'.selectorMap = m.selectorMap := by
  unfold forkPages at returns
  split at returns <;> obtain ⟨m₁, code, data⟩ := bind_ok returns
  · exact (copySegment_selectors _ data).trans (copySegment_selectors _ code)
  · exact (shareSegment_selectors _ data).trans (shareSegment_selectors _ code)

theorem readToWindow_selectors (m : Mm) (words : List Word) : (m.readToWindow words).selectorMap = m.selectorMap := by
  unfold Mm.readToWindow
  refine List.foldlRecOn (motive := fun m' : Mm => m'.selectorMap = m.selectorMap) _ _ rfl fun m' same _ _ => same

theorem loadSegment_selectors {size : Nat} {words : Nat → Word} (pages : List Nat) : ∀ {m m' : Mm},
    loadSegment selector sCode size words pages m = .ok m' → m'.selectorMap = m.selectorMap := by
  induction pages with
  | nil =>
    intro m m' returns
    obtain rfl := Except.ok.inj returns
    rfl
  | cons pageno pages ih =>
    intro m m' returns
    rw [loadSegment] at returns
    obtain ⟨target, -, rest⟩ := bind_ok returns
    obtain ⟨m₁, mark, rest⟩ := bind_ok rest
    have marked := setPage_selectors mark
    exact (ih rest).trans ((readToWindow_selectors _ _).trans marked)

theorem allocData_selectors (pages : List Nat) : ∀ {m m' : Mm},
    allocData selector pages m = .ok m' → m'.selectorMap = m.selectorMap := by
  induction pages with
  | nil =>
    intro m m' returns
    obtain rfl := Except.ok.inj returns
    rfl
  | cons pageno pages ih =>
    intro m m' returns
    rw [allocData] at returns
    obtain ⟨target, -, rest⟩ := bind_ok returns
    obtain ⟨m₁, mark, rest⟩ := bind_ok rest
    have marked := setPage_selectors mark
    exact (ih rest).trans marked

theorem execPages_selectors {exe : Executable} (returns : execPages selector exe m = .ok m') :
    m'.selectorMap = m.selectorMap := by
  obtain ⟨m₁, free, rest⟩ := bind_ok returns
  obtain ⟨m₂, text, rest⟩ := bind_ok rest
  obtain ⟨m₃, data, rest⟩ := bind_ok rest
  obtain ⟨m₄, alloc, rest⟩ := bind_ok rest
  calc m'.selectorMap = m₄.selectorMap := uputsLoop_selectors _ rest
    _ = m₃.selectorMap := allocData_selectors _ alloc
    _ = m₂.selectorMap := loadSegment_selectors _ data
    _ = m₁.selectorMap := loadSegment_selectors _ text
    _ = m.selectorMap := freeProcessPages_selectors free

end Marks

/-! ### Live processes and their selectors -/

/-- The process may run again: it is neither gone nor a zombie. -/
def Process.Live (p : Process) : Prop := p.state ≠ .none ∧ p.state ≠ .zombie

instance (p : Process) : Decidable p.Live := inferInstanceAs (Decidable (_ ∧ _))

/-- The selector is marked in `selectorMap`. -/
def Mm.Marked (m : Mm) (selector : Word) : Prop :=
  ∃ low : selector.toNat < mmuSelectorNum, m.selectorMap ⟨_, low⟩ ≠ 0

/-- The selector of a process, whether it is a thread, and whether it is live, are as they were. -/
structure SameProc (p p' : Process) : Prop where
  selector : p'.mmuSelector = p.mmuSelector
  thread : p'.isThread = p.isThread
  live : p'.Live ↔ p.Live

theorem SameProc.refl (p : Process) : SameProc p p := ⟨rfl, rfl, Iff.rfl⟩

theorem SameProc.trans {p p' p'' : Process} (first : SameProc p p') (second : SameProc p' p'') : SameProc p p'' :=
  ⟨second.selector.trans first.selector, second.thread.trans first.thread, second.live.trans first.live⟩

/-- No selector and no mark changed. -/
structure SameSelectors (k t : KernelState δ) : Prop where
  marks : t.mm.selectorMap = k.mm.selectorMap
  process : ∀ i < maxProc, SameProc (k.procs i) (t.procs i)

/-- **A process came with a selector of its own.** -/
structure Took (k t : KernelState δ) (j : Nat) (selector : Word) : Prop where
  low : j < maxProc
  free : (k.procs j).state = .none
  found : k.mm.getFreeSelector = .ok selector
  marks : ∃ low : selector.toNat < mmuSelectorNum, t.mm.selectorMap = Function.update k.mm.selectorMap ⟨_, low⟩ 1
  selector : (t.procs j).mmuSelector = selector
  thread : (t.procs j).isThread = false
  live : (t.procs j).Live
  others : ∀ l < maxProc, l ≠ j → SameProc (k.procs l) (t.procs l)

/-- **A thread came**, with the selector of the process `i`. -/
structure Shared (k t : KernelState δ) (i j : Nat) : Prop where
  caller : i < maxProc ∧ (k.procs i).Live
  marks : t.mm.selectorMap = k.mm.selectorMap
  selector : (t.procs j).mmuSelector = (k.procs i).mmuSelector
  thread : (t.procs j).isThread = true
  free : (k.procs j).state = .none
  others : ∀ l < maxProc, l ≠ j → SameProc (k.procs l) (t.procs l)

/-- **A process died**; if it is no thread, its selector is not marked any more. -/
structure Died (k t : KernelState δ) (i : Nat) : Prop where
  marks : t.mm.selectorMap = k.mm.selectorMap ∧ (k.procs i).isThread = true ∨
    (k.procs i).isThread = false ∧ ∃ low : (k.procs i).mmuSelector.toNat < mmuSelectorNum,
      t.mm.selectorMap = Function.update k.mm.selectorMap ⟨_, low⟩ 0
  dead : ¬ (t.procs i).Live
  others : ∀ l < maxProc, l ≠ i → SameProc (k.procs l) (t.procs l)

variable {k s t : KernelState δ} {i j : Nat} {p : Process} {q : Fin maxQueueSize} {selector : Word}

namespace SameSelectors

theorem refl (k : KernelState δ) : SameSelectors k k := ⟨rfl, fun _ _ => .refl _⟩

theorem trans (first : SameSelectors k s) (second : SameSelectors s t) : SameSelectors k t :=
  ⟨second.marks.trans first.marks, fun i low => (first.process i low).trans (second.process i low)⟩

theorem congr (same : SameSelectors k s) (marks : t.mm.selectorMap = s.mm.selectorMap) (procs : t.procs = s.procs) :
    SameSelectors k t :=
  same.trans ⟨marks, fun i _ => by rw [procs]; exact .refl _⟩

theorem setProc (same : SameSelectors k s) (here : SameProc (s.procs i) p) : SameSelectors k (s.setProc i p) := by
  refine same.trans ⟨rfl, fun l _ => ?_⟩
  by_cases own : l = i
  · rw [own, KernelState.setProc_self]
    exact here
  · rw [KernelState.setProc_ne _ _ own]
    exact .refl _

/-- A live process goes to another live state. -/
theorem setState (same : SameSelectors k s) {state : ProcState} (live : (s.procs i).Live)
    (next : state ≠ .none ∧ state ≠ .zombie) : SameSelectors k (s.setState i state) :=
  same.setProc ⟨rfl, rfl, iff_of_true next live⟩

theorem endTask (same : SameSelectors k s) (q : Fin maxQueueSize) : SameSelectors k (s.endTask q) := same.congr rfl rfl

theorem setMm (same : SameSelectors k s) {mm : Mm} (marks : mm.selectorMap = s.mm.selectorMap) :
    SameSelectors k { s with mm := mm } := same.congr marks rfl

end SameSelectors

theorem Took.same (took : Took k s j selector) (same : SameSelectors s t) : Took k t j selector := by
  have child := same.process j took.low
  obtain ⟨low, marks⟩ := took.marks
  exact ⟨took.low, took.free, took.found, ⟨low, same.marks.trans marks⟩, child.selector.trans took.selector,
    child.thread.trans took.thread, child.live.mpr took.live,
    fun l low ne => (took.others l low ne).trans (same.process l low)⟩

theorem Shared.same (shared : Shared k s i j) (low : j < maxProc) (same : SameSelectors s t) : Shared k t i j := by
  have child := same.process j low
  exact ⟨shared.caller, same.marks.trans shared.marks, child.selector.trans shared.selector,
    child.thread.trans shared.thread, shared.free, fun l low ne => (shared.others l low ne).trans (same.process l low)⟩

theorem getArgs_same {size : Nat} {args : Word} {words : List Word} (returns : getArgs k i args size = .ok (words, t)) :
    SameSelectors k t ∧ ∃ mm, t = { k with mm := mm } := by
  obtain ⟨⟨words', mm⟩, read, rest⟩ := bind_ok returns
  obtain ⟨-, rfl⟩ := Prod.mk.inj (Except.ok.inj rest)
  exact ⟨(SameSelectors.refl k).setMm (ugetsLoop_selectors _ read), mm, rfl⟩

theorem putArgs_same {addr : Word} {words : List Word} (returns : putArgs k i addr words = .ok t) :
    SameSelectors k t ∧ ∃ mm, t = { k with mm := mm } := by
  obtain ⟨mm, write, rest⟩ := bind_ok returns
  obtain rfl := Except.ok.inj rest
  exact ⟨(SameSelectors.refl k).setMm (uputsLoop_selectors _ write), mm, rfl⟩

/-! ### The tasks of the worker -/

variable {cow : Bool} {exe : Option Executable} {args : Word}

theorem Process.Live.of_kworker (waits : p.state = .kworker) : p.Live := by
  unfold Process.Live
  rw [waits]
  decide

/-- The selector of the process that `do_fork` makes. -/
theorem doFork_selector {clone : Bool} (here : (k.procs i).state ≠ .none)
    (returns : doFork cow i clone k = .ok (some (j, t))) :
    j < maxProc ∧ (k.procs j).state = .none ∧ (∀ l, l ≠ j → t.procs l = k.procs l) ∧ ∃ selector,
      t.procs j = forked (k.procs i) i (k.nextPid + 1) selector clone ∧
      if clone then selector = (k.procs i).mmuSelector ∧ t.mm.selectorMap = k.mm.selectorMap
      else k.mm.getFreeSelector = .ok selector ∧ ∃ low : selector.toNat < mmuSelectorNum,
        t.mm.selectorMap = Function.update k.mm.selectorMap ⟨_, low⟩ 1 := by
  unfold doFork at returns
  split at returns
  · cases returns
  case h_2 l s found =>
    obtain ⟨low, free, rfl⟩ := KernelState.getFreeProc_some found
    obtain ⟨⟨selector, mm⟩, memory, rest⟩ := bind_ok returns
    obtain ⟨rfl, rfl⟩ := Prod.mk.inj (Option.some.inj (Except.ok.inj rest))
    have ne : i ≠ l := fun equal => here (equal ▸ free)
    have parent : ((k.setState l .construct).procs i) = k.procs i := KernelState.setState_ne _ _ ne
    refine ⟨low, free, fun l' away => ?_, selector, ?_, ?_⟩
    · show ((k.setState l .construct).setProc l _).procs l' = _
      rw [KernelState.setProc_ne _ _ away, KernelState.setState_ne _ _ away]
    · show ((k.setState l .construct).setProc l _).procs l = _
      rw [KernelState.setProc_self, parent]
      rfl
    · rw [parent] at memory
      unfold forkMemory at memory
      cases clone with
      | true =>
        obtain ⟨rfl, rfl⟩ := Prod.mk.inj (Except.ok.inj memory)
        exact ⟨rfl, rfl⟩
      | false =>
        rw [if_neg Bool.false_ne_true] at memory ⊢
        obtain ⟨selector', found', memory⟩ := bind_ok memory
        obtain ⟨m₁, mark, memory⟩ := bind_ok memory
        obtain ⟨m₂, pages, memory⟩ := bind_ok memory
        obtain ⟨rfl, rfl⟩ := Prod.mk.inj (Except.ok.inj memory)
        refine ⟨found', ?_⟩
        unfold Mm.markSelector at mark
        split at mark
        · obtain rfl := Except.ok.inj mark
          exact ⟨_, forkPages_selectors pages⟩
        · cases mark

/-- What a task does to the selectors. -/
inductive SelectorChange (k t : KernelState δ) (q : Fin maxQueueSize) : Prop
  | same (same : SameSelectors k t)
  | took (j : Nat) (selector : Word) (took : Took k t j selector)
  | shared (i j : Nat) (shared : Shared k t i j)
  | died (i : Nat) (type : (k.kernelTaskQueue q).type = .exit)
      (found : k.findProcByPid (k.kernelTaskQueue q).callerPid = some i) (died : Died k t i)

/-- **`do_kernel_task_fork`** -/
theorem taskFork_selectors (inv : TaskInv k) (queued : k.Queued q) (returns : taskFork cow q k = .ok t) :
    SelectorChange k t q := by
  unfold taskFork at returns
  dsimp only at returns
  split at returns
  case h_1 =>
    obtain rfl := Except.ok.inj returns
    exact .same (.refl k)
  case h_2 i found =>
    have waits := (inv.serving queued found).waits
    have live : (k.procs i).Live := .of_kworker waits
    obtain ⟨made, forks, rest⟩ := bind_ok returns
    cases made with
    | none =>
      dsimp only at rest
      split at rest
      · obtain rfl := Except.ok.inj rest
        exact .same (((SameSelectors.refl k).endTask q).setState live (by decide))
      · cases rest
    | some v =>
      obtain ⟨j, s⟩ := v
      obtain ⟨low, free, others, selector, child, found', marks⟩ := doFork_selector live.1 forks
      have apart : i ≠ j := fun equal => live.1 (equal ▸ free)
      have took : Took k s j selector := by
        refine ⟨low, free, found', marks, ?_, ?_, ?_, fun l _ ne => ?_⟩
        · rw [child]
          rfl
        · rw [child]
          rfl
        · rw [child]
          exact ⟨ProcState.noConfusion, ProcState.noConfusion⟩
        · rw [others l ne]
          exact .refl _
      dsimp only at rest
      obtain ⟨s', replied, rest⟩ := bind_ok rest
      have reply : SameSelectors s s' ∧ ∃ mm, s' = { s with mm := mm } := by
        unfold replyFork at replied
        split at replied
        · obtain rfl := Except.ok.inj replied
          exact ⟨.refl _, _, rfl⟩
        · obtain ⟨⟨words, s₁⟩, read, rest⟩ := bind_ok replied
          obtain ⟨same, mm, rfl⟩ := getArgs_same read
          obtain ⟨same', mm', rfl⟩ := putArgs_same rest
          exact ⟨same.trans same', mm', rfl⟩
      obtain ⟨reply, mm, rfl⟩ := reply
      have caller : (s.procs i).Live := by
        rw [others i apart]
        exact live
      have same : SameSelectors s ((KernelState.endTask { s with mm := mm } q).setState i .run) :=
        (reply.endTask q).setState caller (by decide)
      obtain rfl := Except.ok.inj rest
      split
      · refine .took j selector (took.same (same.setState ?_ (by decide)))
        exact (same.process j low).live.mpr took.live
      · exact .took j selector (took.same same)

/-- **`do_kernel_task_clone`** -/
theorem taskClone_selectors (inv : TaskInv k) (queued : k.Queued q) (returns : taskClone cow q k = .ok t) :
    SelectorChange k t q := by
  unfold taskClone at returns
  dsimp only at returns
  split at returns
  case h_1 =>
    obtain rfl := Except.ok.inj returns
    exact .same (.refl k)
  case h_2 i found =>
    have serving := inv.serving queued found
    have live : (k.procs i).Live := .of_kworker serving.waits
    obtain ⟨made, forks, rest⟩ := bind_ok returns
    cases made with
    | none => cases rest
    | some v =>
      obtain ⟨j, s⟩ := v
      obtain ⟨low, free, others, selector, child, rfl, marks⟩ := doFork_selector live.1 forks
      have apart : i ≠ j := fun equal => live.1 (equal ▸ free)
      have thread : (s.procs j).Live ∧ (s.procs j).isThread = true := by
        rw [child]
        exact ⟨⟨ProcState.noConfusion, ProcState.noConfusion⟩, rfl⟩
      have shared : Shared k s i j := by
        refine ⟨⟨serving.low, live⟩, marks, ?_, thread.2, free, fun l _ ne => ?_⟩
        · rw [child]
          rfl
        · rw [others l ne]
          exact .refl _
      dsimp only at rest
      obtain ⟨⟨words, s'⟩, replied, rest⟩ := bind_ok rest
      have reply : SameSelectors s s' ∧ ∃ mm, s' = { s with mm := mm } := by
        unfold replyClone at replied
        split at replied
        · obtain ⟨-, rfl⟩ := Prod.mk.inj (Except.ok.inj replied)
          exact ⟨.refl _, _, rfl⟩
        · obtain ⟨⟨words', s₁⟩, read, replied⟩ := bind_ok replied
          obtain ⟨same, mm, rfl⟩ := getArgs_same read
          obtain ⟨s₂, write, replied⟩ := bind_ok replied
          obtain ⟨same', mm', rfl⟩ := putArgs_same write
          obtain ⟨-, rfl⟩ := Prod.mk.inj (Except.ok.inj replied)
          exact ⟨same.trans same', mm', rfl⟩
      obtain ⟨reply, mm, rfl⟩ := reply
      obtain ⟨s'', put, rest⟩ := bind_ok rest
      obtain ⟨put, mm', rfl⟩ := putArgs_same put
      obtain rfl := Except.ok.inj rest
      have changed : SameSelectors s (KernelState.setProc { s with mm := mm' } j { s.procs j with
          intFrame := ⟨swUser ||| ((s.procs j).mmuSelector &&& 0xff), words.getD 2 0 + 1, words.getD 1 0,
            words.getD 2 0 + 1, words.getD 2 0, 0, 0⟩
          isThread := true }) := (reply.trans put).setProc ⟨rfl, thread.2.symm, Iff.rfl⟩
      have ready := @SameSelectors.setState _ _ _ j (changed.endTask q) .run ((changed.process j low).live.mpr thread.1)
        (by decide)
      have caller : (s.procs i).Live := by
        rw [others i apart]
        exact live
      refine .shared i j (shared.same low (ready.setState ?_ (by decide)))
      exact (ready.process i serving.low).live.mpr caller

/-- **`do_kernel_task_execve`** -/
theorem taskExecve_selectors (inv : TaskInv k) (queued : k.Queued q) (returns : taskExecve exe q k = .ok t) :
    SelectorChange k t q := by
  unfold taskExecve at returns
  dsimp only at returns
  split at returns
  case h_1 =>
    obtain rfl := Except.ok.inj returns
    exact .same (.refl k)
  case h_2 i found =>
    have serving := inv.serving queued found
    have live : (k.procs i).Live := .of_kworker serving.waits
    obtain ⟨⟨words, s⟩, read, rest⟩ := bind_ok returns
    obtain ⟨same, mm, rfl⟩ := getArgs_same read
    obtain ⟨s, loads, rest⟩ := bind_ok rest
    obtain rfl := Except.ok.inj rest
    have loaded : SameSelectors { k with mm := mm } s := by
      cases exe with
      | none =>
        obtain rfl := Except.ok.inj loads
        exact (SameSelectors.refl _).setState live (by decide)
      | some exe =>
        obtain ⟨mm', pages, loads⟩ := bind_ok loads
        obtain rfl := Except.ok.inj loads
        have live' : (({ k with mm := mm } : KernelState δ).procs i).Live := live
        have marks : mm'.selectorMap = mm.selectorMap := execPages_selectors pages
        refine SameSelectors.congr (s := KernelState.setProc { k with mm := mm } i _)
          ((SameSelectors.refl _).setProc ⟨?_, ?_, ?_⟩) marks rfl
        · rfl
        · rfl
        · exact iff_of_true ⟨ProcState.noConfusion, ProcState.noConfusion⟩ live'
    have done := (same.trans loaded).endTask q
    exact .same (done.setState ((done.process i serving.low).live.mpr live) (by decide))

/-- **`do_kernel_task_waitpid`** -/
theorem taskWaitpid_selectors (inv : TaskInv k) (queued : k.Queued q) (returns : taskWaitpid q k = .ok t) :
    SelectorChange k t q := by
  unfold taskWaitpid at returns
  dsimp only at returns
  split at returns
  case h_1 =>
    obtain rfl := Except.ok.inj returns
    exact .same (.refl k)
  case h_2 i found =>
    have serving := inv.serving queued found
    have live : (k.procs i).Live := .of_kworker serving.waits
    obtain ⟨⟨words, s⟩, read, rest⟩ := bind_ok returns
    obtain ⟨same, mm, rfl⟩ := getArgs_same read
    dsimp only at rest
    split at rest
    · split at rest
      · obtain ⟨put, -⟩ := putArgs_same rest
        exact .same (((same.setState live (by decide)).endTask q).trans put)
      · obtain rfl := Except.ok.inj rest
        exact .same same
    case h_2 c child =>
      obtain ⟨-, dead⟩ := Option.filter_eq_some_iff.mp child
      have dead : (k.procs c).state = .zombie := by simpa using dead
      have apart : i ≠ c := by
        rintro rfl
        exact live.2 dead
      -- a zombie and an entry that is free are both not live
      have freed : SameProc (k.procs c) { k.procs c with state := .none } :=
        ⟨rfl, rfl, iff_of_false (fun live => live.1 rfl) fun live => live.2 dead⟩
      have reaped : SameSelectors k (KernelState.setState { k with mm := mm } c .none) := same.setProc freed
      obtain ⟨s, first, rest⟩ := bind_ok rest
      obtain ⟨first, -⟩ := putArgs_same first
      obtain ⟨s', second, rest⟩ := bind_ok rest
      obtain ⟨second, -⟩ := putArgs_same second
      obtain rfl := Except.ok.inj rest
      have ready := @SameSelectors.setState _ _ _ i reaped .run ((reaped.process i serving.low).live.mpr live) (by decide)
      exact .same ((ready.trans (first.trans second)).endTask q)

/-- **`do_kernel_task_exit`** -/
theorem taskExit_died (found : k.findProcByPid (k.kernelTaskQueue q).callerPid = some i)
    (returns : taskExit q k = .ok t) : Died k t i := by
  unfold taskExit at returns
  dsimp only at returns
  split at returns
  case h_1 missing => rw [found] at missing; cases missing
  case h_2 i' found' =>
    obtain rfl := Option.some.inj (found.symm.trans found')
    obtain ⟨⟨words, s⟩, read, rest⟩ := bind_ok returns
    obtain ⟨same, mm, rfl⟩ := getArgs_same read
    dsimp only at rest
    have marks : mm.selectorMap = k.mm.selectorMap := same.marks
    have zombie : ((KernelState.setProc { k with mm := mm } i
        { k.procs i with retval := words.getD 1 0, state := .zombie }).endTask q).procs i =
        { k.procs i with retval := words.getD 1 0, state := .zombie } := by
      rw [KernelState.endTask_procs, KernelState.setProc_self]
    have others : ∀ l < maxProc, l ≠ i → SameProc (k.procs l) (((KernelState.setProc { k with mm := mm } i
        { k.procs i with retval := words.getD 1 0, state := .zombie }).endTask q).procs l) := fun l _ ne => by
      rw [KernelState.endTask_procs, KernelState.setProc_ne _ _ ne]
      exact .refl _
    split at rest
    case isTrue thread =>
      obtain rfl := Except.ok.inj rest
      rw [zombie] at thread
      refine ⟨Or.inl ⟨marks, thread⟩, fun live => live.2 ?_, others⟩
      rw [zombie]
    case isFalse thread =>
      rw [zombie] at thread
      obtain ⟨u, closed, rest⟩ := bind_ok rest
      obtain ⟨openFiles, fs, rfl⟩ := closeFiles_ok _ closed
      dsimp only [KernelState.setProc_self] at rest
      rw [KernelState.setProc_self, zombie] at rest
      obtain ⟨mm₁, free, rest⟩ := bind_ok rest
      obtain ⟨mm₂, mark, rest⟩ := bind_ok rest
      obtain rfl := Except.ok.inj rest
      have freed : mm₁.selectorMap = mm.selectorMap := freeProcessPages_selectors free
      refine ⟨Or.inr ⟨Bool.eq_false_iff.mpr thread, ?_⟩, fun live => live.2 ?_, fun l low ne => ?_⟩
      · unfold Mm.markSelector at mark
        split at mark
        case isTrue low =>
          obtain rfl := Except.ok.inj mark
          refine ⟨low, ?_⟩
          show Function.update mm₁.selectorMap _ 0 = _
          rw [freed, marks]
        case isFalse => cases mark
      · exact congrArg Process.state (KernelState.setProc_self _ _ _)
      · show SameProc _ ((KernelState.setProc _ i _).procs l)
        rw [KernelState.setProc_ne _ _ ne]
        exact others l low ne

/-- **The worker's loop.** -/
theorem workerTask_selectors (inv : TaskInv k) (returns : workerTask cow exe q k = .ok t) : SelectorChange k t q := by
  have queued : ∀ {type : TaskType}, (k.kernelTaskQueue q).type = type → type ≠ .none → k.Queued q :=
    fun type some => by
      unfold KernelState.Queued
      rwa [type]
  unfold workerTask at returns
  split at returns
  case h_1 =>
    obtain rfl := Except.ok.inj returns
    exact .same (.refl k)
  case h_2 type => exact taskFork_selectors inv (queued type (by decide)) returns
  case h_3 type => exact taskExecve_selectors inv (queued type (by decide)) returns
  case h_4 type =>
    cases found : k.findProcByPid (k.kernelTaskQueue q).callerPid with
    | none => exact absurd found (inv.caller_found (queued type (by decide)))
    | some i => exact .died i type found (taskExit_died found returns)
  case h_5 type => exact taskWaitpid_selectors inv (queued type (by decide)) returns
  case h_6 type => exact taskClone_selectors inv (queued type (by decide)) returns

/-! ### The invariant -/

/-- **Selectors have owners**: the selector of a live process is marked and below 16, and one that is marked belongs
to a live process that is no thread. -/
structure SelectorsOk (k : KernelState δ) : Prop where
  held : ∀ i < maxProc, (k.procs i).Live → (k.procs i).mmuSelector.toNat < 16 ∧ k.mm.Marked (k.procs i).mmuSelector
  owned : ∀ s : Fin mmuSelectorNum, k.mm.selectorMap s ≠ 0 → ∃ i < maxProc, (k.procs i).Live ∧
    (k.procs i).isThread = false ∧ (k.procs i).mmuSelector.toNat = s.val

namespace SelectorsOk

theorem same (ok : SelectorsOk k) (same : SameSelectors k t) : SelectorsOk t := by
  refine ⟨fun i low live => ?_, fun s marked => ?_⟩
  · have here := same.process i low
    rw [here.selector]
    unfold Mm.Marked
    rw [same.marks]
    exact ok.held i low (here.live.mp live)
  · rw [same.marks] at marked
    obtain ⟨i, low, live, thread, selector⟩ := ok.owned s marked
    have here := same.process i low
    exact ⟨i, low, here.live.mpr live, here.thread.trans thread, here.selector.symm ▸ selector⟩

/-- The first free selector, where there is room for a process. -/
theorem found_low (ok : SelectorsOk k) (slot : k.SlotFree) (found : k.mm.getFreeSelector = .ok selector) :
    selector.toNat < 16 := by
  have owned : ∀ s : Fin mmuSelectorNum, k.mm.selectorMap s ≠ 0 →
      ∃ l < maxProc, (k.procs l).state ≠ .none ∧ (k.procs l).mmuSelector.toNat = s.val := fun s marked => by
    obtain ⟨i, low, live, -, own⟩ := ok.owned s marked
    exact ⟨i, low, live.1, own⟩
  obtain ⟨s, small, free⟩ := KernelState.selector_free owned slot
  have small : s.val < 15 := small
  obtain ⟨-, -, before⟩ := getFreeSelector_first found
  by_contra high
  exact before s (by omega) free

/-- **A fork.** -/
theorem took (ok : SelectorsOk k) (took : Took k t j selector) : SelectorsOk t := by
  have small := ok.found_low ⟨j, took.low, took.free⟩ took.found
  obtain ⟨low, unmarked, -⟩ := getFreeSelector_first took.found
  obtain ⟨_, marks⟩ := took.marks
  have more : ∀ s, k.mm.selectorMap s ≠ 0 → t.mm.selectorMap s ≠ 0 := fun s marked => by
    rw [marks, Function.update_of_ne (fun same => marked (by rw [same]; exact unmarked))]
    exact marked
  have own : t.mm.selectorMap ⟨_, low⟩ ≠ 0 := by
    rw [marks, Function.update_self]
    decide
  refine ⟨fun i inTable live => ?_, fun s marked => ?_⟩
  · by_cases here : i = j
    · rw [here, took.selector]
      exact ⟨small, low, own⟩
    · have same := took.others i inTable here
      obtain ⟨small', low', marked⟩ := ok.held i inTable (same.live.mp live)
      rw [same.selector]
      exact ⟨small', low', more _ marked⟩
  · by_cases here : s = ⟨selector.toNat, low⟩
    · exact ⟨j, took.low, took.live, took.thread, by rw [took.selector, here]⟩
    · rw [marks, Function.update_of_ne here] at marked
      obtain ⟨i, inTable, live, thread, own⟩ := ok.owned s marked
      have same := took.others i inTable fun equal => live.1 (equal ▸ took.free)
      exact ⟨i, inTable, same.live.mpr live, same.thread.trans thread, same.selector.symm ▸ own⟩

/-- **A clone.** -/
theorem shared (ok : SelectorsOk k) (shared : Shared k t i j) : SelectorsOk t := by
  refine ⟨fun l inTable live => ?_, fun s marked => ?_⟩
  · unfold Mm.Marked
    rw [shared.marks]
    by_cases here : l = j
    · rw [here, shared.selector]
      exact ok.held i shared.caller.1 shared.caller.2
    · have same := shared.others l inTable here
      rw [same.selector]
      exact ok.held l inTable (same.live.mp live)
  · rw [shared.marks] at marked
    obtain ⟨l, inTable, live, thread, own⟩ := ok.owned s marked
    have same := shared.others l inTable fun equal => live.1 (equal ▸ shared.free)
    exact ⟨l, inTable, same.live.mpr live, same.thread.trans thread, same.selector.symm ▸ own⟩

/-- **An exit** of a thread, or of a process whose selector no other live process has. -/
theorem died (ok : SelectorsOk k) (died : Died k t i)
    (kept : (k.procs i).isThread = false → ∀ l < maxProc, l ≠ i → (k.procs l).Live →
      (k.procs l).mmuSelector ≠ (k.procs i).mmuSelector) : SelectorsOk t := by
  have apart : ∀ l, (t.procs l).Live → l ≠ i := fun l live same => died.dead (same ▸ live)
  rcases died.marks with ⟨marks, thread⟩ | ⟨thread, low, marks⟩
  · refine ⟨fun l inTable live => ?_, fun s marked => ?_⟩
    · have same := died.others l inTable (apart l live)
      unfold Mm.Marked
      rw [same.selector, marks]
      exact ok.held l inTable (same.live.mp live)
    · rw [marks] at marked
      obtain ⟨l, inTable, live, process, own⟩ := ok.owned s marked
      have ne : l ≠ i := fun same => by
        rw [same, thread] at process
        cases process
      have same := died.others l inTable ne
      exact ⟨l, inTable, same.live.mpr live, same.thread.trans process, same.selector.symm ▸ own⟩
  · refine ⟨fun l inTable live => ?_, fun s marked => ?_⟩
    · have same := died.others l inTable (apart l live)
      have live' := same.live.mp live
      obtain ⟨small, low', marked⟩ := ok.held l inTable live'
      have ne := kept thread l inTable (apart l live) live'
      rw [same.selector]
      refine ⟨small, low', ?_⟩
      rw [marks, Function.update_of_ne (fun equal => ne (BitVec.eq_of_toNat_eq (Fin.mk.inj equal)))]
      exact marked
    · have ne : s ≠ ⟨_, low⟩ := fun same => by
        rw [marks, same, Function.update_self] at marked
        exact marked rfl
      rw [marks, Function.update_of_ne ne] at marked
      obtain ⟨l, inTable, live, process, own⟩ := ok.owned s marked
      have other : l ≠ i := fun same => ne (Fin.ext (own.symm.trans (by rw [same])))
      have same := died.others l inTable other
      exact ⟨l, inTable, same.live.mpr live, same.thread.trans process, same.selector.symm ▸ own⟩

end SelectorsOk

/-! ### Steps and runs -/

variable {op : TaskOp} {ops : List TaskOp}

/-- A step. What a process writes to its memory is not `selectorMap`. -/
def SelectorStep (k : KernelState δ) (op : TaskOp) (t : KernelState δ) : Prop :=
  TaskStep k op t ∧ ∀ mm, op = .user mm → mm.selectorMap = k.mm.selectorMap

/-- **A process that exits is a thread, or no other live process has its selector.** -/
def TaskOp.Kept (k : KernelState δ) : TaskOp → Prop
  | .worker _ _ q => (k.kernelTaskQueue q).type = .exit → ∀ i, k.findProcByPid (k.kernelTaskQueue q).callerPid = some i →
      (k.procs i).isThread = false → ∀ l < maxProc, l ≠ i → (k.procs l).Live →
        (k.procs l).mmuSelector ≠ (k.procs i).mmuSelector
  | _ => True

/-- Safe steps after which each selector keeps its owner. -/
def KeptStep (k : KernelState δ) (op : TaskOp) (t : KernelState δ) : Prop :=
  SelectorStep k op t ∧ op.Safe k ∧ op.Kept k

theorem Process.Selectable.live (selectable : p.Selectable) : p.Live := by
  unfold Process.Selectable at selectable
  unfold Process.Live
  rcases selectable with run | new | ⟨waits | blocked, -⟩
  · rw [run]; decide
  · rw [new]; decide
  · rw [waits]; decide
  · rw [blocked]; decide

theorem addKernelTask_same (k : KernelState δ) (task : TaskType) (callerPid args : Word) :
    SameSelectors k (k.addKernelTask task callerPid args) := by
  rcases k.addKernelTask_cases task callerPid args with ⟨i, -, added⟩ | ⟨-, added⟩ <;> rw [added]
  · exact (SameSelectors.refl k).congr rfl rfl
  · exact .refl k

/-- `resched` changes no selector, and the process that it resumes is live. -/
theorem resched_selectors (inv : TaskInv k) {fuel : Nat} {tStack frame : InterruptFrame} {seen : List Nat}
    (result : resched fuel tStack k = some (.ok (frame, t, seen))) :
    SameSelectors k t ∧ (t.procs t.currentTask).Live := by
  have keep : ∀ (s : KernelState δ) (l : List Nat) (i : Nat), TaskInv s ∧ SameSelectors k s → s.currentTask < i →
      i ≤ maxProc → (s.procs i).Selectable → (s.procs i).Fatal → TaskInv (s.kill i) ∧ SameSelectors k (s.kill i) := by
    rintro s l i ⟨inv, same⟩ after low selectable fatal
    have inTable : i < maxProc := lt_of_le_of_ne low fun atEnd => inv.behind (atEnd ▸ selectable)
    refine ⟨inv.kill inTable (by omega) selectable, (same.trans (addKernelTask_same s _ _ _)).setState ?_ (by decide)⟩
    rw [KernelState.addKernelTask_procs]
    exact selectable.live
  have saved : SameSelectors k (k.saveFrame tStack) := by
    refine ⟨?_, fun i _ => ?_⟩
    · unfold KernelState.saveFrame
      split <;> rfl
    · obtain ⟨frame, same⟩ := k.saveFrame_procs tStack i
      rw [same]
      exact ⟨rfl, rfl, Iff.rfl⟩
  obtain ⟨s, next, before, ⟨-, same⟩, -, stops, -, -, rfl⟩ := resched_keeps
    (P := fun s _ => TaskInv s ∧ SameSelectors k s) (fun _ _ kept => kept.1.stops) keep (fun _ _ _ kept _ _ _ => kept)
    inv.low result ⟨inv.saveFrame tStack, saved⟩
  have resumed : SameSelectors s (s.resume next) := by
    unfold KernelState.resume
    split
    · exact ((SameSelectors.refl s).setState stops.1.live (by decide)).congr rfl rfl
    · exact (SameSelectors.refl s).congr rfl rfl
  refine ⟨same.trans resumed, ?_⟩
  rw [KernelState.resume_currentTask, KernelState.resume_self]
  have live := stops.1.live
  unfold Process.Live at live ⊢
  dsimp only
  split
  · decide
  · exact live

/-- What a run keeps. -/
structure SelectorSound (k : KernelState δ) : Prop where
  tasks : TaskSound k
  running : (k.procs k.currentTask).Live
  selectors : SelectorsOk k

/-- **One step.** -/
theorem SelectorSound.step (sound : SelectorSound k) (step : KeptStep k op t) : SelectorSound t := by
  obtain ⟨⟨step, user⟩, safe, kept⟩ := step
  have tasks := sound.tasks.step ⟨step, safe⟩
  cases op with
  | sys task args tStack =>
    obtain ⟨some, other, fuel, frame, seen, result⟩ := step
    have queued : SameSelectors k (sysTask task args k) := by
      refine (addKernelTask_same k _ _ _).setState ?_ (by decide)
      rw [KernelState.addKernelTask_procs]
      exact sound.running
    obtain ⟨same, live⟩ := resched_selectors (sound.tasks.sysTask some other) result
    exact ⟨tasks, live, sound.selectors.same (queued.trans same)⟩
  | kill pid sig =>
    obtain rfl : t = k.sendSig pid sig := step
    have same : SameSelectors k (k.sendSig pid sig) := by
      refine ⟨?_, fun i _ => ?_⟩
      · unfold KernelState.sendSig
        split <;> rfl
      · obtain ⟨mask, made⟩ := sendSig_procs k pid sig i
        rw [made]
        exact ⟨rfl, rfl, Iff.rfl⟩
    refine ⟨tasks, ?_, sound.selectors.same same⟩
    rw [(sendSig_rest k pid sig).1]
    exact (same.process _ sound.tasks.1.low).live.mpr sound.running
  | resched tStack =>
    obtain ⟨fuel, frame, seen, result⟩ := step
    obtain ⟨same, live⟩ := resched_selectors sound.tasks.1 result
    exact ⟨tasks, live, sound.selectors.same same⟩
  | worker cow exe q =>
    obtain ⟨current, returns⟩ := step
    obtain ⟨inv, keeps⟩ := sound.tasks.1.workerTask safe returns
    refine ⟨tasks, ?_, ?_⟩
    · rw [keeps.current, current]
      unfold Process.Live
      rw [inv.worker]
      decide
    · cases workerTask_selectors sound.tasks.1 returns with
      | same same => exact sound.selectors.same same
      | took j selector took => exact sound.selectors.took took
      | shared i j shared => exact sound.selectors.shared shared
      | died i type found died => exact sound.selectors.died died (kept type i found)
  | user mm =>
    obtain rfl : t = { k with mm := mm } := step
    exact ⟨tasks, sound.running, sound.selectors.same ((SameSelectors.refl k).setMm (user mm rfl))⟩
  | behind p =>
    obtain rfl : t = k.setProc maxProc p := step
    have same : ∀ i < maxProc, (k.setProc maxProc p).procs i = k.procs i := fun i low =>
      KernelState.setProc_ne _ _ (Nat.ne_of_lt low)
    refine ⟨tasks, ?_, sound.selectors.same ⟨rfl, fun i low => ?_⟩⟩
    · rw [KernelState.setProc_currentTask, same _ sound.tasks.1.low]
      exact sound.running
    · rw [same i low]
      exact .refl _

/-- **Any other step leaves a live process without its selector.** -/
theorem SelectorSound.kept_iff (sound : SelectorSound k) (step : SelectorStep k op t) (safe : op.Safe k) :
    SelectorsOk t ↔ op.Kept k := by
  refine ⟨fun ok => ?_, fun kept => (sound.step ⟨step, safe, kept⟩).selectors⟩
  cases op with
  | worker cow exe q =>
    intro type i found process l inTable other live equal
    obtain ⟨-, returns⟩ := step.1
    unfold workerTask at returns
    rw [type] at returns
    have died := taskExit_died found returns
    have same := died.others l inTable other
    obtain ⟨-, low, marked⟩ := ok.held l inTable (same.live.mpr live)
    rcases died.marks with ⟨-, thread⟩ | ⟨-, low', marks⟩
    · rw [process] at thread
      cases thread
    · have own : (⟨_, low⟩ : Fin mmuSelectorNum) = ⟨_, low'⟩ :=
        Fin.ext (congrArg BitVec.toNat (same.selector.trans equal))
      rw [marks, own, Function.update_self] at marked
      exact marked rfl
  | _ => trivial

/-- **The run.** -/
theorem SelectorSound.run (run : Run KeptStep k ops t) (sound : SelectorSound k) : SelectorSound t :=
  run.preserves (fun _ _ _ sound step => SelectorSound.step sound step) sound

/-! ### The table -/

section Table

open RlCpu.Lib.Abort

variable {ι : Type} (dev : Sim.Devices ι)

/-- The I/O address of a table entry, `target_io_addr`. -/
def targetIoAddr (process pageno : Word) (sCode : Bool) : Word :=
  ((process <<< 8) ||| ((if sCode then 1 else 0 : Word) <<< 12) ||| (pageno &&& (0xff : Word))) ||| ((1 : Word) <<< 14)

/-- `mmu_write_table` on the machine. -/
def mmuWriteTable (process pageno : Word) (sCode : Bool) (entry : Word) : Abort Sim.Fault (Sim.Cpu (Sim.Demux ι)) Unit :=
  outb dev (targetIoAddr process pageno sCode) entry

/-- `mmu_read_table` on the machine. -/
def mmuReadTable (process pageno : Word) (sCode : Bool) : Abort Sim.Fault (Sim.Cpu (Sim.Demux ι)) Word := do
  let val ← inb dev (targetIoAddr process pageno sCode)
  pure (val &&& mmuTableNoFlagsMask)

/-- An address of 16 bits is an I/O address as it is. -/
theorem effAddr_io (a : Word) :
    (Sim.effAddr .io a.toNat).testBit 20 = true ∧ Sim.effAddr .io a.toNat &&& 0xffff = a.toNat := by
  have small := a.isLt
  have low : a.toNat &&& 0x7ffff = a.toNat :=
    (Nat.and_two_pow_sub_one_eq_mod a.toNat 19).trans (Nat.mod_eq_of_lt (by omega))
  have sum : Sim.effAddr .io a.toNat = 1 <<< 20 + a.toNat := by
    show (a.toNat &&& 0x7ffff) ||| (1 <<< 20) = _
    rw [low, Nat.or_comm]
    exact (Nat.shiftLeft_add_eq_or_of_lt (show a.toNat < 2 ^ 20 by omega) 1).symm
  refine ⟨?_, ?_⟩
  · show ((a.toNat &&& 0x7ffff) ||| (1 <<< 20)).testBit 20 = true
    rw [Nat.testBit_or, show Nat.testBit (1 <<< 20) 20 = true by decide, Bool.or_true]
  · rw [sum]
    refine (Nat.and_two_pow_sub_one_eq_mod _ 16).trans ?_
    omega

theorem targetIoAddr_entry (process pageno : Word) (sCode : Bool) :
    (targetIoAddr process pageno sCode).toNat.testBit 14 = true ∧
      (targetIoAddr process pageno sCode).toNat &&& 0x3fff = (tableAddr process pageno sCode).toNat := by
  refine ⟨?_, ?_⟩
  · unfold targetIoAddr
    rw [BitVec.testBit_toNat]
    simp
  · refine (Nat.and_two_pow_sub_one_eq_mod _ 14).trans ?_
    have top : ((1 : Word) <<< 14).setWidth 14 = 0#14 := by decide
    have same : (targetIoAddr process pageno sCode).setWidth 14 = tableAddr process pageno sCode := by
      unfold targetIoAddr tableAddr
      rw [BitVec.setWidth_or, top, BitVec.or_zero]
    rw [← same, BitVec.toNat_setWidth]

/-- **The kernel writes one word of the table.** -/
theorem exec_mmuWriteTable (k : Sim.Cpu (Sim.Demux ι)) (process pageno entry : Word) (sCode : Bool) :
    (mmuWriteTable dev process pageno sCode entry).exec k = (.ok (), k.withDemux { k.demux with
      table := Function.update k.demux.table (tableAddr process pageno sCode).toNat entry }) := by
  obtain ⟨io, address⟩ := effAddr_io (targetIoAddr process pageno sCode)
  obtain ⟨bit, index⟩ := targetIoAddr_entry process pageno sCode
  refine Sim.exec_memWrite_io io ?_
  rw [address, Sim.Demux.ioWrite, if_pos bit, index]

/-- **The kernel reads one word of the table.** -/
theorem exec_mmuReadTable (k : Sim.Cpu (Sim.Demux ι)) (process pageno : Word) (sCode : Bool) :
    (mmuReadTable dev process pageno sCode).exec k =
      (.ok (k.demux.table (tableAddr process pageno sCode).toNat &&& mmuTableNoFlagsMask), k) := by
  obtain ⟨io, address⟩ := effAddr_io (targetIoAddr process pageno sCode)
  obtain ⟨bit, index⟩ := targetIoAddr_entry process pageno sCode
  have read : (inb dev (targetIoAddr process pageno sCode)).exec k =
      (.ok (k.demux.table (tableAddr process pageno sCode).toNat), k) := by
    refine Sim.exec_memRead_io (m := k.demux) io ?_
    rw [address, Sim.Demux.ioRead, if_pos bit, index]
  unfold mmuReadTable
  rw [exec_bind_ok read, exec_pure]

end Table

/-- The segment of a bit of the code. -/
def segOf (sCode : Bool) : Sim.Seg := if sCode then .code else .data

/-- The addresses of a segment: 128 pages of code, 16 pages of data. -/
def segSize (sCode : Bool) : Nat := if sCode then 2 ^ 19 else 2 ^ 16

/-- **The MMU consults the entry that the kernel uses for the page**, for a selector below 16. -/
theorem getRealPage_eq (low : selector.toNat < 16) (sCode : Bool) {addr : Nat} (inside : addr < segSize sCode) :
    Sim.getRealPage (Sim.effAddr (segOf sCode) addr) selector =
      (tableAddr selector (BitVec.ofNat 16 (addr / 4096)) sCode).toNat := by
  have page : ∀ {n : Nat}, n < 2 ^ 19 → (BitVec.ofNat 16 (n / 4096)).toNat = n / 4096 := fun small => by
    rw [BitVec.toNat_ofNat, Nat.mod_eq_of_lt (by omega)]
  have field : ∀ a : Nat, (a &&& 0x7f000) >>> 12 = a / 4096 % 128 := fun a => by
    rw [Nat.shiftRight_and_distrib, Nat.shiftRight_eq_div_pow]
    exact Nat.and_two_pow_sub_one_eq_mod (a / 2 ^ 12) 7
  have parts : ∀ n < 128, (n ||| (selector.toNat <<< 8)) = selector.toNat * 256 + n := fun n small => by
    have sum := Nat.shiftLeft_add_eq_or_of_lt (show n < 2 ^ 8 by omega) selector.toNat
    rw [Nat.or_comm, ← sum, Nat.shiftLeft_eq]
  cases sCode with
  | true =>
    have inside : addr < 2 ^ 19 := inside
    have same : addr &&& 0x7ffff = addr :=
      (Nat.and_two_pow_sub_one_eq_mod addr 19).trans (Nat.mod_eq_of_lt inside)
    have eff : Sim.effAddr (segOf true) addr = 1 <<< 19 + addr := by
      show (addr &&& 0x7ffff) ||| (1 <<< 19) = _
      rw [same, Nat.or_comm]
      exact (Nat.shiftLeft_add_eq_or_of_lt inside 1).symm
    have bit : (1 <<< 19 + addr).testBit 19 = true := by
      rw [Nat.shiftLeft_add_eq_or_of_lt inside, Nat.testBit_or, show Nat.testBit (1 <<< 19) 19 = true by decide,
        Bool.true_or]
    have number : (1 <<< 19 + addr) / 4096 % 128 = addr / 4096 := by omega
    rw [eff, tableAddr_toNat_low low (by rw [page inside]; omega), page inside, Sim.getRealPage, bit, field, number,
      parts _ (by omega), if_pos rfl, if_pos rfl, Nat.or_comm]
    have sum := Nat.shiftLeft_add_eq_or_of_lt (show selector.toNat * 256 + addr / 4096 < 2 ^ 12 by omega) 1
    omega
  | false =>
    have inside : addr < 2 ^ 16 := inside
    have eff : Sim.effAddr (segOf false) addr = addr :=
      (Nat.and_two_pow_sub_one_eq_mod addr 16).trans (Nat.mod_eq_of_lt inside)
    have bit : addr.testBit 19 = false := Nat.testBit_lt_two_pow (by omega)
    have number : addr / 4096 % 128 = addr / 4096 := by omega
    rw [eff, tableAddr_toNat_low low (by rw [page (by omega)]; omega), page (by omega), Sim.getRealPage, bit, field,
      number, parts _ (by omega), if_neg Bool.false_ne_true, if_neg Bool.false_ne_true, Nat.zero_shiftLeft, Nat.or_zero,
      Nat.add_zero]

/-! ### What should hold -/

/-- **The table is free of collisions**: selectors in use are below 16, a new one is in use by none, different pages
have different entries, and the MMU consults the entry of the page. -/
structure SelectorsRight (k : KernelState δ) : Prop where
  low : ∀ i < maxProc, (k.procs i).Live → (k.procs i).mmuSelector.toNat < 16
  free : ∀ selector, k.mm.getFreeSelector = .ok selector → ∀ i < maxProc, (k.procs i).Live →
    (k.procs i).mmuSelector ≠ selector
  distinct : ∀ i < maxProc, (k.procs i).Live → ∀ j < maxProc, (k.procs j).Live → ∀ key key' : Bool × Nat,
    key.2 < 128 → key'.2 < 128 → keyAddr (k.procs i).mmuSelector key = keyAddr (k.procs j).mmuSelector key' →
    (k.procs i).mmuSelector = (k.procs j).mmuSelector ∧ key = key'
  consulted : ∀ i < maxProc, (k.procs i).Live → ∀ sCode addr, addr < segSize sCode →
    Sim.getRealPage (Sim.effAddr (segOf sCode) addr) (k.procs i).mmuSelector =
      (keyAddr (k.procs i).mmuSelector (sCode, addr / 4096)).toNat

theorem SelectorsOk.right (ok : SelectorsOk k) : SelectorsRight k where
  low i inTable live := (ok.held i inTable live).1
  free selector found i inTable live same := by
    obtain ⟨-, low, marked⟩ := ok.held i inTable live
    obtain ⟨low', unmarked, -⟩ := getFreeSelector_first found
    subst same
    exact marked unmarked
  distinct i inTable live j inTable' live' _ _ page page' same :=
    keyAddr_inj (ok.held i inTable live).1 (ok.held j inTable' live').1 page page' same
  consulted i inTable live sCode _ inside := getRealPage_eq (ok.held i inTable live).1 sCode inside

/-- **Runs.** From a consistent state in which selectors have owners, over safe steps in which a process that exits is a
thread or shares its selector with no live process, the table is free of collisions; and in every state the kernel's
accesses to the table are accesses to the word that the MMU consults. -/
theorem selectorRun_right {ι : Type} (dev : Sim.Devices ι) (start : Consistent k) (safe : Unthreatened k)
    (running : (k.procs k.currentTask).Live) (ok : SelectorsOk k) (run : Run KeptStep k ops t) :
    SelectorsRight t ∧ (∀ op u, SelectorStep t op u → op.Safe t → (SelectorsOk u ↔ op.Kept t)) ∧
    ∀ (c : Sim.Cpu (Sim.Demux ι)) (process pageno entry : Word) (sCode : Bool),
      (mmuWriteTable dev process pageno sCode entry).exec c = (.ok (), c.withDemux { c.demux with
          table := Function.update c.demux.table (tableAddr process pageno sCode).toNat entry }) ∧
        (mmuReadTable dev process pageno sCode).exec c =
          (.ok (c.demux.table (tableAddr process pageno sCode).toNat &&& mmuTableNoFlagsMask), c) := by
  have sound := SelectorSound.run run ⟨start.taskSound safe, running, ok⟩
  exact ⟨sound.selectors.right, fun _ _ step safe => sound.kept_iff step safe,
    fun c process pageno entry sCode => ⟨exec_mmuWriteTable dev c process pageno entry sCode,
      exec_mmuReadTable dev c process pageno sCode⟩⟩

/-! ### A thread that outlives its process -/

theorem TaskOp.perform_step (performed : op.perform k = some t) : SelectorStep k op t := by
  refine ⟨TaskOp.perform_taskStep performed, fun mm user => ?_⟩
  subst user
  cases performed

/-- The worker, and process 1 with selector 1, which runs. -/
def selectorKernel : KernelState Unit :=
  { bootUser with
    procs := fun i => if i = 1 then { bootUser.procs 1 with mmuSelector := 1 } else bootUser.procs i
    mm := { bootUser.mm with selectorMap := fun s => if s.val < 2 then 1 else 0 } }

/-- Process 1 clones a thread, and exits while the thread is there. -/
def orphanOps : List TaskOp :=
  [.sys .clone 0 someFrame, .worker false none 0, .resched someFrame, .sys .exit 0 someFrame, .resched someFrame,
    .worker false none 0]

/-- The thread is live, and the next fork gets its selector. -/
def orphaned (t : KernelState Unit) : Bool :=
  decide (t.procs 2).Live && (t.procs 2).mmuSelector == 1 &&
    match t.mm.getFreeSelector with
    | .ok selector => selector == 1
    | .error _ => false

/-- There are two processes. -/
theorem selectorKernel_there {i : Nat} (here : (selectorKernel.procs i).state ≠ .none) : i = 0 ∨ i = 1 := by
  by_contra high
  have other : i ≠ 1 := fun one => high (Or.inr one)
  refine here ?_
  show (if i = 1 then _ else bootUser.procs i).state = _
  rw [if_neg other]
  exact congrArg Process.state (bootKernel_procs i (by omega))

theorem selectorKernel_start : Consistent selectorKernel ∧ Unthreatened selectorKernel ∧
    (selectorKernel.procs selectorKernel.currentTask).Live ∧ SelectorsOk selectorKernel := by
  refine ⟨⟨by decide, by decide, by decide, fun i _ j _ here here' => ?_, fun i _ waits => ?_, fun q queued => queued rfl⟩,
    ⟨by decide, by decide⟩, by decide, ⟨fun i _ live => ?_, fun s marked => ?_⟩⟩
  · rcases selectorKernel_there here with rfl | rfl <;> rcases selectorKernel_there here' with rfl | rfl <;> decide
  · rcases selectorKernel_there (by rw [waits]; decide) with rfl | rfl <;> cases waits
  · rcases selectorKernel_there live.1 with rfl | rfl <;> exact ⟨by decide, by decide, by decide⟩
  · have small : s.val < 2 := by
      by_contra high
      exact marked (if_neg high)
    have cases : s.val = 0 ∨ s.val = 1 := by omega
    rcases cases with zero | one
    · exact ⟨0, by decide, by decide, rfl, zero.symm⟩
    · exact ⟨1, by decide, by decide, rfl, one.symm⟩

/-- **A thread that outlives its process loses its selector**: process 1 clones a thread and exits, and the next fork
gets the selector that the thread has. -/
theorem selectorRun_orphans : Consistent selectorKernel ∧ Unthreatened selectorKernel ∧
    (selectorKernel.procs selectorKernel.currentTask).Live ∧ SelectorsOk selectorKernel ∧
    ∃ t, Run SelectorStep selectorKernel orphanOps t ∧ (∃ i < maxProc, (t.procs i).Live ∧
      t.mm.getFreeSelector = .ok (t.procs i).mmuSelector) ∧ ¬ SelectorsRight t := by
  obtain ⟨start, safe, running, ok⟩ := selectorKernel_start
  have check : ((performAll (fun k (op : TaskOp) => op.perform k) selectorKernel orphanOps).any orphaned) = true := by
    decide +kernel
  obtain ⟨t, run, orphan⟩ := Run.of_check (fun _ _ _ => TaskOp.perform_step) check
  unfold orphaned at orphan
  rw [Bool.and_eq_true, Bool.and_eq_true, decide_eq_true_eq, beq_iff_eq] at orphan
  obtain ⟨⟨live, own⟩, free⟩ := orphan
  split at free
  case h_2 => cases free
  case h_1 selector found =>
    obtain rfl := beq_iff_eq.mp free
    refine ⟨start, safe, running, ok, t, run, ⟨2, by decide, live, own ▸ found⟩, fun right => ?_⟩
    exact right.free 1 found 2 (by decide) live own

/-- A thread is made, and all is right. -/
theorem selectorRun_right_thread : ∃ t, Run KeptStep selectorKernel
    [.sys .clone 0 someFrame, .worker false none 0] t ∧ SelectorsRight t := by
  obtain ⟨start, safe, running, ok⟩ := selectorKernel_start
  have check : (((TaskOp.sys .clone 0 someFrame).perform selectorKernel).any fun s =>
      decide (∀ i < maxProc, (s.procs i).state ≠ .none → (s.procs i).pid ≠ s.nextPid + 1) &&
        decide ((s.kernelTaskQueue 0).type = .clone) &&
        ((TaskOp.worker false none 0).perform s).isSome) = true := by decide +kernel
  cases first : (TaskOp.sys .clone 0 someFrame).perform selectorKernel with
  | none => rw [first] at check; cases check
  | some s =>
    rw [first, Option.any_some, Bool.and_eq_true, Bool.and_eq_true, decide_eq_true_eq, decide_eq_true_eq] at check
    obtain ⟨⟨fresh, type⟩, returns⟩ := check
    obtain ⟨t, second⟩ := Option.isSome_iff_exists.mp returns
    have kept : (TaskOp.worker false none 0).Kept s := fun exits => by
      rw [type] at exits
      cases exits
    have run : Run KeptStep selectorKernel [.sys .clone 0 someFrame, .worker false none 0] t :=
      .cons ⟨TaskOp.perform_step first, trivial, trivial⟩ (.single ⟨TaskOp.perform_step second, fun _ => fresh, kept⟩)
    exact ⟨t, run, (selectorRun_right Sim.noDevices start safe running ok run).1⟩

end RlCpu.Kernel
