/-
**The wait queue served by the worker (`kernel_worker.c`, `waitq.c`).**

`processWaiting` is the first thing of a pass of the worker: each notification wakes the processes that wait for
it. The cursor `e` is not set back between notifications, so only the first of a pass wakes anybody.

* `processWaiting_run`: to the process table, `processWaiting` is a run of `ProcessOp.wake`, which is safe where no
  process that waits for the first notification was killed.
* `sysTransfer_run`: a `read` or `write` system call is a run with at most one `ProcessOp.transfer`.
* `kernelRun_queueOk`: the queue of kernel tasks over runs with the wait queue.
-/

import RlCpu.Kernel.Transfer
import RlCpu.Kernel.ProcessRuns

namespace RlCpu.Kernel

open RlCpu.Lib

variable {δ : Type}

namespace Io

/-! ### `processWaiting` -/

/-- `e->type = WAITQ_TYPE_NONE` -/
def endWait (i : Fin waitqLength) : IoM δ Unit := fun s =>
  .ok ((), { s with waitq := Function.update s.waitq i none })

section Waiting

variable (drv : BlkDriver δ) (behind : BlockPtr → Nat → Word) (env : FsEnv) (fuel : Nat)

/-- The inner loop of `processWaiting`, with `waitqGetNextWaiter`, over the entries from `e` on. -/
def wakeWaiters (what : Word) : List (Fin waitqLength) → IoM δ Unit
  | [] => pure ()
  | i :: rest => do
      match (← get).waitq i with
      | some e =>
          if e.trigger = what then do
            let _ ← processWaitQEntry drv behind env fuel e
            endWait i
            wakeWaiters what rest
          else wakeWaiters what rest
      | none => wakeWaiters what rest

/-- The outer loop of `processWaiting`, for at most `n` notifications, over the entries from `e` on. -/
def processNotifications : Nat → List (Fin waitqLength) → IoM δ Unit
  | 0, _ => throw (.kernel .hang)
  | n + 1, entries => do
      let s ← get
      if s.waitqPendingNotifications.size = 0 then pure ()
      else do
        set { s with waitqPendingNotifications := s.waitqPendingNotifications.pop.2 }
        wakeWaiters drv behind env fuel s.waitqPendingNotifications.pop.1 entries
        -- `e` stays behind the last entry
        processNotifications n []

/-- `processWaiting` -/
def processWaiting (n : Nat) : IoM δ Unit :=
  processNotifications drv behind env fuel n (List.finRange waitqLength)

end Waiting

/-! ### What a transfer does to the process table -/

/-- Only entries of `caller` are new in the wait queue. -/
def Joined (caller : Word) (s t : Io δ) : Prop :=
  ∀ i, t.waitq i = s.waitq i ∨ s.waitq i = none ∧ ∃ e, t.waitq i = some e ∧ e.pid = caller

/-- **What a transfer for entry `p` does**: the process goes on; it is blocked, and was not running; or it is
blocked, and another goes on. -/
inductive Moved (fuel p : Nat) (caller : Word) (s t : Io δ) : Prop
  | stays (mm : Mm) (fs : FsState δ) (made : t.kernel = { s.kernel with mm := mm, fs := fs })
      (queue : Joined caller s t)
  | blocks (mm mm' : Mm) (fs : FsState δ) (result : Transferred)
      (away : (s.kernel.procs s.kernel.currentTask).pid ≠ caller)
      (made : t.kernel = { ({ s.kernel with mm := mm, fs := fs } : KernelState δ).transferred p result with mm := mm' })
      (queue : Joined caller s t)
  | yields (mm mm' : Mm) (fs : FsState δ) (result : Transferred) (tStack frame : InterruptFrame) (k : KernelState δ)
      (seen : List Nat) (running : (s.kernel.procs s.kernel.currentTask).pid = caller)
      (returns : Kernel.resched fuel tStack
        (({ s.kernel with mm := mm, fs := fs } : KernelState δ).transferred p result) = some (.ok (frame, k, seen)))
      (made : t.kernel = { k with mm := mm' }) (queue : Joined caller s t)

section Moved

variable {fuel p : Nat} {caller : Word} {a b c s t : Io δ}

theorem Joined.of_eq (same : b.waitq = a.waitq) : Joined caller a b := fun i => Or.inl (by rw [same])

theorem Joined.congr (joined : Joined caller b c) (same : b.waitq = a.waitq) : Joined caller a c := by
  unfold Joined at joined ⊢
  rwa [same] at joined

/-- What happens before the process is blocked. -/
theorem Moved.after {mm : Mm} {fs : FsState δ} (moved : Moved fuel p caller b c)
    (made : b.kernel = { a.kernel with mm := mm, fs := fs }) (same : b.waitq = a.waitq) :
    Moved fuel p caller a c := by
  cases moved with
  | stays mm' fs' made' queue =>
    rw [made] at made'
    exact .stays mm' fs' made' (queue.congr same)
  | blocks mm₁ mm₂ fs' result away made' queue =>
    rw [made] at away made'
    exact .blocks mm₁ mm₂ fs' result away made' (queue.congr same)
  | yields mm₁ mm₂ fs' result tStack frame k seen running returns made' queue =>
    rw [made] at running returns
    exact .yields mm₁ mm₂ fs' result tStack frame k seen running returns made' (queue.congr same)

/-- What is written to memory after it. -/
theorem Moved.before {mm : Mm} (moved : Moved fuel p caller a b) (made : c.kernel = { b.kernel with mm := mm })
    (same : c.waitq = b.waitq) : Moved fuel p caller a c := by
  have onward : ∀ {d : Io δ}, Joined caller d b → Joined caller d c := fun joined i => by
    rw [same]
    exact joined i
  cases moved with
  | stays mm' fs' made' queue =>
    rw [made'] at made
    exact .stays mm fs' made (onward queue)
  | blocks mm₁ mm₂ fs' result away made' queue =>
    rw [made'] at made
    exact .blocks mm₁ mm fs' result away made (onward queue)
  | yields mm₁ mm₂ fs' result tStack frame k seen running returns made' queue =>
    rw [made'] at made
    exact .yields mm₁ mm fs' result tStack frame k seen running returns made (onward queue)

theorem waitqAddEntry_ok {e : WaitqEntry} (added : waitqAddEntry e a = .ok ((), b)) :
    b.kernel = a.kernel ∧ Joined e.pid a b := by
  unfold waitqAddEntry at added
  split at added
  case h_1 i free =>
    obtain ⟨-, rfl⟩ := Prod.mk.inj (Except.ok.inj added)
    have empty : a.waitq i = none := by simpa using List.find?_some free
    refine ⟨rfl, fun j => ?_⟩
    by_cases here : j = i
    · subst here
      exact Or.inr ⟨empty, e, Function.update_self .., rfl⟩
    · exact Or.inl (Function.update_of_ne here ..)
  case h_2 => cases added

/-- **A process is blocked**, with a signal or without. -/
theorem block_moved (result : Transferred) (made : s.kernel.setState p .blocked = a.kernel.transferred p result)
    (queue : Joined caller a s) (current : s.kernel.currentTask = a.kernel.currentTask)
    (pids : ∀ i, (s.kernel.procs i).pid = (a.kernel.procs i).pid)
    (blocked : block fuel p caller s = .ok ((), t)) : Moved fuel p caller a t := by
  unfold block at blocked
  have rest := run_next blocked rfl
  have rest := run_next rest rfl
  have pid : ∀ i, ((s.kernel.setState p .blocked).procs i).pid = (a.kernel.procs i).pid := fun i => by
    rw [made]
    exact (transferred_procs a.kernel p result i).1
  have running : ((s.kernel.setState p .blocked).procs (s.kernel.setState p .blocked).currentTask).pid =
      (a.kernel.procs a.kernel.currentTask).pid := by
    rw [pid, KernelState.setState_currentTask, current]
  split at rest
  case isTrue same =>
    have same := running.symm.trans same
    unfold reschedule at rest
    split at rest
    case h_1 frame k seen returns =>
      obtain ⟨-, rfl⟩ := Prod.mk.inj (Except.ok.inj rest)
      refine .yields a.kernel.mm k.mm a.kernel.fs result s.systemInterruptStack frame k seen same ?_ rfl queue
      rw [← made]
      exact returns
    case h_2 => cases rest
    case h_3 => cases rest
  case isFalse other =>
    obtain ⟨-, rfl⟩ := Prod.mk.inj (Except.ok.inj rest)
    refine .blocks a.kernel.mm (a.kernel.transferred p result).mm a.kernel.fs result
      (fun same => other (running.trans same)) made queue

end Moved

section Transfers

variable {drv : BlkDriver δ} {behind : BlockPtr → Nat → Word} {env : FsEnv} {fuel p : Nat} {fd : FilePtr}
  {buf size caller scall : Word} {s t : Io δ} {n : Nat}

theorem finishRead_moved {words : List Word}
    (ran : finishRead fuel p fd buf size caller scall words s = .ok (n, t)) : Moved fuel p caller s t := by
  unfold finishRead at ran
  have ran := run_next ran rfl
  obtain ⟨_, s₂, put, ran⟩ := run_ok ran
  obtain ⟨mm, rfl⟩ := userPuts_mm put
  have ran := run_next ran rfl
  obtain ⟨_, s₄, waits, ran⟩ := run_ok ran
  obtain ⟨_, s₅, sized, ran⟩ := run_ok ran
  obtain ⟨-, rfl⟩ := Prod.mk.inj (Except.ok.inj ran)
  obtain ⟨mm', rfl⟩ := putSize_mm sized
  refine Moved.before ?_ rfl rfl
  split at waits
  case isTrue =>
    have waits := run_next waits rfl
    obtain ⟨_, s₇, added, waits⟩ := run_ok waits
    obtain ⟨same, joined⟩ := waitqAddEntry_ok added
    have blocked : Moved fuel p caller _ s₄ := block_moved .blocked (by rw [same]; rfl) joined
      (by rw [same]) (fun i => by rw [same]) waits
    exact blocked.after rfl rfl
  case isFalse =>
    obtain ⟨-, rfl⟩ := Prod.mk.inj (Except.ok.inj waits)
    exact .stays mm s.kernel.fs rfl (.of_eq rfl)

theorem finishWrite_moved {retval : Nat} (pid : (s.kernel.procs p).pid = caller)
    (ran : finishWrite fuel p fd buf size caller scall retval s = .ok (n, t)) : Moved fuel p caller s t := by
  unfold finishWrite at ran
  have ran := run_next ran rfl
  obtain ⟨_, s₂, waits, ran⟩ := run_ok ran
  obtain ⟨_, s₃, sized, ran⟩ := run_ok ran
  obtain ⟨-, rfl⟩ := Prod.mk.inj (Except.ok.inj ran)
  obtain ⟨mm, rfl⟩ := putSize_mm sized
  refine Moved.before ?_ rfl rfl
  split at waits
  case isFalse =>
    obtain ⟨-, rfl⟩ := Prod.mk.inj (Except.ok.inj waits)
    exact .stays s.kernel.mm s.kernel.fs rfl (.of_eq rfl)
  case isTrue =>
    obtain ⟨_, s₄, asked, waits⟩ := run_ok waits
    split at asked
    case isTrue =>
      have asked := run_next asked rfl
      obtain ⟨same, joined⟩ := waitqAddEntry_ok asked
      have blocked : Moved fuel p caller _ s₂ := block_moved .blocked (by rw [same]; rfl) joined
        (by rw [same]) (fun i => by rw [same]) waits
      exact blocked.after rfl rfl
    case isFalse =>
      split at asked
      case isTrue =>
        obtain ⟨-, rfl⟩ := Prod.mk.inj (Except.ok.inj asked)
        have sent : (s.withKernel (s.kernel.sendSig caller (BitVec.ofNat 16 sigPipe))).kernel.setState p .blocked =
            s.kernel.transferred p .broken := by
          unfold KernelState.transferred
          rw [pid]
          rfl
        refine block_moved .broken sent (.of_eq rfl) (sendSig_rest s.kernel caller _).1 (fun i => ?_) waits
        obtain ⟨mask, made⟩ := sendSig_procs s.kernel caller (BitVec.ofNat 16 sigPipe) i
        show ((s.kernel.sendSig caller (BitVec.ofNat 16 sigPipe)).procs i).pid = _
        rw [made]
      case isFalse =>
        obtain ⟨-, rfl⟩ := Prod.mk.inj (Except.ok.inj asked)
        exact block_moved .blocked rfl (.of_eq rfl) rfl (fun i => rfl) waits

theorem Moved.of_mm {a b c : Io δ} {mm : Mm} (moved : Moved fuel p caller b c)
    (made : b.kernel = { a.kernel with mm := mm }) (same : b.waitq = a.waitq) : Moved fuel p caller a c :=
  moved.after (show b.kernel = { a.kernel with mm := mm, fs := a.kernel.fs } from made) same

theorem Moved.of_filed {a b c : Io δ} (moved : Moved fuel p caller b c) (filed : Filed a b) :
    Moved fuel p caller a c := by
  obtain ⟨⟨fs, made⟩, queue⟩ := filed
  exact moved.after (show b.kernel = { a.kernel with mm := a.kernel.mm, fs := fs } from made) queue

/-- **A transfer and the process table.** -/
theorem tryTransfer_moved {e : WaitqEntry} (ran : tryTransfer drv behind env fuel e s = .ok (n, t)) :
    ∃ p, s.kernel.findProcByPid e.pid = some p ∧ Moved fuel p e.pid s t := by
  unfold tryTransfer at ran
  split at ran
  case isTrue =>
    unfold tryKWrite at ran
    obtain ⟨p, s₁, looked, written⟩ := run_ok ran
    obtain ⟨found, rfl⟩ := procOf_ok looked
    refine ⟨p, found, ?_⟩
    split at written
    case isTrue => cases written
    case isFalse =>
      obtain ⟨words, s₂, got, rest⟩ := run_ok written
      obtain ⟨mm, rfl⟩ := userGets_mm got
      have rest := run_next rest rfl
      have rest := run_next rest rfl
      obtain ⟨retval, s₅, moved, rest⟩ := run_ok rest
      have filed := kWrite_filed _ _ _ moved
      have pid : (s₅.kernel.procs p).pid = e.pid := by
        obtain ⟨⟨fs, made⟩, -⟩ := filed
        rw [made]
        exact (KernelState.findProcByPid_some found).2.1
      exact ((finishWrite_moved pid rest).of_filed filed).of_mm rfl rfl
  case isFalse =>
    unfold tryKRead at ran
    obtain ⟨p, s₁, looked, read⟩ := run_ok ran
    obtain ⟨found, rfl⟩ := procOf_ok looked
    refine ⟨p, found, ?_⟩
    obtain ⟨words, s₂, fetched, rest⟩ := run_ok read
    split at rest
    case isTrue => cases rest
    case isFalse => exact (finishRead_moved rest).of_filed (kRead_filed _ _ _ fetched)

end Transfers

/-! ### A pass of the worker -/

/-- The worker runs and waits for nothing, and no process that waits for `what` was killed. -/
structure Waiting (what : Word) (s : Io δ) : Prop where
  current : s.kernel.currentTask = 0
  others : ∀ i e, s.waitq i = some e → e.pid ≠ (s.kernel.procs 0).pid
  alive : ∀ i e, s.waitq i = some e → e.trigger = what →
    ∀ p ∈ s.kernel.findProcByPid e.pid, (s.kernel.procs p).state ≠ .kworker

section Pass

variable {drv : BlkDriver δ} {behind : BlockPtr → Nat → Word} {env : FsEnv} {fuel : Nat} {what : Word}
  {s t : Io δ} {n : Nat}

/-- Memory and files change, and then the process of an entry is woken. -/
theorem wake_run {k l : KernelState δ} {mm mm' : Mm} {fs : FsState δ} {pid : Word} {p : Nat} {result : Transferred}
    (current : k.currentTask = 0) (other : p ≠ 0) (found : k.findProcByPid pid = some p)
    (idle : (k.procs p).state ≠ .kworker)
    (made : l = { ({ k.setState p .run with mm := mm, fs := fs } : KernelState δ).transferred p result with mm := mm' }) :
    ∃ ops, Run SafeProcessStep k ops l := by
  have safe : ProcessOp.Safe ({ k with mm := mm, fs := fs } : KernelState δ) (.wake pid result) := by
    intro p' found'
    obtain rfl := Option.some.inj (found.symm.trans found')
    exact idle
  refine ⟨[.task (.user mm), .files fs, .wake pid result, .task (.user mm')], ?_⟩
  refine .cons ⟨rfl, trivial⟩ (.cons ⟨rfl, trivial⟩ (.cons ⟨⟨current, p, other, found, rfl⟩, safe⟩ (.single ⟨?_, trivial⟩)))
  exact made

/-- Pids stay, processes that were there are there, and the states of others stay. -/
theorem wake_procs {k l : KernelState δ} {p : Nat} (here : (k.procs p).state ≠ .none)
    (ready : l.procs = (k.setState p .run).procs) (result : Transferred) (i : Nat) :
    ((l.transferred p result).procs i).pid = (k.procs i).pid ∧
      (((l.transferred p result).procs i).state ≠ .none ↔ (k.procs i).state ≠ .none) ∧
      (i ≠ p → ((l.transferred p result).procs i).state = (k.procs i).state) := by
  have runs : (l.procs p).state = .run := by rw [ready, KernelState.setState_self]
  obtain ⟨pid, -, state⟩ := transferred_procs l p result i
  rw [ready] at pid state
  by_cases equal : i = p
  · subst equal
    rw [KernelState.setState_self] at pid
    refine ⟨pid, iff_of_true ?_ here, fun apart => absurd rfl apart⟩
    exact (transferred_served (by rw [runs]; decide) (by rw [runs]; decide) result).1
  · rw [KernelState.setState_ne _ _ equal] at pid state
    rw [state equal]
    exact ⟨pid, Iff.rfl, fun _ => rfl⟩

/-- Who has a pid does not depend on more than pids and who is there. -/
theorem findProcByPid_congr {k l : KernelState δ} (same : ∀ i, (l.procs i).pid = (k.procs i).pid ∧
    ((l.procs i).state ≠ .none ↔ (k.procs i).state ≠ .none)) (pid : Word) :
    l.findProcByPid pid = k.findProcByPid pid := by
  unfold KernelState.findProcByPid
  congr 1
  funext i
  obtain ⟨pids, states⟩ := same i
  exact decide_eq_decide.mpr (and_congr (by rw [pids]) states)

/-- **An entry that waits for `what` is served.** -/
theorem Waiting.serve {i : Fin waitqLength} {e : WaitqEntry} (waiting : Waiting what s) (here : s.waitq i = some e)
    (trigger : e.trigger = what) (ran : processWaitQEntry drv behind env fuel e s = .ok (n, t)) :
    (∃ ops, Run SafeProcessStep s.kernel ops t.kernel) ∧ Waiting what t := by
  obtain ⟨q, s₁, woken, served⟩ := run_ok ran
  unfold wakeRequest at woken
  split at woken
  case h_1 => cases woken
  case h_2 p found =>
    obtain ⟨rfl, rfl⟩ := Prod.mk.inj (Except.ok.inj woken)
    obtain ⟨low, pid, alive⟩ := KernelState.findProcByPid_some found
    have other : p ≠ 0 := fun zero => waiting.others i e here (by rw [← pid, zero])
    have idle := waiting.alive i e here trigger p found
    obtain ⟨p', found', moved⟩ := tryTransfer_moved served
    obtain rfl := Option.some.inj (found'.symm.trans (findProcByPid_setState found))
    -- the worker is not blocked, so it goes on
    have goes : ∃ mm mm' fs result, t.kernel =
        { ({ s.kernel.setState p' .run with mm := mm, fs := fs } : KernelState δ).transferred p' result with
          mm := mm' } ∧ Joined e.pid s t := by
      cases moved with
      | stays mm fs made queue => exact ⟨mm, mm, fs, .done, made, pid ▸ queue⟩
      | blocks mm mm' fs result away made queue => exact ⟨mm, mm', fs, result, made, pid ▸ queue⟩
      | yields mm mm' fs result tStack frame k seen running returns made queue =>
        have same : ((s.kernel.setState p' .run).procs s.kernel.currentTask).pid = (s.kernel.procs p').pid := running
        rw [waiting.current, KernelState.setState_ne _ _ other.symm, pid] at same
        exact absurd same.symm (waiting.others i e here)
    obtain ⟨mm, mm', fs, result, made, queue⟩ := goes
    refine ⟨wake_run waiting.current other found idle made, ?_⟩
    have procs := fun j => wake_procs (l := { s.kernel.setState p' .run with mm := mm, fs := fs }) alive rfl result j
    have same := findProcByPid_congr (k := s.kernel) (l := t.kernel) fun j => by
      rw [made]
      exact ⟨(procs j).1, (procs j).2.1⟩
    have served : (t.kernel.procs p').state ≠ .kworker := by
      have runs : ((s.kernel.setState p' .run).procs p').state = .run := by rw [KernelState.setState_self]
      rw [made]
      exact (transferred_served (k := { s.kernel.setState p' .run with mm := mm, fs := fs })
        (by rw [runs]; decide) (by rw [runs]; decide) result).2
    refine ⟨?_, fun j f there => ?_, fun j f there asks r holds => ?_⟩
    · rw [made]
      exact (transferred_currentTask _ _ _).trans waiting.current
    · have first : (t.kernel.procs 0).pid = (s.kernel.procs 0).pid := by
        rw [made]
        exact (procs 0).1
      rw [first]
      rcases queue j with old | ⟨-, f', new, mine⟩
      · exact waiting.others j f (old ▸ there)
      · obtain rfl := Option.some.inj (there.symm.trans new)
        rw [mine]
        exact waiting.others i e here
    · rw [same] at holds
      by_cases equal : r = p'
      · exact equal ▸ served
      · rcases queue j with old | ⟨-, f', new, mine⟩
        · have state : (t.kernel.procs r).state = (s.kernel.procs r).state := by
            rw [made]
            exact (procs r).2.2 equal
          rw [state]
          exact waiting.alive j f (old ▸ there) asks r holds
        · obtain rfl := Option.some.inj (there.symm.trans new)
          rw [mine] at holds
          exact absurd (Option.some.inj (holds.symm.trans found)) equal

/-- **The inner loop**, by induction on the entries left. -/
theorem Waiting.wakeWaiters : ∀ (entries : List (Fin waitqLength)) {s : Io δ}, Waiting what s →
    wakeWaiters drv behind env fuel what entries s = .ok ((), t) →
    (∃ ops, Run SafeProcessStep s.kernel ops t.kernel) ∧ Waiting what t := by
  intro entries
  induction entries with
  | nil =>
    intro s waiting ran
    obtain ⟨-, rfl⟩ := Prod.mk.inj (Except.ok.inj ran)
    exact ⟨⟨[], .nil _⟩, waiting⟩
  | cons i rest ih =>
    intro s waiting ran
    unfold Io.wakeWaiters at ran
    have visited := run_next ran rfl
    cases here : s.waitq i with
    | none =>
      rw [here] at visited
      exact ih waiting visited
    | some e =>
      rw [here] at visited
      dsimp only at visited
      split at visited
      case isFalse => exact ih waiting visited
      case isTrue trigger =>
        obtain ⟨n, s₂, served, left⟩ := run_ok visited
        obtain ⟨⟨ops, first⟩, waiting₂⟩ := waiting.serve here trigger served
        have left := run_next left rfl
        have still : ∀ {j f}, Function.update s₂.waitq i none j = some f → s₂.waitq j = some f := fun {j f} there => by
          by_cases equal : j = i
          · rw [equal, Function.update_self] at there
            cases there
          · rwa [Function.update_of_ne equal] at there
        have ended : Waiting what { s₂ with waitq := Function.update s₂.waitq i none } :=
          ⟨waiting₂.current, fun j f there => waiting₂.others j f (still there),
            fun j f there => waiting₂.alive j f (still there)⟩
        obtain ⟨⟨more, second⟩, waiting₃⟩ := ih ended left
        exact ⟨⟨ops ++ more, first.append second⟩, waiting₃⟩

/-- After the first notification nobody is woken. -/
theorem processNotifications_nil : ∀ (n : Nat) {s : Io δ},
    processNotifications drv behind env fuel n [] s = .ok ((), t) → t.kernel = s.kernel ∧ t.waitq = s.waitq := by
  intro n
  induction n with
  | zero => exact fun ran => by cases ran
  | succ n ih =>
    intro s ran
    unfold processNotifications at ran
    have rest := run_next ran rfl
    split at rest
    case isTrue =>
      obtain ⟨-, rfl⟩ := Prod.mk.inj (Except.ok.inj rest)
      exact ⟨rfl, rfl⟩
    case isFalse =>
      have left := run_next rest rfl
      have left := run_next left rfl
      obtain ⟨kernel, queue⟩ := ih left
      exact ⟨kernel, queue⟩

/-- **`processWaiting` is a run of wakes**, all of them safe where no process that waits for the first notification
was killed. -/
theorem processWaiting_run (waiting : Waiting s.waitqPendingNotifications.pop.1 s)
    (ran : processWaiting drv behind env fuel n s = .ok ((), t)) :
    (∃ ops, Run SafeProcessStep s.kernel ops t.kernel) ∧ t.kernel.currentTask = 0 ∧
      ∀ i e, t.waitq i = some e → e.pid ≠ (t.kernel.procs 0).pid := by
  unfold processWaiting at ran
  cases n with
  | zero => cases ran
  | succ n =>
    unfold processNotifications at ran
    have rest := run_next ran rfl
    split at rest
    case isTrue =>
      obtain ⟨-, rfl⟩ := Prod.mk.inj (Except.ok.inj rest)
      exact ⟨⟨[], .nil _⟩, waiting.current, waiting.others⟩
    case isFalse =>
      have woken := run_next rest rfl
      obtain ⟨_, s₃, woken, left⟩ := run_ok woken
      have popped : Waiting s.waitqPendingNotifications.pop.1
          { s with waitqPendingNotifications := s.waitqPendingNotifications.pop.2 } :=
        ⟨waiting.current, waiting.others, waiting.alive⟩
      obtain ⟨run, waiting₃⟩ := popped.wakeWaiters _ woken
      obtain ⟨kernel, queue⟩ := processNotifications_nil n left
      rw [kernel, queue]
      exact ⟨run, waiting₃.current, waiting₃.others⟩

end Pass

/-! ### System calls -/

section Calls

variable {drv : BlkDriver δ} {behind : BlockPtr → Nat → Word} {env : FsEnv} {fuel : Nat} {s t : Io δ} {n : Nat}

/-- **A `read` or `write` system call is a run** in which every step is safe, and what it adds to the wait queue is of
the process that makes it. -/
theorem sysTransfer_run {isWrite : Bool} {scall : Word} {log uses : List Use} (sound : TaskSound s.kernel)
    (user : s.kernel.currentTask ≠ 0)
    (ran : Abort.exec (sysTransfer drv behind env fuel isWrite scall) (s, log) = (.ok n, (t, uses))) :
    (∃ ops, Run SafeProcessStep s.kernel ops t.kernel) ∧
      Joined (s.kernel.procs s.kernel.currentTask).pid s t := by
  unfold sysTransfer at ran
  obtain ⟨q, ⟨s₁, log₁⟩, read, served⟩ := Abort.exec_bind_returns ran
  obtain ⟨served, -⟩ := exec_onIo_returns served
  obtain ⟨words, got, -, -, asks⟩ := readRequest_ok read
  obtain ⟨mm, rfl⟩ := userGets_mm got
  have pid : q.pid = (s.kernel.procs s.kernel.currentTask).pid := by rw [asks]; rfl
  obtain ⟨p, found, moved⟩ := tryTransfer_moved served
  rw [pid] at found moved
  obtain rfl := Option.some.inj (found.symm.trans (sound.1.findProcByPid sound.1.low sound.2.1))
  cases moved with
  | stays mm' fs made queue =>
    exact ⟨⟨[.task (.user mm'), .files fs], .cons ⟨rfl, trivial⟩ (.single ⟨made, trivial⟩)⟩, queue⟩
  | blocks mm₁ mm₂ fs result away => exact absurd rfl away
  | yields mm₁ mm₂ fs result tStack frame k seen running returns made queue =>
    refine ⟨⟨[.task (.user mm₁), .files fs, .transfer result tStack, .task (.user mm₂)], ?_⟩, queue⟩
    exact .cons ⟨rfl, trivial⟩ (.cons ⟨rfl, trivial⟩ (.cons ⟨⟨user, fuel, frame, seen, returns⟩, trivial⟩
      (.single ⟨made, trivial⟩)))

end Calls

/-! ### Runs -/

/-- A step of the kernel with its drivers. -/
inductive KernelEvent
  /-- A step that leaves the wait queue alone. -/
  | task (op : TaskOp)
  /-- A `read` or `write` system call of the running process. -/
  | sysCall (isWrite : Bool) (scall : Word)
  /-- The start of a pass of the worker, with at most `n` notifications. -/
  | pass (n : Nat)
  /-- Drivers and files. -/
  | drivers

section Runs

variable {drv : BlkDriver δ} {behind : BlockPtr → Nat → Word} {env : FsEnv} {fuel : Nat} {s t : Io δ}
  {event : KernelEvent} {events : List KernelEvent}

/-- The step `event` leads from `s` to `t`. -/
def KernelStep (drv : BlkDriver δ) (behind : BlockPtr → Nat → Word) (env : FsEnv) (fuel : Nat) (s : Io δ)
    (event : KernelEvent) (t : Io δ) : Prop :=
  match event with
  | .task op => TaskStep s.kernel op t.kernel ∧ t.waitq = s.waitq
  | .sysCall isWrite scall => s.kernel.currentTask ≠ 0 ∧ ∃ n uses,
      Abort.exec (sysTransfer drv behind env fuel isWrite scall) (s, []) = (.ok n, (t, uses))
  | .pass n => s.kernel.currentTask = 0 ∧ processWaiting drv behind env fuel n s = .ok ((), t)
  | .drivers => Filed s t

/-- **What a step must meet.** At a pass of the worker, no process that waits for the first pending notification has
been killed. -/
def KernelEvent.Safe (s : Io δ) : KernelEvent → Prop
  | .task op => op.Safe s.kernel
  | .pass _ => ∀ i e, s.waitq i = some e → e.trigger = s.waitqPendingNotifications.pop.1 →
      ∀ p ∈ s.kernel.findProcByPid e.pid, (s.kernel.procs p).state ≠ .kworker
  | _ => True

/-- The queue is sound, and the worker waits for nothing. -/
structure Serving (s : Io δ) : Prop where
  sound : TaskSound s.kernel
  others : ∀ i e, s.waitq i = some e → e.pid ≠ (s.kernel.procs 0).pid

/-- The worker keeps its pid. -/
theorem worker_pid {ops : List (ProcessOp δ)} {k l : KernelState δ} (sound : TaskSound k)
    (run : Run SafeProcessStep k ops l) : (l.procs 0).pid = (k.procs 0).pid := by
  have keep : ∀ (a : KernelState δ) (op : ProcessOp δ) (b : KernelState δ),
      TaskSound a ∧ (a.procs 0).pid = (k.procs 0).pid → SafeProcessStep a op b →
      TaskSound b ∧ (b.procs 0).pid = (k.procs 0).pid := by
    rintro a op b ⟨sound, pid⟩ step
    have there : (a.procs 0).state ≠ .none := by rw [sound.1.worker]; decide
    exact ⟨sound.processStep step, (sound.processStep_process step (by decide) there).1.trans pid⟩
  exact (run.preserves keep ⟨sound, rfl⟩).2

/-- What a run of the table does to the invariant, when the wait queue gets entries of user processes only. -/
theorem Serving.of_run {ops : List (ProcessOp δ)} (serving : Serving s) (run : Run SafeProcessStep s.kernel ops t.kernel)
    (others : ∀ i e, t.waitq i = some e → e.pid ≠ (s.kernel.procs 0).pid) : Serving t := by
  refine ⟨TaskSound.run run serving.sound, fun i e here => ?_⟩
  rw [worker_pid serving.sound run]
  exact others i e here

/-- **One step.** -/
theorem Serving.step (serving : Serving s) (step : KernelStep drv behind env fuel s event t) (safe : event.Safe s) :
    Serving t := by
  cases event with
  | task op =>
    obtain ⟨step, same⟩ := step
    have run : Run SafeProcessStep s.kernel [.task op] t.kernel := .single ⟨step, safe⟩
    refine serving.of_run run fun i e here => ?_
    rw [same] at here
    exact serving.others i e here
  | sysCall isWrite scall =>
    obtain ⟨user, n, uses, ran⟩ := step
    obtain ⟨⟨ops, run⟩, joined⟩ := sysTransfer_run serving.sound user ran
    refine serving.of_run run fun i e here => ?_
    rcases joined i with old | ⟨-, f, new, mine⟩
    · exact serving.others i e (old ▸ here)
    · obtain rfl := Option.some.inj (here.symm.trans new)
      have inv := serving.sound.1
      rw [mine]
      exact fun same => user (inv.pids _ inv.low 0 (by decide) serving.sound.2.1 (by rw [inv.worker]; decide) same)
  | pass n =>
    obtain ⟨current, ran⟩ := step
    obtain ⟨⟨ops, run⟩, -, others⟩ := processWaiting_run ⟨current, serving.others, safe⟩ ran
    refine ⟨TaskSound.run run serving.sound, others⟩
  | drivers =>
    obtain ⟨⟨fs, made⟩, same⟩ := step
    have run : Run SafeProcessStep s.kernel [.files fs] t.kernel := .single ⟨made, trivial⟩
    refine serving.of_run run fun i e here => ?_
    rw [same] at here
    exact serving.others i e here

/-- **The queue of kernel tasks over runs of the kernel**: with the wait queue as it is in the source, in every run
in which no process is killed while it waits and then notified first, and whose other steps are safe. -/
theorem kernelRun_queueOk (start : Consistent s.kernel) (safe : Unthreatened s.kernel) (idle : ∀ i, s.waitq i = none)
    (run : Run (fun s event t => KernelStep drv behind env fuel s event t ∧ event.Safe s) s events t) :
    QueueOk t.kernel := by
  have begun : Serving s := ⟨start.taskSound safe, fun i e here => absurd (here.symm.trans (idle i)) (Option.some_ne_none e)⟩
  have keep : ∀ (a : Io δ) (event : KernelEvent) (b : Io δ), Serving a →
      KernelStep drv behind env fuel a event b ∧ event.Safe a → Serving b :=
    fun _ _ _ serving step => serving.step step.1 step.2
  exact (run.preserves keep begun).sound.1.queueOk

end Runs

end Io

end RlCpu.Kernel
