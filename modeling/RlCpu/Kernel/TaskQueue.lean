/-
**The queue of kernel tasks.**

`TaskInv`: the worker is ready, each process that waits for it has one entry in the queue, and each
entry is of such a process. System calls and kills queue a task (`TaskInv.enqueue`), the handlers of the
worker take it out (`TaskInv.dequeue`), and forks add processes (`TaskInv.spawn`).

Each handler keeps the invariant, and the pids and signals of the processes (`Keeps`).
-/

import RlCpu.Kernel.Worker
import RlCpu.Lib.Refine
import Mathlib.Data.Fintype.Card

namespace RlCpu.Kernel

open RlCpu.Lib

variable {δ : Type}

/-! ### The invariant -/

/-- Entry `q` of the queue holds a task. -/
def KernelState.Queued (k : KernelState δ) (q : Fin maxQueueSize) : Prop :=
  (k.kernelTaskQueue q).type ≠ .none

/-- **The queue is sound**: the worker is ready, what waits for it has one entry, and nothing else has. -/
structure QueueOk (k : KernelState δ) : Prop where
  worker : (k.procs 0).state = .run
  waiting : ∀ i < maxProc, (k.procs i).state = .kworker →
    ∃! q, k.Queued q ∧ (k.kernelTaskQueue q).callerPid = (k.procs i).pid
  served : ∀ q, k.Queued q → ∃ i < maxProc, (k.procs i).state = .kworker ∧
    (k.procs i).pid = (k.kernelTaskQueue q).callerPid
  /-- `addKernelTask` finds a free entry. -/
  room : ∃ q, ¬ k.Queued q

/-- **The invariant.** -/
structure TaskInv (k : KernelState δ) : Prop where
  low : k.currentTask < maxProc
  worker : (k.procs 0).state = .run
  calm : ¬ (k.procs 0).Fatal
  behind : ¬ (k.procs maxProc).Selectable
  pids : ∀ i < maxProc, ∀ j < maxProc, (k.procs i).state ≠ .none → (k.procs j).state ≠ .none →
    (k.procs i).pid = (k.procs j).pid → i = j
  waiting : ∀ i < maxProc, (k.procs i).state = .kworker →
    ∃! q, k.Queued q ∧ (k.kernelTaskQueue q).callerPid = (k.procs i).pid
  served : ∀ q, k.Queued q → ∃ i < maxProc, (k.procs i).state = .kworker ∧
    (k.procs i).pid = (k.kernelTaskQueue q).callerPid

/-- The processes of `k` have their pids and signals in `t`, and the same one runs. -/
structure Keeps (k t : KernelState δ) : Prop where
  current : t.currentTask = k.currentTask
  process : ∀ i, (k.procs i).state ≠ .none → (t.procs i).pid = (k.procs i).pid ∧
    (t.procs i).signalsPending = (k.procs i).signalsPending

namespace Keeps

variable {k s t : KernelState δ} {p : Process} {j : Nat}

theorem refl (k : KernelState δ) : Keeps k k := ⟨rfl, fun _ _ => ⟨rfl, rfl⟩⟩

theorem congr (keeps : Keeps k s) (current : t.currentTask = s.currentTask) (procs : t.procs = s.procs) :
    Keeps k t := by
  refine ⟨current.trans keeps.current, fun i here => ?_⟩
  rw [procs]
  exact keeps.process i here

theorem setProc (keeps : Keeps k s) (pid : p.pid = (s.procs j).pid)
    (signals : p.signalsPending = (s.procs j).signalsPending) : Keeps k (s.setProc j p) := by
  refine ⟨keeps.current, fun i here => ?_⟩
  by_cases equal : i = j
  · subst equal
    rw [KernelState.setProc_self, pid, signals]
    exact keeps.process i here
  · rw [KernelState.setProc_ne _ _ equal]
    exact keeps.process i here

theorem setState (keeps : Keeps k s) (j : Nat) (state : ProcState) : Keeps k (s.setState j state) :=
  keeps.setProc rfl rfl

theorem endTask (keeps : Keeps k s) (q : Fin maxQueueSize) : Keeps k (s.endTask q) := keeps.congr rfl rfl

theorem setMm (keeps : Keeps k s) (mm : Mm) : Keeps k { s with mm := mm } := keeps.congr rfl rfl

/-- An entry that held no process may change. -/
theorem spawn (keeps : Keeps k s) (free : (k.procs j).state = .none) : Keeps k (s.setProc j p) := by
  refine ⟨keeps.current, fun i here => ?_⟩
  have apart : i ≠ j := fun equal => here (equal ▸ free)
  rw [KernelState.setProc_ne _ _ apart]
  exact keeps.process i here

end Keeps

/-- The process that runs is not one that waits for the worker. -/
def KernelState.Running (k : KernelState δ) : Prop :=
  (k.procs k.currentTask).state ≠ .none ∧ (k.procs k.currentTask).state ≠ .kworker

namespace TaskInv

variable {k t : KernelState δ} {i j : Nat} {q : Fin maxQueueSize} {task : TaskType} {args : Word}

theorem stops (inv : TaskInv k) : (k.procs 0).Stops := ⟨Or.inl inv.worker, inv.calm⟩

/-- The invariant depends on the pids and states in the table, the queue, and little else. -/
theorem congr (inv : TaskInv k) (current : t.currentTask < maxProc)
    (queue : t.kernelTaskQueue = k.kernelTaskQueue)
    (same : ∀ i < maxProc, (t.procs i).pid = (k.procs i).pid ∧ (t.procs i).state = (k.procs i).state)
    (signals : (t.procs 0).signalsPending = (k.procs 0).signalsPending)
    (behind : ¬ (t.procs maxProc).Selectable) : TaskInv t where
  low := current
  worker := (same 0 (by decide)).2.trans inv.worker
  calm := by
    have calm := inv.calm
    unfold Process.Fatal at calm ⊢
    rwa [signals]
  behind := behind
  pids i low j low' here here' equal := by
    obtain ⟨pid, state⟩ := same i low
    obtain ⟨pid', state'⟩ := same j low'
    rw [state] at here
    rw [state'] at here'
    exact inv.pids i low j low' here here' (pid.symm.trans (equal.trans pid'))
  waiting i low here := by
    obtain ⟨pid, state⟩ := same i low
    rw [state] at here
    unfold KernelState.Queued
    rw [queue, pid]
    exact inv.waiting i low here
  served q here := by
    unfold KernelState.Queued at here
    rw [queue] at here ⊢
    obtain ⟨i, low, waits, pid⟩ := inv.served q here
    exact ⟨i, low, (same i low).2.trans waits, (same i low).1.trans pid⟩

/-- Each entry of the queue is of another process, and none is of the worker. -/
theorem room (inv : TaskInv k) : ∃ q, ¬ k.Queued q := by
  by_contra none
  have all : ∀ q, k.Queued q := fun q => by
    by_contra free
    exact none ⟨q, free⟩
  choose process low waits pid using fun q => inv.served q (all q)
  have positive : ∀ q, process q ≠ 0 := fun q zero => by
    have state := waits q
    rw [zero, inv.worker] at state
    cases state
  have small : ∀ q, process q - 1 < 14 := fun q => by
    have low : process q < 15 := low q
    have positive := positive q
    omega
  have injective : Function.Injective fun q => (⟨process q - 1, small q⟩ : Fin 14) := by
    intro q r equal
    have same : process q = process r := by
      have value : process q - 1 = process r - 1 := congrArg Fin.val equal
      have first := positive q
      have second := positive r
      omega
    obtain ⟨only, -, unique⟩ := inv.waiting (process q) (low q) (waits q)
    have first := unique q ⟨all q, (pid q).symm⟩
    have second := unique r ⟨all r, by rw [same, pid r]⟩
    exact first.trans second.symm
  have bound := Fintype.card_le_of_injective _ injective
  rw [Fintype.card_fin, Fintype.card_fin] at bound
  exact absurd bound (by decide)

theorem queueOk (inv : TaskInv k) : QueueOk k :=
  ⟨inv.worker, inv.waiting, inv.served, inv.room⟩

/-- The entry of a process that waits. -/
theorem unserved (inv : TaskInv k) (low : i < maxProc) (here : (k.procs i).state ≠ .none)
    (idle : (k.procs i).state ≠ .kworker) {q : Fin maxQueueSize} (queued : k.Queued q) :
    (k.kernelTaskQueue q).callerPid ≠ (k.procs i).pid := by
  intro same
  obtain ⟨j, low', waits, pid⟩ := inv.served q queued
  have equal : j = i := inv.pids j low' i low (by rw [waits]; decide) here (pid.trans same)
  exact idle (equal ▸ waits)

/-- **A task is queued**, and its process waits for it. -/
theorem enqueue (inv : TaskInv k) (low : i < maxProc) (other : i ≠ 0) (here : (k.procs i).state ≠ .none)
    (idle : (k.procs i).state ≠ .kworker) (some : task ≠ .none) :
    TaskInv ((k.addKernelTask task (k.procs i).pid args).setState i .kworker) ∧
      ∃ q, ¬ k.Queued q ∧ ((k.addKernelTask task (k.procs i).pid args).setState i .kworker) =
        (k.setTask q ⟨task, (k.procs i).pid, args⟩).setState i .kworker := by
  rcases k.addKernelTask_cases task (k.procs i).pid args with ⟨q, free, added⟩ | ⟨full, -⟩
  swap
  · obtain ⟨q, free⟩ := inv.room
    exact absurd (full q) free
  rw [added]
  refine ⟨?_, q, fun queued => queued free, rfl⟩
  have states : ∀ j, (((k.setTask q ⟨task, (k.procs i).pid, args⟩).setState i .kworker).procs j).state =
      if j = i then .kworker else (k.procs j).state := fun j => by
    split
    case isTrue equal => rw [equal, KernelState.setState_self]
    case isFalse ne => rw [KernelState.setState_ne _ _ ne, KernelState.setTask_procs]
  have rest : ∀ j, (((k.setTask q ⟨task, (k.procs i).pid, args⟩).setState i .kworker).procs j).pid =
      (k.procs j).pid := fun j => by
    by_cases equal : j = i
    · rw [equal, KernelState.setState_self, KernelState.setTask_procs]
    · rw [KernelState.setState_ne _ _ equal, KernelState.setTask_procs]
  have queue : ∀ r, ((k.setTask q ⟨task, (k.procs i).pid, args⟩).setState i .kworker).kernelTaskQueue r =
      if r = q then ⟨task, (k.procs i).pid, args⟩ else k.kernelTaskQueue r := fun r => by
    rw [KernelState.setState_queue]
    split
    case isTrue equal => rw [equal, KernelState.setTask_self]
    case isFalse ne => rw [KernelState.setTask_ne _ _ ne]
  have queued : ∀ r, ((k.setTask q ⟨task, (k.procs i).pid, args⟩).setState i .kworker).Queued r ↔
      r = q ∨ k.Queued r := fun r => by
    unfold KernelState.Queued
    rw [queue]
    by_cases equal : r = q
    · simp [equal, some]
    · simp [equal]
  refine ⟨inv.low, ?_, ?_, ?_, ?_, ?_, ?_⟩
  · rw [states, if_neg other.symm]
    exact inv.worker
  · rw [KernelState.setState_ne _ _ other.symm]
    exact inv.calm
  · rw [KernelState.setState_ne _ _ (by omega)]
    exact inv.behind
  · intro j low₁ l low₂ here₁ here₂ equal
    rw [rest, rest] at equal
    have before : ∀ j, (((k.setTask q ⟨task, (k.procs i).pid, args⟩).setState i .kworker).procs j).state ≠
        .none → (k.procs j).state ≠ .none := fun j alive => by
      rw [states] at alive
      by_cases equal : j = i
      · exact equal ▸ here
      · rwa [if_neg equal] at alive
    exact inv.pids j low₁ l low₂ (before j here₁) (before l here₂) equal
  · intro j low₁ waits
    rw [states] at waits
    rw [rest]
    by_cases equal : j = i
    · subst equal
      refine ⟨q, ⟨(queued q).mpr (Or.inl rfl), by rw [queue, if_pos rfl]⟩, fun r ⟨here₁, pid⟩ => ?_⟩
      by_contra ne
      rw [queue, if_neg ne] at pid
      exact inv.unserved low here idle (((queued r).mp here₁).resolve_left ne) pid
    · rw [if_neg equal] at waits
      obtain ⟨r, ⟨here₁, pid⟩, unique⟩ := inv.waiting j low₁ waits
      have ne : r ≠ q := fun same => here₁ (same ▸ free)
      refine ⟨r, ⟨(queued r).mpr (Or.inr here₁), by rw [queue, if_neg ne]; exact pid⟩,
        fun s ⟨here₂, pid'⟩ => ?_⟩
      by_cases atQ : s = q
      · rw [queue, if_pos atQ] at pid'
        exact absurd (inv.pids i low j low₁ here (by rw [waits]; decide) pid').symm equal
      · rw [queue, if_neg atQ] at pid'
        exact unique s ⟨((queued s).mp here₂).resolve_left atQ, pid'⟩
  · intro r here₁
    by_cases equal : r = q
    · refine ⟨i, low, by rw [states, if_pos rfl], ?_⟩
      rw [rest, queue, if_pos equal]
    · obtain ⟨j, low₁, waits, pid⟩ := inv.served r (((queued r).mp here₁).resolve_left equal)
      refine ⟨j, low₁, ?_, ?_⟩
      · rw [states]
        split
        · rfl
        · exact waits
      · rw [rest, queue, if_neg equal]
        exact pid

/-- **A task is served**, and its process goes on in another state. -/
theorem dequeue {p : Process} (inv : TaskInv k) (low : i < maxProc)
    (waits : (k.procs i).state = .kworker) (queued : k.Queued q)
    (caller : (k.kernelTaskQueue q).callerPid = (k.procs i).pid) (pid : p.pid = (k.procs i).pid)
    (other : p.state ≠ .kworker) : TaskInv ((k.endTask q).setProc i p) := by
  have ne : i ≠ 0 := by
    rintro rfl
    rw [inv.worker] at waits
    cases waits
  have states : ∀ j, (((k.endTask q).setProc i p).procs j).state =
      if j = i then p.state else (k.procs j).state := fun j => by
    split
    case isTrue equal => rw [equal, KernelState.setProc_self]
    case isFalse ne => rw [KernelState.setProc_ne _ _ ne, KernelState.endTask_procs]
  have rest : ∀ j, (((k.endTask q).setProc i p).procs j).pid = (k.procs j).pid := fun j => by
    by_cases equal : j = i
    · rw [equal, KernelState.setProc_self, pid]
    · rw [KernelState.setProc_ne _ _ equal, KernelState.endTask_procs]
  have callers : ∀ r, (((k.endTask q).setProc i p).kernelTaskQueue r).callerPid =
      (k.kernelTaskQueue r).callerPid := fun r => by
    rw [KernelState.setProc_queue]
    by_cases equal : r = q
    · rw [equal, KernelState.endTask_self]
    · rw [KernelState.endTask_ne _ equal]
  have still : ∀ r, ((k.endTask q).setProc i p).Queued r ↔ r ≠ q ∧ k.Queued r := fun r => by
    unfold KernelState.Queued
    rw [KernelState.setProc_queue]
    by_cases equal : r = q
    · rw [equal, KernelState.endTask_self]
      simp
    · rw [KernelState.endTask_ne _ equal]
      simp [equal]
  have before : ∀ j, (((k.endTask q).setProc i p).procs j).state ≠ .none →
      (k.procs j).state ≠ .none := fun j alive => by
    rw [states] at alive
    by_cases equal : j = i
    · rw [equal, waits]
      decide
    · rwa [if_neg equal] at alive
  refine ⟨inv.low, ?_, ?_, ?_, fun j low₁ l low₂ here₁ here₂ equal => ?_, fun j low₁ here => ?_,
    fun r here => ?_⟩
  · rw [states, if_neg ne.symm]
    exact inv.worker
  · rw [KernelState.setProc_ne _ _ ne.symm]
    exact inv.calm
  · rw [KernelState.setProc_ne _ _ (by omega)]
    exact inv.behind
  · rw [rest, rest] at equal
    exact inv.pids j low₁ l low₂ (before j here₁) (before l here₂) equal
  · rw [states] at here
    have apart : j ≠ i := by
      rintro rfl
      rw [if_pos rfl] at here
      exact other here
    rw [if_neg apart] at here
    obtain ⟨r, ⟨here₁, pid₁⟩, unique⟩ := inv.waiting j low₁ here
    rw [rest]
    refine ⟨r, ⟨(still r).mpr ⟨?_, here₁⟩, (callers r).trans pid₁⟩, fun s ⟨here₂, pid'⟩ => ?_⟩
    · rintro rfl
      exact apart (inv.pids j low₁ i low (by rw [here]; decide) (by rw [waits]; decide)
        (pid₁.symm.trans caller))
    · exact unique s ⟨((still s).mp here₂).2, (callers s).symm.trans pid'⟩
  · obtain ⟨away, here₁⟩ := (still r).mp here
    obtain ⟨j, low₁, waits', pid₁⟩ := inv.served r here₁
    have apart : j ≠ i := by
      rintro rfl
      obtain ⟨only, -, unique⟩ := inv.waiting j low₁ waits'
      exact away ((unique r ⟨here₁, pid₁.symm⟩).trans (unique q ⟨queued, caller⟩).symm)
    refine ⟨j, low₁, ?_, ?_⟩
    · rw [states, if_neg apart]
      exact waits'
    · rw [rest, callers]
      exact pid₁

/-- **A process is added**, with a pid that none has. -/
theorem spawn {p : Process} (inv : TaskInv k) (low : j < maxProc) (free : (k.procs j).state = .none)
    (fresh : ∀ i < maxProc, (k.procs i).state ≠ .none → (k.procs i).pid ≠ p.pid)
    (ready : p.state ≠ .kworker) : TaskInv (k.setProc j p) := by
  have ne : j ≠ 0 := by
    rintro rfl
    rw [inv.worker] at free
    cases free
  have same : ∀ i, i ≠ j → (k.setProc j p).procs i = k.procs i := fun i ne =>
    KernelState.setProc_ne _ _ ne
  refine ⟨inv.low, ?_, ?_, ?_, fun i low₁ l low₂ here₁ here₂ equal => ?_, fun i low₁ here => ?_,
    fun q here => ?_⟩
  · rw [same 0 ne.symm]
    exact inv.worker
  · rw [same 0 ne.symm]
    exact inv.calm
  · rw [same maxProc (by omega)]
    exact inv.behind
  · by_cases first : i = j <;> by_cases second : l = j
    · exact first.trans second.symm
    · subst first
      rw [KernelState.setProc_self, same l second] at equal
      rw [same l second] at here₂
      exact absurd equal.symm (fresh l low₂ here₂)
    · subst second
      rw [KernelState.setProc_self, same i first] at equal
      rw [same i first] at here₁
      exact absurd equal (fresh i low₁ here₁)
    · rw [same i first] at equal here₁
      rw [same l second] at equal here₂
      exact inv.pids i low₁ l low₂ here₁ here₂ equal
  · have apart : i ≠ j := by
      rintro rfl
      rw [KernelState.setProc_self] at here
      exact ready here
    rw [same i apart] at here ⊢
    exact inv.waiting i low₁ here
  · obtain ⟨i, low₁, waits, pid⟩ := inv.served q here
    have apart : i ≠ j := by
      rintro rfl
      rw [free] at waits
      cases waits
    refine ⟨i, low₁, ?_, ?_⟩ <;> rw [same i apart]
    · exact waits
    · exact pid

/-- **A process that the worker does not serve changes**, but for its pid. -/
theorem alter {p : Process} (inv : TaskInv k) (low : j < maxProc) (other : j ≠ 0)
    (here : (k.procs j).state ≠ .none) (idle : (k.procs j).state ≠ .kworker)
    (pid : p.pid = (k.procs j).pid) (ready : p.state ≠ .kworker) : TaskInv (k.setProc j p) := by
  have same : ∀ i, i ≠ j → (k.setProc j p).procs i = k.procs i := fun i ne =>
    KernelState.setProc_ne _ _ ne
  have pids : ∀ i, ((k.setProc j p).procs i).pid = (k.procs i).pid := fun i => by
    by_cases equal : i = j
    · rw [equal, KernelState.setProc_self, pid]
    · rw [same i equal]
  have before : ∀ i, ((k.setProc j p).procs i).state ≠ .none → (k.procs i).state ≠ .none :=
    fun i alive => by
      by_cases equal : i = j
      · exact equal ▸ here
      · rwa [same i equal] at alive
  refine ⟨inv.low, ?_, ?_, ?_, fun i low₁ l low₂ here₁ here₂ equal => ?_, fun i low₁ waits => ?_,
    fun q queued => ?_⟩
  · rw [same 0 other.symm]
    exact inv.worker
  · rw [same 0 other.symm]
    exact inv.calm
  · rw [same maxProc (by omega)]
    exact inv.behind
  · rw [pids, pids] at equal
    exact inv.pids i low₁ l low₂ (before i here₁) (before l here₂) equal
  · have apart : i ≠ j := by
      rintro rfl
      rw [KernelState.setProc_self] at waits
      exact ready waits
    rw [same i apart] at waits ⊢
    exact inv.waiting i low₁ waits
  · obtain ⟨i, low₁, waits, caller⟩ := inv.served q queued
    have apart : i ≠ j := by
      rintro rfl
      exact idle waits
    refine ⟨i, low₁, ?_, ?_⟩ <;> rw [same i apart]
    · exact waits
    · exact caller

/-- A kill queues the exit of its process. -/
theorem kill (inv : TaskInv k) (low : i < maxProc) (other : i ≠ 0)
    (selectable : (k.procs i).Selectable) : TaskInv (k.kill i) := by
  refine (inv.enqueue low other (fun none => ?_) selectable.not_kworker (by decide)).1
  unfold Process.Selectable at selectable
  simp [none] at selectable

theorem saveFrame (inv : TaskInv k) (tStack : InterruptFrame) : TaskInv (k.saveFrame tStack) := by
  refine inv.congr ?_ (k.saveFrame_queue tStack) (fun i _ => ⟨k.saveFrame_pid tStack i,
    k.saveFrame_state tStack i⟩) (k.saveFrame_signals tStack 0) ?_
  · rw [KernelState.saveFrame_currentTask]
    exact inv.low
  · rw [KernelState.saveFrame_selectable]
    exact inv.behind

/-- The process resumed goes on as it was, or becomes ready. -/
theorem resume (inv : TaskInv k) (low : i < maxProc) (selectable : (k.procs i).Selectable) :
    TaskInv (k.resume i) ∧ (k.resume i).Running := by
  have ready : (if (k.procs i).state = .new then .run else (k.procs i).state) ≠ ProcState.none ∧
      (if (k.procs i).state = .new then .run else (k.procs i).state) ≠ ProcState.kworker := by
    split
    · exact ⟨by decide, by decide⟩
    · refine ⟨fun none => ?_, selectable.not_kworker⟩
      unfold Process.Selectable at selectable
      simp [none] at selectable
  refine ⟨?_, ?_⟩
  · by_cases new : (k.procs i).state = .new
    swap
    · have same : k.resume i = { k with currentTask := i } := by
        unfold KernelState.resume
        rw [if_neg new]
      rw [same]
      exact inv.congr low rfl (fun _ _ => ⟨rfl, rfl⟩) rfl inv.behind
    have ne : i ≠ 0 := by
      rintro rfl
      rw [inv.worker] at new
      cases new
    have made : k.resume i = { k.setState i .run with currentTask := i } := by
      unfold KernelState.resume
      rw [if_pos new]
    have changed : TaskInv (k.setState i .run) := inv.alter low ne (by rw [new]; decide)
      (by rw [new]; decide) rfl (show ProcState.run ≠ .kworker by decide)
    rw [made]
    exact changed.congr low rfl (fun _ _ => ⟨rfl, rfl⟩) rfl changed.behind
  · unfold KernelState.Running
    rw [KernelState.resume_currentTask, KernelState.resume_self]
    exact ready

/-- The process a task of the queue is for. -/
theorem caller (inv : TaskInv k) (queued : k.Queued q)
    (found : k.findProcByPid (k.kernelTaskQueue q).callerPid = some i) :
    i < maxProc ∧ (k.procs i).state = .kworker ∧ (k.kernelTaskQueue q).callerPid = (k.procs i).pid := by
  obtain ⟨low, pid, here⟩ := KernelState.findProcByPid_some found
  obtain ⟨j, low', waits, pid'⟩ := inv.served q queued
  have same : j = i := inv.pids j low' i low (by rw [waits]; decide) here (pid'.trans pid.symm)
  exact ⟨low, same ▸ waits, pid.symm⟩

theorem caller_found (inv : TaskInv k) (queued : k.Queued q) :
    k.findProcByPid (k.kernelTaskQueue q).callerPid ≠ none := by
  intro missing
  obtain ⟨j, low, waits, pid⟩ := inv.served q queued
  have gone := KernelState.findProcByPid_none missing low pid
  rw [waits] at gone
  cases gone

end TaskInv

/-! ### What the parts of the handlers change -/

theorem getArgs_ok {k t : KernelState δ} {i size : Nat} {args : Word} {s : List Word}
    (returns : getArgs k i args size = .ok (s, t)) : ∃ mm, t = { k with mm := mm } := by
  obtain ⟨v, -, rest⟩ := bind_ok returns
  obtain ⟨-, rfl⟩ := Prod.mk.inj (Except.ok.inj rest)
  exact ⟨_, rfl⟩

theorem putArgs_ok {k t : KernelState δ} {i : Nat} {addr : Word} {s : List Word}
    (returns : putArgs k i addr s = .ok t) : ∃ mm, t = { k with mm := mm } := by
  obtain ⟨v, -, rest⟩ := bind_ok returns
  obtain rfl := Except.ok.inj rest
  exact ⟨_, rfl⟩

theorem replyFork_ok {k t : KernelState δ} {i j : Nat} {args : Word}
    (returns : replyFork i j args k = .ok t) : ∃ mm, t = { k with mm := mm } := by
  unfold replyFork at returns
  split at returns
  · exact ⟨k.mm, (Except.ok.inj returns).symm⟩
  · obtain ⟨v, first, second⟩ := bind_ok returns
    obtain ⟨mm, same⟩ := getArgs_ok first
    obtain ⟨mm', same'⟩ := putArgs_ok second
    rw [same] at same'
    exact ⟨mm', same'⟩

theorem replyClone_ok {k t : KernelState δ} {i j : Nat} {args : Word} {s : List Word}
    (returns : replyClone i j args k = .ok (s, t)) : ∃ mm, t = { k with mm := mm } := by
  unfold replyClone at returns
  split at returns
  · obtain ⟨-, rfl⟩ := Prod.mk.inj (Except.ok.inj returns)
    exact ⟨k.mm, rfl⟩
  · obtain ⟨v, first, rest⟩ := bind_ok returns
    obtain ⟨mm, same⟩ := getArgs_ok first
    obtain ⟨u, second, rest⟩ := bind_ok rest
    obtain ⟨mm', same'⟩ := putArgs_ok second
    obtain ⟨-, rfl⟩ := Prod.mk.inj (Except.ok.inj rest)
    rw [same] at same'
    exact ⟨mm', same'⟩

/-- `do_fork` adds a process. -/
theorem doFork_ok {k t : KernelState δ} {i j : Nat} {cow clone : Bool} (here : (k.procs i).state ≠ .none)
    (returns : doFork cow i clone k = .ok (some (j, t))) :
    j < maxProc ∧ (k.procs j).state = .none ∧ ∃ selector mm fs,
      t = { k.setProc j (forked (k.procs i) i (k.nextPid + 1) selector clone) with
        nextPid := k.nextPid + 1, mm := mm, fs := fs } := by
  unfold doFork at returns
  split at returns
  · cases returns
  case h_2 l s found =>
    obtain ⟨low, free, rfl⟩ := KernelState.getFreeProc_some found
    obtain ⟨⟨selector, mm⟩, -, rest⟩ := bind_ok returns
    obtain ⟨rfl, rfl⟩ := Prod.mk.inj (Option.some.inj (Except.ok.inj rest))
    have ne : i ≠ l := fun equal => here (equal ▸ free)
    refine ⟨low, free, selector, mm,
      { k.fs with openFiles := addRefs (k.procs i).openFiles k.fs.openFiles }, ?_⟩
    rw [KernelState.setState_ne _ _ ne]
    simp only [KernelState.setState, KernelState.setProc, Function.update_idem]

/-- What `do_fork` keeps. -/
theorem TaskInv.doFork {k t : KernelState δ} {i j : Nat} {cow clone : Bool} (inv : TaskInv k)
    (low : i < maxProc) (waits : (k.procs i).state = .kworker)
    (fresh : ∀ l < maxProc, (k.procs l).state ≠ .none → (k.procs l).pid ≠ k.nextPid + 1)
    (returns : doFork cow i clone k = .ok (some (j, t))) :
    TaskInv t ∧ j < maxProc ∧ j ≠ i ∧ j ≠ 0 ∧ t.procs i = k.procs i ∧
      (t.procs j).state = .construct ∧ t.kernelTaskQueue = k.kernelTaskQueue ∧
      Keeps k t := by
  obtain ⟨low', free, selector, mm, fs, rfl⟩ := doFork_ok (by rw [waits]; decide) returns
  have ne : j ≠ i := by
    rintro rfl
    rw [waits] at free
    cases free
  have other : j ≠ 0 := by
    rintro rfl
    rw [inv.worker] at free
    cases free
  have grown : TaskInv (k.setProc j (forked (k.procs i) i (k.nextPid + 1) selector clone)) :=
    inv.spawn low' free fresh (show ProcState.construct ≠ .kworker by decide)
  refine ⟨grown.congr grown.low rfl (fun _ _ => ⟨rfl, rfl⟩) rfl grown.behind, low', ne, other,
    KernelState.setProc_ne _ _ ne.symm, ?_, rfl, ((Keeps.refl k).spawn free).congr rfl rfl⟩
  show ((k.setProc j _).procs j).state = .construct
  rw [KernelState.setProc_self]
  rfl

/-- The invariant says nothing about the memory. -/
theorem TaskInv.setMm {k : KernelState δ} (inv : TaskInv k) (mm : Mm) : TaskInv { k with mm := mm } :=
  inv.congr inv.low rfl (fun _ _ => ⟨rfl, rfl⟩) rfl inv.behind

/-- The process and the queue of a task, across changes of the memory and of other processes. -/
structure Serving (k : KernelState δ) (q : Fin maxQueueSize) (i : Nat) : Prop where
  inv : TaskInv k
  low : i < maxProc
  waits : (k.procs i).state = .kworker
  queued : k.Queued q
  caller : (k.kernelTaskQueue q).callerPid = (k.procs i).pid

namespace Serving

variable {k t : KernelState δ} {i j : Nat} {q : Fin maxQueueSize}

theorem setMm (serving : Serving k q i) (mm : Mm) : Serving { k with mm := mm } q i :=
  ⟨serving.inv.setMm mm, serving.low, serving.waits, serving.queued, serving.caller⟩

theorem congr (serving : Serving k q i) (inv : TaskInv t) (same : t.procs i = k.procs i)
    (queue : t.kernelTaskQueue = k.kernelTaskQueue) : Serving t q i := by
  refine ⟨inv, serving.low, ?_, ?_, ?_⟩
  · rw [same]
    exact serving.waits
  · unfold KernelState.Queued
    rw [queue]
    exact serving.queued
  · rw [queue, same]
    exact serving.caller

theorem finish (serving : Serving k q i) {p : Process} (pid : p.pid = (k.procs i).pid)
    (other : p.state ≠ .kworker) : TaskInv ((k.endTask q).setProc i p) :=
  serving.inv.dequeue serving.low serving.waits serving.queued serving.caller pid other

theorem finishState (serving : Serving k q i) (state : ProcState) (other : state ≠ .kworker) :
    TaskInv ((k.endTask q).setState i state) := serving.finish rfl other

theorem ne_zero (serving : Serving k q i) : i ≠ 0 := by
  rintro rfl
  have waits := serving.waits
  rw [serving.inv.worker] at waits
  cases waits

end Serving

/-- A task of the queue is served for the process that waits for it. -/
theorem TaskInv.serving {k : KernelState δ} {q : Fin maxQueueSize} {i : Nat} (inv : TaskInv k)
    (queued : k.Queued q) (found : k.findProcByPid (k.kernelTaskQueue q).callerPid = some i) :
    Serving k q i := by
  obtain ⟨low, waits, caller⟩ := inv.caller queued found
  exact ⟨inv, low, waits, queued, caller⟩

/-! ### The handlers -/

section Handlers

variable {k t : KernelState δ} {q : Fin maxQueueSize} {cow : Bool}

/-- **`do_kernel_task_fork`** -/
theorem TaskInv.taskFork (inv : TaskInv k) (queued : k.Queued q)
    (fresh : ∀ l < maxProc, (k.procs l).state ≠ .none → (k.procs l).pid ≠ k.nextPid + 1)
    (returns : taskFork cow q k = .ok t) : TaskInv t ∧ Keeps k t := by
  unfold Kernel.taskFork at returns
  dsimp only at returns
  split at returns
  · obtain rfl := Except.ok.inj returns
    exact ⟨inv, .refl k⟩
  case h_2 i found =>
    have serving := inv.serving queued found
    obtain ⟨made, forks, rest⟩ := bind_ok returns
    cases made with
    | none =>
      dsimp only at rest
      split at rest
      · obtain rfl := Except.ok.inj rest
        exact ⟨serving.finishState .run (by decide), ((Keeps.refl k).endTask q).setState i .run⟩
      · cases rest
    | some v =>
      obtain ⟨j, s⟩ := v
      obtain ⟨inv', low', apart, other, same, state, queue, keeps⟩ :=
        inv.doFork serving.low serving.waits fresh forks
      dsimp only at rest
      obtain ⟨s', replied, rest⟩ := bind_ok rest
      obtain ⟨mm, rfl⟩ := replyFork_ok replied
      have serving' := (serving.congr inv' same queue).setMm mm
      have done : TaskInv ((KernelState.endTask { s with mm := mm } q).setState i .run) :=
        serving'.finishState .run (by decide)
      have keeps : Keeps k ((KernelState.endTask { s with mm := mm } q).setState i .run) :=
        ((keeps.setMm mm).endTask q).setState i .run
      obtain rfl := Except.ok.inj rest
      split
      · refine ⟨?_, keeps.setState j .new⟩
        have before : (((KernelState.endTask { s with mm := mm } q).setState i .run).procs j).state =
            .construct := by
          rw [KernelState.setState_ne _ _ apart]
          exact state
        exact done.alter low' other (by rw [before]; decide) (by rw [before]; decide) rfl
          (show ProcState.new ≠ .kworker by decide)
      · exact ⟨done, keeps⟩

/-- **`do_kernel_task_clone`** -/
theorem TaskInv.taskClone (inv : TaskInv k) (queued : k.Queued q)
    (fresh : ∀ l < maxProc, (k.procs l).state ≠ .none → (k.procs l).pid ≠ k.nextPid + 1)
    (returns : taskClone cow q k = .ok t) : TaskInv t ∧ Keeps k t := by
  unfold Kernel.taskClone at returns
  dsimp only at returns
  split at returns
  · obtain rfl := Except.ok.inj returns
    exact ⟨inv, .refl k⟩
  case h_2 i found =>
    have serving := inv.serving queued found
    obtain ⟨made, forks, rest⟩ := bind_ok returns
    cases made with
    | none => cases rest
    | some v =>
      obtain ⟨j, s⟩ := v
      obtain ⟨inv', low', apart, other, same, state, queue, keeps⟩ :=
        inv.doFork serving.low serving.waits fresh forks
      dsimp only at rest
      obtain ⟨⟨words, s'⟩, replied, rest⟩ := bind_ok rest
      obtain ⟨mm, rfl⟩ := replyClone_ok replied
      obtain ⟨s'', put, rest⟩ := bind_ok rest
      obtain ⟨mm', rfl⟩ := putArgs_ok put
      obtain rfl := Except.ok.inj rest
      refine ⟨?_, ?_⟩
      swap
      · have made := (keeps.setMm mm').setProc (j := j) (p := { s.procs j with
          intFrame := ⟨swUser ||| ((s.procs j).mmuSelector &&& 0xff), words.getD 2 0 + 1,
            words.getD 1 0, words.getD 2 0 + 1, words.getD 2 0, 0, 0⟩
          isThread := true }) rfl rfl
        exact ((made.endTask q).setState j .run).setState i .run
      have ready : ∀ p : Process, p.pid = (s.procs j).pid → p.state = .construct →
          TaskInv ((KernelState.setProc { s with mm := mm' } j p).setState j .run) := by
        intro p pid made
        have changed := (inv'.setMm mm').alter (p := p) low' other (by rw [state]; decide)
          (by rw [state]; decide) pid (by rw [made]; decide)
        refine changed.alter low' other ?_ ?_ rfl (show ProcState.run ≠ .kworker by decide) <;>
          rw [KernelState.setProc_self, made] <;> decide
      have made := ready { s.procs j with
        intFrame := ⟨swUser ||| ((s.procs j).mmuSelector &&& 0xff), words.getD 2 0 + 1, words.getD 1 0,
          words.getD 2 0 + 1, words.getD 2 0, 0, 0⟩
        isThread := true } rfl state
      refine (serving.congr made ?_ queue).finishState .run (by decide)
      rw [KernelState.setState_ne _ _ apart.symm, KernelState.setProc_ne _ _ apart.symm]
      exact same

/-- **`do_kernel_task_execve`** -/
theorem TaskInv.taskExecve {exe : Option Executable} (inv : TaskInv k) (queued : k.Queued q)
    (returns : taskExecve exe q k = .ok t) : TaskInv t ∧ Keeps k t := by
  unfold Kernel.taskExecve at returns
  dsimp only at returns
  split at returns
  · obtain rfl := Except.ok.inj returns
    exact ⟨inv, .refl k⟩
  case h_2 i found =>
    have serving := inv.serving queued found
    obtain ⟨⟨words, s⟩, read, rest⟩ := bind_ok returns
    obtain ⟨mm, rfl⟩ := getArgs_ok read
    obtain ⟨s, loads, rest⟩ := bind_ok rest
    obtain rfl := Except.ok.inj rest
    cases exe with
    | none =>
      obtain rfl := Except.ok.inj loads
      have done := (serving.setMm mm).finish (p := { k.procs i with state := .new }) rfl
        (show ProcState.new ≠ .kworker by decide)
      have same : (KernelState.endTask (KernelState.setState { k with mm := mm } i .construct) q).setState
          i .new = (KernelState.endTask { k with mm := mm } q).setProc i { k.procs i with state := .new } := by
        simp only [KernelState.setState, KernelState.setProc, KernelState.endTask, KernelState.setTask,
          Function.update_idem, Function.update_self]
      rw [same]
      exact ⟨done, (((Keeps.refl k).setMm mm).endTask q).setProc rfl rfl⟩
    | some exe =>
      obtain ⟨mm', pages, rest⟩ := bind_ok loads
      obtain rfl := Except.ok.inj rest
      refine ⟨?_, ?_⟩
      swap
      · have loaded := ((Keeps.refl k).setMm mm).setProc (j := i) (p := { k.procs i with
          state := .new, intFrame := ⟨swUser ||| ((k.procs i).mmuSelector &&& 0xff),
            BitVec.ofNat 16 exe.sizeData + BitVec.ofNat 16 exe.argv.length, 0,
            BitVec.ofNat 16 exe.sizeData, BitVec.ofNat 16 exe.sizeData, 0, 0⟩ }) rfl rfl
        exact ((loaded.setMm mm').endTask q).setState i .new
      have done := (serving.setMm mm').finish (p := { k.procs i with
        state := .new, intFrame := ⟨swUser ||| ((k.procs i).mmuSelector &&& 0xff),
          BitVec.ofNat 16 exe.sizeData + BitVec.ofNat 16 exe.argv.length, 0,
          BitVec.ofNat 16 exe.sizeData, BitVec.ofNat 16 exe.sizeData, 0, 0⟩ }) rfl
        (show ProcState.new ≠ .kworker by decide)
      refine done.congr done.low rfl (fun l _ => ?_) ?_ ?_
      all_goals simp only [KernelState.setState, KernelState.setProc, KernelState.endTask,
        KernelState.setTask, Function.update_idem, Function.update_self]
      · exact ⟨trivial, trivial⟩
      · exact done.behind

/-- **`do_kernel_task_waitpid`** -/
theorem TaskInv.taskWaitpid (inv : TaskInv k) (queued : k.Queued q)
    (returns : taskWaitpid q k = .ok t) : TaskInv t ∧ Keeps k t := by
  unfold Kernel.taskWaitpid at returns
  dsimp only at returns
  split at returns
  · obtain rfl := Except.ok.inj returns
    exact ⟨inv, .refl k⟩
  case h_2 i found =>
    have serving := inv.serving queued found
    obtain ⟨⟨words, s⟩, read, rest⟩ := bind_ok returns
    obtain ⟨mm, rfl⟩ := getArgs_ok read
    have serving := serving.setMm mm
    dsimp only at rest
    split at rest
    · split at rest
      · obtain ⟨mm', rfl⟩ := putArgs_ok rest
        exact ⟨(serving.finishState .run (by decide)).setMm mm',
          ((Keeps.refl k).setState i .run).congr rfl rfl⟩
      · obtain rfl := Except.ok.inj rest
        exact ⟨serving.inv, (Keeps.refl k).congr rfl rfl⟩
    case h_2 c child =>
      obtain ⟨found', dead⟩ := Option.filter_eq_some_iff.mp child
      have dead : (k.procs c).state = .zombie := by simpa using dead
      have low' : c < maxProc := by
        split at found'
        · exact (KernelState.findProcByPid_some found').1
        · exact (KernelState.findProcByParent_some found').1
      have other : c ≠ 0 := by
        rintro rfl
        rw [inv.worker] at dead
        cases dead
      have apart : i ≠ c := by
        rintro rfl
        have waits := serving.waits
        rw [show ({ k with mm := mm } : KernelState δ).procs i = k.procs i from rfl, dead] at waits
        cases waits
      obtain ⟨s, first, rest⟩ := bind_ok rest
      obtain ⟨mm', rfl⟩ := putArgs_ok first
      obtain ⟨s, second, rest⟩ := bind_ok rest
      obtain ⟨mm'', rfl⟩ := putArgs_ok second
      obtain rfl := Except.ok.inj rest
      refine ⟨?_, (((Keeps.refl k).setState c .none).setState i .run).congr rfl rfl⟩
      have reaped : TaskInv (KernelState.setState { k with mm := mm } c .none) :=
        serving.inv.alter low' other
          (by rw [show ({ k with mm := mm } : KernelState δ).procs c = k.procs c from rfl, dead]; decide)
          (by rw [show ({ k with mm := mm } : KernelState δ).procs c = k.procs c from rfl, dead]; decide)
          rfl (show ProcState.none ≠ .kworker by decide)
      exact ((serving.congr reaped (KernelState.setState_ne _ _ apart) rfl).finishState
        .run (by decide)).setMm mm''

theorem closeFiles_ok {i : Nat} : ∀ (fds : List (Fin maxFilesPerProc)) {k t : KernelState δ},
    closeFiles i fds k = .ok t → ∃ openFiles fs,
      t = { k.setProc i { k.procs i with openFiles := openFiles } with fs := fs } := by
  intro fds
  induction fds with
  | nil =>
    intro k t returns
    obtain rfl := Except.ok.inj returns
    refine ⟨(k.procs i).openFiles, k.fs, ?_⟩
    unfold KernelState.setProc
    rw [Function.update_eq_self]
  | cons fd fds ih =>
    intro k t returns
    unfold closeFiles at returns
    split at returns
    · exact ih returns
    · obtain ⟨v, closed, rest⟩ := bind_ok returns
      obtain ⟨openFiles, fs, rfl⟩ := ih rest
      refine ⟨openFiles, fs, ?_⟩
      simp only [KernelState.setProc, Function.update_idem, Function.update_self]

/-- **`do_kernel_task_exit`** -/
theorem TaskInv.taskExit (inv : TaskInv k) (queued : k.Queued q) (returns : taskExit q k = .ok t) :
    TaskInv t ∧ Keeps k t := by
  unfold Kernel.taskExit at returns
  dsimp only at returns
  split at returns
  case h_1 missing => exact absurd missing (inv.caller_found queued)
  case h_2 i found =>
    have serving := inv.serving queued found
    obtain ⟨⟨words, s⟩, read, rest⟩ := bind_ok returns
    obtain ⟨mm, rfl⟩ := getArgs_ok read
    dsimp only at rest
    have dead : TaskInv ((KernelState.setProc { k with mm := mm } i
        { k.procs i with retval := words.getD 1 0, state := .zombie }).endTask q) :=
      (serving.setMm mm).finish rfl (show ProcState.zombie ≠ .kworker by decide)
    have zombie : (((KernelState.setProc { k with mm := mm } i
        { k.procs i with retval := words.getD 1 0, state := .zombie }).endTask q).procs i).state =
        .zombie := by
      rw [KernelState.endTask_procs, KernelState.setProc_self]
    have keeps : Keeps k ((KernelState.setProc { k with mm := mm } i
        { k.procs i with retval := words.getD 1 0, state := .zombie }).endTask q) :=
      Keeps.endTask (((Keeps.refl k).setMm mm).setProc (by rfl) (by rfl)) q
    have rest : (let s := (KernelState.setProc { k with mm := mm } i
        { k.procs i with retval := words.getD 1 0, state := .zombie }).endTask q
      if (s.procs i).isThread = true then pure s
      else do
        let k ← closeFiles i (List.finRange maxFilesPerProc) s
        let mm ← freeProcessPages (k.procs i).mmuSelector k.mm
        let mm ← mm.markSelector (k.procs i).mmuSelector 0
        pure { k with mm := mm }) = Except.ok t := rest
    generalize (KernelState.setProc { k with mm := mm } i
      { k.procs i with retval := words.getD 1 0, state := .zombie }).endTask q = s at *
    dsimp only at rest
    split at rest
    · obtain rfl := Except.ok.inj rest
      exact ⟨dead, keeps⟩
    · obtain ⟨u, closed, rest⟩ := bind_ok rest
      obtain ⟨openFiles, fs, rfl⟩ := closeFiles_ok _ closed
      obtain ⟨mm', -, rest⟩ := bind_ok rest
      obtain ⟨mm'', -, rest⟩ := bind_ok rest
      obtain rfl := Except.ok.inj rest
      have closed := dead.alter (p := { s.procs i with openFiles := openFiles }) serving.low
        serving.ne_zero (by rw [zombie]; decide) (by rw [zombie]; decide) rfl
        (by rw [show ({ s.procs i with openFiles := openFiles } : Process).state = (s.procs i).state
          from rfl, zombie]; decide)
      have kept := keeps.setProc (j := i) (p := { s.procs i with openFiles := openFiles }) rfl rfl
      exact ⟨closed.congr closed.low rfl (fun _ _ => ⟨rfl, rfl⟩) rfl closed.behind,
        kept.congr rfl rfl⟩

end Handlers

end RlCpu.Kernel
