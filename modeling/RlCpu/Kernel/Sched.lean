/-
**The scheduler (`sched.c`).**

`resched` saves the frame of the interrupted process, scans the table from the entry after it, kills
what has a fatal signal, and resumes the first entry it may. The scan wraps around one entry too late:
the source compares with `nextTask > MAXPROC`, so it looks at entry `MAXPROC`, behind the table.

* `resched_keeps`: what each kill keeps, `resched` keeps, when the worker can be resumed.
* `resched_safe_iff`: `resched` stays inside the table, and is right, exactly when an entry after the
  interrupted one can be resumed.
* `resched_returns`: it always returns when the worker can be resumed.
-/

import RlCpu.Kernel.Proc

namespace RlCpu.Kernel

variable {δ : Type}

/-! ### Signals -/

/-- `SIGKILL` -/
abbrev sigKill : Nat := 3
/-- `SIGNUM` -/
abbrev sigNum : Nat := 4
/-- `SIGPIPE` -/
abbrev sigPipe : Nat := 5

/-- `getSignalFromMask` -/
def getSignalFromMask (mask : Word) : Nat :=
  ((List.range sigNum).find? fun i => mask.getLsbD i).getD sigNum

/-- A process whose pending signals make `resched` kill it. -/
def Process.Fatal (p : Process) : Prop :=
  p.signalsPending ≠ 0 ∧
    (getSignalFromMask p.signalsPending = sigKill ∨ getSignalFromMask p.signalsPending = sigPipe)

instance (p : Process) : Decidable p.Fatal := inferInstanceAs (Decidable (_ ∧ _))

/-- A process at which the scan of `resched` stops. -/
def Process.Selectable (p : Process) : Prop :=
  p.state = .run ∨ p.state = .new ∨ ((p.state = .sleep ∨ p.state = .blocked) ∧ p.signalsPending ≠ 0)

instance (p : Process) : Decidable p.Selectable := inferInstanceAs (Decidable (_ ∨ _))

/-- A process that `resched` resumes when its scan comes to it. -/
def Process.Stops (p : Process) : Prop := p.Selectable ∧ ¬ p.Fatal

instance (p : Process) : Decidable p.Stops := inferInstanceAs (Decidable (_ ∧ _))

theorem Process.Selectable.not_kworker {p : Process} (selectable : p.Selectable) :
    p.state ≠ .kworker := by
  rintro same
  unfold Selectable at selectable
  simp [same] at selectable

/-! ### `resched` -/

/-- A process with a fatal signal is handed to the kernel worker. -/
def KernelState.kill (k : KernelState δ) (i : Nat) : KernelState δ :=
  (k.addKernelTask .exit (k.procs i).pid 0).setState i .kworker

/-- The scan of `resched` from entry `nextTask`, with the restart after each kill; `none` when it needs
more than `fuel` steps. The last part of the result are the entries of `procs` that were accessed, the
last first. -/
def rescanTable : Nat → KernelState δ → Nat → List Nat →
    Option (Except Fault (Nat × KernelState δ × List Nat))
  | 0, _, _, _ => none
  | fuel + 1, k, nextTask, seen =>
      let back := nextTask = k.currentTask
      let nextTask := if ¬ back ∧ maxProc < nextTask then 0 else nextTask
      let seen := nextTask :: seen
      if back ∨ (k.procs nextTask).Selectable then
        if (k.procs nextTask).state = .kworker then some (.error .panic)
        else if (k.procs nextTask).Fatal then rescanTable fuel (k.kill nextTask) (nextTask + 1) seen
        else some (.ok (nextTask, k, seen))
      else rescanTable fuel k (nextTask + 1) seen

/-- The frame of the interrupted process is saved in its entry. -/
def KernelState.saveFrame (k : KernelState δ) (tStack : InterruptFrame) : KernelState δ :=
  if k.currentTask < maxProc ∧ ((k.procs k.currentTask).state = .run ∨
      (k.procs k.currentTask).state = .sleep ∨ (k.procs k.currentTask).state = .kworker ∨
      (k.procs k.currentTask).state = .blocked) then
    k.setProc k.currentTask { k.procs k.currentTask with intFrame := tStack }
  else k

/-- The end of `resched`: entry `next` is resumed. -/
def KernelState.resume (k : KernelState δ) (next : Nat) : KernelState δ :=
  { (if (k.procs next).state = .new then k.setState next .run else k) with currentTask := next }

/-- `resched`, on the frame in `t_stack`: the frame it leaves there, the kernel, and the entries of
`procs` that were accessed. -/
def resched (fuel : Nat) (tStack : InterruptFrame) (k : KernelState δ) :
    Option (Except Fault (InterruptFrame × KernelState δ × List Nat)) :=
  match rescanTable fuel (k.saveFrame tStack) (k.currentTask + 1) [k.currentTask] with
  | none => none
  | some (.error e) => some (.error e)
  | some (.ok (next, k, seen)) =>
      some (.ok (((k.resume next).procs next).intFrame, k.resume next, seen))

/-! ### What its parts change -/

namespace KernelState

section Parts

variable (k : KernelState δ) (tStack : InterruptFrame) (i : Nat)

@[simp] theorem kill_self : (k.kill i).procs i = { k.procs i with state := .kworker } := by
  unfold kill
  rw [setState_self, addKernelTask_procs]

@[simp] theorem kill_currentTask : (k.kill i).currentTask = k.currentTask := by
  unfold kill
  rw [setState_currentTask, addKernelTask_currentTask]

variable {i} in
theorem kill_ne {j : Nat} (ne : j ≠ i) : (k.kill i).procs j = k.procs j := by
  unfold kill
  rw [setState_ne _ _ ne, addKernelTask_procs]

@[simp] theorem kill_intFrame (j : Nat) :
    ((k.kill i).procs j).intFrame = (k.procs j).intFrame := by
  by_cases here : j = i
  · rw [here, kill_self]
  · rw [kill_ne k here]

@[simp] theorem saveFrame_currentTask : (k.saveFrame tStack).currentTask = k.currentTask := by
  unfold saveFrame
  split <;> rfl

@[simp] theorem saveFrame_queue : (k.saveFrame tStack).kernelTaskQueue = k.kernelTaskQueue := by
  unfold saveFrame
  split <;> rfl

theorem saveFrame_ne {j : Nat} (ne : j ≠ k.currentTask) :
    (k.saveFrame tStack).procs j = k.procs j := by
  unfold saveFrame
  split
  · exact setProc_ne _ _ ne
  · rfl

/-- Only the frame changes. -/
theorem saveFrame_procs : ∃ frame, (k.saveFrame tStack).procs i = { k.procs i with intFrame := frame } := by
  unfold saveFrame
  split
  · by_cases here : i = k.currentTask
    · exact ⟨tStack, by rw [here, setProc_self]⟩
    · exact ⟨(k.procs i).intFrame, setProc_ne _ _ here⟩
  · exact ⟨(k.procs i).intFrame, rfl⟩

@[simp] theorem saveFrame_state : ((k.saveFrame tStack).procs i).state = (k.procs i).state := by
  obtain ⟨frame, same⟩ := k.saveFrame_procs tStack i
  rw [same]

@[simp] theorem saveFrame_signals :
    ((k.saveFrame tStack).procs i).signalsPending = (k.procs i).signalsPending := by
  obtain ⟨frame, same⟩ := k.saveFrame_procs tStack i
  rw [same]

@[simp] theorem saveFrame_pid : ((k.saveFrame tStack).procs i).pid = (k.procs i).pid := by
  obtain ⟨frame, same⟩ := k.saveFrame_procs tStack i
  rw [same]

theorem saveFrame_selectable :
    ((k.saveFrame tStack).procs i).Selectable ↔ (k.procs i).Selectable := by
  unfold Process.Selectable
  rw [saveFrame_state, saveFrame_signals]

theorem saveFrame_fatal : ((k.saveFrame tStack).procs i).Fatal ↔ (k.procs i).Fatal := by
  unfold Process.Fatal
  rw [saveFrame_signals]

@[simp] theorem resume_currentTask : (k.resume i).currentTask = i := rfl

@[simp] theorem resume_queue : (k.resume i).kernelTaskQueue = k.kernelTaskQueue := by
  unfold resume
  split <;> rfl

theorem resume_ne {j : Nat} (ne : j ≠ i) : (k.resume i).procs j = k.procs j := by
  show (if (k.procs i).state = .new then k.setState i .run else k).procs j = k.procs j
  split
  · exact setState_ne _ _ ne
  · rfl

/-- A new process is made ready, and nothing else changes. -/
theorem resume_self : (k.resume i).procs i =
    { k.procs i with state := if (k.procs i).state = .new then .run else (k.procs i).state } := by
  show (if (k.procs i).state = .new then k.setState i .run else k).procs i = _
  split
  · rw [setState_self]
  · rfl

@[simp] theorem resume_intFrame (j : Nat) :
    ((k.resume i).procs j).intFrame = (k.procs j).intFrame := by
  by_cases here : j = i
  · rw [here, resume_self]
  · rw [resume_ne k i here]

end Parts

end KernelState

/-! ### The scan -/

/-- One step of the scan, at the entry `m`. -/
theorem rescanTable_step (fuel : Nat) (k : KernelState δ) (n : Nat) (seen : List Nat) :
    ∃ m, (m ≤ maxProc ∨ m = k.currentTask) ∧ (n = k.currentTask → m = k.currentTask) ∧
      (n ≤ maxProc → m = n) ∧ rescanTable (fuel + 1) k n seen =
        if n = k.currentTask ∨ (k.procs m).Selectable then
          if (k.procs m).state = .kworker then some (.error .panic)
          else if (k.procs m).Fatal then rescanTable fuel (k.kill m) (m + 1) (m :: seen)
          else some (.ok (m, k, m :: seen))
        else rescanTable fuel k (m + 1) (m :: seen) := by
  refine ⟨if ¬ n = k.currentTask ∧ maxProc < n then 0 else n, ?_, fun back => ?_, fun low => ?_, rfl⟩
  · split <;> omega
  · rw [if_neg fun clash => clash.1 back]
    exact back
  · exact if_neg fun clash => absurd clash.2 (by omega)

/-- The scan between the interrupted entry and the end of the table. -/
theorem rescanTable_inside {fuel : Nat} {k : KernelState δ} {n : Nat} {seen : List Nat}
    (after : k.currentTask < n) (low : n ≤ maxProc) : rescanTable (fuel + 1) k n seen =
      if (k.procs n).Selectable then
        if (k.procs n).Fatal then rescanTable fuel (k.kill n) (n + 1) (n :: seen)
        else some (.ok (n, k, n :: seen))
      else rescanTable fuel k (n + 1) (n :: seen) := by
  have ne : n ≠ k.currentTask := by omega
  obtain ⟨m, -, -, same, step⟩ := rescanTable_step fuel k n seen
  rw [step, same low]
  by_cases selectable : (k.procs n).Selectable
  · rw [if_pos (Or.inr selectable), if_neg selectable.not_kworker, if_pos selectable]
  · rw [if_neg (fun here => here.elim ne selectable), if_neg selectable]

/-- **What each kill keeps, the scan keeps**, and it ends at an entry that can be resumed. The worker
is one such, so the scan does not pass it. The invariant may speak of the entries accessed so far. By
induction on the distance to the worker. -/
theorem rescanTable_keeps {inv : KernelState δ → List Nat → Prop}
    (worker : ∀ k l, inv k l → (k.procs 0).Stops)
    (keep : ∀ k l i, inv k l → k.currentTask < i → i ≤ maxProc → (k.procs i).Selectable →
      (k.procs i).Fatal → inv (k.kill i) (i :: l))
    (skip : ∀ k l i, inv k l → k.currentTask < i → i ≤ maxProc → ¬ (k.procs i).Selectable →
      inv k (i :: l)) :
    ∀ (left : Nat) {fuel : Nat} {k k' : KernelState δ} {n next : Nat} {seen seen' : List Nat},
      n + left = maxProc + 1 → k.currentTask < n →
      rescanTable fuel k n seen = some (.ok (next, k', seen')) → inv k seen →
      ∃ before, inv k' before ∧ seen' = next :: before ∧ (k'.procs next).Stops ∧
        (next = 0 ∨ k.currentTask < next ∧ next ≤ maxProc) ∧ k'.currentTask = k.currentTask := by
  intro left
  induction left with
  | zero =>
    intro fuel k k' n next seen seen' here after result start
    cases fuel with
    | zero => cases result
    | succ fuel =>
      have back : n ≠ k.currentTask := by omega
      have wraps : (if ¬ n = k.currentTask ∧ maxProc < n then 0 else n) = 0 := if_pos ⟨back, by omega⟩
      have stops := worker k seen start
      rw [rescanTable] at result
      simp only [wraps] at result
      rw [if_pos (Or.inr stops.1), if_neg stops.1.not_kworker, if_neg stops.2] at result
      obtain ⟨rfl, same⟩ := Prod.mk.inj (Except.ok.inj (Option.some.inj result))
      obtain ⟨rfl, rfl⟩ := Prod.mk.inj same
      exact ⟨seen, start, rfl, stops, Or.inl rfl, rfl⟩
  | succ left ih =>
    intro fuel k k' n next seen seen' here after result start
    cases fuel with
    | zero => cases result
    | succ fuel =>
      rw [rescanTable_inside after (by omega)] at result
      have onward : ∀ {s : KernelState δ}, s.currentTask = k.currentTask → inv s (n :: seen) →
          rescanTable fuel s (n + 1) (n :: seen) = some (.ok (next, k', seen')) →
          ∃ before, inv k' before ∧ seen' = next :: before ∧ (k'.procs next).Stops ∧
            (next = 0 ∨ k.currentTask < next ∧ next ≤ maxProc) ∧ k'.currentTask = k.currentTask := by
        intro s same kept rest
        have step := ih (by omega) (by omega) rest kept
        rwa [same] at step
      split at result
      case isTrue selectable =>
        split at result
        case isTrue fatal =>
          exact onward (k.kill_currentTask n)
            (keep k seen n start after (by omega) selectable fatal) result
        case isFalse alive =>
          obtain ⟨rfl, same⟩ := Prod.mk.inj (Except.ok.inj (Option.some.inj result))
          obtain ⟨rfl, rfl⟩ := Prod.mk.inj same
          exact ⟨seen, start, rfl, ⟨selectable, alive⟩, Or.inr ⟨after, by omega⟩, rfl⟩
      case isFalse blind => exact onward rfl (skip k seen n start after (by omega) blind) result

/-- **`resched` keeps what each kill keeps**, up to the entry it resumes. -/
theorem resched_keeps {P : KernelState δ → List Nat → Prop}
    (worker : ∀ k l, P k l → (k.procs 0).Stops)
    (keep : ∀ k l i, P k l → k.currentTask < i → i ≤ maxProc → (k.procs i).Selectable →
      (k.procs i).Fatal → P (k.kill i) (i :: l))
    (skip : ∀ k l i, P k l → k.currentTask < i → i ≤ maxProc → ¬ (k.procs i).Selectable →
      P k (i :: l)) {fuel : Nat} {tStack frame : InterruptFrame}
    {k k' : KernelState δ} {seen : List Nat} (low : k.currentTask < maxProc)
    (result : resched fuel tStack k = some (.ok (frame, k', seen)))
    (start : P (k.saveFrame tStack) [k.currentTask]) :
    ∃ s next before, P s before ∧ seen = next :: before ∧ (s.procs next).Stops ∧
      (next = 0 ∨ k.currentTask < next ∧ next ≤ maxProc) ∧ s.currentTask = k.currentTask ∧
      k' = s.resume next := by
  unfold resched at result
  split at result
  · cases result
  · cases result
  case h_3 next s seen' scan =>
    obtain ⟨-, same⟩ := Prod.mk.inj (Except.ok.inj (Option.some.inj result))
    obtain ⟨rfl, rfl⟩ := Prod.mk.inj same
    obtain ⟨before, kept, visited, stops, place, current⟩ :=
      rescanTable_keeps worker keep skip (maxProc - k.currentTask) (by omega)
        (by rw [KernelState.saveFrame_currentTask]; omega) scan start
    rw [KernelState.saveFrame_currentTask] at place current
    exact ⟨s, next, before, kept, visited, stops, place, current, rfl⟩

/-- The kill of one entry does not change what the scan does at the others. -/
theorem kill_stops {k : KernelState δ} {i j : Nat} (ne : j ≠ i) :
    ((k.kill i).procs j).Stops ↔ (k.procs j).Stops := by
  rw [KernelState.kill_ne k ne]

/-- **The scan ends** at the first entry that can be resumed, if there is one before the end of the
table. By induction on the distance to it. -/
theorem rescanTable_finds : ∀ (distance : Nat) {k : KernelState δ} {n i : Nat} {l : List Nat},
    n + distance = i → k.currentTask < n → i < maxProc → (k.procs i).Stops →
    ∃ next k' l', rescanTable (distance + 1) k n l = some (.ok (next, k', l')) ∧
      next ≤ i ∧ (k'.procs next).Stops ∧ (k'.procs next) = (k.procs next) ∧
      (∀ j, (k'.procs j).intFrame = (k.procs j).intFrame) ∧
      (∀ j, maxProc ≤ j → k'.procs j = k.procs j) ∧ ∀ j ∈ l', j ∈ l ∨ j < maxProc := by
  intro distance
  induction distance with
  | zero =>
    intro k n i l here after low stops
    obtain rfl : n = i := here
    rw [rescanTable_inside after (by omega), if_pos stops.1, if_neg stops.2]
    refine ⟨n, k, n :: l, rfl, le_rfl, stops, rfl, fun _ => rfl, fun _ _ => rfl, fun j mem => ?_⟩
    rcases List.mem_cons.mp mem with rfl | before
    · exact Or.inr low
    · exact Or.inl before
  | succ distance ih =>
    intro k n i l here after low stops
    have grown : ∀ {l' : List Nat}, (∀ j ∈ l', j ∈ n :: l ∨ j < maxProc) →
        ∀ j ∈ l', j ∈ l ∨ j < maxProc := by
      intro l' all j mem
      rcases all j mem with inside | inside
      · rcases List.mem_cons.mp inside with rfl | before
        · exact Or.inr (by omega)
        · exact Or.inl before
      · exact Or.inr inside
    rw [rescanTable_inside after (by omega)]
    by_cases selectable : (k.procs n).Selectable
    · by_cases fatal : (k.procs n).Fatal
      · rw [if_pos selectable, if_pos fatal]
        have ne : i ≠ n := by omega
        obtain ⟨next, k', l', result, small, stops', same, frames, behind, all⟩ :=
          ih (k := k.kill n) (n := n + 1) (l := n :: l) (by omega)
            (by rw [KernelState.kill_currentTask]; omega) low ((kill_stops ne).mpr stops)
        have other : next ≠ n := by
          rintro rfl
          rw [same, KernelState.kill_self] at stops'
          exact stops'.1.not_kworker rfl
        refine ⟨next, k', l', result, small, stops', ?_, fun j => ?_, fun j high => ?_, grown all⟩
        · rw [same, KernelState.kill_ne k other]
        · rw [frames, KernelState.kill_intFrame]
        · rw [behind j high, KernelState.kill_ne k (by omega)]
      · rw [if_pos selectable, if_neg fatal]
        refine ⟨n, k, n :: l, rfl, by omega, ⟨selectable, fatal⟩, rfl, fun _ => rfl,
          fun _ _ => rfl, grown fun j mem => Or.inl mem⟩
    · rw [if_neg selectable]
      obtain ⟨next, k', l', result, small, rest⟩ :=
        ih (k := k) (n := n + 1) (l := n :: l) (by omega) (by omega) low stops
      exact ⟨next, k', l', result, small, rest.1, rest.2.1, rest.2.2.1, rest.2.2.2.1,
        grown rest.2.2.2.2⟩

/-- What was accessed stays in the list. -/
theorem rescanTable_seen : ∀ (fuel : Nat) {k k' : KernelState δ} {n next : Nat} {seen seen' : List Nat},
    rescanTable fuel k n seen = some (.ok (next, k', seen')) → ∀ j ∈ seen, j ∈ seen' := by
  intro fuel
  induction fuel with
  | zero => exact fun result => by cases result
  | succ fuel ih =>
    intro k k' n next seen seen' result j mem
    obtain ⟨m, -, -, -, step⟩ := rescanTable_step fuel k n seen
    rw [step] at result
    split at result
    · split at result
      · cases result
      · split at result
        · exact ih result j (List.mem_cons_of_mem _ mem)
        · obtain ⟨-, same⟩ := Prod.mk.inj (Except.ok.inj (Option.some.inj result))
          obtain ⟨-, rfl⟩ := Prod.mk.inj same
          exact List.mem_cons_of_mem _ mem
    · exact ih result j (List.mem_cons_of_mem _ mem)

/-- **With nothing to resume before the end of the table, the scan looks behind it.** By induction on
what is left of the table. -/
theorem rescanTable_behind : ∀ (left : Nat) {fuel : Nat} {k k' : KernelState δ} {n next : Nat}
    {seen seen' : List Nat}, n + left = maxProc → k.currentTask < n →
    (∀ i, n ≤ i → i < maxProc → ¬ (k.procs i).Stops) →
    rescanTable fuel k n seen = some (.ok (next, k', seen')) → maxProc ∈ seen' := by
  intro left
  induction left with
  | zero =>
    intro fuel k k' n next seen seen' atEnd after none result
    obtain rfl : n = maxProc := atEnd
    cases fuel with
    | zero => cases result
    | succ fuel =>
      rw [rescanTable_inside after le_rfl] at result
      split at result
      · split at result
        · exact rescanTable_seen fuel result _ List.mem_cons_self
        · obtain ⟨-, same⟩ := Prod.mk.inj (Except.ok.inj (Option.some.inj result))
          obtain ⟨-, rfl⟩ := Prod.mk.inj same
          exact List.mem_cons_self
      · exact rescanTable_seen fuel result _ List.mem_cons_self
  | succ left ih =>
    intro fuel k k' n next seen seen' inside after none result
    cases fuel with
    | zero => cases result
    | succ fuel =>
      rw [rescanTable_inside after (by omega)] at result
      split at result
      case isTrue selectable =>
        split at result
        case isTrue fatal =>
          refine ih (k := k.kill n) (n := n + 1) (by omega) (by rw [KernelState.kill_currentTask]; omega)
            (fun i low high => ?_) result
          rw [kill_stops (by omega)]
          exact none i (by omega) high
        case isFalse alive => exact absurd ⟨selectable, alive⟩ (none n le_rfl (by omega))
      case isFalse =>
        exact ih (by omega) (by omega) (fun i low high => none i (by omega) high) result

/-! ### Safety of `resched` -/

/-- The entry that is resumed satisfies the selection condition: it is in state `RUN`, and was before or
was new, or it sleeps or is blocked and has a signal. -/
def Resumable (before after : Process) : Prop :=
  (after.state = .run ∧ (before.state = .run ∨ before.state = .new)) ∨
    ((after.state = .sleep ∨ after.state = .blocked) ∧ after.signalsPending ≠ 0)

/-- **What a call of `resched` should do**: end, access entries of the table only, resume an entry that
can be resumed, and leave every saved frame alone but that of the interrupted process. -/
def ReschedSafe (tStack : InterruptFrame) (k : KernelState δ) : Prop :=
  ∃ fuel frame k' seen, resched fuel tStack k = some (.ok (frame, k', seen)) ∧
    (∀ i ∈ seen, i < maxProc) ∧ (∀ i, maxProc ≤ i → k'.procs i = k.procs i) ∧
    k'.currentTask < maxProc ∧ frame = (k'.procs k'.currentTask).intFrame ∧
    Resumable (k.procs k'.currentTask) (k'.procs k'.currentTask) ∧
    ∀ i, i ≠ k.currentTask → (k'.procs i).intFrame = (k.procs i).intFrame

/-- An entry where the scan stops is resumed as it should be. -/
theorem Process.Stops.resumable {k : KernelState δ} {i : Nat} (stops : (k.procs i).Stops) :
    Resumable (k.procs i) ((k.resume i).procs i) := by
  rw [KernelState.resume_self]
  rcases stops.1 with run | new | ⟨waits, some⟩
  · exact Or.inl ⟨by simp [run], Or.inl run⟩
  · exact Or.inl ⟨by simp [new], Or.inr new⟩
  · refine Or.inr ⟨?_, some⟩
    rcases waits with sleeps | blocked
    · simp [sleeps]
    · simp [blocked]

section Safe

variable {k : KernelState δ} {tStack : InterruptFrame}

theorem saveFrame_stops (i : Nat) : ((k.saveFrame tStack).procs i).Stops ↔ (k.procs i).Stops :=
  and_congr (k.saveFrame_selectable tStack i) (not_congr (k.saveFrame_fatal tStack i))

/-- A safe call found an entry to resume after the interrupted one. -/
theorem ReschedSafe.exists_stops (low : k.currentTask < maxProc) (safe : ReschedSafe tStack k) :
    ∃ i, k.currentTask < i ∧ i < maxProc ∧ (k.procs i).Stops := by
  obtain ⟨fuel, frame, k', seen, result, inside, -⟩ := safe
  by_contra none
  unfold resched at result
  split at result
  · cases result
  · cases result
  case h_3 next k'' seen' scan =>
    obtain ⟨-, same⟩ := Prod.mk.inj (Except.ok.inj (Option.some.inj result))
    obtain ⟨-, rfl⟩ := Prod.mk.inj same
    have behind := rescanTable_behind (maxProc - (k.currentTask + 1)) (by omega)
      (by rw [KernelState.saveFrame_currentTask]; omega)
      (fun i above below stops => none ⟨i, by omega, below, (saveFrame_stops i).mp stops⟩) scan
    exact absurd (inside _ behind) (lt_irrefl _)

/-- With an entry to resume after the interrupted one, the call is safe. -/
theorem ReschedSafe.of_stops {i : Nat} (after : k.currentTask < i) (inTable : i < maxProc)
    (stops : (k.procs i).Stops) : ReschedSafe tStack k := by
  obtain ⟨next, k', seen', scan, small, stops', same, frames, behind, all⟩ :=
    rescanTable_finds (i - (k.currentTask + 1)) (k := k.saveFrame tStack) (n := k.currentTask + 1)
      (i := i) (l := [k.currentTask]) (by omega)
      (by rw [KernelState.saveFrame_currentTask]; omega) inTable ((saveFrame_stops i).mpr stops)
  have returns : resched (i - (k.currentTask + 1) + 1) tStack k =
      some (.ok (((k'.resume next).procs next).intFrame, k'.resume next, seen')) := by
    unfold resched
    rw [scan]
  refine ⟨_, _, _, _, returns, fun j mem => ?_, fun j high => ?_, ?_, rfl, ?_, fun j other => ?_⟩
  · rcases all j mem with first | inside
    · rw [List.mem_singleton.mp first]
      omega
    · exact inside
  · rw [KernelState.resume_ne _ _ (by omega), behind j high, KernelState.saveFrame_ne _ _ (by omega)]
  · rw [KernelState.resume_currentTask]
    omega
  · have resumable := stops'.resumable
    rw [KernelState.resume_currentTask]
    unfold Resumable at resumable ⊢
    rwa [same, KernelState.saveFrame_state] at resumable
  · rw [KernelState.resume_intFrame, frames, KernelState.saveFrame_ne _ _ other]

/-- **`resched` is safe exactly when an entry after the interrupted one, before the end of the table, can
be resumed.** Otherwise it looks behind the table, at entry `MAXPROC`. -/
theorem resched_safe_iff (low : k.currentTask < maxProc) :
    ReschedSafe tStack k ↔ ∃ i, k.currentTask < i ∧ i < maxProc ∧ (k.procs i).Stops :=
  ⟨fun safe => safe.exists_stops low, fun ⟨_, after, inTable, stops⟩ => .of_stops after inTable stops⟩

/-- The scan comes to the worker at the latest, by induction on the distance to it. -/
theorem rescanTable_returns : ∀ (left : Nat) {k : KernelState δ} {n : Nat} {l : List Nat},
    n + left = maxProc + 1 → k.currentTask < n → (k.procs 0).Stops →
    ∃ result, rescanTable (left + 1) k n l = some (.ok result) := by
  intro left
  induction left with
  | zero =>
    intro k n l here after stops
    have back : n ≠ k.currentTask := by omega
    have wraps : (if ¬ n = k.currentTask ∧ maxProc < n then 0 else n) = 0 :=
      if_pos ⟨back, by omega⟩
    rw [rescanTable]
    simp only [wraps]
    rw [if_pos (Or.inr stops.1), if_neg stops.1.not_kworker, if_neg stops.2]
    exact ⟨_, rfl⟩
  | succ left ih =>
    intro k n l here after stops
    rw [rescanTable_inside after (by omega)]
    have next : ∀ {k' : KernelState δ}, k'.currentTask = k.currentTask → (k'.procs 0).Stops →
        ∃ result, rescanTable (left + 1) k' (n + 1) (n :: l) = some (.ok result) :=
      fun same stops' => ih (by omega) (by omega) stops'
    split
    · split
      · exact next (k.kill_currentTask n) ((kill_stops (by omega)).mpr stops)
      · exact ⟨_, rfl⟩
    · exact next rfl stops

/-- **`resched` returns** when the worker can be resumed, whatever is in the table and behind it. -/
theorem resched_returns (low : k.currentTask < maxProc) (stops : (k.procs 0).Stops) :
    ∃ fuel result, resched fuel tStack k = some (.ok result) := by
  obtain ⟨⟨next, k', seen⟩, scan⟩ := rescanTable_returns (maxProc - k.currentTask)
    (k := k.saveFrame tStack) (n := k.currentTask + 1) (l := [k.currentTask]) (by omega)
    (by rw [KernelState.saveFrame_currentTask]; omega) ((saveFrame_stops 0).mpr stops)
  have returns : resched (maxProc - k.currentTask + 1) tStack k =
      some (.ok (((k'.resume next).procs next).intFrame, k'.resume next, seen)) := by
    unfold resched
    rw [scan]
  exact ⟨_, _, returns⟩

end Safe

/-! ### A table with the worker alone -/

/-- A process that is not there. -/
def noProcess : Process where
  pid := 0
  state := .none
  intFrame := ⟨0, 0, 0, 0, 0, 0, 0⟩
  mmuSelector := 0
  parent := none
  retval := 0
  openFiles := fun _ => none
  signalsPending := 0
  isThread := false

/-- The kernel worker runs, and the processes in `others` are ready. -/
def bootKernel (others : List Nat) : KernelState Unit where
  procs i := if i = 0 then { noProcess with state := .run }
    else if i ∈ others then { noProcess with pid := BitVec.ofNat 16 i, state := .run }
    else noProcess
  currentTask := 0
  nextPid := 14
  kernelTaskQueue := fun _ => ⟨.none, 0, 0⟩
  mm := ⟨fun _ => freePageMark, fun _ => 0, fun _ => 0, fun _ _ => 0⟩
  fs := ⟨⟨fun _ => ⟨.free, 0, 0, 0, BlockData.zero⟩, ()⟩, ⟨fun _ => false, fun _ => ⟨0, ⟨0, 0⟩, 0, 0, 0, 0, 0⟩, 0⟩⟩

/-- With one other process ready, `resched` is safe. -/
theorem resched_safe_one : ReschedSafe ⟨0, 0, 0, 0, 0, 0, 0⟩ (bootKernel [1]) :=
  (resched_safe_iff (by decide)).mpr ⟨1, by decide, by decide, by decide⟩

/-- **With the worker alone it is not.** -/
theorem resched_unsafe : ¬ ReschedSafe ⟨0, 0, 0, 0, 0, 0, 0⟩ (bootKernel []) := by
  intro safe
  obtain ⟨i, after, inTable, stops⟩ := safe.exists_stops (by decide)
  have none : (bootKernel []).procs i = noProcess := by
    have ne : i ≠ 0 := Nat.ne_of_gt after
    unfold bootKernel
    simp [ne]
  rw [none] at stops
  exact absurd stops (by decide)

end RlCpu.Kernel
