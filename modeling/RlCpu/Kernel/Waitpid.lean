/-
**Waiting for a child (`do_kernel_task_waitpid`).**

A pass of the worker over a waiting call looks at one entry of the table: the first in use with the pid asked
for, or, for any pid, the first in use whose `parent` points to the entry of the caller. Nothing else is asked of
a process with the pid, and the entry that `parent` points to may have changed hands.

* `taskWaitpid_cases`, `taskWaitpid_reply`: what a pass does, and what it replies.
* `waitpid_right_iff`: exactly where that is right.
* `waitpid_run`: over any number of passes, whatever happens to the table between them.
-/

import RlCpu.Kernel.TaskRuns

namespace RlCpu.Kernel

open RlCpu.Lib

variable {δ : Type} {k t : KernelState δ} {q : Fin maxQueueSize} {i c : Nat} {s : List Word} {child : Nat → Prop}

/-! ### The call -/

/-- Entry `i` waits for a child, with the words `s` of its `struct waitpidSyscall`. -/
structure WaitCall (k : KernelState δ) (q : Fin maxQueueSize) (i : Nat) (s : List Word) : Prop where
  queued : (k.kernelTaskQueue q).type = .waitpid
  caller : k.findProcByPid (k.kernelTaskQueue q).callerPid = some i
  waits : (k.procs i).state = .kworker
  args : ∃ k', getArgs k i (k.kernelTaskQueue q).args 4 = .ok (s, k')

theorem WaitCall.unique {i' : Nat} {s' : List Word} (call : WaitCall k q i s) (call' : WaitCall k q i' s') :
    i = i' ∧ s = s' := by
  obtain rfl := Option.some.inj (call.caller.symm.trans call'.caller)
  obtain ⟨u, read⟩ := call.args
  obtain ⟨u', read'⟩ := call'.args
  exact ⟨rfl, (Prod.mk.inj (Except.ok.inj (read.symm.trans read'))).1⟩

/-- `s.pid` -/
abbrev wantedPid (s : List Word) : Word := s.getD 1 0

/-- `s.options` -/
abbrev waitOptions (s : List Word) : Word := s.getD 3 0

/-- An entry in use that `findProcByPid` or `findProcByParent` stops at. -/
def Wanted (k : KernelState δ) (i : Nat) (s : List Word) (c : Nat) : Prop :=
  (if 0 < (wantedPid s).toInt then (k.procs c).pid = wantedPid s else (k.procs c).parent = some i) ∧
    (k.procs c).state ≠ .none

/-- The first entry that is wanted. -/
def FirstWanted (k : KernelState δ) (i : Nat) (s : List Word) (c : Nat) : Prop :=
  c < maxProc ∧ Wanted k i s c ∧ ∀ c' < c, ¬ Wanted k i s c'

theorem FirstWanted.unique {c' : Nat} (first : FirstWanted k i s c) (first' : FirstWanted k i s c') : c = c' := by
  rcases Nat.lt_trichotomy c c' with less | same | more
  · exact absurd first.2.1 (first'.2.2 c less)
  · exact same
  · exact absurd first'.2.1 (first.2.2 c' more)

/-- The entry that the pass reaps, `child` where it is a zombie. -/
def waitChild (k : KernelState δ) (i : Nat) (s : List Word) : Option Nat :=
  (if 0 < (wantedPid s).toInt then k.findProcByPid (wantedPid s) else k.findProcByParent i).filter
    fun c => (k.procs c).state = .zombie

/-- It is the first that is wanted. -/
theorem waitChild_iff : waitChild k i s = some c ↔ FirstWanted k i s c ∧ (k.procs c).state = .zombie := by
  unfold waitChild
  rw [Option.filter_eq_some_iff, decide_eq_true_eq]
  refine and_congr_left fun _ => ?_
  unfold FirstWanted Wanted
  split
  · unfold KernelState.findProcByPid
    rw [List.find?_range_eq_some]
    simp only [Bool.not_eq_true', decide_eq_false_iff_not, decide_eq_true_eq, List.mem_range]
    exact and_left_comm
  · unfold KernelState.findProcByParent
    rw [List.find?_range_eq_some]
    simp only [Bool.not_eq_true', decide_eq_false_iff_not, decide_eq_true_eq, List.mem_range]
    exact and_left_comm

/-- The word that the pass stores in `s.pid`; none, while the call goes on. -/
def waitReply (k : KernelState δ) (i : Nat) (s : List Word) : Option Word :=
  match waitChild k i s with
  | none => if waitOptions s = wnohang then some 0 else none
  | some c => some (k.procs c).pid

/-- It is a pid of a reaped process, or 0. -/
theorem waitReply_cases {r : Word} (reply : waitReply k i s = some r) :
    r = 0 ∨ ∃ c, FirstWanted k i s c ∧ (k.procs c).state = .zombie ∧ r = (k.procs c).pid := by
  unfold waitReply at reply
  cases found : waitChild k i s with
  | none =>
    rw [found] at reply
    dsimp only at reply
    split at reply
    · exact Or.inl (Option.some.inj reply).symm
    · cases reply
  | some c =>
    rw [found] at reply
    obtain ⟨first, dead⟩ := waitChild_iff.mp found
    exact Or.inr ⟨c, first, dead, (Option.some.inj reply).symm⟩

/-! ### What a pass does -/

/-- The pass, once the words of the caller are read. -/
theorem taskWaitpid_eq (call : WaitCall k q i s) : ∃ mm, taskWaitpid q k =
    match waitChild k i s with
    | none =>
        if waitOptions s = wnohang then
          putArgs ((KernelState.setState { k with mm := mm } i .run).endTask q) i (k.kernelTaskQueue q).args (s.set 1 0)
        else pure { k with mm := mm }
    | some c => (do
        let u := (KernelState.setState { k with mm := mm } c .none).setState i .run
        let v ← putArgs u i (s.getD 2 0) [(u.procs c).retval]
        let w ← putArgs v i (k.kernelTaskQueue q).args (s.set 1 (v.procs c).pid)
        pure (w.endTask q)) := by
  obtain ⟨k', read⟩ := call.args
  obtain ⟨mm, rfl⟩ := getArgs_ok read
  refine ⟨mm, ?_⟩
  unfold taskWaitpid
  dsimp only
  rw [call.caller]
  dsimp only
  rw [read]
  rfl

/-- The call is over: its caller is ready, and its entry of the queue is free. -/
def Completed (t : KernelState δ) (q : Fin maxQueueSize) (i : Nat) : Prop :=
  (t.procs i).state = .run ∧ (t.kernelTaskQueue q).type = .none

/-- **A pass.** It reaps the entry it looks at, or it reaps nothing and the call is over with `WNOHANG` only. -/
theorem taskWaitpid_cases (call : WaitCall k q i s) (returns : taskWaitpid q k = .ok t) :
    (∃ c, FirstWanted k i s c ∧ (k.procs c).state = .zombie ∧ Completed t q i ∧ (t.procs c).state = .none ∧
      ∀ j, j ≠ c → j ≠ i → t.procs j = k.procs j) ∨
    ((∀ c, FirstWanted k i s c → (k.procs c).state ≠ .zombie) ∧ (∀ j, j ≠ i → t.procs j = k.procs j) ∧
      (waitOptions s = wnohang → Completed t q i) ∧
      (waitOptions s ≠ wnohang → t.procs = k.procs ∧ t.kernelTaskQueue = k.kernelTaskQueue)) := by
  obtain ⟨mm, pass⟩ := taskWaitpid_eq call
  rw [pass] at returns
  cases found : waitChild k i s with
  | none =>
    have living : ∀ c, FirstWanted k i s c → (k.procs c).state ≠ .zombie := fun c first dead => by
      rw [waitChild_iff.mpr ⟨first, dead⟩] at found
      cases found
    rw [found] at returns
    dsimp only at returns
    split at returns
    case isTrue noHang =>
      obtain ⟨mm', rfl⟩ := putArgs_ok returns
      refine Or.inr ⟨living, fun j ne => KernelState.setState_ne _ _ ne, fun _ => ⟨?_, ?_⟩,
        fun hang => absurd noHang hang⟩
      · exact congrArg Process.state (KernelState.setState_self _ _ _)
      · exact congrArg KernelTask.type (KernelState.endTask_self _ _)
    case isFalse hang =>
      obtain rfl := Except.ok.inj returns
      exact Or.inr ⟨living, fun _ _ => rfl, fun noHang => absurd noHang hang, fun _ => ⟨rfl, rfl⟩⟩
  | some c =>
    obtain ⟨first, dead⟩ := waitChild_iff.mp found
    have apart : c ≠ i := by
      rintro rfl
      rw [call.waits] at dead
      cases dead
    rw [found] at returns
    obtain ⟨u, put, rest⟩ := bind_ok returns
    obtain ⟨mm', rfl⟩ := putArgs_ok put
    obtain ⟨u, put', rest⟩ := bind_ok rest
    obtain ⟨mm'', rfl⟩ := putArgs_ok put'
    obtain rfl := Except.ok.inj rest
    refine Or.inl ⟨c, first, dead, ⟨?_, ?_⟩, ?_, fun j ne ne' => ?_⟩
    · exact congrArg Process.state (KernelState.setState_self _ _ _)
    · exact congrArg KernelTask.type (KernelState.endTask_self _ _)
    · show (((KernelState.setState { k with mm := mm } c .none).setState i .run).procs c).state = .none
      rw [KernelState.setState_ne _ _ apart, KernelState.setState_self]
    · show ((KernelState.setState { k with mm := mm } c .none).setState i .run).procs j = k.procs j
      rw [KernelState.setState_ne _ _ ne', KernelState.setState_ne _ _ ne]

/-- **The reply.** A pass that has one stores it with the other words of the caller's `struct waitpidSyscall`, last of
all. -/
theorem taskWaitpid_reply {r : Word} (call : WaitCall k q i s) (reply : waitReply k i s = some r)
    (returns : taskWaitpid q k = .ok t) :
    ∃ u v : KernelState δ, putArgs u i (k.kernelTaskQueue q).args (s.set 1 r) = .ok v ∧ t.mm = v.mm := by
  obtain ⟨mm, pass⟩ := taskWaitpid_eq call
  rw [pass] at returns
  unfold waitReply at reply
  cases found : waitChild k i s with
  | none =>
    rw [found] at returns reply
    dsimp only at returns reply
    split at returns
    case isTrue noHang =>
      rw [if_pos noHang] at reply
      obtain rfl := Option.some.inj reply
      exact ⟨_, t, returns, rfl⟩
    case isFalse hang =>
      rw [if_neg hang] at reply
      cases reply
  | some c =>
    rw [found] at returns reply
    obtain rfl := Option.some.inj reply
    have pid : (((KernelState.setState { k with mm := mm } c .none).setState i .run).procs c).pid =
        (k.procs c).pid := by
      unfold KernelState.setState KernelState.setProc
      by_cases here : c = i <;> simp [here]
    obtain ⟨u, put, rest⟩ := bind_ok returns
    obtain ⟨mm', rfl⟩ := putArgs_ok put
    obtain ⟨v, put', rest⟩ := bind_ok rest
    obtain rfl := Except.ok.inj rest
    exact ⟨_, v, pid ▸ put', rfl⟩

/-! ### What it should do -/

/-- A child that the call asks for. -/
def Matching (k : KernelState δ) (child : Nat → Prop) (s : List Word) (c : Nat) : Prop :=
  c < maxProc ∧ (k.procs c).state ≠ .none ∧ child c ∧ (0 < (wantedPid s).toInt → (k.procs c).pid = wantedPid s)

/-- An entry of the table that was freed. -/
def ReapedEntry (k t : KernelState δ) (c : Nat) : Prop :=
  c < maxProc ∧ (k.procs c).state ≠ .none ∧ (t.procs c).state = .none

/-- **Completeness and soundness of a pass**, where `child` are the entries of the caller's children. -/
structure WaitRight (k : KernelState δ) (child : Nat → Prop) (q : Fin maxQueueSize) (i : Nat) (s : List Word)
    (t : KernelState δ) : Prop where
  /-- A dead child that is asked for is reaped. -/
  complete : (∃ c, Matching k child s c ∧ (k.procs c).state = .zombie) →
    Completed t q i ∧ ∃ c, ReapedEntry k t c
  /-- What is reaped is one. -/
  sound : ∀ c, ReapedEntry k t c → Matching k child s c ∧ (k.procs c).state = .zombie
  /-- Without a child that is asked for the call is over, with an error. -/
  childless : (∀ c, ¬ Matching k child s c) → Completed t q i ∧ ∃ r, waitReply k i s = some r ∧ r.toInt < 0

/-- There is a child that is asked for; the first entry wanted is a child if it is a zombie, and it is a zombie if some
child that is asked for is. -/
structure WaitSettles (k : KernelState δ) (child : Nat → Prop) (i : Nat) (s : List Word) : Prop where
  own : ∀ c, FirstWanted k i s c → (k.procs c).state = .zombie → child c
  dead : (∃ c, Matching k child s c ∧ (k.procs c).state = .zombie) →
    ∃ c, FirstWanted k i s c ∧ (k.procs c).state = .zombie
  asked : ∃ c, Matching k child s c

theorem FirstWanted.matching (first : FirstWanted k i s c) (own : child c) : Matching k child s c := by
  obtain ⟨low, ⟨wanted, here⟩, -⟩ := first
  refine ⟨low, here, own, fun positive => ?_⟩
  rwa [if_pos positive] at wanted

/-- **A pass is right exactly where it settles the call.** -/
theorem waitpid_right_iff (call : WaitCall k q i s) (returns : taskWaitpid q k = .ok t) :
    WaitRight k child q i s t ↔ WaitSettles k child i s := by
  rcases taskWaitpid_cases call returns with ⟨c, first, dead, completed, freed, others⟩ |
    ⟨living, others, noHang, hang⟩
  · -- the entry it looks at is reaped, and no other
    have here : (k.procs c).state ≠ .none := first.2.1.2
    have only : ∀ j, ReapedEntry k t j → j = c := fun j reaped => by
      by_contra ne
      by_cases caller : j = i
      · have frozen := reaped.2.2
        rw [caller, completed.1] at frozen
        cases frozen
      · have frozen := reaped.2.2
        rw [others j ne caller] at frozen
        exact reaped.2.1 frozen
    have reaped : ReapedEntry k t c := ⟨first.1, here, freed⟩
    constructor
    · intro right
      have own := (right.sound c reaped).1
      exact ⟨fun j first' _ => first'.unique first ▸ own.2.2.1, fun _ => ⟨c, first, dead⟩, c, own⟩
    · intro settles
      have own := first.matching (settles.own c first dead)
      refine ⟨fun _ => ⟨completed, c, reaped⟩, fun j freed => ?_, fun none => absurd own (none c)⟩
      rw [only j freed]
      exact ⟨own, dead⟩
  · -- nothing is reaped, and the reply is no error
    have none : ∀ j, ¬ ReapedEntry k t j := fun j reaped => by
      by_cases caller : j = i
      · have frozen := reaped.2.2
        by_cases option : waitOptions s = wnohang
        · rw [caller, (noHang option).1] at frozen
          cases frozen
        · rw [(hang option).1] at frozen
          exact reaped.2.1 frozen
      · have frozen := reaped.2.2
        rw [others j caller] at frozen
        exact reaped.2.1 frozen
    constructor
    · intro right
      refine ⟨fun c first dead => absurd dead (living c first), fun zombie => ?_, ?_⟩
      · obtain ⟨-, c, reaped⟩ := right.complete zombie
        exact absurd reaped (none c)
      · by_contra missing
        obtain ⟨-, r, reply, negative⟩ := right.childless fun c own => missing ⟨c, own⟩
        rcases waitReply_cases reply with rfl | ⟨c, first, dead, -⟩
        · exact absurd negative (by decide)
        · exact living c first dead
    · intro settles
      refine ⟨fun zombie => ?_, fun c reaped => absurd reaped (none c), fun missing => ?_⟩
      · obtain ⟨c, first, dead⟩ := settles.dead zombie
        exact absurd dead (living c first)
      · obtain ⟨c, own⟩ := settles.asked
        exact absurd own (missing c)

/-! ### Any number of passes -/

/-- A process that a pass reaped: the pid that was asked for, its own, and whether it was a child of the caller. -/
structure Reaped where
  wanted : Word
  pid : Word
  child : Prop

/-- What a pass from `k` to `t` reaped. -/
def reapedBy (k t : KernelState δ) (child : Nat → Prop) (s : List Word) : List Reaped :=
  ((List.range maxProc).filter fun c => (k.procs c).state ≠ .none ∧ (t.procs c).state = .none).map
    fun c => ⟨wantedPid s, (k.procs c).pid, child c⟩

/-- The kernel, which entry's process forked which entry's, and what was reaped so far. -/
structure WaitState (δ : Type) where
  k : KernelState δ
  child : Nat → Nat → Prop
  reaped : List Reaped

/-- The process of entry `i` forks a new one into entry `j`: that one is its child, and has none. -/
def adopt (child : Nat → Nat → Prop) (i j : Nat) : Nat → Nat → Prop :=
  fun p c => if c = j then p = i else p ≠ j ∧ child p c

/-- A pass of the worker over the queue entry, a fork, or anything else that happens to the kernel. -/
inductive WaitOp
  | pass
  | fork
  | other

/-- One of them. -/
inductive WaitStep (q : Fin maxQueueSize) : WaitState δ → WaitOp → WaitState δ → Prop
  | pass {w : WaitState δ} {t : KernelState δ} {i : Nat} {s : List Word} (call : WaitCall w.k q i s)
      (returns : taskWaitpid q w.k = .ok t) :
      WaitStep q w .pass ⟨t, w.child, reapedBy w.k t (w.child i) s ++ w.reaped⟩
  | fork {w : WaitState δ} {t : KernelState δ} {cow clone : Bool} {i j : Nat}
      (made : doFork cow i clone w.k = .ok (some (j, t))) :
      WaitStep q w .fork ⟨t, adopt w.child i j, w.reaped⟩
  | other {w : WaitState δ} (t : KernelState δ) : WaitStep q w .other ⟨t, w.child, w.reaped⟩

/-- A step whose pass settles the call. -/
def SettledStep (q : Fin maxQueueSize) (w : WaitState δ) (op : WaitOp) (w' : WaitState δ) : Prop :=
  (op = .pass → ∀ i s, WaitCall w.k q i s → WaitSettles w.k (w.child i) i s) ∧ WaitStep q w op w'

/-- Only children were reaped, and only those asked for. -/
def OnlyChildren (w : WaitState δ) : Prop :=
  ∀ r ∈ w.reaped, r.child ∧ (0 < r.wanted.toInt → r.pid = r.wanted)

theorem OnlyChildren.step {w w' : WaitState δ} {op : WaitOp} (only : OnlyChildren w) (step : SettledStep q w op w') :
    OnlyChildren w' := by
  obtain ⟨settles, step⟩ := step
  cases step with
  | pass call returns =>
    have right := (waitpid_right_iff call returns).mpr (settles rfl _ _ call)
    intro r mem
    rcases List.mem_append.mp mem with new | old
    · obtain ⟨c, here, rfl⟩ := List.mem_map.mp new
      obtain ⟨low, freed⟩ := List.mem_filter.mp here
      obtain ⟨-, -, own, pid⟩ := (right.sound c ⟨List.mem_range.mp low, of_decide_eq_true freed⟩).1
      exact ⟨own, pid⟩
    · exact only r old
  | fork => exact only
  | other => exact only

/-- **Waiting for a child.** In a run of passes that settle their calls only children were reaped, and only those asked
for; and the next pass is right exactly where it settles its call. -/
theorem waitpid_run {w₀ w : WaitState δ} {ops : List WaitOp} (fresh : w₀.reaped = [])
    (run : Run (SettledStep q) w₀ ops w) :
    OnlyChildren w ∧ ∀ i s t, WaitCall w.k q i s → taskWaitpid q w.k = .ok t →
      (WaitRight w.k (w.child i) q i s t ↔ WaitSettles w.k (w.child i) i s) := by
  refine ⟨run.preserves (fun _ _ _ only step => only.step step) fun r mem => ?_,
    fun i s t call returns => waitpid_right_iff call returns⟩
  rw [fresh] at mem
  cases mem

/-- Process 1 waits for any of its children, which are in `others` with their states. -/
def waitKernel (others : List (Nat × ProcState)) : KernelState Unit :=
  { bootKernel [] with
    procs := fun i =>
      if i = 0 then { noProcess with state := .run }
      else if i = 1 then { noProcess with pid := 1, state := .kworker }
      else match others.find? fun other => other.1 = i with
        | some other => { noProcess with pid := BitVec.ofNat 16 i, state := other.2, parent := some 1 }
        | none => noProcess
    kernelTaskQueue := fun q => if q = 0 then ⟨.waitpid, 1, 0⟩ else ⟨.none, 0, 0⟩ }

/-- They are its children. -/
def waitKernelChild (others : List (Nat × ProcState)) (p c : Nat) : Prop := p = 1 ∧ c ∈ others.map Prod.fst

theorem waitKernel_call (others : List (Nat × ProcState)) : WaitCall (waitKernel others) 0 1 [0, 0, 0, 0] := by
  refine ⟨rfl, rfl, rfl, ?_⟩
  have words : (ugets 0 0 4 false (bootKernel []).mm).map Prod.fst = .ok [0, 0, 0, 0] := by
    unfold ugets
    decide
  cases got : ugets 0 0 4 false (bootKernel []).mm with
  | error e =>
    rw [got] at words
    cases words
  | ok v =>
    rw [got] at words
    obtain ⟨s, mm⟩ := v
    obtain rfl : s = [0, 0, 0, 0] := Except.ok.inj words
    refine ⟨{ waitKernel others with mm := mm }, ?_⟩
    show ugets 0 0 4 false (bootKernel []).mm >>= (fun v => Except.ok (v.1, { waitKernel others with mm := v.2 })) = _
    rw [got]
    rfl

/-- Entry `2` is the first that is wanted. -/
theorem waitKernel_first (state : ProcState) (used : state ≠ .none) (others : List (Nat × ProcState)) :
    FirstWanted (waitKernel ((2, state) :: others)) 1 [0, 0, 0, 0] 2 := by
  refine ⟨by decide, ⟨rfl, used⟩, fun c before => ?_⟩
  obtain rfl | rfl : c = 0 ∨ c = 1 := by omega
  · exact fun wanted => absurd wanted.1 nofun
  · exact fun wanted => absurd wanted.1 nofun

/-- A pass over two children that live, and one after the first of them has died: it is reaped, and the other stays. -/
theorem waitpid_run_dead : ∃ t, taskWaitpid 0 (waitKernel [(2, .zombie), (3, .run)]) = .ok t ∧
    (t.procs 2).state = .none ∧ (t.procs 3).state = .run ∧ ∃ w, w.k = t ∧
      Run (SettledStep 0) ⟨waitKernel [(2, .run), (3, .run)], waitKernelChild [(2, .run), (3, .run)], []⟩
        [.pass, .other, .pass] w ∧ OnlyChildren w := by
  have child : waitKernelChild [(2, .run), (3, .run)] 1 2 := ⟨rfl, List.mem_cons_self⟩
  have living := waitKernel_call [(2, .run), (3, .run)]
  have first := waitKernel_first .run (by decide) [(3, .run)]
  have settles : WaitSettles (waitKernel [(2, .run), (3, .run)]) (waitKernelChild [(2, .run), (3, .run)] 1) 1
      [0, 0, 0, 0] := by
    refine ⟨fun c wanted _ => wanted.unique first ▸ child, fun dead => ?_, 2, first.matching child⟩
    obtain ⟨c, ⟨-, -, ⟨-, own⟩, -⟩, zombie⟩ := dead
    rcases List.mem_cons.mp own with rfl | own
    · cases zombie
    · obtain rfl := List.mem_singleton.mp own
      cases zombie
  have call := waitKernel_call [(2, .zombie), (3, .run)]
  have first' := waitKernel_first .zombie (by decide) [(3, .run)]
  have settles' : WaitSettles (waitKernel [(2, .zombie), (3, .run)]) (waitKernelChild [(2, .run), (3, .run)] 1) 1
      [0, 0, 0, 0] :=
    ⟨fun c wanted _ => wanted.unique first' ▸ child, fun _ => ⟨2, first', rfl⟩, 2, first'.matching child⟩
  obtain ⟨u, waits⟩ : ∃ u, taskWaitpid 0 (waitKernel [(2, .run), (3, .run)]) = .ok u := ⟨_, rfl⟩
  obtain ⟨t, returns, freed, stays⟩ : ∃ t, taskWaitpid 0 (waitKernel [(2, .zombie), (3, .run)]) = .ok t ∧
      (t.procs 2).state = .none ∧ (t.procs 3).state = .run := ⟨_, rfl, rfl, rfl⟩
  have run : Run (SettledStep 0) ⟨waitKernel [(2, .run), (3, .run)], waitKernelChild [(2, .run), (3, .run)], []⟩
      [.pass, .other, .pass] ⟨t, waitKernelChild [(2, .run), (3, .run)],
        reapedBy (waitKernel [(2, .zombie), (3, .run)]) t (waitKernelChild [(2, .run), (3, .run)] 1) [0, 0, 0, 0] ++
          (reapedBy (waitKernel [(2, .run), (3, .run)]) u (waitKernelChild [(2, .run), (3, .run)] 1) [0, 0, 0, 0] ++
            [])⟩ := by
    refine .cons ⟨fun _ i s call' => ?_, .pass living waits⟩ (.cons ⟨fun clash => (by cases clash), .other _⟩
      (.single ⟨fun _ i s call' => ?_, .pass call returns⟩))
    · obtain ⟨rfl, rfl⟩ := living.unique call'
      exact settles
    · obtain ⟨rfl, rfl⟩ := call.unique call'
      exact settles'
  exact ⟨t, returns, freed, stays, _, rfl, run, (waitpid_run rfl run).1⟩

/-- A child that lives and one that is dead, behind it: the dead one is not reaped. -/
theorem waitpid_blind : ∃ t, taskWaitpid 0 (waitKernel [(2, .run), (3, .zombie)]) = .ok t ∧
    ¬ WaitRight (waitKernel [(2, .run), (3, .zombie)]) (waitKernelChild [(2, .run), (3, .zombie)] 1) 0 1
      [0, 0, 0, 0] t := by
  obtain ⟨t, returns⟩ : ∃ t, taskWaitpid 0 (waitKernel [(2, .run), (3, .zombie)]) = .ok t := ⟨_, rfl⟩
  refine ⟨t, returns, fun right => ?_⟩
  have settles := (waitpid_right_iff (waitKernel_call [(2, .run), (3, .zombie)]) returns).mp right
  have zombie : Matching (waitKernel [(2, .run), (3, .zombie)]) (waitKernelChild [(2, .run), (3, .zombie)] 1)
      [0, 0, 0, 0] 3 := ⟨by decide, by decide, ⟨rfl, by decide⟩, fun positive => absurd positive (by decide)⟩
  obtain ⟨c, first, dead⟩ := settles.dead ⟨3, zombie, rfl⟩
  obtain rfl := first.unique (waitKernel_first .run (by decide) [(3, .zombie)])
  cases dead

end RlCpu.Kernel
