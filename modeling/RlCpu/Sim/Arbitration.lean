/-
**Interrupt arbitration (`InterruptController` of `sim.hpp`).**

`getIrqVector` looks for a pending line from `currentInterrupt` on, and leaves `currentInterrupt` at the line it finds.
So the next search starts with the line that was served last.

`before vs events k` is the controller before event `k`. `Arbitration vs events`: what a round-robin controller does.
`NotAgain vs events`: a line that was served while another was pending is not requested again before the next search.

* `getIrqVector_serves`: a search ends, and takes out the line it finds.
* `arbitration_iff`: the events are served round-robin exactly where no line is served again so.
* `arbitration_starves`: a line that is requested again each time is served each time.
-/

import RlCpu.Sim.Demux
import RlCpu.Lib.Rotation

namespace RlCpu.Sim

open RlCpu.Kernel RlCpu.Lib

/-! ### Events -/

/-- What is called. -/
inductive IrqEvent
  | request (irq : Nat)
  | getIrqVector
  deriving DecidableEq, Repr

namespace InterruptController

/-- A call. -/
def call (c : InterruptController) : IrqEvent → InterruptController
  | .request irq => c.request irq
  | .getIrqVector => c.getIrqVector.2

/-- `line` is pending. -/
def pending (c : InterruptController) (line : Nat) : Bool := c.pendingInterrupts.getLsbD line

/-- The loop of `getIrqVector`. -/
def searchLoop (c : InterruptController) (fuel : Nat) : Option Nat := scan nIRQs c.pending fuel c.currentInterrupt

/-- The controller before event `k`, with the vectors `vs`. -/
def before (vs : Nat → Word) (events : List IrqEvent) (k : Nat) : InterruptController :=
  (events.take k).foldl call ⟨0, 0, vs⟩

/-- Event `k` takes out `line`. -/
structure Serves (vs : Nat → Word) (events : List IrqEvent) (k line : Nat) : Prop where
  call : events[k]? = some .getIrqVector
  pending : (before vs events k).pending line = true
  taken : (before vs events (k + 1)).pending line = false

/-- **Round-robin arbitration.** -/
structure Arbitration (vs : Nat → Word) (events : List IrqEvent) : Prop where
  /-- A search with a pending line ends, returns the vector of a pending line and clears this line alone. -/
  serves : ∀ k, events[k]? = some .getIrqVector → (before vs events k).irqLineStatus = true →
    ∃ line < nIRQs, (∀ fuel, nIRQs ≤ fuel → (before vs events k).searchLoop fuel = some line) ∧
      (before vs events k).pending line = true ∧ (before vs events k).getIrqVector.1 = vs line ∧
      ∀ l, (before vs events (k + 1)).pending l = ((before vs events k).pending l && l != line)
  /-- A line that is requested stays pending until it is served. -/
  kept : ∀ k irq, events[k]? = some (.request irq) → irq < nIRQs → ∀ j, k < j → j ≤ events.length →
    (∀ i, k < i → i < j → ¬ Serves vs events i irq) → (before vs events j).pending irq = true
  /-- No line is passed over twice for the same other line. -/
  fair : ∀ i j line other, i < j → line ≠ other → Serves vs events i other → Serves vs events j other →
    ¬ ∀ k, i ≤ k → k ≤ j → (before vs events k).pending line = true

/-- **No line is served again at once**: where another line was pending at a search, the line that it left under the
cursor is not requested before the next search. -/
def NotAgain (vs : Nat → Word) (events : List IrqEvent) : Prop :=
  ∀ i j, i < j → events[i]? = some .getIrqVector → events[j]? = some .getIrqVector →
    (∀ k, i < k → k < j → events[k]? ≠ some .getIrqVector) →
    (∃ l, l ≠ (before vs events j).currentInterrupt ∧ (before vs events i).pending l = true) →
    ∀ k, i < k → k < j → events[k]? ≠ some (.request (before vs events j).currentInterrupt)

end InterruptController

/-! ### One call -/

namespace InterruptController

/-- The cursor is a line, and no other line is pending. -/
structure Lines (c : InterruptController) : Prop where
  cursor : c.currentInterrupt < nIRQs
  high : ∀ l, nIRQs ≤ l → c.pending l = false

variable {c : InterruptController} {vs : Nat → Word} {events : List IrqEvent} {i j k l line other : Nat}

theorem request_pending (irq l : Nat) :
    (c.request irq).pending l = (c.pending l || (l = irq && decide (irq < nIRQs))) := by
  unfold request
  by_cases inside : irq < nIRQs
  · have small : irq < 8 := inside
    rw [if_pos inside]
    show (c.pendingInterrupts ||| ((1 : Word) <<< irq)).getLsbD l = _
    have mask : ((1 : Word) <<< irq).getLsbD l = decide (l = irq) := by
      rw [BitVec.getLsbD_shiftLeft, show (1 : Word) = 1#16 from rfl, BitVec.getLsbD_one, Bool.eq_iff_iff]
      simp only [Bool.and_eq_true, decide_eq_true_eq, Bool.not_eq_true', decide_eq_false_iff_not]
      omega
    rw [BitVec.getLsbD_or, mask, decide_eq_true inside, Bool.and_true]
    rfl
  · rw [if_neg inside, decide_eq_false inside, Bool.and_false, Bool.or_false]

theorem request_same (irq : Nat) :
    (c.request irq).currentInterrupt = c.currentInterrupt ∧ (c.request irq).intVectors = c.intVectors := by
  unfold request
  split
  · exact ⟨rfl, rfl⟩
  · exact ⟨rfl, rfl⟩

theorem irqLineStatus_iff : c.irqLineStatus = true ↔ ∃ l, c.pending l = true := by
  unfold irqLineStatus pending
  rw [bne_iff_ne, ne_eq, ← not_iff_not, not_not, not_exists]
  constructor
  · intro zero l
    rw [zero]
    simp
  · intro none
    refine BitVec.eq_of_getLsbD_eq fun l _ => ?_
    rw [(Bool.not_eq_true _).mp (none l)]
    simp

/-- **What `getIrqVector` does** where a line is pending: the loop ends at a line no farther than any pending one, and
this line is taken out. -/
theorem getIrqVector_serves (lines : c.Lines) (status : c.irqLineStatus = true) :
    ∃ line < nIRQs, (∀ fuel, nIRQs ≤ fuel → c.searchLoop fuel = some line) ∧ c.pending line = true ∧
      c.getIrqVector.1 = c.intVectors line ∧ c.getIrqVector.2.currentInterrupt = line ∧
      c.getIrqVector.2.intVectors = c.intVectors ∧
      (∀ l, c.getIrqVector.2.pending l = (c.pending l && l != line)) ∧
      (∀ l, c.pending l = true → ahead nIRQs l line ≤ ahead nIRQs l c.currentInterrupt) ∧
      (c.pending c.currentInterrupt = true → line = c.currentInterrupt) := by
  have low : ∀ l, c.pending l = true → l < nIRQs := fun l has => by
    by_contra high
    rw [lines.high l (Nat.not_lt.mp high)] at has
    cases has
  obtain ⟨l₀, has₀⟩ := irqLineStatus_iff.mp status
  obtain ⟨line, found, inside, has, -⟩ :=
    scan_some (low l₀ has₀) has₀ lines.cursor (ahead_lt (low l₀ has₀) lines.cursor)
  have nearest : ∀ l, c.pending l = true → ahead nIRQs l line ≤ ahead nIRQs l c.currentInterrupt := fun l has => by
    obtain ⟨x, found', -, -, le⟩ := scan_some (low l has) has lines.cursor (ahead_lt (low l has) lines.cursor)
    rwa [Option.some.inj (found.symm.trans found')]
  have here : c.pending c.currentInterrupt = true → line = c.currentInterrupt := fun has =>
    Option.some.inj (found.symm.trans (scan_here has))
  have search := (find?_rotate (p := c.pending) nIRQs lines.cursor).trans found
  have value : c.getIrqVector = (c.intVectors line, { c with
      currentInterrupt := line, pendingInterrupts := c.pendingInterrupts &&& ~~~((1 : Word) <<< line) }) := by
    unfold getIrqVector
    rw [if_neg (by simpa [irqLineStatus] using status)]
    change ((List.range nIRQs).map fun i => (c.currentInterrupt + i) % nIRQs).find?
      (fun i => c.pendingInterrupts.getLsbD i) = some line at search
    rw [search]
  refine ⟨line, inside, fun fuel enough => ?_, has, by rw [value], by rw [value], by rw [value], fun l => ?_, nearest,
    here⟩
  · obtain ⟨more, rfl⟩ := Nat.exists_eq_add_of_le enough
    exact scan_more found more
  · rw [value]
    show (c.pendingInterrupts &&& ~~~((1 : Word) <<< line)).getLsbD l = (c.pendingInterrupts.getLsbD l && l != line)
    rw [BitVec.getLsbD_and, BitVec.getLsbD_not, BitVec.getLsbD_shiftLeft, show (1 : Word) = 1#16 from rfl,
      BitVec.getLsbD_one]
    by_cases small : l < 16
    · congr 1
      rw [Bool.eq_iff_iff]
      simp only [small, decide_true, Bool.true_and, Bool.not_eq_true', Bool.and_eq_false_iff, Bool.not_eq_false',
        decide_eq_true_eq, decide_eq_false_iff_not, bne_iff_ne]
      omega
    · rw [BitVec.getLsbD_of_ge _ _ (Nat.not_lt.mp small), Bool.false_and, Bool.false_and]

/-- Where no line is pending, nothing changes. -/
theorem getIrqVector_idle (status : c.irqLineStatus = false) : c.getIrqVector.2 = c := by
  unfold getIrqVector
  rw [if_pos (by simpa [irqLineStatus] using status)]

theorem Lines.call (lines : c.Lines) (e : IrqEvent) : (c.call e).Lines := by
  cases e with
  | request irq =>
    show (c.request irq).Lines
    refine ⟨by rw [(request_same irq).1]; exact lines.cursor, fun l high => ?_⟩
    rw [request_pending, lines.high l high, Bool.false_or]
    simp only [Bool.and_eq_false_iff, decide_eq_false_iff_not]
    omega
  | getIrqVector =>
    show c.getIrqVector.2.Lines
    cases status : c.irqLineStatus with
    | false => rwa [getIrqVector_idle status]
    | true =>
      obtain ⟨line, inside, -, -, -, cursor, -, cleared, -⟩ := getIrqVector_serves lines status
      refine ⟨cursor ▸ inside, fun l high => ?_⟩
      rw [cleared, lines.high l high, Bool.false_and]

theorem call_vectors (lines : c.Lines) (e : IrqEvent) : (c.call e).intVectors = c.intVectors := by
  cases e with
  | request irq => exact (request_same irq).2
  | getIrqVector =>
    show c.getIrqVector.2.intVectors = _
    cases status : c.irqLineStatus with
    | false => rw [getIrqVector_idle status]
    | true =>
      obtain ⟨line, -, -, -, -, -, vectors, -⟩ := getIrqVector_serves lines status
      exact vectors

/-! ### Runs -/

theorem before_succ {e : IrqEvent} (here : events[k]? = some e) :
    before vs events (k + 1) = (before vs events k).call e := by
  obtain ⟨inside, word⟩ := List.getElem?_eq_some_iff.mp here
  unfold before
  rw [← List.take_concat_get inside, List.concat_eq_append, List.foldl_append, word]
  rfl

/-- Behind the last event nothing happens. -/
theorem before_none (here : events[k]? = none) : before vs events (k + 1) = before vs events k := by
  have short := List.getElem?_eq_none_iff.mp here
  unfold before
  rw [List.take_of_length_le short, List.take_of_length_le (Nat.le_succ_of_le short)]

/-- By induction on the events so far. -/
theorem before_lines (vs : Nat → Word) (events : List IrqEvent) :
    ∀ k, (before vs events k).Lines ∧ (before vs events k).intVectors = vs := by
  intro k
  induction k with
  | zero => exact ⟨⟨show 0 < 8 by decide, fun l _ => show (0 : Word).getLsbD l = false by simp⟩, rfl⟩
  | succ k ih =>
    cases here : events[k]? with
    | some e =>
      rw [before_succ here]
      exact ⟨ih.1.call e, (call_vectors ih.1 e).trans ih.2⟩
    | none =>
      rwa [before_none here]

/-- **A search of a run**, where a line is pending. -/
theorem search (vs : Nat → Word) (here : events[k]? = some .getIrqVector)
    (status : (before vs events k).irqLineStatus = true) :
    ∃ line < nIRQs, (∀ fuel, nIRQs ≤ fuel → (before vs events k).searchLoop fuel = some line) ∧
      (before vs events k).pending line = true ∧ (before vs events k).getIrqVector.1 = vs line ∧
      (before vs events (k + 1)).currentInterrupt = line ∧
      (∀ l, (before vs events (k + 1)).pending l = ((before vs events k).pending l && l != line)) ∧
      (∀ l, (before vs events k).pending l = true →
        ahead nIRQs l line ≤ ahead nIRQs l (before vs events k).currentInterrupt) ∧
      ((before vs events k).pending (before vs events k).currentInterrupt = true →
        line = (before vs events k).currentInterrupt) := by
  obtain ⟨lines, vectors⟩ := before_lines vs events k
  obtain ⟨line, inside, ends, has, value, cursor, -, cleared, near, stays⟩ := getIrqVector_serves lines status
  rw [before_succ here]
  rw [vectors] at value
  exact ⟨line, inside, ends, has, value, cursor, cleared, near, stays⟩

/-- The line served is the one under the cursor afterwards. -/
theorem Serves.search (serves : Serves vs events k line) :
    (before vs events (k + 1)).currentInterrupt = line ∧
      (∀ l, (before vs events (k + 1)).pending l = ((before vs events k).pending l && l != line)) ∧
      (∀ l, (before vs events k).pending l = true →
        ahead nIRQs l line ≤ ahead nIRQs l (before vs events k).currentInterrupt) := by
  have status := irqLineStatus_iff.mpr ⟨line, serves.pending⟩
  obtain ⟨x, -, -, -, -, cursor, cleared, near, -⟩ := InterruptController.search vs serves.call status
  have same : line = x := by
    have gone := serves.taken
    rw [cleared, serves.pending, Bool.true_and] at gone
    simpa using gone
  subst same
  exact ⟨cursor, cleared, near⟩

/-- A request leaves the cursor where it is. -/
theorem before_request {irq : Nat} (here : events[k]? = some (.request irq)) :
    (before vs events (k + 1)).currentInterrupt = (before vs events k).currentInterrupt ∧
      ∀ l, (before vs events (k + 1)).pending l =
        ((before vs events k).pending l || (l = irq && decide (irq < nIRQs))) := by
  rw [before_succ here]
  exact ⟨(request_same irq).1, fun l => request_pending irq l⟩

/-- A pending line stays so, but for the line that is served. -/
theorem pending_succ (has : (before vs events k).pending l = true) (kept : ¬ Serves vs events k l) :
    (before vs events (k + 1)).pending l = true := by
  cases here : events[k]? with
  | none => rwa [before_none here]
  | some e =>
    cases e with
    | request irq => rw [(before_request here).2, has, Bool.true_or]
    | getIrqVector =>
      by_contra gone
      exact kept ⟨here, has, (Bool.not_eq_true _).mp gone⟩

/-- The cursor does not pass a pending line. -/
theorem cursor_near (has : (before vs events k).pending l = true) :
    ahead nIRQs l (before vs events (k + 1)).currentInterrupt ≤ ahead nIRQs l (before vs events k).currentInterrupt := by
  cases here : events[k]? with
  | none => rw [before_none here]
  | some e =>
    cases e with
    | request irq => rw [(before_request here).1]
    | getIrqVector =>
      obtain ⟨line, -, -, -, -, cursor, -, near, -⟩ := search vs here (irqLineStatus_iff.mpr ⟨l, has⟩)
      rw [cursor]
      exact near l has

/-- **While a line is pending the cursor only comes nearer to it.** By induction on the events between. -/
theorem cursor_nearer (has : ∀ k, i ≤ k → k < j → (before vs events k).pending l = true) (le : i ≤ j) :
    ahead nIRQs l (before vs events j).currentInterrupt ≤ ahead nIRQs l (before vs events i).currentInterrupt := by
  induction j, le using Nat.le_induction with
  | base => exact Nat.le_refl _
  | succ j le ih =>
    have now := has j le (Nat.lt_succ_self j)
    exact (cursor_near now).trans (ih fun k from' below => has k from' (Nat.lt_succ_of_lt below))

/-- **Between two searches** the cursor stays, and lines become pending by requests alone. By induction on the events
between. -/
theorem between (le : i ≤ j) (quiet : ∀ k, i ≤ k → k < j → events[k]? ≠ some .getIrqVector) :
    (before vs events j).currentInterrupt = (before vs events i).currentInterrupt ∧
      ∀ l, (before vs events j).pending l = true ↔ (before vs events i).pending l = true ∨
        ∃ k, i ≤ k ∧ k < j ∧ events[k]? = some (.request l) ∧ l < nIRQs := by
  induction j, le using Nat.le_induction with
  | base => exact ⟨rfl, fun l => ⟨Or.inl, fun h => h.elim id fun ⟨k, le, lt, _⟩ => absurd le (Nat.not_le.mpr lt)⟩⟩
  | succ j le ih =>
    obtain ⟨cursor, lines⟩ := ih fun k from' below => quiet k from' (Nat.lt_succ_of_lt below)
    have wider : ∀ l, (∃ k, i ≤ k ∧ k < j + 1 ∧ events[k]? = some (.request l) ∧ l < nIRQs) ↔
        (∃ k, i ≤ k ∧ k < j ∧ events[k]? = some (.request l) ∧ l < nIRQs) ∨
          events[j]? = some (.request l) ∧ l < nIRQs := by
      intro l
      constructor
      · rintro ⟨k, from', below, here⟩
        rcases Nat.lt_succ_iff_lt_or_eq.mp below with early | rfl
        · exact Or.inl ⟨k, from', early, here⟩
        · exact Or.inr here
      · rintro (⟨k, from', below, here⟩ | here)
        · exact ⟨k, from', Nat.lt_succ_of_lt below, here⟩
        · exact ⟨j, le, Nat.lt_succ_self j, here⟩
    cases here : events[j]? with
    | none =>
      rw [before_none here]
      refine ⟨cursor, fun l => (lines l).trans ?_⟩
      rw [wider, here]
      simp
    | some e =>
      cases e with
      | getIrqVector => exact absurd here (quiet j le (Nat.lt_succ_self j))
      | request irq =>
        obtain ⟨stays, added⟩ := @before_request vs events j irq here
        refine ⟨stays.trans cursor, fun l => ?_⟩
        rw [added, Bool.or_eq_true, lines l, wider, or_assoc, here]
        refine or_congr Iff.rfl (or_congr Iff.rfl ?_)
        simp only [Bool.and_eq_true, decide_eq_true_eq, Option.some.injEq, IrqEvent.request.injEq]
        constructor
        · rintro ⟨rfl, low⟩
          exact ⟨rfl, low⟩
        · rintro ⟨rfl, low⟩
          exact ⟨rfl, low⟩

/-! ### Fairness -/

/-- A line that is passed over twice for the same other line sees that line served again at once. -/
theorem passed_again (again : NotAgain vs events) (lt : i < j) (ne : line ≠ other) (first : Serves vs events i other)
    (second : Serves vs events j other) : ¬ ∀ k, i ≤ k → k ≤ j → (before vs events k).pending line = true := by
  intro waits
  obtain ⟨cursor, cleared, -⟩ := first.search
  -- the cursor is at the other line all the time, as it never passes the one that waits
  have stays : ∀ k, i + 1 ≤ k → k ≤ j → (before vs events k).currentInterrupt = other := by
    intro k above below
    have to' := @cursor_nearer vs events (i + 1) k line
      (fun n from' low => waits n (Nat.le_of_succ_le from') ((Nat.le_of_lt low).trans below)) above
    have from' := @cursor_nearer vs events k (j + 1) line
      (fun n at' low => waits n ((Nat.le_of_succ_le above).trans at') (Nat.le_of_lt_succ low)) (Nat.le_succ_of_le below)
    rw [second.search.1] at from'
    rw [cursor] at to'
    have low : ∀ n, (before vs events n).currentInterrupt < nIRQs := fun n => (before_lines vs events n).1.cursor
    have inside : line < nIRQs := by
      by_contra high
      have none := (before_lines vs events i).1.high line (Nat.not_lt.mp high)
      rw [waits i (Nat.le_refl i) (Nat.le_of_lt lt)] at none
      cases none
    exact ahead_inj (low k) (cursor ▸ low (i + 1)) inside (Nat.le_antisymm to' from')
  -- the next search
  obtain ⟨n, ⟨above, call⟩, least⟩ : ∃ n, (i < n ∧ events[n]? = some .getIrqVector) ∧
      ∀ k, k < n → ¬ (i < k ∧ events[k]? = some .getIrqVector) :=
    ⟨_, Nat.find_spec (⟨j, lt, second.call⟩ : ∃ n, i < n ∧ events[n]? = some .getIrqVector), fun k => Nat.find_min _⟩
  have below : n ≤ j := by
    by_contra far
    exact least j (Nat.not_le.mp far) ⟨lt, second.call⟩
  have quiet : ∀ k, i < k → k < n → events[k]? ≠ some .getIrqVector := fun k from' low here => least k low ⟨from', here⟩
  have here := stays n above below
  obtain ⟨x, -, -, has, -, cursor', -⟩ := search vs call (irqLineStatus_iff.mpr ⟨line, waits n (Nat.le_of_lt above) below⟩)
  have same : x = other := by
    rcases Nat.lt_or_eq_of_le below with early | rfl
    · rw [← cursor']
      exact stays (n + 1) (by omega) early
    · rw [← cursor']
      exact second.search.1
  subst same
  rcases ((between above quiet).2 x).mp has with left | ⟨k, from', low, request, -⟩
  · rw [cleared] at left
    simp at left
  · refine again i n above first.call call quiet ⟨line, ?_, waits i (Nat.le_refl i) (Nat.le_of_lt lt)⟩ k from' low ?_
    · rwa [here]
    · rwa [here]

/-- A line that is served again at once passes over the lines that wait. -/
theorem notAgain_of_fair (fair : ∀ i j line other, i < j → line ≠ other → Serves vs events i other →
    Serves vs events j other → ¬ ∀ k, i ≤ k → k ≤ j → (before vs events k).pending line = true) :
    NotAgain vs events := by
  rintro i j lt first second quiet ⟨l, ne, waits⟩ k above below request
  obtain ⟨cursor, lines⟩ := @between vs events (i + 1) j (Nat.succ_le_of_lt lt) quiet
  obtain ⟨x, inside, -, has, -, at', cleared, -⟩ := search vs first (irqLineStatus_iff.mpr ⟨l, waits⟩)
  have here : (before vs events j).currentInterrupt = x := cursor.trans at'
  rw [here] at ne request
  have left : (before vs events (i + 1)).pending l = true := by rw [cleared, waits, bne_iff_ne.mpr ne]; rfl
  have all : ∀ n, i + 1 ≤ n → n ≤ j → (before vs events n).pending l = true := fun n from' low =>
    ((between from' fun k at' low' => quiet k at' (lt_of_lt_of_le low' low)).2 l).mpr (Or.inl left)
  have again : (before vs events j).pending x = true := (lines x).mpr (Or.inr ⟨k, above, below, request, inside⟩)
  obtain ⟨y, -, -, -, -, -, cleared', -, stays⟩ := search vs second (irqLineStatus_iff.mpr ⟨x, again⟩)
  have same : y = x := (stays (by rw [here]; exact again)).trans here
  subst same
  refine fair i j l y lt ne ⟨first, has, ?_⟩ ⟨second, again, ?_⟩ fun n from' low => ?_
  · rw [cleared]
    simp
  · rw [cleared']
    simp
  · rcases Nat.lt_or_eq_of_le from' with later | rfl
    · exact all n later low
    · exact waits

/-- **Interrupt arbitration**: searches end, return the vector of a pending line and clear it, and no request is lost;
no line is passed over twice for the same other line exactly where no line is served again at once. -/
theorem arbitration_iff (vs : Nat → Word) (events : List IrqEvent) : Arbitration vs events ↔ NotAgain vs events := by
  constructor
  · exact fun right => notAgain_of_fair right.fair
  · intro again
    refine ⟨fun k here status => ?_, fun k irq here inside j => ?_, fun i j line other lt ne first second =>
      passed_again again lt ne first second⟩
    · obtain ⟨line, inside, ends, has, value, -, cleared, -⟩ := search vs here status
      exact ⟨line, inside, ends, has, value, cleared⟩
    · -- by induction on the events behind the request
      intro lt
      induction j, Nat.succ_le_of_lt lt using Nat.le_induction with
      | base =>
        intro _ _
        rw [(before_request here).2, decide_eq_true rfl, decide_eq_true inside, Bool.and_true, Bool.or_true]
      | succ j le ih =>
        intro short none
        refine pending_succ (ih le (Nat.le_of_succ_le short) fun i above below => ?_) ?_
        · exact none i above (Nat.lt_succ_of_lt below)
        · exact none j le (Nat.lt_succ_self j)

/-- **A line starves another**: line 0 is requested again each time it is served, and line 1 waits. -/
theorem arbitration_starves : ¬ Arbitration (fun _ => 0)
    [.request 0, .request 1, .getIrqVector, .request 0, .getIrqVector] := by
  intro right
  refine right.fair 2 4 1 0 (by decide) (by decide) ⟨rfl, rfl, rfl⟩ ⟨rfl, rfl, rfl⟩ fun k above below => ?_
  obtain rfl | rfl | rfl : k = 2 ∨ k = 3 ∨ k = 4 := by omega
  · rfl
  · rfl
  · rfl

end InterruptController

end RlCpu.Sim
