/-
**Labelled runs of a step relation, and their invariants.**

`Run step s ops t`: the operations `ops`, taken in order, lead from `s` to `t`. `Run.preserves` is
the one induction every run result of the development goes through: what each step keeps, a run
keeps; `Run.labels` is the same for the labels. `Run.describes` goes from one level to another, and
`Run.append` joins runs. `Run.of_check` finds a run by performing it.
-/

import Mathlib.Data.List.Basic

namespace RlCpu.Lib

variable {σ ι : Type}

/-- `Run step s ops t`: the operations `ops` lead from `s` to `t`. -/
inductive Run (step : σ → ι → σ → Prop) : σ → List ι → σ → Prop
  | nil (s : σ) : Run step s [] s
  | cons {s t u : σ} {op : ι} {ops : List ι} :
      step s op t → Run step t ops u → Run step s (op :: ops) u

namespace Run

variable {step : σ → ι → σ → Prop} {s t u : σ} {ops : List ι}

/-- **What every step keeps, a run keeps.** -/
theorem preserves {inv : σ → Prop} (keep : ∀ s op t, inv s → step s op t → inv t)
    (run : Run step s ops t) (start : inv s) : inv t := by
  induction run with
  | nil s => exact start
  | cons first _ ih => exact ih (keep _ _ _ start first)

/-- **What every step from a state of the invariant shows, every step of a run shows.** -/
theorem labels (inv : σ → Prop) {shown : ι → Prop}
    (keep : ∀ s op t, inv s → step s op t → inv t ∧ shown op) (run : Run step s ops t)
    (start : inv s) : ∀ op ∈ ops, shown op := by
  induction run with
  | nil s => exact fun op mem => absurd mem List.not_mem_nil
  | cons first _ ih =>
    obtain ⟨next, here⟩ := keep _ _ _ start first
    intro op mem
    rcases List.mem_cons.mp mem with rfl | later
    · exact here
    · exact ih next op later

/-- Runs over a stronger step relation are runs over a weaker one. -/
theorem mono {weaker : σ → ι → σ → Prop} (weak : ∀ s op t, step s op t → weaker s op t)
    (run : Run step s ops t) : Run weaker s ops t := by
  induction run with
  | nil s => exact .nil s
  | cons first _ ih => exact .cons (weak _ _ _ first) ih

theorem append {more : List ι} (first : Run step s ops t) (second : Run step t more u) :
    Run step s (ops ++ more) u := by
  induction first with
  | nil s => exact second
  | cons head _ ih => exact .cons head (ih second)

/-- **Refinement**: a run is a run of what it describes, where each step describes one. -/
theorem describes {τ κ : Type} {coarse : τ → κ → τ → Prop} {R : σ → τ → Prop} {f : ι → κ}
    (each : ∀ s op t a, R s a → step s op t → ∃ b, coarse a (f op) b ∧ R t b)
    (run : Run step s ops t) {a : τ} (start : R s a) : ∃ b, Run coarse a (ops.map f) b ∧ R t b := by
  induction run generalizing a with
  | nil s => exact ⟨a, .nil a, start⟩
  | cons first _ ih =>
    obtain ⟨b, here, next⟩ := each _ _ _ _ start first
    obtain ⟨c, later, last⟩ := ih next
    exact ⟨c, .cons here later, last⟩

theorem single {op : ι} (head : step s op t) : Run step s [op] t := .cons head (.nil t)

end Run

/-! ### Runs that are computed -/

/-- The operations, performed one after the other. -/
def performAll (exec : σ → ι → Option σ) : σ → List ι → Option σ
  | s, [] => some s
  | s, op :: ops => (exec s op).bind (performAll exec · ops)

section Computed

variable {exec : σ → ι → Option σ} {step : σ → ι → σ → Prop} {s t : σ} {ops : List ι}
  (sound : ∀ s op t, exec s op = some t → step s op t)

include sound

theorem Run.of_performAll (performed : performAll exec s ops = some t) : Run step s ops t := by
  induction ops generalizing s with
  | nil =>
    obtain rfl := Option.some.inj performed
    exact .nil s
  | cons op ops ih =>
    obtain ⟨u, first, rest⟩ := Option.bind_eq_some_iff.mp performed
    exact .cons (sound s op u first) (ih rest)

/-- **A run with a check at its end.** -/
theorem Run.of_check {p : σ → Bool} (check : (performAll exec s ops).any p = true) :
    ∃ t, Run step s ops t ∧ p t = true := by
  obtain ⟨t, performed, passed⟩ := (Option.any_eq_true _ _).mp check
  exact ⟨t, .of_performAll sound performed, passed⟩

end Computed

end RlCpu.Lib
