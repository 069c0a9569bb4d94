/-
**Runs of a deterministic relation.**

`Ends r s t`: the steps from `s` end in `t`. A deterministic run ends in one state at most, its end does not depend on
where on the run one starts, and it does not end where it always comes back to a property.
-/

import Mathlib.Logic.Relation

namespace RlCpu.Lib

open Relation

variable {σ : Type} {r : σ → σ → Prop} {s s' t u : σ}

/-- A state has one successor at most. -/
def Deterministic (r : σ → σ → Prop) : Prop := ∀ s t u, r s t → r s u → t = u

/-- The steps from `s` end in `t`. -/
structure Ends (r : σ → σ → Prop) (s t : σ) : Prop where
  steps : ReflTransGen r s t
  final : ∀ u, ¬ r t u

/-- **The end of a run is the end of what is left of it.** By induction on the steps taken. -/
theorem Ends.of_steps (det : Deterministic r) (steps : ReflTransGen r s s') (ends : Ends r s t) : Ends r s' t := by
  induction steps using ReflTransGen.head_induction_on with
  | refl => exact ends
  | head first _ ih =>
    refine ih ⟨?_, ends.final⟩
    rcases ends.steps.cases_head with rfl | ⟨m, first', rest⟩
    · exact absurd first (ends.final _)
    · rwa [det _ _ _ first first']

theorem Ends.head (steps : ReflTransGen r s s') (ends : Ends r s' t) : Ends r s t :=
  ⟨steps.trans ends.steps, ends.final⟩

theorem Ends.unique (det : Deterministic r) (first : Ends r s t) (second : Ends r s u) : t = u := by
  rcases (second.of_steps det first.steps).steps.cases_head with same | ⟨m, step, -⟩
  · exact same
  · exact absurd step (first.final m)

/-- From where a run ends there is no infinite one. By induction on the steps. -/
theorem Ends.acc (det : Deterministic r) (ends : Ends r s t) : Acc (fun a b => r b a) s := by
  obtain ⟨steps, final⟩ := ends
  induction steps using ReflTransGen.head_induction_on with
  | refl => exact ⟨_, fun u step => absurd step (final u)⟩
  | head first _ ih => exact ⟨_, fun u step => det _ _ _ first step ▸ ih⟩

/-- **A run that always comes back to a property does not end.** -/
theorem not_ends_of_returns (det : Deterministic r) {P : σ → Prop} (returns : ∀ s, P s → ∃ t, TransGen r s t ∧ P t)
    (start : P s) (t : σ) : ¬ Ends r s t := by
  intro ends
  have reaches := (ends.acc det).transGen
  induction reaches with
  | intro s _ ih =>
    obtain ⟨t', steps, again⟩ := returns s start
    exact ih t' (transGen_swap.mpr steps) again (ends.of_steps det steps.to_reflTransGen)

end RlCpu.Lib
