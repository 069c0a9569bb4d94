/-
**Programs that can be aborted, and keep their state.**

`Abort ε σ` are the programs over states `σ` that return or stop with an error of `ε`; the state at the
error is kept. `exec p s` is the run of `p` from `s`. The rules take a run apart at a bind: `exec_bind`
in general, `exec_bind_ok` where the first part returns, `exec_bind_error` where it stops.

`Preserved inv p`: every run of `p` keeps `inv`, whether it returns or stops.
-/

import Mathlib.Tactic.Common

namespace RlCpu.Lib

/-- Programs that return or stop with an error. -/
abbrev Abort (ε σ : Type) : Type → Type := ExceptT ε (StateM σ)

namespace Abort

variable {ε σ α β : Type}

/-- The run of a program from a state. -/
def exec (p : Abort ε σ α) (s : σ) : Except ε α × σ := StateT.run (ExceptT.run p) s

variable {p : Abort ε σ α} {f : α → Abort ε σ β} {s t : σ}

@[simp] theorem exec_pure (a : α) (s : σ) : exec (pure a : Abort ε σ α) s = (.ok a, s) := rfl

@[simp] theorem exec_throw (e : ε) (s : σ) :
    exec (throw e : Abort ε σ α) s = (.error e, s) := rfl

@[simp] theorem exec_get (s : σ) : exec (get : Abort ε σ σ) s = (.ok s, s) := rfl

@[simp] theorem exec_modify (g : σ → σ) (s : σ) :
    exec (modify g : Abort ε σ PUnit) s = (.ok ⟨⟩, g s) := rfl

/-- **Sequencing.** -/
theorem exec_bind (p : Abort ε σ α) (f : α → Abort ε σ β) (s : σ) :
    exec (p >>= f) s = match exec p s with
      | (.ok a, t) => exec (f a) t
      | (.error e, t) => (.error e, t) := by
  show StateT.run (ExceptT.run (p >>= f)) s = _
  rw [ExceptT.run_bind, StateT.run_bind]
  unfold exec
  generalize StateT.run (ExceptT.run p) s = result
  obtain ⟨value, t⟩ := result
  cases value <;> rfl

/-- The first part returns. -/
theorem exec_bind_ok {a : α} (first : exec p s = (.ok a, t)) : exec (p >>= f) s = exec (f a) t := by
  rw [exec_bind, first]

/-- The first part stops. -/
theorem exec_bind_error {e : ε} (first : exec p s = (.error e, t)) :
    exec (p >>= f) s = (.error e, t) := by
  rw [exec_bind, first]

/-- A run that returns returns in both parts. -/
theorem exec_bind_returns {b : β} {u : σ} (run : exec (p >>= f) s = (.ok b, u)) :
    ∃ a t, exec p s = (.ok a, t) ∧ exec (f a) t = (.ok b, u) := by
  rw [exec_bind] at run
  split at run
  case h_1 a t first => exact ⟨a, t, first, run⟩
  case h_2 => cases run

/-! ### Invariants -/

/-- Every run keeps `inv`, whether it returns or stops. -/
def Preserved (inv : σ → Prop) (p : Abort ε σ α) : Prop := ∀ s, inv s → inv (exec p s).2

namespace Preserved

variable {inv : σ → Prop}

theorem pure (a : α) : Preserved inv (pure a : Abort ε σ α) := fun _ holds => holds

theorem throw (e : ε) : Preserved inv (throw e : Abort ε σ α) := fun _ holds => holds

theorem modify {g : σ → σ} (keeps : ∀ s, inv s → inv (g s)) :
    Preserved inv (modify g : Abort ε σ PUnit) := keeps

/-- Both parts keep the invariant. -/
theorem bind (first : Preserved inv p) (second : ∀ a, Preserved inv (f a)) : Preserved inv (p >>= f) := by
  intro s holds
  have middle := first s holds
  rw [exec_bind]
  generalize exec p s = result at middle ⊢
  obtain ⟨value, t⟩ := result
  cases value with
  | error e => exact middle
  | ok a => exact second a t middle

/-- A program that reads its state first. -/
theorem get {f : σ → Abort ε σ β} (second : ∀ s, Preserved inv (f s)) :
    Preserved inv (MonadState.get >>= f) := bind (fun _ holds => holds) second

end Preserved

end Abort

end RlCpu.Lib
