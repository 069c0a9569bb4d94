/-
**Weakest preconditions through a refinement relation.**

A program is a `StateT σ (Except ε)` computation over concrete states `σ`. It is reasoned about in
terms of abstract states `τ`, related to the concrete ones by `R : σ → τ → Prop`.

`wp R ok p post a`: from every concrete state that `a` describes, `p` either returns a value and a
state that some `a'` with `post` describes, or faults with an error of `ok`. With `ok` empty this is
total correctness; with a larger `ok` the program may also stop in the faults of `ok`.

The rules: `wp_pure`, `wp_bind`, `wp_pos`, `wp_neg`, `wp_mono`, `wp_map` and `wp_throw`. `bind_ok` takes a program of
`Except` that returns apart, `ok_bind` puts it together.

`Yields p post`: whatever `p` returns, from any state, satisfies `post`; the states do not matter.
`Raises p ok`: whatever `p` faults with is in `ok`. `Along p r`: where `p` returns, its states are related by
`r`.
-/

import Mathlib.Tactic.Common

namespace RlCpu.Lib

variable {σ τ ε α β : Type} {R : σ → τ → Prop} {ok : ε → Prop}

/-- The program is correct from every concrete state that `a` describes. -/
def wp (R : σ → τ → Prop) (ok : ε → Prop) (p : StateT σ (Except ε) α) (post : α → τ → Prop)
    (a : τ) : Prop :=
  ∀ s, R s a → match p s with
    | .ok (x, t) => ∃ b, R t b ∧ post x b
    | .error e => ok e

variable {p : StateT σ (Except ε) α} {f : α → StateT σ (Except ε) β} {a : τ}

theorem wp_pure {post : α → τ → Prop} {x : α} (here : post x a) :
    wp R ok (pure x : StateT σ (Except ε) α) post a :=
  fun _ shows => ⟨a, shows, here⟩

theorem wp_throw {post : α → τ → Prop} {e : ε} (tolerated : ok e) :
    wp R ok (throw e : StateT σ (Except ε) α) post a :=
  fun _ _ => tolerated

/-- **Sequencing.** -/
theorem wp_bind {post : β → τ → Prop}
    (first : wp R ok p (fun x b => wp R ok (f x) post b) a) : wp R ok (p >>= f) post a := by
  intro s shows
  have step := first s shows
  show match (p s).bind fun v => f v.1 v.2 with
    | .ok (x, t) => ∃ b, R t b ∧ post x b
    | .error e => ok e
  cases result : p s with
  | error e =>
    rw [result] at step
    exact step
  | ok v =>
    rw [result] at step
    obtain ⟨b, shows', rest⟩ := step
    exact rest v.2 shows'

/-- **Consequence.** -/
theorem wp_mono {post weaker : α → τ → Prop} (first : wp R ok p post a)
    (weak : ∀ x b, post x b → weaker x b) : wp R ok p weaker a := by
  intro s shows
  have step := first s shows
  cases result : p s with
  | error e =>
    rw [result] at step
    exact step
  | ok v =>
    rw [result] at step
    obtain ⟨b, shows', holds⟩ := step
    exact ⟨b, shows', weak _ _ holds⟩

theorem wp_pos {c : Prop} [Decidable c] {q : StateT σ (Except ε) α} {post : α → τ → Prop}
    (here : c) (branch : wp R ok p post a) : wp R ok (if c then p else q) post a := by
  rwa [if_pos here]

theorem wp_neg {c : Prop} [Decidable c] {q : StateT σ (Except ε) α} {post : α → τ → Prop}
    (here : ¬ c) (branch : wp R ok q post a) : wp R ok (if c then p else q) post a := by
  rwa [if_neg here]

/-- Sequencing after a mapped result. -/
theorem wp_map {g : α → β} {post : β → τ → Prop} (first : wp R ok p (fun x b => post (g x) b) a) :
    wp R ok (g <$> p) post a := by
  intro s shows
  have step := first s shows
  show match (p s).map fun v => (g v.1, v.2) with
    | .ok (x, t) => ∃ b, R t b ∧ post x b
    | .error e => ok e
  cases result : p s with
  | error e =>
    rw [result] at step
    exact step
  | ok v =>
    rw [result] at step
    exact step

/-- **Total correctness is a run**: with no fault tolerated, the program returns. -/
theorem wp.returns {post : α → τ → Prop} (correct : wp R (fun _ : ε => False) p post a) {s : σ}
    (shows : R s a) : ∃ x t b, p s = .ok (x, t) ∧ R t b ∧ post x b := by
  have step := correct s shows
  cases result : p s with
  | error e =>
    rw [result] at step
    exact step.elim
  | ok v =>
    rw [result] at step
    obtain ⟨b, shows', holds⟩ := step
    exact ⟨v.1, v.2, b, rfl, shows', holds⟩

/-- A sequence that returns: both parts do. -/
theorem bind_ok {x : Except ε α} {g : α → Except ε β} {r : β} (returns : (x >>= g) = .ok r) :
    ∃ v, x = .ok v ∧ g v = .ok r := by
  cases x with
  | error e => cases returns
  | ok v => exact ⟨v, rfl, returns⟩

/-- One step that returns, and another after it. -/
theorem ok_bind {x : Except ε α} {g : α → Except ε β} {v : α} {r : β} (first : x = .ok v) (second : g v = .ok r) :
    (x >>= g) = .ok r := by
  rw [first]
  exact second

/-- The rest of a program whose first part returned. -/
theorem bind_run {s t : σ} {x : α} (first : p s = .ok (x, t)) : (p >>= f) s = f x t := by
  show (p s).bind (fun v => f v.1 v.2) = _
  rw [first]
  rfl

/-- A program that returns: its first part and the rest do. -/
theorem run_ok {s t : σ} {y : β} (returns : (p >>= f) s = .ok (y, t)) :
    ∃ x s', p s = .ok (x, s') ∧ f x s' = .ok (y, t) := by
  obtain ⟨v, before, later⟩ := bind_ok (x := p s) (g := fun v => f v.1 v.2) returns
  exact ⟨v.1, v.2, before, later⟩

/-- The rest of a program that returns, where its first part is known. -/
theorem run_next {s s' t : σ} {x : α} {y : β} (returns : (p >>= f) s = .ok (y, t)) (first : p s = .ok (x, s')) :
    f x s' = .ok (y, t) := (bind_run first).symm.trans returns

/-- A program that faults: its first part or the rest does. -/
theorem run_error {s : σ} {e : ε} (faults : (p >>= f) s = .error e) :
    p s = .error e ∨ ∃ x s', p s = .ok (x, s') ∧ f x s' = .error e := by
  cases first : p s with
  | error e' =>
    have same : (p >>= f) s = .error e' := by
      show (p s).bind _ = _
      rw [first]
      rfl
    exact Or.inl (congrArg _ (Except.error.inj (same.symm.trans faults)))
  | ok v =>
    rw [bind_run first] at faults
    exact Or.inr ⟨v.1, v.2, rfl, faults⟩

/-! ### What a program returns -/

/-- Whatever the program returns satisfies `post`. -/
def Yields (p : StateT σ (Except ε) α) (post : α → Prop) : Prop :=
  ∀ s x t, p s = .ok (x, t) → post x

namespace Yields

theorem of_pure {post : α → Prop} {x : α} (here : post x) :
    Yields (pure x : StateT σ (Except ε) α) post := by
  intro s y t returns
  obtain ⟨rfl, -⟩ := Prod.mk.inj (Except.ok.inj returns)
  exact here

theorem of_throw {post : α → Prop} {e : ε} : Yields (throw e : StateT σ (Except ε) α) post :=
  fun _ _ _ returns => by cases returns

/-- **Sequencing**: what the first part returns does not matter. -/
theorem of_bind {post : β → Prop} (rest : ∀ x, Yields (f x) post) : Yields (p >>= f) post := by
  intro s y t returns
  obtain ⟨v, -, later⟩ := bind_ok (x := p s) (g := fun v => f v.1 v.2) returns
  exact rest v.1 v.2 y t later

/-- Sequencing where what the first part returns is known. -/
theorem of_bind' {first : α → Prop} {post : β → Prop} (yields : Yields p first)
    (rest : ∀ x, first x → Yields (f x) post) : Yields (p >>= f) post := by
  intro s y t returns
  obtain ⟨v, before, later⟩ := bind_ok (x := p s) (g := fun v => f v.1 v.2) returns
  exact rest v.1 (yields s v.1 v.2 before) v.2 y t later

theorem of_map {g : α → β} {post : β → Prop} (yields : Yields p fun x => post (g x)) :
    Yields (g <$> p) post := by
  intro s y t returns
  obtain ⟨v, before, same⟩ := bind_ok (x := p s) (g := fun v => .ok (g v.1, v.2)) returns
  obtain ⟨rfl, -⟩ := Prod.mk.inj (Except.ok.inj same)
  exact yields s v.1 v.2 before

end Yields

/-! ### What a program faults with -/

/-- Whatever the program faults with is in `ok`. -/
def Raises (p : StateT σ (Except ε) α) (ok : ε → Prop) : Prop := ∀ s e, p s = .error e → ok e

namespace Raises

theorem of_pure {x : α} : Raises (pure x : StateT σ (Except ε) α) ok := fun _ _ faults => by cases faults

theorem of_throw {e : ε} (tolerated : ok e) : Raises (throw e : StateT σ (Except ε) α) ok := by
  intro s e' faults
  obtain rfl := Except.error.inj faults
  exact tolerated

/-- **Sequencing.** -/
theorem of_bind (first : Raises p ok) (rest : ∀ x, Raises (f x) ok) : Raises (p >>= f) ok := by
  intro s e faults
  rcases run_error faults with here | ⟨x, s', -, later⟩
  · exact first s e here
  · exact rest x s' e later

end Raises

/-! ### Where a program goes -/

/-- Where the program returns, its first and its last state are related. -/
def Along (p : StateT σ (Except ε) α) (r : σ → σ → Prop) : Prop := ∀ s x t, p s = .ok (x, t) → r s t

namespace Along

variable {r : σ → σ → Prop}

theorem of_pure {x : α} (refl : ∀ s, r s s) : Along (pure x : StateT σ (Except ε) α) r := by
  intro s y t returns
  obtain ⟨-, rfl⟩ := Prod.mk.inj (Except.ok.inj returns)
  exact refl s

theorem of_get (refl : ∀ s, r s s) : Along (get : StateT σ (Except ε) σ) r := by
  intro s y t returns
  obtain ⟨-, rfl⟩ := Prod.mk.inj (Except.ok.inj returns)
  exact refl s

theorem of_throw {e : ε} : Along (throw e : StateT σ (Except ε) α) r := fun _ _ _ returns => by cases returns

theorem of_modify {g : σ → σ} (moves : ∀ s, r s (g s)) :
    Along (modify g : StateT σ (Except ε) PUnit) r := by
  intro s y t returns
  obtain ⟨-, rfl⟩ := Prod.mk.inj (Except.ok.inj returns)
  exact moves s

/-- **Sequencing.** -/
theorem of_bind (trans : ∀ a b c, r a b → r b c → r a c) (first : Along p r) (rest : ∀ x, Along (f x) r) :
    Along (p >>= f) r := by
  intro s y t returns
  obtain ⟨x, s', before, later⟩ := run_ok returns
  exact trans s s' t (first s x s' before) (rest x s' y t later)

end Along

end RlCpu.Lib
