/-
**A scan that goes round.**

`scan n p fuel c` looks at `n` positions in turn from `c` on, and is at position `0` again behind the last; it stops at
the first position that has `p`. `ahead n l c` is the number of steps from `c` to `l`.

* `scan_some`: it stops, and does not pass a position that has `p`.
* `find?_rotate`: the same search in the list of the positions.
-/

import Mathlib.Data.List.Range

namespace RlCpu.Lib

/-- The position behind `c`. -/
def rotate (n c : Nat) : Nat := if c + 1 = n then 0 else c + 1

/-- The first position from `c` on that has `p`. -/
def scan (n : Nat) (p : Nat → Bool) : (fuel : Nat) → (c : Nat) → Option Nat
  | 0, _ => none
  | fuel + 1, c => if p c then some c else scan n p fuel (rotate n c)

/-- How many steps `l` is ahead of `c`. -/
def ahead (n l c : Nat) : Nat := if c ≤ l then l - c else l + n - c

variable {n c c' l x fuel : Nat} {p : Nat → Bool}

theorem rotate_lt (low : c < n) : rotate n c < n := by
  unfold rotate
  split <;> omega

theorem ahead_lt (low : l < n) (low' : c < n) : ahead n l c < n := by
  unfold ahead
  split <;> omega

/-- A step leads one nearer to every position but the one it leaves. -/
theorem ahead_rotate (low : l < n) (low' : c < n) (ne : c ≠ l) : ahead n l (rotate n c) + 1 = ahead n l c := by
  unfold ahead rotate
  by_cases last : c + 1 = n
  · rw [if_pos last, if_pos (Nat.zero_le l), if_neg (by omega)]
    omega
  · rw [if_neg last]
    split <;> split <;> omega

theorem ahead_inj (low : c < n) (low' : c' < n) (_ : l < n) (same : ahead n l c = ahead n l c') : c = c' := by
  unfold ahead at same
  split at same <;> split at same <;> omega

/-- **The scan stops at or before a position that has `p`.** By induction on the steps that are left. -/
theorem scan_some (here : l < n) (has : p l = true) : ∀ {fuel c : Nat}, c < n → ahead n l c < fuel →
    ∃ x, scan n p fuel c = some x ∧ x < n ∧ p x = true ∧ ahead n l x ≤ ahead n l c := by
  intro fuel
  induction fuel with
  | zero => exact fun _ none => absurd none (Nat.not_lt_zero _)
  | succ fuel ih =>
    intro c low enough
    unfold scan
    by_cases found : p c = true
    · exact ⟨c, if_pos found, low, found, Nat.le_refl _⟩
    · have ne : c ≠ l := fun same => found (same ▸ has)
      have nearer := ahead_rotate here low ne
      obtain ⟨x, run, low', has', le⟩ := ih (rotate_lt low) (by omega)
      exact ⟨x, by rw [if_neg found, run], low', has', by omega⟩

/-- A scan that starts where `p` holds stays there. -/
theorem scan_here (has : p c = true) : scan n p (fuel + 1) c = some c := by
  unfold scan
  exact if_pos has

/-- More steps lead to the same position. -/
theorem scan_more (found : scan n p fuel c = some x) (more : Nat) : scan n p (fuel + more) c = some x := by
  induction fuel generalizing c with
  | zero => cases found
  | succ fuel ih =>
    rw [Nat.add_right_comm]
    unfold scan at found ⊢
    split at found
    case isTrue has => rwa [if_pos has]
    case isFalse none =>
      rw [if_neg none]
      exact ih found

/-- **The positions in turn as a list.** By induction on the steps. -/
theorem find?_rotate : ∀ (fuel : Nat) {c : Nat}, c < n →
    ((List.range fuel).map fun i => (c + i) % n).find? p = scan n p fuel c := by
  intro fuel
  induction fuel with
  | zero => exact fun _ => rfl
  | succ fuel ih =>
    intro c low
    have first : (c + 0) % n = c := Nat.mod_eq_of_lt low
    have later : ((fun i => (c + i) % n) ∘ Nat.succ) = fun i => (rotate n c + i) % n := by
      funext i
      show (c + (i + 1)) % n = _
      unfold rotate
      split
      case isTrue last => rw [show c + (i + 1) = n + i by omega, Nat.add_mod_left, Nat.zero_add]
      case isFalse => rw [Nat.add_right_comm, Nat.add_assoc]
    rw [List.range_succ_eq_map, List.map_cons, List.map_map, later, first, List.find?_cons]
    unfold scan
    cases has : p c with
    | true => rfl
    | false => exact ih (rotate_lt low)

end RlCpu.Lib
