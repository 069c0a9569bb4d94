/-
**A bounded channel.**

A channel holds words in the order in which they came, at most `capacity` of them. What is put is taken up to the
room that is left; what is taken is what is there, up to what is asked for.

* `Run.conserved`: while it is not cleared, a channel loses and makes no word, and keeps their order.
-/

import RlCpu.Lib.Runs

namespace RlCpu.Lib

variable {α : Type}

/-- What is done to a channel. -/
inductive Move (α : Type)
  /-- `n` of the words were accepted. -/
  | put (words : List α) (n : Nat)
  /-- `n` words were asked for. -/
  | take (n : Nat) (words : List α)
  | clear
  | stay

namespace Move

variable (capacity : Nat)

/-- A move of a channel that holds at most `capacity` words. -/
def Step (q : List α) (move : Move α) (q' : List α) : Prop :=
  match move with
  | put words n => n = min words.length (capacity - q.length) ∧ q' = q ++ words.take n
  | take n words => words = q.take n ∧ q' = q.drop n
  | clear => q' = []
  | stay => q' = q

/-- The words that were accepted. -/
def accepted : Move α → List α
  | put words n => words.take n
  | _ => []

/-- The words that were delivered. -/
def delivered : Move α → List α
  | take _ words => words
  | _ => []

variable {capacity} {q q' : List α} {move : Move α} {moves : List (Move α)}

theorem Step.conserved (step : Step capacity q move q') (whole : move ≠ clear) :
    q ++ move.accepted = move.delivered ++ q' := by
  cases move with
  | put words n => exact step.2.symm
  | take n words =>
    obtain ⟨rfl, rfl⟩ := step
    show q ++ [] = q.take n ++ q.drop n
    rw [List.append_nil, List.take_append_drop]
  | clear => exact absurd rfl whole
  | stay =>
    obtain rfl : q' = q := step
    exact List.append_nil q'

/-- **No word is lost, made or moved** while the channel is not cleared. By induction on the moves. -/
theorem conserved (run : Run (Step capacity) q moves q') (whole : ∀ move ∈ moves, move ≠ clear) :
    q ++ moves.flatMap accepted = moves.flatMap delivered ++ q' := by
  induction run with
  | nil q => exact List.append_nil q
  | @cons q m u move moves first _ ih =>
    have here := first.conserved (whole move List.mem_cons_self)
    have later := ih fun move mem => whole move (List.mem_cons_of_mem _ mem)
    rw [List.flatMap_cons, List.flatMap_cons, ← List.append_assoc, here, List.append_assoc, later, List.append_assoc]

end Move

end RlCpu.Lib
