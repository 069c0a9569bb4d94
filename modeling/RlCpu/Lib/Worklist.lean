/-
**A list that grows while it is walked through.**

From a list of nodes a worklist adds the neighbours of every node on it, each once, and comes to the ones it
added as well.

* `worklist_returns`: among finitely many nodes it comes to its end, with the nodes that are reached from the
  start.
-/

import Mathlib.Data.Finset.Card
import Mathlib.Logic.Relation

namespace RlCpu.Lib

variable {α : Type}

/-- The nodes that are not there yet, put to the end. -/
def pushNew [DecidableEq α] (done : List α) : List α → List α
  | [] => done
  | a :: rest => pushNew (if a ∈ done then done else done ++ [a]) rest

/-- The neighbours of the nodes from number `i` on. -/
def worklist [DecidableEq α] (next : α → List α) : (fuel i : Nat) → List α → Option (List α)
  | 0, _, _ => none
  | fuel + 1, i, done =>
    match done[i]? with
    | none => some done
    | some a => worklist next fuel (i + 1) (pushNew done (next a))

section Push

variable [DecidableEq α]

theorem pushNew_mem {done more : List α} {a : α} : a ∈ pushNew done more ↔ a ∈ done ∨ a ∈ more := by
  induction more generalizing done with
  | nil => exact ⟨Or.inl, fun either => either.resolve_right (List.not_mem_nil)⟩
  | cons b more ih =>
    unfold pushNew
    rw [ih, List.mem_cons, ← or_assoc]
    refine or_congr_left ?_
    split
    case isTrue there => exact ⟨Or.inl, fun either => either.elim id fun same => same ▸ there⟩
    case isFalse new => rw [List.mem_append, List.mem_singleton]

theorem pushNew_nodup {done more : List α} (nodup : done.Nodup) : (pushNew done more).Nodup := by
  induction more generalizing done with
  | nil => exact nodup
  | cons b more ih =>
    unfold pushNew
    split
    case isTrue there => exact ih nodup
    case isFalse new =>
      refine ih (List.Nodup.append nodup (List.nodup_singleton b) fun x here same => ?_)
      exact new (List.mem_singleton.mp same ▸ here)

/-- The nodes that were there stay in front. -/
theorem pushNew_extends (done more : List α) : done <+: pushNew done more := by
  induction more generalizing done with
  | nil => exact List.prefix_rfl
  | cons b more ih =>
    unfold pushNew
    split
    case isTrue there => exact ih done
    case isFalse new => exact (List.prefix_append done [b]).trans (ih _)

end Push

section Walk

variable {next : α → List α} {start : List α}

/-- A node is reached from the start. -/
def ReachedFrom (next : α → List α) (start : List α) (a : α) : Prop :=
  ∃ s ∈ start, Relation.ReflTransGen (fun x y => y ∈ next x) s a

/-- The walk so far: every node is there once and is reached, and the nodes before number `i` have their
neighbours. -/
structure Walk (next : α → List α) (start : List α) (i : Nat) (done : List α) : Prop where
  low : i ≤ done.length
  nodup : done.Nodup
  first : ∀ a ∈ start, a ∈ done
  reached : ∀ a ∈ done, ReachedFrom next start a
  visited : ∀ (j : Nat) a, j < i → done[j]? = some a → ∀ b ∈ next a, b ∈ done

theorem Walk.begin (nodup : start.Nodup) : Walk next start 0 start where
  low := Nat.zero_le _
  nodup := nodup
  first := fun _ here => here
  reached := fun a here => ⟨a, here, .refl⟩
  visited := fun j _ low => absurd low (Nat.not_lt_zero j)

/-- At the end the list is closed. -/
theorem Walk.mem_iff {i : Nat} {done : List α} (walk : Walk next start i done) (complete : done.length ≤ i) (a : α) :
    a ∈ done ↔ ReachedFrom next start a := by
  refine ⟨walk.reached a, ?_⟩
  rintro ⟨s, first, path⟩
  induction path with
  | refl => exact walk.first s first
  | tail _ edge there =>
    obtain ⟨j, low, rfl⟩ := List.getElem_of_mem there
    exact walk.visited j _ (low.trans_le complete) (List.getElem?_eq_getElem low) _ edge

variable [DecidableEq α]

/-- One node more. -/
theorem Walk.step {i : Nat} {done : List α} {a : α} (walk : Walk next start i done) (here : done[i]? = some a) :
    Walk next start (i + 1) (pushNew done (next a)) where
  low := by
    have inside := (List.getElem?_eq_some_iff.mp here).1
    exact Nat.le_trans inside (pushNew_extends done (next a)).length_le
  nodup := pushNew_nodup walk.nodup
  first := fun b mem => pushNew_mem.mpr (Or.inl (walk.first b mem))
  reached := by
    intro b mem
    obtain old | new := pushNew_mem.mp mem
    · exact walk.reached b old
    · obtain ⟨s, first, path⟩ := walk.reached a (List.mem_of_getElem? here)
      exact ⟨s, first, path.tail new⟩
  visited := by
    intro j c low there b mem
    have inside : j < done.length := by
      have bound := (List.getElem?_eq_some_iff.mp here).1
      omega
    obtain ⟨more, whole⟩ := pushNew_extends done (next a)
    rw [← whole, List.getElem?_append_left inside] at there
    obtain old | rfl : j < i ∨ j = i := by omega
    · exact pushNew_mem.mpr (Or.inl (walk.visited j c old there b mem))
    · obtain rfl := Option.some.inj (here.symm.trans there)
      exact pushNew_mem.mpr (Or.inr mem)

/-- **The walk comes to its end** among finitely many nodes, with the nodes that are reached, each once. -/
theorem worklist_returns {nodes : Finset α} {i fuel : Nat} {done : List α} (walk : Walk next start i done)
    (inside : ∀ a, ReachedFrom next start a → a ∈ nodes) (enough : nodes.card < fuel + i) :
    ∃ all, worklist next fuel i done = some all ∧ all.Nodup ∧ ∀ a, a ∈ all ↔ ReachedFrom next start a := by
  induction fuel generalizing i done with
  | zero =>
    have bound : done.length ≤ nodes.card := by
      rw [← List.toFinset_card_of_nodup walk.nodup]
      exact Finset.card_le_card fun a here => inside a (walk.reached a (List.mem_toFinset.mp here))
    have low := walk.low
    omega
  | succ fuel ih =>
    unfold worklist
    cases here : done[i]? with
    | none => exact ⟨done, rfl, walk.nodup, walk.mem_iff (List.getElem?_eq_none_iff.mp here)⟩
    | some a => exact ih (walk.step here) (by omega)

end Walk

end RlCpu.Lib
