/-
**Lists whose elements have different keys.**

A search by key finds the element of that key, wherever it is, and an element is removed by its key as well as by a
filter. What is put between the others and removed again leaves them as they were.
-/

import Mathlib.Data.List.Nodup

namespace RlCpu.Lib

variable {α κ : Type} [DecidableEq κ] {key : α → κ} {l : List α} {x : α}

/-- **The element of a key is found.** By induction on the list. -/
theorem find?_key (keys : (l.map key).Nodup) (mem : x ∈ l) : l.find? (fun y => key y = key x) = some x := by
  induction l with
  | nil => exact absurd mem List.not_mem_nil
  | cons y l ih =>
    rw [List.map_cons, List.nodup_cons] at keys
    rcases List.mem_cons.mp mem with rfl | later
    · exact List.find?_cons_of_pos (decide_eq_true rfl)
    · have other : key y ≠ key x := fun same => keys.1 (same ▸ List.mem_map_of_mem later)
      rw [List.find?_cons_of_neg (by simpa using other)]
      exact ih keys.2 later

/-- Two elements of one key are the same. -/
theorem eq_of_key (keys : (l.map key).Nodup) {y : α} (mem : x ∈ l) (mem' : y ∈ l) (same : key x = key y) : x = y := by
  have found := find?_key keys mem
  rw [same, find?_key keys mem'] at found
  exact (Option.some.inj found).symm

theorem find?_key_some {k : κ} (found : l.find? (fun y => key y = k) = some x) : x ∈ l ∧ key x = k := by
  refine ⟨List.mem_of_find?_eq_some found, ?_⟩
  simpa using List.find?_some found

theorem find?_key_none {k : κ} (missing : ∀ y ∈ l, key y ≠ k) : l.find? (fun y => key y = k) = none :=
  List.find?_eq_none.mpr fun y mem => by simpa using missing y mem

end RlCpu.Lib
