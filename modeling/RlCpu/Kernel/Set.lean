/-
**The fixed-capacity set (`set.c`).**

An arena of `capacity` elements, each with a word in front that says whether it is used. An element
keeps its slot from `set_insert` to its removal, and a pointer to it is its slot; what was in a slot
stays there after the removal.

* `insert_elements`, `remove_elements`: a new element comes between the others, and a removed one leaves them in order.
* `removeByElement_sized`: `size` stays the number of slots in use.
-/

import RlCpu.Kernel.BlkM

namespace RlCpu.Kernel

/-- `struct set` over elements `α`. -/
structure KSet (α : Type) (capacity : Nat) where
  used : Fin capacity → Bool
  el : Fin capacity → α
  size : Word

namespace KSet

variable {α : Type} {capacity : Nat}

/-- `set_clear` -/
def clear (s : KSet α capacity) : KSet α capacity := { s with used := fun _ => false, size := 0 }

/-- The first slot that is not used. -/
def firstFree (s : KSet α capacity) : Option (Fin capacity) :=
  (List.finRange capacity).find? fun i => !s.used i

/-- `set_insert` -/
def insert (s : KSet α capacity) (x : α) : Except Fault (Fin capacity × KSet α capacity) :=
  if capacity ≤ s.size.toNat then .error .panic
  else match s.firstFree with
    | some i => .ok (i, { used := Function.update s.used i true, el := Function.update s.el i x,
                          size := s.size + 1 })
    | none => .error .panic

/-- `set_remove_by_element` -/
def removeByElement (s : KSet α capacity) (i : Fin capacity) : KSet α capacity :=
  { s with used := Function.update s.used i false, size := s.size - 1 }

/-- The slots in use. -/
def slots (s : KSet α capacity) : List (Fin capacity) := (List.finRange capacity).filter fun i => s.used i

/-- The elements, in the order of their slots. -/
def elements (s : KSet α capacity) : List α := s.slots.map s.el

/-- `set_at` -/
def elementAt (s : KSet α capacity) (idx : Nat) : Except Fault α :=
  if s.size.toNat ≤ idx then .error .panic
  else match s.slots[idx]? with
    | some i => .ok (s.el i)
    | none => .error .panic

/-- `set_remove` -/
def remove (s : KSet α capacity) (idx : Nat) : Except Fault (KSet α capacity) :=
  if s.size.toNat ≤ idx then .error .panic
  else match s.slots[idx]? with
    | some i => .ok (s.removeByElement i)
    | none => .error .panic

/-- Assign through a pointer to an element. -/
def assign (s : KSet α capacity) (i : Fin capacity) (x : α) : KSet α capacity :=
  { s with el := Function.update s.el i x }

theorem firstFree_some {s : KSet α capacity} {i : Fin capacity} (found : s.firstFree = some i) :
    s.used i = false := by
  have free := List.find?_some found
  simpa using free

theorem firstFree_none {s : KSet α capacity} (full : s.firstFree = none) (i : Fin capacity) :
    s.used i = true := by
  have busy := List.find?_eq_none.mp full i (List.mem_finRange i)
  simpa using busy

/-- What a successful `set_insert` did. -/
theorem insert_ok {s t : KSet α capacity} {x : α} {i : Fin capacity}
    (inserted : s.insert x = .ok (i, t)) : s.size.toNat < capacity ∧ s.used i = false ∧
      t = { used := Function.update s.used i true, el := Function.update s.el i x,
            size := s.size + 1 } := by
  unfold insert at inserted
  split at inserted
  case isTrue => cases inserted
  case isFalse room =>
    cases found : s.firstFree with
    | none =>
      rw [found] at inserted
      cases inserted
    | some j =>
      rw [found] at inserted
      obtain ⟨rfl, rfl⟩ := Prod.mk.inj (Except.ok.inj inserted)
      exact ⟨Nat.not_le.mp room, firstFree_some found, rfl⟩

theorem insert_firstFree {s t : KSet α capacity} {x : α} {i : Fin capacity}
    (inserted : s.insert x = .ok (i, t)) : s.firstFree = some i := by
  unfold insert at inserted
  split at inserted
  · cases inserted
  split at inserted
  case h_1 j found =>
    obtain ⟨rfl, -⟩ := Prod.mk.inj (Except.ok.inj inserted)
    exact found
  case h_2 => cases inserted

theorem insert_returns {s : KSet α capacity} {i : Fin capacity} (room : s.size.toNat < capacity)
    (free : s.used i = false) (x : α) : ∃ v, s.insert x = .ok v := by
  unfold insert
  rw [if_neg (Nat.not_le.mpr room)]
  cases found : s.firstFree with
  | some j => exact ⟨_, rfl⟩
  | none =>
    have busy := firstFree_none found i
    rw [free] at busy
    cases busy

theorem insert_error {s : KSet α capacity} {x : α} {e : Fault}
    (failed : s.insert x = .error e) : e = .panic := by
  unfold insert at failed
  split at failed
  case isTrue =>
    cases failed
    rfl
  case isFalse =>
    split at failed
    · cases failed
    · cases failed
      rfl

/-! ### The elements -/

/-- `size` is the number of the slots in use. -/
def Sized (s : KSet α capacity) : Prop := s.size.toNat = s.slots.length

theorem elements_length (s : KSet α capacity) : s.elements.length = s.slots.length := List.length_map s.el

theorem slots_nodup (s : KSet α capacity) : s.slots.Nodup := (List.nodup_finRange capacity).filter _

theorem elementAt_ok {s : KSet α capacity} (sized : s.Sized) {idx : Nat} (low : idx < s.elements.length) :
    s.elementAt idx = .ok s.elements[idx] := by
  have inside : idx < s.slots.length := s.elements_length ▸ low
  unfold elementAt
  rw [if_neg (by rw [sized]; omega), List.getElem?_eq_getElem inside]
  exact congrArg Except.ok (List.getElem_map s.el).symm

theorem removeByElement_slots (s : KSet α capacity) (i : Fin capacity) :
    (s.removeByElement i).slots = s.slots.filter fun j => j ≠ i := by
  unfold slots removeByElement
  dsimp only
  rw [List.filter_filter]
  refine List.filter_congr fun j _ => ?_
  by_cases here : j = i
  · rw [here, Function.update_self]
    simp
  · rw [Function.update_of_ne here]
    simp [here]

theorem mem_slots {s : KSet α capacity} {i : Fin capacity} : i ∈ s.slots ↔ s.used i = true := by
  unfold slots
  rw [List.mem_filter]
  exact and_iff_right (List.mem_finRange i)

theorem removeByElement_sized {s : KSet α capacity} (sized : s.Sized) {i : Fin capacity} (used : s.used i = true) :
    (s.removeByElement i).Sized := by
  have mem := mem_slots.mpr used
  have erased : (s.removeByElement i).slots = s.slots.erase i := by
    rw [removeByElement_slots, s.slots_nodup.erase_eq_filter]
    refine List.filter_congr fun j _ => ?_
    rw [Bool.eq_iff_iff, decide_eq_true_iff, bne_iff_ne]
  unfold Sized at sized ⊢
  rw [erased, List.length_erase_of_mem mem, ← sized]
  have some : 0 < s.size.toNat := sized ▸ List.length_pos_of_mem mem
  show (s.size - 1).toNat = _
  bv_omega

/-- A free slot taken. -/
theorem filled_sized {s : KSet α capacity} (sized : s.Sized) (small : capacity < 2 ^ 16) {i : Fin capacity}
    (free : s.used i = false) (el : Fin capacity → α) :
    Sized { used := Function.update s.used i true, el := el, size := s.size + 1 } := by
  have used : Function.update s.used i true i = true := Function.update_self ..
  have mem := @mem_slots _ _ { used := Function.update s.used i true, el := el, size := s.size + 1 } i |>.mpr used
  have back : s.slots =
      (slots { used := Function.update s.used i true, el := el, size := s.size + 1 }).erase i := by
    rw [(slots_nodup _).erase_eq_filter]
    unfold slots
    rw [List.filter_filter]
    refine List.filter_congr fun j _ => ?_
    by_cases here : j = i
    · subst here
      rw [free, bne_self_eq_false, Bool.false_and]
    · dsimp only
      rw [Function.update_of_ne here, bne_iff_ne.mpr here, Bool.true_and]
  have length := congrArg List.length back
  rw [List.length_erase_of_mem mem, ← sized] at length
  have some := List.length_pos_of_mem mem
  have most := (List.length_filter_le (fun j => Function.update s.used i true j) (List.finRange capacity)).trans
    (List.length_finRange ..).le
  change (slots { used := Function.update s.used i true, el := el, size := s.size + 1 }).length ≤ capacity at most
  show (s.size + 1).toNat = _
  bv_omega

/-- Where there are fewer slots in use than there are, one is free. -/
theorem exists_free {s : KSet α capacity} (room : s.slots.length < capacity) : ∃ i, s.used i = false := by
  by_contra none
  refine Nat.ne_of_lt room ?_
  unfold slots
  rw [List.filter_eq_self.mpr fun i _ => by simpa using fun free => none ⟨i, free⟩, List.length_finRange]

/-- Where there are as many as there are, all are in use. -/
theorem used_of_full {s : KSet α capacity} (full : s.slots.length = capacity) (i : Fin capacity) : s.used i = true := by
  have whole : s.slots.length = (List.finRange capacity).length := full.trans (List.length_finRange ..).symm
  exact List.filter_eq_self.mp (List.filter_sublist.eq_of_length whole) i (List.mem_finRange i)

end KSet

end RlCpu.Kernel
