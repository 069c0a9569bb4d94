/-
**The arena of a set (`set.c`).**

Behind the flag of a slot are the `elSize` words of its element, and the address of an element is that of its first
word. `toSet s` is the map from slots to elements that an arena stands for, a `KSet`.

* `insert_toSet`, `setAt_toSet`, `remove_toSet`, `removeByElement_toSet`: a call on the arena is the call on the map.
* `Reach.right_of_words`: in every state of every run the arena is right, where elements have words.
* `set_right_iff`: it is right exactly there, or where there are no slots.
* `set_panics`: the address of an element without words may be behind the arena.
-/

import RlCpu.Kernel.Set

namespace RlCpu.Kernel

/-- `struct set` with a `capacity`, an `el_size` and `data` that do not change, and the memory. -/
structure SetArena (capacity elSize data : Word) where
  size : Word
  mem : Word → Word

/-- `memcpy` -/
def memcpyWords : Nat → (dst src : Word) → (Word → Word) → Word → Word
  | 0, _, _, mem => mem
  | n + 1, dst, src, mem => memcpyWords n (dst + 1) (src + 1) (Function.update mem dst (mem src))

namespace SetArena

variable {capacity elSize data : Word}

/-- `self->data + i*(self->el_size+1)` -/
def flagAt (_s : SetArena capacity elSize data) (i : Nat) : Word := data + BitVec.ofNat 16 i * (elSize + 1)

/-- `self->data + i*(self->el_size+1) + 1` -/
def elementAt (s : SetArena capacity elSize data) (i : Nat) : Word := s.flagAt i + 1

/-- The loop of `set_clear`. -/
def clearLoop (s : SetArena capacity elSize data) : List Nat → SetArena capacity elSize data
  | [] => s
  | i :: is => clearLoop { s with mem := Function.update s.mem (s.flagAt i) 0 } is

/-- `set_clear` -/
def clear (s : SetArena capacity elSize data) : SetArena capacity elSize data :=
  { s.clearLoop (List.range capacity.toNat) with size := 0 }

/-- `set_create_static` -/
def createStatic (capacity elSize data : Word) (self : Word) (mem : Word → Word) : SetArena capacity elSize data :=
  clear ⟨self, mem⟩

/-- The first slot whose flag is clear. -/
def firstFree (s : SetArena capacity elSize data) : Option Nat :=
  (List.range capacity.toNat).find? fun i => s.mem (s.flagAt i) = 0

/-- `set_insert` -/
def insert (s : SetArena capacity elSize data) (el : Word) : Except Fault (Word × SetArena capacity elSize data) :=
  if capacity ≤ s.size then .error .panic
  else match s.firstFree with
    | some i =>
        let mem := Function.update s.mem (s.flagAt i) 1
        .ok (s.elementAt i, ⟨s.size + 1, memcpyWords elSize.toNat (s.elementAt i) el mem⟩)
    | none => .error .panic

/-- The loop of `set_at` and `set_remove`: the slot in use with the number `idx`. -/
def seekLoop (s : SetArena capacity elSize data) (idx : Nat) : List Nat → (ii : Nat) → Option Nat
  | [], _ => none
  | i :: is, ii =>
      if s.mem (s.flagAt i) ≠ 0 then if ii = idx then some i else seekLoop s idx is (ii + 1) else seekLoop s idx is ii

/-- `set_at` -/
def setAt (s : SetArena capacity elSize data) (idx : Word) : Except Fault Word :=
  if s.size ≤ idx then .error .panic
  else match s.seekLoop idx.toNat (List.range capacity.toNat) 0 with
    | some i => .ok (s.elementAt i)
    | none => .error .panic

/-- `set_remove` -/
def remove (s : SetArena capacity elSize data) (idx : Word) : Except Fault (SetArena capacity elSize data) :=
  if s.size ≤ idx then .error .panic
  else match s.seekLoop idx.toNat (List.range capacity.toNat) 0 with
    | some i => .ok ⟨s.size - 1, Function.update s.mem (s.flagAt i) 0⟩
    | none => .error .panic

/-- `set_remove_by_element` -/
def removeByElement (s : SetArena capacity elSize data) (el : Word) : Except Fault (SetArena capacity elSize data) :=
  if capacity * (elSize + 1) ≤ el - data then .error .panic
  else .ok ⟨s.size - 1, Function.update s.mem (el - 1) 0⟩

/-! ### The map of an arena -/

/-- The words of the element in a slot. -/
def payload (s : SetArena capacity elSize data) (i : Nat) : List Word :=
  (List.range elSize.toNat).map fun k => s.mem (s.elementAt i + BitVec.ofNat 16 k)

/-- The words at an address. -/
def source (s : SetArena capacity elSize data) (el : Word) : List Word :=
  (List.range elSize.toNat).map fun k => s.mem (el + BitVec.ofNat 16 k)

/-- **The slots and their elements.** -/
def toSet (s : SetArena capacity elSize data) : KSet (List Word) capacity.toNat where
  used i := s.mem (s.flagAt i) ≠ 0
  el i := s.payload i
  size := s.size

/-- The arena is an object of the memory. -/
def Fits (capacity elSize : Word) : Prop := capacity.toNat * (elSize.toNat + 1) < 2 ^ 16

/-- The word `j` of slot `i`; the flag is word 0. -/
def cell (elSize data : Word) (i j : Nat) : Word := data + BitVec.ofNat 16 (i * (elSize.toNat + 1) + j)

/-- The address is in the arena. -/
def InArena (capacity elSize data a : Word) : Prop :=
  ∃ i < capacity.toNat, ∃ j ≤ elSize.toNat, a = cell elSize data i j

/-! ### Addresses -/

section Addresses

variable {s t : SetArena capacity elSize data} {i i' j j' k : Nat} {a el : Word}

theorem cell_low (fits : Fits capacity elSize) (low : i < capacity.toNat) (inside : j ≤ elSize.toNat) :
    i * (elSize.toNat + 1) + j < 2 ^ 16 := by
  refine lt_of_lt_of_le ?_ (Nat.le_of_lt fits)
  calc i * (elSize.toNat + 1) + j < i * (elSize.toNat + 1) + (elSize.toNat + 1) := by omega
    _ = (i + 1) * (elSize.toNat + 1) := (Nat.succ_mul _ _).symm
    _ ≤ capacity.toNat * (elSize.toNat + 1) := Nat.mul_le_mul_right _ low

/-- **Different words of the arena have different addresses.** -/
theorem cell_inj (fits : Fits capacity elSize) (low : i < capacity.toNat) (low' : i' < capacity.toNat)
    (inside : j ≤ elSize.toNat) (inside' : j' ≤ elSize.toNat)
    (same : cell elSize data i j = cell elSize data i' j') : i = i' ∧ j = j' := by
  have offsets := congrArg BitVec.toNat ((BitVec.add_right_inj data).mp same)
  rw [BitVec.toNat_ofNat, BitVec.toNat_ofNat, Nat.mod_eq_of_lt (cell_low fits low inside),
    Nat.mod_eq_of_lt (cell_low fits low' inside')] at offsets
  have row : ∀ n m, m ≤ elSize.toNat → (n * (elSize.toNat + 1) + m) / (elSize.toNat + 1) = n := fun n m le => by
    rw [Nat.mul_comm, Nat.mul_add_div (Nat.succ_pos _), Nat.div_eq_of_lt (by omega), Nat.add_zero]
  have slot := congrArg (· / (elSize.toNat + 1)) offsets
  rw [row i j inside, row i' j' inside'] at slot
  subst slot
  exact ⟨rfl, Nat.add_left_cancel offsets⟩

theorem flagAt_cell (s : SetArena capacity elSize data) (i : Nat) : s.flagAt i = cell elSize data i 0 := by
  unfold flagAt cell
  rw [Nat.add_zero, BitVec.ofNat_mul, BitVec.ofNat_add]
  congr 2
  rw [BitVec.ofNat_toNat, BitVec.setWidth_eq]
  rfl

theorem elementAt_cell (s : SetArena capacity elSize data) (i k : Nat) :
    s.elementAt i + BitVec.ofNat 16 k = cell elSize data i (k + 1) := by
  unfold elementAt
  rw [flagAt_cell]
  unfold cell
  rw [Nat.add_zero, BitVec.add_assoc, BitVec.add_assoc, Nat.add_comm k 1, ← Nat.add_assoc, BitVec.ofNat_add,
    BitVec.ofNat_add, BitVec.add_assoc]
  rfl

theorem inArena_flag (low : i < capacity.toNat) : InArena capacity elSize data (s.flagAt i) :=
  ⟨i, low, 0, Nat.zero_le _, s.flagAt_cell i⟩

theorem inArena_word (low : i < capacity.toNat) (inside : k < elSize.toNat) :
    InArena capacity elSize data (s.elementAt i + BitVec.ofNat 16 k) :=
  ⟨i, low, k + 1, inside, s.elementAt_cell i k⟩

theorem flagAt_ne_outside (outside : ¬ InArena capacity elSize data a) (low : i < capacity.toNat) : a ≠ s.flagAt i := by
  rintro rfl
  exact outside (inArena_flag low)

theorem word_ne_outside (outside : ¬ InArena capacity elSize data a) (low : i < capacity.toNat)
    (inside : k < elSize.toNat) : a ≠ s.elementAt i + BitVec.ofNat 16 k := by
  rintro rfl
  exact outside (inArena_word low inside)

/-- Flags of different slots. -/
theorem flagAt_ne (fits : Fits capacity elSize) (low : i < capacity.toNat) (low' : i' < capacity.toNat) (ne : i ≠ i') :
    s.flagAt i ≠ s.flagAt i' := fun same => by
  rw [flagAt_cell, flagAt_cell] at same
  exact ne (cell_inj fits low low' (Nat.zero_le _) (Nat.zero_le _) same).1

/-- A flag is no word of an element. -/
theorem flagAt_ne_word (fits : Fits capacity elSize) (low : i < capacity.toNat) (low' : i' < capacity.toNat)
    (inside : k < elSize.toNat) : s.flagAt i ≠ s.elementAt i' + BitVec.ofNat 16 k := fun same => by
  rw [flagAt_cell, elementAt_cell] at same
  exact absurd (cell_inj fits low low' (Nat.zero_le _) inside same).2 (Nat.succ_ne_zero k).symm

/-- Words of different elements. -/
theorem word_ne (fits : Fits capacity elSize) (low : i < capacity.toNat) (low' : i' < capacity.toNat)
    (inside : k < elSize.toNat) {k' : Nat} (inside' : k' < elSize.toNat) (ne : i ≠ i') :
    s.elementAt i + BitVec.ofNat 16 k ≠ s.elementAt i' + BitVec.ofNat 16 k' := fun same => by
  rw [elementAt_cell, elementAt_cell] at same
  exact ne (cell_inj fits low low' inside inside' same).1

/-! ### Copies -/

/-- What is not copied to stays. By induction on the words left. -/
theorem memcpyWords_other : ∀ (n : Nat) {dst src : Word} {mem : Word → Word} {a : Word},
    (∀ k < n, a ≠ dst + BitVec.ofNat 16 k) → memcpyWords n dst src mem a = mem a := by
  intro n
  induction n with
  | zero => exact fun _ => rfl
  | succ n ih =>
    intro dst src mem a apart
    unfold memcpyWords
    rw [ih fun k low => by rw [← add_ofNat_succ]; exact apart (k + 1) (Nat.succ_lt_succ low)]
    refine Function.update_of_ne ?_ _ _
    have first := apart 0 (Nat.succ_pos n)
    rwa [show dst + BitVec.ofNat 16 0 = dst from BitVec.add_zero dst] at first

/-- **The words copied**, where the source is apart from where they go. By induction on the words left. -/
theorem memcpyWords_copied : ∀ (n : Nat) {dst src : Word} {mem : Word → Word}, n < 2 ^ 16 →
    (∀ k < n, ∀ k' < n, src + BitVec.ofNat 16 k ≠ dst + BitVec.ofNat 16 k') → ∀ k < n,
    memcpyWords n dst src mem (dst + BitVec.ofNat 16 k) = mem (src + BitVec.ofNat 16 k) := by
  intro n
  induction n with
  | zero => exact fun _ _ k low => absurd low (Nat.not_lt_zero k)
  | succ n ih =>
    intro dst src mem small apart k low
    have zero : ∀ x : Word, x + BitVec.ofNat 16 0 = x := fun x => BitVec.add_zero x
    unfold memcpyWords
    cases k with
    | zero =>
      rw [zero, zero, memcpyWords_other n fun k low same => ?_, Function.update_self]
      rw [← add_ofNat_succ] at same
      have wrapped := congrArg BitVec.toNat ((BitVec.add_right_inj dst).mp ((zero dst).trans same))
      rw [BitVec.toNat_ofNat, BitVec.toNat_ofNat, Nat.zero_mod, Nat.mod_eq_of_lt (by omega)] at wrapped
      exact absurd wrapped.symm (Nat.succ_ne_zero k)
    | succ k =>
      have inside := Nat.lt_of_succ_lt_succ low
      rw [add_ofNat_succ, add_ofNat_succ, ih (by omega) (fun k low k' low' => ?_) k inside]
      · refine Function.update_of_ne ?_ _ _
        have first := apart (k + 1) low 0 (Nat.succ_pos n)
        rwa [zero, add_ofNat_succ] at first
      · rw [← add_ofNat_succ, ← add_ofNat_succ]
        exact apart (k + 1) (Nat.succ_lt_succ low) (k' + 1) (Nat.succ_lt_succ low')

end Addresses

/-! ### Calls -/

/-- A call of the set, or a write of the program. -/
inductive Call
  | insert (el : Word)
  | remove (idx : Word)
  | removeByElement (el : Word)
  | write (addr val : Word)

/-- What a call returns, and what it leaves. -/
def call (s : SetArena capacity elSize data) : Call → Except Fault (Word × SetArena capacity elSize data)
  | .insert el => s.insert el
  | .remove idx => (s.remove idx).map fun t => (0, t)
  | .removeByElement el => (s.removeByElement el).map fun t => (0, t)
  | .write addr val => .ok (0, { s with mem := Function.update s.mem addr val })

/-- **What may be called**: `set_insert` where there is room, of words that are not in a free slot; `set_remove` of an
index below `size`; `set_remove_by_element` of an element. The program writes outside the arena. -/
def Allowed (s : SetArena capacity elSize data) : Call → Prop
  | .insert el => s.size < capacity ∧ ∀ i < capacity.toNat, s.mem (s.flagAt i) = 0 →
      ∀ k < elSize.toNat, ∀ j ≤ elSize.toNat, el + BitVec.ofNat 16 k ≠ cell elSize data i j
  | .remove idx => idx < s.size
  | .removeByElement el => ∃ i : Fin capacity.toNat, s.toSet.used i = true ∧ el = s.elementAt i
  | .write addr _ => ¬ InArena capacity elSize data addr

/-- The states that calls lead to. -/
inductive Reach : SetArena capacity elSize data → Prop
  | create (self : Word) (mem : Word → Word) : Reach (createStatic capacity elSize data self mem)
  | call {s t : SetArena capacity elSize data} {c : Call} {r : Word} (before : Reach s) (allowed : s.Allowed c)
      (run : s.call c = .ok (r, t)) : Reach t

/-- The call removes the element of slot `i`. -/
def Removes (s : SetArena capacity elSize data) (i : Fin capacity.toNat) : Call → Prop
  | .remove idx => s.toSet.slots[idx.toNat]? = some i
  | .removeByElement el => el = s.elementAt i
  | _ => False

/-- Calls that do not remove the element of slot `i`. -/
inductive Without (i : Fin capacity.toNat) (s : SetArena capacity elSize data) : SetArena capacity elSize data → Prop
  | refl : Without i s s
  | call {t u : SetArena capacity elSize data} {c : Call} {r : Word} (before : Without i s t) (allowed : t.Allowed c)
      (other : ¬ t.Removes i c) (run : t.call c = .ok (r, u)) : Without i s u

/-- **The set is right in a state**: `set_at` enumerates the slots in use, and calls do not panic and change one slot.
-/
structure StateRight (s : SetArena capacity elSize data) : Prop where
  size : s.toSet.Sized
  setAt : ∀ idx : Word, idx < s.size → ∃ i : Fin capacity.toNat,
    s.toSet.slots[idx.toNat]? = some i ∧ s.setAt idx = .ok (s.elementAt i)
  insert : ∀ el, s.Allowed (.insert el) → ∃ (i : Fin capacity.toNat) (t : _),
    s.insert el = .ok (s.elementAt i, t) ∧ s.toSet.used i = false ∧
    (∀ j < i, s.toSet.used j = true) ∧
    t.toSet = { used := Function.update s.toSet.used i true, el := Function.update s.toSet.el i (s.source el),
                size := s.size + 1 }
  remove : ∀ idx, s.Allowed (.remove idx) → ∃ i t, s.toSet.slots[idx.toNat]? = some i ∧ s.remove idx = .ok t ∧
    t.toSet = s.toSet.removeByElement i
  removeByElement : ∀ i : Fin capacity.toNat, s.toSet.used i = true →
    ∃ t, s.removeByElement (s.elementAt i) = .ok t ∧ t.toSet = s.toSet.removeByElement i

/-- **The set refines its map**: it is right in every state, and an element stays as it is until it is removed. -/
structure Right (capacity elSize data : Word) : Prop where
  states : ∀ s : SetArena capacity elSize data, Reach s → s.StateRight
  kept : ∀ (s t : SetArena capacity elSize data) (i : Fin capacity.toNat), Reach s → s.toSet.used i = true →
    Without i s t → t.toSet.used i = true ∧ t.toSet.el i = s.toSet.el i

/-! ### Calls of the map -/

section Refinement

variable {s t : SetArena capacity elSize data} {el idx a : Word}

theorem range_eq_map (n : Nat) : List.range n = (List.finRange n).map Fin.val := List.map_coe_finRange_eq_range.symm

theorem firstFree_toSet (s : SetArena capacity elSize data) : s.firstFree = s.toSet.firstFree.map Fin.val := by
  unfold firstFree KSet.firstFree
  rw [range_eq_map, List.find?_map]
  refine congrArg (fun p => Option.map Fin.val (List.find? p _)) (funext fun i => ?_)
  unfold toSet
  simp

/-- The loop of `set_at` counts the slots in use. By induction on the slots left. -/
theorem seekLoop_filter (s : SetArena capacity elSize data) (idx : Nat) : ∀ (is : List Nat) (ii : Nat), ii ≤ idx →
    s.seekLoop idx is ii = (is.filter fun i => s.mem (s.flagAt i) ≠ 0)[idx - ii]? := by
  intro is
  induction is with
  | nil => exact fun _ _ => rfl
  | cons i is ih =>
    intro ii le
    unfold seekLoop
    by_cases used : s.mem (s.flagAt i) ≠ 0
    · rw [if_pos used, List.filter_cons_of_pos (by simpa using used)]
      by_cases here : ii = idx
      · rw [if_pos here, here, Nat.sub_self]
        rfl
      · rw [if_neg here, ih (ii + 1) (by omega), show idx - ii = (idx - (ii + 1)) + 1 by omega]
        rfl
    · rw [if_neg used, List.filter_cons_of_neg (by simpa using used), ih ii le]

theorem seekLoop_toSet (s : SetArena capacity elSize data) (idx : Nat) :
    s.seekLoop idx (List.range capacity.toNat) 0 = s.toSet.slots[idx]?.map Fin.val := by
  rw [seekLoop_filter s idx _ 0 (Nat.zero_le _), Nat.sub_zero, range_eq_map, List.filter_map, List.getElem?_map]
  rfl

/-- What is in no slot does not count. -/
theorem toSet_congr {size : Word} {mem : Word → Word} {used : Fin capacity.toNat → Bool}
    {els : Fin capacity.toNat → List Word} (flags : ∀ i : Fin capacity.toNat, decide (mem (s.flagAt i) ≠ 0) = used i)
    (words : ∀ i : Fin capacity.toNat,
      (List.range elSize.toNat).map (fun k => mem (s.elementAt i + BitVec.ofNat 16 k)) = els i) :
    (⟨size, mem⟩ : SetArena capacity elSize data).toSet = ⟨used, els, size⟩ := by
  unfold toSet
  refine congrArg₂ (fun used els => KSet.mk used els size) (funext flags) (funext words)

/-- **`set_insert`** is the insertion into the map. -/
theorem insert_toSet (fits : Fits capacity elSize) (allowed : s.Allowed (.insert el)) {i : Fin capacity.toNat}
    {k : KSet (List Word) capacity.toNat} (inserted : s.toSet.insert (s.source el) = .ok (i, k)) :
    ∃ t, s.insert el = .ok (s.elementAt i, t) ∧ t.toSet = k ∧
      ∀ a, ¬ InArena capacity elSize data a → t.mem a = s.mem a := by
  obtain ⟨room, free, rfl⟩ := KSet.insert_ok inserted
  have first := (firstFree_toSet s).trans (congrArg _ (KSet.insert_firstFree inserted))
  have clear : s.mem (s.flagAt i) = 0 := by simpa [toSet] using free
  have apart : ∀ k < elSize.toNat, ∀ j ≤ elSize.toNat, el + BitVec.ofNat 16 k ≠ cell elSize data i j :=
    allowed.2 i i.isLt clear
  refine ⟨⟨s.size + 1, memcpyWords elSize.toNat (s.elementAt i) el (Function.update s.mem (s.flagAt i) 1)⟩, ?_,
    toSet_congr (s := s) (fun j => ?_) (fun j => ?_), fun a outside => ?_⟩
  · unfold insert
    rw [if_neg (BitVec.not_le.mpr allowed.1), first]
    rfl
  · rw [memcpyWords_other _ fun k low => flagAt_ne_word fits j.isLt i.isLt low]
    by_cases here : j = i
    · rw [here, Function.update_self, Function.update_self]
      rfl
    · have ne : (j : Nat) ≠ i := fun same => here (Fin.ext same)
      rw [Function.update_of_ne (flagAt_ne fits j.isLt i.isLt ne), Function.update_of_ne here]
      rfl
  · by_cases here : j = i
    · rw [here, Function.update_self]
      refine List.map_congr_left fun k mem => ?_
      have low := List.mem_range.mp mem
      rw [memcpyWords_copied _ elSize.isLt (fun k low k' low' => ?_) k low]
      · refine Function.update_of_ne ?_ _ _
        rw [flagAt_cell]
        exact apart k low 0 (Nat.zero_le _)
      · rw [elementAt_cell]
        exact apart k low (k' + 1) low'
    · have ne : (j : Nat) ≠ i := fun same => here (Fin.ext same)
      rw [Function.update_of_ne here]
      refine List.map_congr_left fun k mem => ?_
      have low := List.mem_range.mp mem
      rw [memcpyWords_other _ fun k' low' => word_ne fits j.isLt i.isLt low low' ne]
      exact Function.update_of_ne (flagAt_ne_word fits i.isLt j.isLt low).symm _ _
  · show memcpyWords _ _ _ _ a = _
    rw [memcpyWords_other _ fun k low => word_ne_outside outside i.isLt low]
    exact Function.update_of_ne (flagAt_ne_outside outside i.isLt) _ _

/-- A flag is cleared. -/
theorem clearFlag_toSet (fits : Fits capacity elSize) (i : Fin capacity.toNat) :
    (⟨s.size - 1, Function.update s.mem (s.flagAt i) 0⟩ : SetArena capacity elSize data).toSet =
      s.toSet.removeByElement i := by
  refine toSet_congr (s := s) (fun j => ?_) fun j => List.map_congr_left fun k mem => ?_
  · by_cases here : j = i
    · rw [here, Function.update_self, Function.update_self]
      rfl
    · have ne : (j : Nat) ≠ i := fun same => here (Fin.ext same)
      rw [Function.update_of_ne (flagAt_ne fits j.isLt i.isLt ne), Function.update_of_ne here]
      rfl
  · exact Function.update_of_ne (flagAt_ne_word fits i.isLt j.isLt (List.mem_range.mp mem)).symm _ _

/-- **`set_remove`** removes the slot in use with the index. -/
theorem remove_toSet (fits : Fits capacity elSize) (inside : idx < s.size) {i : Fin capacity.toNat}
    (here : s.toSet.slots[idx.toNat]? = some i) :
    ∃ t, s.remove idx = .ok t ∧ t.toSet = s.toSet.removeByElement i := by
  refine ⟨_, ?_, clearFlag_toSet fits i⟩
  unfold remove
  rw [if_neg (BitVec.not_le.mpr inside), seekLoop_toSet, here]
  rfl

/-- **`set_at`** returns the address of the slot in use with the index. -/
theorem setAt_toSet (inside : idx < s.size) {i : Fin capacity.toNat} (here : s.toSet.slots[idx.toNat]? = some i) :
    s.setAt idx = .ok (s.elementAt i) := by
  unfold setAt
  rw [if_neg (BitVec.not_le.mpr inside), seekLoop_toSet, here]
  rfl

/-- How far the address of an element is from the arena's. -/
theorem elementAt_offset (fits : Fits capacity elSize) (i : Fin capacity.toNat) :
    (capacity * (elSize + 1)).toNat = capacity.toNat * (elSize.toNat + 1) ∧
      (s.elementAt i - data).toNat = i * (elSize.toNat + 1) + 1 := by
  have positive := Nat.zero_lt_of_lt i.isLt
  have row : 1 * (elSize.toNat + 1) ≤ capacity.toNat * (elSize.toNat + 1) := Nat.mul_le_mul_right _ positive
  have small : elSize.toNat + 1 < 2 ^ 16 := by
    rw [Nat.one_mul] at row
    exact lt_of_le_of_lt row fits
  constructor
  · rw [BitVec.toNat_mul, BitVec.toNat_add, show (1 : Word).toNat = 1 from rfl, Nat.mod_eq_of_lt small]
    exact Nat.mod_eq_of_lt fits
  · have here := s.elementAt_cell i 0
    rw [show s.elementAt i + BitVec.ofNat 16 0 = s.elementAt i from BitVec.add_zero _] at here
    have offset : (i : Nat) * (elSize.toNat + 1) + (0 + 1) < 2 ^ 16 := by
      refine lt_of_le_of_lt ?_ fits
      calc (i : Nat) * (elSize.toNat + 1) + (0 + 1) ≤ i * (elSize.toNat + 1) + (elSize.toNat + 1) := by omega
        _ = (i + 1) * (elSize.toNat + 1) := (Nat.succ_mul _ _).symm
        _ ≤ capacity.toNat * (elSize.toNat + 1) := Nat.mul_le_mul_right _ i.isLt
    rw [here]
    unfold cell
    rw [BitVec.add_comm, BitVec.add_sub_cancel, BitVec.toNat_ofNat, Nat.mod_eq_of_lt offset]

/-- **`set_remove_by_element`** removes the slot of the element, if elements have words. -/
theorem removeByElement_toSet (fits : Fits capacity elSize) (words : elSize ≠ 0) (i : Fin capacity.toNat) :
    ∃ t, s.removeByElement (s.elementAt i) = .ok t ∧ t.toSet = s.toSet.removeByElement i := by
  obtain ⟨size, offset⟩ := @elementAt_offset _ _ _ s fits i
  refine ⟨_, ?_, clearFlag_toSet fits i⟩
  unfold removeByElement
  have inside : ¬ capacity * (elSize + 1) ≤ s.elementAt i - data := by
    rw [BitVec.le_def, size, offset, Nat.not_le]
    have positive : 0 < elSize.toNat := by bv_omega
    calc (i : Nat) * (elSize.toNat + 1) + 1 < i * (elSize.toNat + 1) + (elSize.toNat + 1) := by omega
      _ = (i + 1) * (elSize.toNat + 1) := (Nat.succ_mul _ _).symm
      _ ≤ capacity.toNat * (elSize.toNat + 1) := Nat.mul_le_mul_right _ i.isLt
  rw [if_neg inside, show s.elementAt i - 1 = s.flagAt i from BitVec.add_sub_cancel _ _]

/-- The element of the last slot has no words: its address is behind the arena. -/
theorem removeByElement_empty (fits : Fits capacity elSize) (empty : elSize = 0) {i : Fin capacity.toNat}
    (last : (i : Nat) + 1 = capacity.toNat) : s.removeByElement (s.elementAt i) = .error .panic := by
  obtain ⟨size, offset⟩ := @elementAt_offset _ _ _ s fits i
  unfold removeByElement
  refine if_pos ?_
  have zero : elSize.toNat = 0 := congrArg BitVec.toNat empty
  rw [BitVec.le_def, size, offset, zero]
  omega

theorem write_toSet (outside : ¬ InArena capacity elSize data a) (val : Word) :
    ({ s with mem := Function.update s.mem a val } : SetArena capacity elSize data).toSet = s.toSet := by
  refine toSet_congr (s := s) (fun i => ?_) fun i => List.map_congr_left fun k mem => ?_
  · rw [Function.update_of_ne (flagAt_ne_outside outside i.isLt).symm]
  · exact Function.update_of_ne (word_ne_outside outside i.isLt (List.mem_range.mp mem)).symm _ _

/-- The flags are clear after `set_clear`. By induction on the slots. -/
theorem clearLoop_flag : ∀ (is : List Nat) (s : SetArena capacity elSize data) {i : Nat},
    i ∈ is ∨ s.mem (s.flagAt i) = 0 → (s.clearLoop is).mem (s.flagAt i) = 0 := by
  intro is
  induction is with
  | nil => exact fun s i here => here.elim (fun mem => absurd mem List.not_mem_nil) id
  | cons j is ih =>
    intro s i here
    unfold clearLoop
    refine @ih { s with mem := Function.update s.mem (s.flagAt j) 0 } i ?_
    by_cases same : s.flagAt i = s.flagAt j
    · refine Or.inr ?_
      show Function.update s.mem (s.flagAt j) 0 (s.flagAt i) = 0
      rw [same, Function.update_self]
    · rcases here with mem | zero
      · rcases List.mem_cons.mp mem with rfl | later
        · exact absurd rfl same
        · exact Or.inl later
      · refine Or.inr ?_
        show Function.update s.mem (s.flagAt j) 0 (s.flagAt i) = 0
        rwa [Function.update_of_ne same]

theorem createStatic_toSet (self : Word) (mem : Word → Word) :
    (createStatic capacity elSize data self mem).toSet.used = (fun _ => false) ∧
      (createStatic capacity elSize data self mem).toSet.size = 0 := by
  refine ⟨funext fun i => ?_, rfl⟩
  have zero := clearLoop_flag (List.range capacity.toNat) (⟨self, mem⟩ : SetArena capacity elSize data)
    (i := i) (Or.inl (List.mem_range.mpr i.isLt))
  show decide ((createStatic capacity elSize data self mem).mem _ ≠ 0) = false
  rw [decide_eq_false_iff_not, not_not]
  exact zero

/-! ### Runs -/

/-- The index of a slot in use. -/
theorem slot_of_index (sized : s.toSet.Sized) (inside : idx < s.size) :
    ∃ i : Fin capacity.toNat, s.toSet.slots[idx.toNat]? = some i := by
  have low : idx.toNat < s.toSet.slots.length := by
    rw [← sized]
    exact inside
  exact ⟨_, List.getElem?_eq_getElem low⟩

/-- **A set whose size is the number of its elements is right**, if elements have words. -/
theorem stateRight_of_words (fits : Fits capacity elSize) (words : elSize ≠ 0) (sized : s.toSet.Sized) :
    s.StateRight := by
  refine ⟨sized, fun idx inside => ?_, fun el allowed => ?_, fun idx inside => ?_, fun i _ =>
    removeByElement_toSet fits words i⟩
  · obtain ⟨i, here⟩ := slot_of_index sized inside
    exact ⟨i, here, setAt_toSet inside here⟩
  · have room : s.toSet.size.toNat < capacity.toNat := allowed.1
    obtain ⟨j, free⟩ := KSet.exists_free (show s.toSet.slots.length < capacity.toNat by rwa [← sized])
    obtain ⟨⟨i, k⟩, inserted⟩ := KSet.insert_returns room free (s.source el)
    obtain ⟨t, run, same, -⟩ := insert_toSet fits allowed inserted
    obtain ⟨-, free', rfl⟩ := KSet.insert_ok inserted
    refine ⟨i, t, run, free', fun j below => ?_, same⟩
    have first := (firstFree_toSet s).trans (congrArg _ (KSet.insert_firstFree inserted))
    have used := (List.find?_range_eq_some.mp first).2.2 j below
    simpa [toSet] using used
  · obtain ⟨i, here⟩ := slot_of_index sized inside
    obtain ⟨t, run, same⟩ := remove_toSet fits inside here
    exact ⟨i, t, here, run, same⟩

/-- What a call does to the map, in a state that is right. -/
theorem StateRight.call (right : s.StateRight) {c : Call} {r : Word} (allowed : s.Allowed c)
    (run : s.call c = .ok (r, t)) :
    (∃ i ws, s.toSet.used i = false ∧
        t.toSet = { used := Function.update s.toSet.used i true, el := Function.update s.toSet.el i ws,
                    size := s.size + 1 }) ∨
      (∃ i, s.toSet.used i = true ∧ s.Removes i c ∧ t.toSet = s.toSet.removeByElement i) ∨ t.toSet = s.toSet := by
  cases c with
  | insert el =>
    obtain ⟨i, t', run', free, -, same⟩ := right.insert el allowed
    obtain ⟨-, rfl⟩ := Prod.mk.inj (Except.ok.inj (run'.symm.trans run))
    exact Or.inl ⟨i, _, free, same⟩
  | remove idx =>
    obtain ⟨i, t', here, run', same⟩ := right.remove idx allowed
    have run : (s.remove idx).map (fun t => ((0 : Word), t)) = .ok (r, t) := run
    rw [run'] at run
    obtain ⟨-, rfl⟩ := Prod.mk.inj (Except.ok.inj run)
    exact Or.inr (Or.inl ⟨i, KSet.mem_slots.mp (List.mem_of_getElem? here), here, same⟩)
  | removeByElement el =>
    obtain ⟨i, used, rfl⟩ := allowed
    obtain ⟨t', run', same⟩ := right.removeByElement i used
    have run : (s.removeByElement (s.elementAt i)).map (fun t => ((0 : Word), t)) = .ok (r, t) := run
    rw [run'] at run
    obtain ⟨-, rfl⟩ := Prod.mk.inj (Except.ok.inj run)
    exact Or.inr (Or.inl ⟨i, used, rfl, same⟩)
  | write addr val =>
    obtain ⟨-, rfl⟩ := Prod.mk.inj (Except.ok.inj run)
    exact Or.inr (Or.inr (write_toSet allowed val))

/-- **In every state of every run the size is the number of elements.** By induction on the calls. -/
theorem Reach.right_of_words (fits : Fits capacity elSize) (words : elSize ≠ 0) (reach : Reach s) : s.StateRight := by
  induction reach with
  | create self mem =>
    obtain ⟨none, zero⟩ := @createStatic_toSet capacity elSize data self mem
    refine stateRight_of_words fits words ?_
    unfold KSet.Sized KSet.slots
    rw [none, zero, List.filter_eq_nil_iff.mpr fun i _ => Bool.false_ne_true]
    rfl
  | call before allowed run ih =>
    refine stateRight_of_words fits words ?_
    rcases ih.call allowed run with ⟨i, ws, free, same⟩ | ⟨i, used, -, same⟩ | same
    · rw [same]
      exact KSet.filled_sized ih.size capacity.isLt free _
    · rw [same]
      exact KSet.removeByElement_sized ih.size used
    · rw [same]
      exact ih.size

/-- Without slots there is nothing to call. By induction on the calls. -/
theorem no_slots {s : SetArena 0 elSize data} (reach : Reach s) : s.StateRight := by
  have zero : s.size = 0 := by
    induction reach with
    | create => rfl
    | call before allowed run ih =>
      rename_i s t c r
      cases c with
      | insert el => exact absurd (BitVec.lt_def.mp allowed.1) (Nat.not_lt_zero _)
      | remove idx =>
        have below : idx < s.size := allowed
        rw [ih] at below
        exact absurd (BitVec.lt_def.mp below) (Nat.not_lt_zero _)
      | removeByElement el =>
        obtain ⟨i, -⟩ := allowed
        exact i.elim0
      | write addr val =>
        obtain ⟨-, rfl⟩ := Prod.mk.inj (Except.ok.inj run)
        exact ih
  refine ⟨?_, fun idx below => ?_, fun el allowed => ?_, fun idx below => ?_, fun i => i.elim0⟩
  · unfold KSet.Sized
    rw [show s.toSet.size = 0 from zero]
    rfl
  · rw [zero] at below
    exact absurd (BitVec.lt_def.mp below) (Nat.not_lt_zero _)
  · exact absurd (BitVec.lt_def.mp allowed.1) (Nat.not_lt_zero _)
  · have below : idx < s.size := below
    rw [zero] at below
    exact absurd (BitVec.lt_def.mp below) (Nat.not_lt_zero _)

theorem Reach.without {i : Fin capacity.toNat} (reach : Reach s) (without : Without i s t) : Reach t := by
  induction without with
  | refl => exact reach
  | call before allowed other run ih => exact .call ih allowed run

/-- **An element stays until it is removed.** By induction on the calls. -/
theorem Without.kept (right : ∀ s : SetArena capacity elSize data, Reach s → s.StateRight) (reach : Reach s)
    {i : Fin capacity.toNat} (used : s.toSet.used i = true) (without : Without i s t) :
    t.toSet.used i = true ∧ t.toSet.el i = s.toSet.el i := by
  induction without with
  | refl => exact ⟨used, rfl⟩
  | call before allowed other run ih =>
    rcases (right _ (reach.without before)).call allowed run with ⟨j, ws, free, same⟩ | ⟨j, -, removes, same⟩ | same
    · have ne : i ≠ j := by
        rintro rfl
        rw [ih.1] at free
        cases free
      rw [same]
      exact ⟨(Function.update_of_ne ne _ _).trans ih.1, (Function.update_of_ne ne _ _).trans ih.2⟩
    · have ne : i ≠ j := by
        rintro rfl
        exact other removes
      rw [same]
      exact ⟨(Function.update_of_ne ne _ _).trans ih.1, ih.2⟩
    · rw [same]
      exact ih

/-- A right set can be filled. By induction on the elements. -/
theorem Right.fills (right : Right capacity elSize data) (empty : elSize = 0) :
    ∀ n ≤ capacity.toNat, ∃ s : SetArena capacity elSize data, Reach s ∧ s.size.toNat = n := by
  intro n
  induction n with
  | zero => exact fun _ => ⟨_, .create 0 (fun _ => 0), rfl⟩
  | succ n ih =>
    intro le
    obtain ⟨s, reach, size⟩ := ih (Nat.le_of_succ_le le)
    have allowed : s.Allowed (.insert 0) := by
      refine ⟨by rw [BitVec.lt_def, size]; exact le, fun i _ _ k low => ?_⟩
      rw [empty] at low
      exact absurd low (Nat.not_lt_zero k)
    obtain ⟨i, t, run, -, -, same⟩ := (right.states s reach).insert 0 allowed
    refine ⟨t, .call reach allowed run, ?_⟩
    have count : t.size = s.size + 1 := congrArg KSet.size same
    have small := capacity.isLt
    rw [count]
    bv_omega

/-- Elements without words: a full set panics when the last is removed by its address. -/
theorem not_right_of_empty (data : Word) (fits : Fits capacity elSize) (empty : elSize = 0) (some : capacity ≠ 0) :
    ¬ Right capacity elSize data := by
  intro right
  have positive : 0 < capacity.toNat := by bv_omega
  obtain ⟨s, reach, size⟩ := right.fills empty capacity.toNat (Nat.le_refl _)
  have state := right.states s reach
  have last : capacity.toNat - 1 + 1 = capacity.toNat := by omega
  obtain ⟨t, run, -⟩ := state.removeByElement ⟨capacity.toNat - 1, by omega⟩
    (KSet.used_of_full (state.size.symm.trans size) _)
  rw [removeByElement_empty fits empty last] at run
  cases run

/-- **The set container**: over all runs the arena is the map of its elements exactly where elements have words, or
there are no slots. -/
theorem set_right_iff (data : Word) (fits : Fits capacity elSize) :
    Right capacity elSize data ↔ elSize ≠ 0 ∨ capacity = 0 := by
  constructor
  · intro right
    by_contra none
    obtain ⟨empty, some⟩ := not_or.mp none
    exact not_right_of_empty data fits (not_not.mp empty) some right
  · intro words
    have states : ∀ s : SetArena capacity elSize data, Reach s → s.StateRight := by
      rcases words with words | rfl
      · exact fun s reach => reach.right_of_words fits words
      · exact fun s reach => no_slots reach
    exact ⟨states, fun s t i reach used without => without.kept states reach used⟩

/-- 128 slots of 10 words. -/
theorem set_right_files : Right 128 10 0x2000 :=
  (@set_right_iff 128 10 0x2000 (show 128 * (10 + 1) < 2 ^ 16 by decide)).mpr (Or.inl (by decide))

/-- One slot for elements without words. -/
theorem set_panics : ¬ Right 1 0 0x2000 :=
  @not_right_of_empty 1 0 0x2000 (show 1 * (0 + 1) < 2 ^ 16 by decide) rfl (by decide)

end Refinement

end SetArena

end RlCpu.Kernel
