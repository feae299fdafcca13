import LinkConnectors.Arena
import Mathlib.Tactic.Common

/-! The slots of an arena. The list of freed slots holds empty slots only, each of them once. So a
number that is given out was not live, and giving it out or freeing it touches no other number. -/
namespace LinkConnectors.Arena

variable {a : Arena} {id other : Nat} {c : Connector}

/-- What is said of the freed slots. -/
structure Tidy (a : Arena) : Prop where
  vacant : ∀ id ∈ a.free, a.slots[id]? = some none
  nodup : a.free.Nodup

theorem tidy_empty : Tidy {} := ⟨by simp, List.nodup_nil⟩

lemma slot_of_get? (h : a.get? id = some c) : a.slots[id]? = some (some c) :=
  Option.join_eq_some_iff.mp h

lemma get?_of_slot {slot : Option Connector} (h : a.slots[id]? = some slot) : a.get? id = slot := by
  rw [get?, h]
  rfl

section Insert

/-- The slot for the next connector is empty or new. -/
lemma Tidy.insert_cases (ha : a.Tidy) (c : Connector) :
    (∃ id rest, a.free = id :: rest ∧ a.slots[id]? = some none ∧
      a.insert c = (id, ⟨a.slots.setIfInBounds id (some c), rest⟩)) ∨
    (a.free = [] ∧ a.insert c = (a.slots.size, ⟨a.slots.push (some c), []⟩)) := by
  unfold insert
  cases hfree : a.free with
  | nil => exact .inr ⟨rfl, rfl⟩
  | cons id rest => exact .inl ⟨id, rest, rfl, ha.vacant id (by simp [hfree]), rfl⟩

theorem Tidy.get?_insert_fst (ha : a.Tidy) (c : Connector) : a.get? (a.insert c).1 = none := by
  obtain ⟨id, rest, _, hslot, heq⟩ | ⟨_, heq⟩ := ha.insert_cases c
  · rw [heq]
    exact get?_of_slot hslot
  · rw [heq]
    simp [get?]

theorem Tidy.get?_insert_self (ha : a.Tidy) (c : Connector) :
    (a.insert c).2.get? (a.insert c).1 = some c := by
  obtain ⟨id, rest, _, hslot, heq⟩ | ⟨_, heq⟩ := ha.insert_cases c
  · obtain ⟨hlt, _⟩ := Array.getElem?_eq_some_iff.mp hslot
    rw [heq]
    exact get?_of_slot (Array.getElem?_setIfInBounds_self_of_lt hlt)
  · rw [heq]
    exact get?_of_slot Array.getElem?_push_size

theorem Tidy.get?_insert_of_ne (ha : a.Tidy) (h : id ≠ (a.insert c).1) :
    (a.insert c).2.get? id = a.get? id := by
  obtain ⟨slot, rest, _, _, heq⟩ | ⟨_, heq⟩ := ha.insert_cases c
  · rw [heq] at h ⊢
    rw [get?, Array.getElem?_setIfInBounds_ne (Ne.symm h)]
    rfl
  · rw [heq] at h ⊢
    rw [get?, Array.getElem?_push, if_neg h]
    rfl

lemma Tidy.insert (ha : a.Tidy) (c : Connector) : (a.insert c).2.Tidy := by
  obtain ⟨id, rest, hfree, _, heq⟩ | ⟨_, heq⟩ := ha.insert_cases c
  · have hnodup := ha.nodup
    rw [hfree, List.nodup_cons] at hnodup
    rw [heq]
    refine ⟨fun other hother => ?_, hnodup.2⟩
    have hne : id ≠ other := fun h => hnodup.1 (h ▸ hother)
    rw [Array.getElem?_setIfInBounds_ne hne]
    exact ha.vacant other (by rw [hfree]; exact List.mem_cons_of_mem id hother)
  · rw [heq]
    exact ⟨by simp, List.nodup_nil⟩

theorem Tidy.size_insert (ha : a.Tidy) (c : Connector) : (a.insert c).2.size = a.size + 1 := by
  obtain ⟨id, rest, _, hslot, heq⟩ | ⟨_, heq⟩ := ha.insert_cases c
  · obtain ⟨hlt, hslot⟩ := Array.getElem?_eq_some_iff.mp hslot
    rw [heq]
    simp [size, Array.setIfInBounds, hlt, Array.countP_set, hslot]
  · rw [heq]
    simp [size]

end Insert

section Remove

/-- The arena with a slot emptied and listed as free. -/
def freed (a : Arena) (id : Nat) : Arena := ⟨a.slots.setIfInBounds id none, id :: a.free⟩

lemma remove?_of_get? (h : a.get? id = some c) : a.remove? id = some (c, a.freed id) := by
  rw [remove?, h]
  rfl

lemma remove?_eq_none_iff : a.remove? id = none ↔ a.get? id = none := Option.map_eq_none_iff

lemma remove?_eq_some_iff {b : Arena} :
    a.remove? id = some (c, b) ↔ a.get? id = some c ∧ b = a.freed id := by
  constructor
  · intro h
    obtain ⟨d, hd, heq⟩ := Option.map_eq_some_iff.mp h
    obtain ⟨rfl, rfl⟩ := Prod.mk.inj heq
    exact ⟨hd, rfl⟩
  · rintro ⟨hc, rfl⟩
    exact remove?_of_get? hc

lemma get?_freed_of_ne (h : other ≠ id) : (a.freed id).get? other = a.get? other := by
  rw [get?, freed, Array.getElem?_setIfInBounds_ne h.symm]
  rfl

lemma get?_freed_self (a : Arena) (id : Nat) : (a.freed id).get? id = none := by
  rw [get?, freed, Array.getElem?_setIfInBounds_self]
  split <;> rfl

lemma Tidy.freed (ha : a.Tidy) (h : a.get? id = some c) : (a.freed id).Tidy := by
  have hslot := slot_of_get? h
  obtain ⟨hlt, _⟩ := Array.getElem?_eq_some_iff.mp hslot
  have hnot : id ∉ a.free := by
    intro hmem
    have hnone := ha.vacant id hmem
    rw [hslot] at hnone
    cases hnone
  refine ⟨fun other hother => ?_, List.nodup_cons.mpr ⟨hnot, ha.nodup⟩⟩
  obtain rfl | hother := List.mem_cons.mp hother
  · exact Array.getElem?_setIfInBounds_self_of_lt hlt
  · have hne : id ≠ other := fun heq => hnot (heq ▸ hother)
    rw [Arena.freed, Array.getElem?_setIfInBounds_ne hne]
    exact ha.vacant other hother

end Remove

section Supply

/-- The slot that is given out after `n` others, as long as nothing is freed. -/
def supply (a : Arena) (n : Nat) : Nat := a.free[n]?.getD (a.slots.size + (n - a.free.length))

lemma insert_fst (a : Arena) (c : Connector) : (a.insert c).1 = a.supply 0 := by
  unfold insert supply
  cases a.free <;> rfl

lemma supply_insert (a : Arena) (c : Connector) (n : Nat) :
    (a.insert c).2.supply n = a.supply (n + 1) := by
  unfold insert supply
  cases a.free with
  | nil =>
    simp
    omega
  | cons id rest => simp

/-- What is freed comes back before everything else. -/
lemma supply_of_free {b : Arena} {ids : List Nat} (hfree : b.free = ids ++ a.free)
    (hslots : b.slots.size = a.slots.size) (n : Nat) :
    b.supply n = ids[n]?.getD (a.supply (n - ids.length)) := by
  rw [supply, supply, hfree, hslots, List.length_append]
  by_cases hn : n < ids.length
  · simp [List.getElem?_append_left, hn]
  · have hsub : n - (ids.length + a.free.length) = n - ids.length - a.free.length := by omega
    rw [List.getElem?_append_right (by omega), List.getElem?_eq_none (by omega : ids.length ≤ n),
      hsub]
    rfl

lemma supply_freed (a : Arena) (id n : Nat) :
    (a.freed id).supply n = [id][n]?.getD (a.supply (n - 1)) :=
  supply_of_free rfl Array.size_setIfInBounds n

end Supply

section Modify

variable {f : Connector → Connector}

lemma get?_modify (a : Arena) (id other : Nat) (f : Connector → Connector) :
    (a.modify id f).get? other = if id = other then (a.get? other).map f else a.get? other := by
  unfold modify
  cases hc : a.get? id with
  | none =>
    by_cases h : id = other
    · subst h
      rw [if_pos rfl, hc]
      rfl
    · rw [if_neg h]
  | some c =>
    obtain ⟨hlt, _⟩ := Array.getElem?_eq_some_iff.mp (slot_of_get? hc)
    by_cases h : id = other
    · subst h
      rw [if_pos rfl, hc]
      exact get?_of_slot (Array.getElem?_setIfInBounds_self_of_lt hlt)
    · rw [if_neg h, get?, Array.getElem?_setIfInBounds_ne h]
      rfl

lemma Tidy.modify (ha : a.Tidy) (id : Nat) (f : Connector → Connector) : (a.modify id f).Tidy := by
  unfold Arena.modify
  cases hc : a.get? id with
  | none => exact ha
  | some c =>
    refine ⟨fun other hother => ?_, ha.nodup⟩
    have hnone := ha.vacant other hother
    have hne : id ≠ other := by
      rintro rfl
      rw [slot_of_get? hc] at hnone
      cases hnone
    dsimp only
    rw [Array.getElem?_setIfInBounds_ne hne]
    exact hnone

lemma size_modify (a : Arena) (id : Nat) (f : Connector → Connector) :
    (a.modify id f).size = a.size := by
  unfold modify
  cases hc : a.get? id with
  | none => rfl
  | some c =>
    obtain ⟨hlt, hslot⟩ := Array.getElem?_eq_some_iff.mp (slot_of_get? hc)
    have hpos : 0 < a.slots.countP Option.isSome :=
      Array.countP_pos_iff.mpr ⟨some c, hslot ▸ Array.getElem_mem hlt, rfl⟩
    simp only [size, Array.setIfInBounds, hlt, dite_true, Array.countP_set, hslot,
      Option.isSome_some, if_true]
    omega

lemma supply_modify (a : Arena) (id : Nat) (f : Connector → Connector) (n : Nat) :
    (a.modify id f).supply n = a.supply n := by
  unfold modify
  split
  · rw [supply, supply, Array.size_setIfInBounds]
  · rfl

end Modify

end LinkConnectors.Arena
