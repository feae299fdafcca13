import LinkConnectors.Table.Slots
import Mathlib.Tactic.Common

/-! Where a walk over the slots lands: on the first slot, counted round from where it starts, that
is empty or that its judge does not send it past. -/
namespace LinkConnectors.Table

/-- The slot `n` places after slot `i`, going round at the end. -/
def slotAfter (slots : Array (Option Nat)) (i n : Nat) : Nat := (i + n) % slots.size

lemma slotAfter_zero {slots : Array (Option Nat)} {i : Nat} (h : i < slots.size) :
    slotAfter slots i 0 = i := Nat.mod_eq_of_lt h

lemma slotAfter_succ (slots : Array (Option Nat)) (i n : Nat) :
    slotAfter slots i (n + 1) = slotAfter slots ((i + 1) % slots.size) n := by
  simp only [slotAfter, Nat.mod_add_mod]
  rw [Nat.add_assoc, Nat.add_comm 1 n]

/-- Going round, every slot is met within one turn. -/
lemma exists_slotAfter_eq {slots : Array (Option Nat)} {i j : Nat} (hi : i < slots.size)
    (hj : j < slots.size) : ∃ n < slots.size, slotAfter slots i n = j := by
  refine ⟨(j + slots.size - i) % slots.size, Nat.mod_lt _ (by omega), ?_⟩
  have h : i + (j + slots.size - i) = j + slots.size := by omega
  rw [slotAfter, Nat.add_mod_mod, h, Nat.add_mod_right, Nat.mod_eq_of_lt hj]

lemma home_lt {slots : Array (Option Nat)} (h : 0 < slots.size) (hash : UInt32) :
    home slots hash < slots.size := Nat.mod_lt _ h

/-- The first `n` slots from slot `i` on hold descriptors that the judge sends a walk past. -/
def Passed (slots : Array (Option Nat)) (judge : Nat → Verdict) (i n : Nat) : Prop :=
  ∀ m < n, ∃ id, slots[slotAfter slots i m]? = some (some id) ∧ judge id = .elsewhere

/-- What it means for a walk of at most `steps` slots from slot `i` on to land somewhere. -/
def Landing.Reached (slots : Array (Option Nat)) (judge : Nat → Verdict) (i steps : Nat) :
    Landing → Prop
  | .held p id => ∃ n < steps, Passed slots judge i n ∧ slotAfter slots i n = p ∧
      slots[p]? = some (some id) ∧ judge id = .here
  | .vacant p => ∃ n < steps, Passed slots judge i n ∧ slotAfter slots i n = p ∧
      slots[p]? = some none
  | .foreign id => ∃ n < steps, Passed slots judge i n ∧
      slots[slotAfter slots i n]? = some (some id) ∧ judge id = .foreign
  | .nowhere => Passed slots judge i steps

section

variable {slots : Array (Option Nat)} {judge : Nat → Verdict} {i n steps id : Nat}

/-- A walk that passes all slots in one turn leaves no empty one behind. -/
lemma Passed.not_vacant (hi : i < slots.size) (h : Passed slots judge i slots.size) (j : Nat) :
    slots[j]? ≠ some none := by
  intro hj
  obtain ⟨n, hn, rfl⟩ := exists_slotAfter_eq hi (Array.getElem?_eq_some_iff.mp hj).1
  obtain ⟨id, hslot, _⟩ := h n hn
  rw [hj] at hslot
  cases hslot

lemma Passed.succ (hi : i < slots.size) (hslot : slots[i]? = some (some id))
    (hjudge : judge id = .elsewhere) (h : Passed slots judge ((i + 1) % slots.size) n) :
    Passed slots judge i (n + 1) := by
  intro m hm
  cases m with
  | zero => exact ⟨id, by rwa [slotAfter_zero hi], hjudge⟩
  | succ m =>
    rw [slotAfter_succ]
    exact h m (by omega)

/-- A landing from the next slot on is a landing from this one, if the walk passes it. -/
lemma Landing.Reached.succ (hi : i < slots.size) (hslot : slots[i]? = some (some id))
    (hjudge : judge id = .elsewhere) {l : Landing}
    (h : l.Reached slots judge ((i + 1) % slots.size) steps) :
    l.Reached slots judge i (steps + 1) := by
  cases l with
  | held p other =>
    obtain ⟨n, hn, hpassed, hp, hrest⟩ := h
    exact ⟨n + 1, by omega, hpassed.succ hi hslot hjudge, by rwa [slotAfter_succ], hrest⟩
  | vacant p =>
    obtain ⟨n, hn, hpassed, hp, hrest⟩ := h
    exact ⟨n + 1, by omega, hpassed.succ hi hslot hjudge, by rwa [slotAfter_succ], hrest⟩
  | foreign other =>
    obtain ⟨n, hn, hpassed, hrest⟩ := h
    exact ⟨n + 1, by omega, hpassed.succ hi hslot hjudge, by rwa [slotAfter_succ]⟩
  | nowhere => exact Passed.succ hi hslot hjudge h

theorem walk_reached (hi : i < slots.size) :
    (walk slots judge steps i).Reached slots judge i steps := by
  induction steps generalizing i with
  | zero => exact fun m hm => absurd hm (Nat.not_lt_zero m)
  | succ steps ih =>
    have hnone : Passed slots judge i 0 := fun m hm => absurd hm (Nat.not_lt_zero m)
    have hi' := ih (i := (i + 1) % slots.size) (Nat.mod_lt _ (by omega))
    have hslot : slots[i]? = some slots[i] := Array.getElem?_eq_getElem hi
    rw [walk]
    cases hc : slots[i] with
    | none =>
      rw [hc] at hslot
      rw [hslot]
      exact ⟨0, by omega, hnone, slotAfter_zero hi, hslot⟩
    | some id =>
      rw [hc] at hslot
      rw [hslot]
      cases hj : judge id with
      | here =>
        simp only [hj]
        exact ⟨0, by omega, hnone, slotAfter_zero hi, hslot, hj⟩
      | foreign =>
        simp only [hj]
        exact ⟨0, by omega, hnone, by rwa [slotAfter_zero hi], hj⟩
      | elsewhere =>
        simp only [hj]
        exact hi'.succ hi hslot hj

theorem walkFromHome_reached (h : 0 < slots.size) (judge : Nat → Verdict) (hash : UInt32) :
    (walkFromHome slots judge hash).Reached slots judge (home slots hash) slots.size :=
  walk_reached (home_lt h hash)

end

end LinkConnectors.Table
