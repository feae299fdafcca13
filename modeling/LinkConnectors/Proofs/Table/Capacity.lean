import LinkConnectors.Proofs.Table.Growth
import Mathlib.Order.Bounds.Basic
import Mathlib.Tactic.Ring

/-! How many slots there are. The count starts at a power of two that the size hint decides and is
doubled exactly as often as it takes to keep at most three eighths of the slots taken. -/
namespace LinkConnectors.Table

theorem ceilPowerOfTwo_isLeast (n : Nat) :
    IsLeast {p | (∃ j, p = 2 ^ j) ∧ n ≤ p} (ceilPowerOfTwo n) := by
  refine ⟨⟨?_, le_ceilPowerOfTwo n⟩, ?_⟩
  · unfold ceilPowerOfTwo
    split
    · exact ⟨0, rfl⟩
    · exact ⟨_, Nat.one_shiftLeft _⟩
  · rintro _ ⟨⟨j, rfl⟩, hle⟩
    unfold ceilPowerOfTwo
    split
    · exact Nat.one_le_two_pow
    · rw [Nat.one_shiftLeft]
      apply Nat.pow_le_pow_right (by omega)
      have : (n - 1).log2 < j := (Nat.log2_lt (by omega)).mpr (by omega)
      omega

/-- The slots allocated for a hint are the least power of two that is at least the hint and at least
16. -/
theorem slotsFor_isLeast (hint : Nat) :
    IsLeast {p | (∃ j, p = 2 ^ j) ∧ max hint 16 ≤ p} (slotsFor hint) :=
  ceilPowerOfTwo_isLeast (max hint 16)

lemma sixteen_le_slotsFor (hint : Nat) : 16 ≤ slotsFor hint :=
  le_trans (le_max_right hint 16) (slotsFor_isLeast hint).1.2

/-- The least number of doublings of `first` slots that leaves room for `size` names. -/
def Doublings (first size k : Nat) : Prop := IsLeast {k | 8 * size ≤ 3 * (first * 2 ^ k)} k

lemma doublings_zero (first : Nat) : Doublings first 0 0 :=
  ⟨by simp, fun _ _ => Nat.zero_le _⟩

lemma Doublings.succ_of_roomy {first size k : Nat} (h : Doublings first size k)
    (hroomy : 8 * (size + 1) ≤ 3 * (first * 2 ^ k)) : Doublings first (size + 1) k := by
  refine ⟨hroomy, fun j hj => h.2 ?_⟩
  have hj : 8 * (size + 1) ≤ 3 * (first * 2 ^ j) := hj
  change 8 * size ≤ 3 * (first * 2 ^ j)
  omega

/-- One more doubling is enough for one more name. -/
lemma Doublings.succ_of_crowded {first size k : Nat} (hfirst : 16 ≤ first)
    (h : Doublings first size k)
    (hcrowded : 3 * (first * 2 ^ k) < 8 * (size + 1)) : Doublings first (size + 1) (k + 1) := by
  have hk : 8 * size ≤ 3 * (first * 2 ^ k) := h.1
  have hpos : first * 1 ≤ first * 2 ^ k := Nat.mul_le_mul_left first Nat.one_le_two_pow
  have hdouble : first * 2 ^ (k + 1) = 2 * (first * 2 ^ k) := by ring
  refine ⟨?_, fun j hj => ?_⟩
  · change 8 * (size + 1) ≤ 3 * (first * 2 ^ (k + 1))
    omega
  · by_contra hlt
    have hj : 8 * (size + 1) ≤ 3 * (first * 2 ^ j) := hj
    have hle : first * 2 ^ j ≤ first * 2 ^ k :=
      Nat.mul_le_mul_left first (Nat.pow_le_pow_right (by omega) (by omega))
    omega

/-- The slots of a table that has some: every number sits in them, and there are as many as the hint
and the number of names ask for. -/
structure LaidOut (t : Table) : Prop where
  seating : Seating t.descriptors t.slots (· < t.size)
  capacity : ∃ k, t.capacity = slotsFor t.expected * 2 ^ k ∧
    Doublings (slotsFor t.expected) t.size k

namespace LaidOut

variable {t : Table}

lemma capacity_eq_two_pow (h : t.LaidOut) : ∃ k, t.capacity = 2 ^ k := by
  obtain ⟨k, hk, _⟩ := h.capacity
  obtain ⟨j, hj⟩ := (slotsFor_isLeast t.expected).1.1
  exact ⟨j + k, by rw [hk, hj, Nat.pow_add]⟩

lemma eight_size_le (h : t.LaidOut) : 8 * t.size ≤ 3 * t.capacity := by
  obtain ⟨k, hk, hleast⟩ := h.capacity
  rw [hk]
  exact hleast.1

lemma sixteen_le_capacity (h : t.LaidOut) : 16 ≤ t.capacity := by
  obtain ⟨k, hk, _⟩ := h.capacity
  rw [hk]
  exact le_trans (sixteen_le_slotsFor _) (Nat.le_mul_of_pos_right _ (Nat.two_pow_pos k))

lemma size_lt_capacity (h : t.LaidOut) : t.size < t.capacity := by
  have := h.eight_size_le
  have := h.sixteen_le_capacity
  omega

lemma exists_vacant (h : t.LaidOut) : ∃ i : Nat, t.slots[i]? = some none :=
  h.seating.exists_vacant (fun _ hid => hid) h.size_lt_capacity

end LaidOut

end LinkConnectors.Table
