import LinkConnectors.Text.Numeral
import Mathlib.Data.Nat.Digits.Defs
import Mathlib.Tactic.Ring

/-! Decimal numerals. What is read as a number is a non-empty run of ASCII digits that denotes it.
Zeros may lead. -/
namespace LinkConnectors.Text

def IsDecimal (c : Char) : Prop := '0' ≤ c ∧ c ≤ '9'

def decimalValue (c : Char) : Nat := c.toNat - '0'.toNat

/-- The digits write this number, the most significant one first. -/
structure Denotes (digits : List Char) (n : Nat) : Prop where
  ne_nil : digits ≠ []
  decimal : ∀ c ∈ digits, IsDecimal c
  value : n = Nat.ofDigits 10 (digits.map decimalValue).reverse

variable {c : Char} {cs : List Char} {n d high : Nat}

lemma isDecimal_iff : IsDecimal c ↔ 48 ≤ c.toNat ∧ c.toNat ≤ 57 := by
  rw [IsDecimal, Char.le_def, Char.le_def, UInt32.le_iff_toNat_le, UInt32.le_iff_toNat_le]
  rfl

/-- The letters that a greater base has for digits are worth 10 and more. -/
lemma digitBelow_ten_eq_some_iff : digitBelow 10 c = some d ↔ IsDecimal c ∧ d = decimalValue c := by
  have hzero : decimalValue c = c.toNat - 48 := rfl
  rw [digitBelow, Option.filter_eq_some_iff, decide_eq_true_eq, hzero, isDecimal_iff, digitValue]
  simp only [Char.le_def, UInt32.le_iff_toNat_le]
  change (if 48 ≤ c.toNat ∧ c.toNat ≤ 57 then some (c.toNat - 48)
    else if 97 ≤ c.toNat ∧ c.toNat ≤ 102 then some (c.toNat - 87)
    else if 65 ≤ c.toNat ∧ c.toNat ≤ 70 then some (c.toNat - 55) else none) = some d ∧ d < 10 ↔ _
  split_ifs <;> simp <;> omega

/-- Each further digit moves the digits before it up by one place. -/
lemma readDigitsFrom_eq_some_iff : readDigitsFrom 10 high cs = some n ↔
    (∀ c ∈ cs, IsDecimal c) ∧ n = Nat.ofDigits 10 (cs.map decimalValue).reverse +
      10 ^ cs.length * high := by
  induction cs generalizing high with
  | nil => simp [readDigitsFrom, eq_comm]
  | cons c cs ih =>
    have hplace : Nat.ofDigits 10 ((c :: cs).map decimalValue).reverse =
        Nat.ofDigits 10 (cs.map decimalValue).reverse + 10 ^ cs.length * decimalValue c := by
      rw [List.map_cons, List.reverse_cons, Nat.ofDigits_append, Nat.ofDigits_singleton,
        List.length_reverse, List.length_map]
    rw [readDigitsFrom, Option.bind_eq_bind, Option.bind_eq_some_iff, hplace, List.forall_mem_cons,
      List.length_cons]
    simp only [digitBelow_ten_eq_some_iff, ih]
    have hhigh : Nat.ofDigits 10 (cs.map decimalValue).reverse +
        10 ^ cs.length * (10 * high + decimalValue c) =
        Nat.ofDigits 10 (cs.map decimalValue).reverse + 10 ^ cs.length * decimalValue c +
            10 ^ (cs.length + 1) * high := by
      ring
    rw [← hhigh]
    constructor
    · rintro ⟨_, ⟨hc, rfl⟩, hcs, rfl⟩
      exact ⟨⟨hc, hcs⟩, rfl⟩
    · rintro ⟨⟨hc, hcs⟩, rfl⟩
      exact ⟨_, ⟨hc, rfl⟩, hcs, rfl⟩

theorem readDigits_eq_some_iff : readDigits 10 cs = some n ↔ Denotes cs n := by
  cases cs with
  | nil => exact ⟨nofun, fun h => absurd rfl h.ne_nil⟩
  | cons c cs =>
    rw [readDigits, readDigitsFrom_eq_some_iff, Nat.mul_zero, Nat.add_zero]
    · exact ⟨fun h => ⟨List.cons_ne_nil c cs, h.1, h.2⟩, fun h => ⟨h.decimal, h.value⟩⟩
    · exact List.cons_ne_nil c cs

end LinkConnectors.Text
