import LinkConnectors.Proofs.Hash.Mixing
import Mathlib.Algebra.BigOperators.Group.List.Basic
import Mathlib.Data.List.Induction
import Mathlib.Data.Nat.Digits.Defs
import Mathlib.Tactic.Ring

/-! The hash of link candidates. It reads the parts of a candidate as the digits of a number in the
base 65599, modulo the size of a word, and cuts the number to the size of the chart. Since the base
is odd, no part is lost: two candidates that differ in one part have the same slot only if the
chart, or the word, is too small to tell the values of this part from each other. -/
namespace LinkConnectors.Hash

section Failures

/-- Shifting fails if it is by the width of a word or by more. Bits that a smaller shift drops are
dropped in silence. -/
def shiftLeft? (h : UInt32) (n : Nat) : Option UInt32 :=
  if n < 32 then some (h <<< UInt32.ofNat n) else none

/-- A step of the hash with its shifts looked after. Sums and differences go round. -/
def pairStep? (h v : UInt32) : Option UInt32 :=
  do return v + (← shiftLeft? h 6) + (← shiftLeft? h 16) - h

/-- The mask of a chart is one less than its size, which must not be 0. -/
def mask? (tableSize : Nat) : Option Nat := if 0 < tableSize then some (tableSize - 1) else none

/-- The slot of a link candidate, taken with the mask. Whatever can fail on the way makes it
fail. -/
def maskedPair? (tableSize : Nat) (k : LinkKey) : Option Nat := do
  let h ← [k.leftWord, k.rightWord, UInt32.ofNat k.leftConnector,
    UInt32.ofNat k.rightConnector].foldlM pairStep? k.cost
  return h.toNat &&& (← mask? tableSize)

lemma pairStep?_eq (h v : UInt32) : pairStep? h v = some (pairStep h v) := rfl

lemma foldlM_pairStep? (h : UInt32) (vs : List UInt32) :
    vs.foldlM pairStep? h = some (vs.foldl pairStep h) := by
  induction vs generalizing h with
  | nil => rfl
  | cons v vs ih => simp [pairStep?_eq, ih]

/-- In a chart of the right size nothing fails. -/
theorem maskedPair?_eq (e : Nat) (k : LinkKey) :
    maskedPair? (2 ^ e) k = some ((pairWord k).toNat % 2 ^ e) := by
  have hmask : mask? (2 ^ e) = some (2 ^ e - 1) := if_pos (Nat.two_pow_pos e)
  simp only [maskedPair?, foldlM_pairStep?, hmask, Option.bind_eq_bind, Option.bind_some,
    Nat.and_two_pow_sub_one_eq_mod]
  rfl

end Failures

section Word

lemma toNat_pairStep (h v : UInt32) :
    (pairStep h v).toNat = (v.toNat + 65599 * h.toNat) % 2 ^ 32 := by
  have h6 := toNat_shiftLeft h (s := 6) (by decide)
  have h16 := toNat_shiftLeft h (s := 16) (by decide)
  have hlt := h.toNat_lt
  simp only [pairStep, UInt32.toNat_sub, UInt32.toNat_add, h6, h16, UInt32.reduceToNat]
  omega

/-- The steps take in one digit after the other, the most significant one first. -/
theorem foldl_pairStep_modEq (h : UInt32) (vs : List UInt32) :
    (vs.foldl pairStep h).toNat ≡ Nat.ofDigits 65599 ((h :: vs).map UInt32.toNat).reverse
      [MOD 2 ^ 32] := by
  induction vs using List.reverseRecOn with
  | nil => exact Nat.ModEq.refl _
  | append_singleton vs v ih =>
    have hdigits : ((h :: (vs ++ [v])).map UInt32.toNat).reverse =
        v.toNat :: ((h :: vs).map UInt32.toNat).reverse := by
      simp
    rw [List.foldl_append, List.foldl_cons, List.foldl_nil, hdigits, Nat.ofDigits_cons,
      toNat_pairStep]
    exact (Nat.mod_modEq _ _).trans ((ih.mul_left 65599).add_left v.toNat)

lemma ofDigits_five (a b c d e : Nat) : Nat.ofDigits 65599 [e, d, c, b, a] =
    a * 65599 ^ 4 + b * 65599 ^ 3 + c * 65599 ^ 2 + d * 65599 + e := by
  simp only [Nat.ofDigits_cons, Nat.ofDigits_nil]
  ring

/-- The word, written out. Numbers of connectors are cut to the size of a word before. -/
lemma pairWord_modEq (k : LinkKey) : (pairWord k).toNat ≡
    k.cost.toNat * 65599 ^ 4 + k.leftWord.toNat * 65599 ^ 3 + k.rightWord.toNat * 65599 ^ 2 +
      k.leftConnector % 2 ^ 32 * 65599 + k.rightConnector % 2 ^ 32 [MOD 2 ^ 32] := by
  rw [← ofDigits_five]
  exact foldl_pairStep_modEq k.cost [k.leftWord, k.rightWord, UInt32.ofNat k.leftConnector,
    UInt32.ofNat k.rightConnector]

end Word

section Parts

/-- The parts of a link candidate. -/
inductive Part where
  | cost
  | leftWord
  | rightWord
  | leftConnector
  | rightConnector
  deriving DecidableEq

namespace Part

/-- What a part counts in the hash. -/
def weight : Part → Nat
  | cost => 65599 ^ 4
  | leftWord => 65599 ^ 3
  | rightWord => 65599 ^ 2
  | leftConnector => 65599
  | rightConnector => 1

lemma odd_weight (p : Part) : Odd p.weight := by cases p <;> decide

def all : List Part := [cost, leftWord, rightWord, leftConnector, rightConnector]

lemma mem_all (p : Part) : p ∈ all := by cases p <;> decide

lemma nodup_all : all.Nodup := by decide

end Part

namespace LinkKey

variable {k other : LinkKey} {p : Part} {e : Nat}

/-- The number that is given for a part. -/
def number (k : LinkKey) : Part → Nat
  | .cost => k.cost.toNat
  | .leftWord => k.leftWord.toNat
  | .rightWord => k.rightWord.toNat
  | .leftConnector => k.leftConnector
  | .rightConnector => k.rightConnector

/-- All parts with their weights. -/
def total (k : LinkKey) : Nat := (Part.all.map fun p => p.weight * k.number p).sum

lemma total_eq (k : LinkKey) : k.total = k.cost.toNat * 65599 ^ 4 + k.leftWord.toNat * 65599 ^ 3 +
    k.rightWord.toNat * 65599 ^ 2 + k.leftConnector * 65599 + k.rightConnector := by
  simp only [total, Part.all, List.map_cons, List.map_nil, List.sum_cons, List.sum_nil,
    Part.weight, number]
  ring

lemma pairWord_modEq_total (k : LinkKey) : (pairWord k).toNat ≡ k.total [MOD 2 ^ 32] := by
  rw [total_eq]
  exact (pairWord_modEq k).trans
    ((((Nat.mod_modEq _ _).mul_right 65599).add_left _).add (Nat.mod_modEq _ _))

/-- Candidates that differ in one part are told from each other by this part alone. -/
lemma total_modEq_iff (h : ∀ q, q ≠ p → k.number q = other.number q) :
    k.total ≡ other.total [MOD 2 ^ e] ↔ k.number p ≡ other.number p [MOD 2 ^ e] := by
  have hrest : ((Part.all.erase p).map fun q => q.weight * k.number q) =
      (Part.all.erase p).map fun q => q.weight * other.number q := by
    refine List.map_congr_left fun q hq => ?_
    rw [h q (Part.nodup_all.mem_erase_iff.mp hq).1]
  rw [total, total, ← List.sum_map_erase _ p.mem_all, ← List.sum_map_erase _ p.mem_all, hrest]
  exact Iff.trans ⟨Nat.ModEq.add_right_cancel' _, Nat.ModEq.add_right _⟩
    (odd_mul_modEq_iff p.odd_weight)

end LinkKey

end Parts

section Slots

variable {tableSize e : Nat} {k : LinkKey}

lemma isPowerOfTwo_iff : isPowerOfTwo tableSize = true ↔ ∃ e, tableSize = 2 ^ e := by
  rw [isPowerOfTwo, beq_iff_eq, Nat.one_shiftLeft]
  refine ⟨fun h => ⟨_, h⟩, ?_⟩
  rintro ⟨e, rfl⟩
  rw [Nat.log2_two_pow]

lemma pair?_eq_none_iff : pair? tableSize k = none ↔ ¬ ∃ e, tableSize = 2 ^ e := by
  rw [← isPowerOfTwo_iff]
  simp [pair?]

lemma pair?_two_pow (e : Nat) (k : LinkKey) : pair? (2 ^ e) k = some ((pairWord k).toNat % 2 ^ e) :=
  if_pos (isPowerOfTwo_iff.mpr ⟨e, rfl⟩)

/-- Slots tell no more than words do, and words no more than the slots of a chart of their size. -/
lemma mod_slots_iff {m n : Nat} (hm : m < 2 ^ 32) (hn : n < 2 ^ 32) :
    m % 2 ^ e = n % 2 ^ e ↔ m ≡ n [MOD 2 ^ min e 32] := by
  rcases Nat.le_total e 32 with he | he
  · rw [Nat.min_eq_left he]
    rfl
  · have hle : 2 ^ 32 ≤ 2 ^ e := Nat.pow_le_pow_right (by decide) he
    rw [Nat.min_eq_right he, Nat.ModEq, Nat.mod_eq_of_lt (hm.trans_le hle),
      Nat.mod_eq_of_lt (hn.trans_le hle), Nat.mod_eq_of_lt hm, Nat.mod_eq_of_lt hn]

lemma min_two_pow (e : Nat) : min (2 ^ e) (2 ^ 32) = 2 ^ min e 32 := by
  rcases Nat.le_total e 32 with he | he
  · rw [Nat.min_eq_left he, Nat.min_eq_left (Nat.pow_le_pow_right (by decide) he)]
  · rw [Nat.min_eq_right he, Nat.min_eq_right (Nat.pow_le_pow_right (by decide) he)]

/-- Two candidates that differ in one part are in one slot if the numbers of this part are
congruent. -/
lemma pair?_eq_iff {other : LinkKey} {p : Part} (h : ∀ q, q ≠ p → k.number q = other.number q) :
    pair? (2 ^ e) other = pair? (2 ^ e) k ↔
      k.number p ≡ other.number p [MOD min (2 ^ e) (2 ^ 32)] := by
  have hk := k.pairWord_modEq_total.of_dvd (Nat.pow_dvd_pow 2 (Nat.min_le_right e 32))
  have hother := other.pairWord_modEq_total.of_dvd (Nat.pow_dvd_pow 2 (Nat.min_le_right e 32))
  rw [pair?_two_pow, pair?_two_pow, Option.some_inj, eq_comm,
    mod_slots_iff (UInt32.toNat_lt _) (UInt32.toNat_lt _), min_two_pow, ← LinkKey.total_modEq_iff h]
  exact ⟨fun heq => hk.symm.trans (heq.trans hother), fun heq => hk.trans (heq.trans hother.symm)⟩

/-- A link candidate has a slot in every chart whose size is a power of two, and in no other. The
slot is the value of a polynomial and can be computed with the mask, where nothing fails. If the
candidates differ in one part only then its numbers are all that counts, as far as the chart and the
word can tell them from each other. -/
theorem slot_tells_parts (k : LinkKey) :
    (∀ tableSize, pair? tableSize k = none ↔ ¬ ∃ e, tableSize = 2 ^ e) ∧
    ∀ e, ∃ slot < 2 ^ e, pair? (2 ^ e) k = some slot ∧ maskedPair? (2 ^ e) k = some slot ∧
      slot =
        (k.cost.toNat * 65599 ^ 4 + k.leftWord.toNat * 65599 ^ 3 + k.rightWord.toNat * 65599 ^ 2 +
          k.leftConnector % 2 ^ 32 * 65599 + k.rightConnector % 2 ^ 32) % 2 ^ 32 % 2 ^ e ∧
      ∀ (p : Part) (other : LinkKey), (∀ q, q ≠ p → k.number q = other.number q) →
        (pair? (2 ^ e) other = some slot ↔
          k.number p ≡ other.number p [MOD min (2 ^ e) (2 ^ 32)]) := by
  refine ⟨fun tableSize => pair?_eq_none_iff, fun e =>
    ⟨_, Nat.mod_lt _ (Nat.two_pow_pos e), pair?_two_pow e k, maskedPair?_eq e k, ?_,
      fun p other h => ?_⟩⟩
  · have hword : (pairWord k).toNat % 2 ^ 32 = _ := pairWord_modEq k
    rw [← hword, Nat.mod_eq_of_lt (UInt32.toNat_lt _)]
  · rw [← pair?_two_pow, pair?_eq_iff h]

/-- In a chart of 16 slots the connectors 4 and 20 are the same and 4 and 5 are not. In one of 2 ^
40 slots 20 is another one but 2 ^ 32 more is not. -/
theorem slots_of_near_links :
    pair? (2 ^ 4) ⟨7, 9, 3, 20, 2⟩ = pair? (2 ^ 4) ⟨7, 9, 3, 4, 2⟩ ∧
    pair? (2 ^ 4) ⟨7, 9, 3, 5, 2⟩ ≠ pair? (2 ^ 4) ⟨7, 9, 3, 4, 2⟩ ∧
    pair? (2 ^ 40) ⟨7, 9, 3, 20, 2⟩ ≠ pair? (2 ^ 40) ⟨7, 9, 3, 4, 2⟩ ∧
    pair? (2 ^ 40) ⟨7, 9, 3, 4 + 2 ^ 32, 2⟩ = pair? (2 ^ 40) ⟨7, 9, 3, 4, 2⟩ := by
  have hrest (n : Nat) (q : Part) (hq : q ≠ .rightConnector) :
      (LinkKey.mk 7 9 3 4 2).number q = (LinkKey.mk 7 9 3 n 2).number q := by
    cases q with
    | rightConnector => exact absurd rfl hq
    | _ => rfl
  obtain ⟨small, -, hsmall, -, -, htell⟩ := (slot_tells_parts ⟨7, 9, 3, 4, 2⟩).2 4
  obtain ⟨wide, -, hwide, -, -, htell'⟩ := (slot_tells_parts ⟨7, 9, 3, 4, 2⟩).2 40
  rw [hsmall, hwide, ne_eq, ne_eq, htell _ _ (hrest 20), htell _ _ (hrest 5), htell' _ _ (hrest 20),
    htell' _ _ (hrest (4 + 2 ^ 32))]
  simp only [LinkKey.number]
  decide

end Slots

end LinkConnectors.Hash
