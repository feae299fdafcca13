import LinkConnectors.Interner
import Mathlib.Tactic.Common

/-! Canonical handles. An interner that started empty gives different numbers to different strings,
so two of its handles are the same exactly when their texts are equal. -/
namespace LinkConnectors.Interner

/-- Numbers below the size, each given to one string. -/
structure Canonical (i : Interner) : Prop where
  lt_size : ∀ {s : String} {n : Nat}, i.numbers[s]? = some n → n < i.size
  injective : ∀ {s t : String} {n : Nat}, i.numbers[s]? = some n → i.numbers[t]? = some n → s = t

/-- The handle is the one that the interner gives for its text. -/
def Owns (i : Interner) (h : Handle) : Prop := i.get? h.text = some h

theorem canonical_empty (owner : Nat) : Canonical { owner := owner } where
  lt_size h := by simp at h
  injective h := by simp at h

section

variable {i : Interner}

lemma add_of_get? {s : String} {h : Handle} (hs : i.get? s = some h) : i.add s = (h, i) := by
  simp [add, hs]

lemma add_of_get?_eq_none {s : String} (hs : i.get? s = none) :
    i.add s = (⟨i.owner, i.size, s⟩, { i with numbers := i.numbers.insert s i.size }) := by
  simp [add, hs]

lemma get?_eq_none_iff {s : String} : i.get? s = none ↔ i.numbers[s]? = none := by
  simp [get?]

lemma getElem?_numbers_insert {s t : String} {m n : Nat}
    (h : (i.numbers.insert s m)[t]? = some n) : (s = t ∧ m = n) ∨ i.numbers[t]? = some n := by
  simp only [Std.TreeMap.getElem?_insert, Std.LawfulEqCmp.compare_eq_iff_eq] at h
  split at h
  · exact .inl ⟨‹s = t›, Option.some.inj h⟩
  · exact .inr h

theorem Canonical.add (hi : i.Canonical) (s : String) : (i.add s).2.Canonical := by
  cases hs : i.get? s with
  | some h => rwa [add_of_get? hs]
  | none =>
    have hmem : s ∉ i.numbers := by
      rw [Std.TreeMap.mem_iff_isSome_getElem?, get?_eq_none_iff.mp hs]
      simp
    have hsize : (i.numbers.insert s i.size).size = i.size + 1 := by
      simp [Std.TreeMap.size_insert, hmem, size]
    rw [add_of_get?_eq_none hs]
    constructor
    · intro t n ht
      change n < (i.numbers.insert s i.size).size
      obtain ⟨_, hn⟩ | ht := getElem?_numbers_insert ht
      · omega
      · have := hi.lt_size ht
        omega
    · intro t u n ht hu
      -- the new number is the size, which no string had before
      obtain ⟨hst, hn⟩ | ht := getElem?_numbers_insert ht
      · obtain ⟨hsu, _⟩ | hu := getElem?_numbers_insert hu
        · exact hst.symm.trans hsu
        · have := hi.lt_size hu
          omega
      · obtain ⟨_, hn⟩ | hu := getElem?_numbers_insert hu
        · have := hi.lt_size ht
          omega
        · exact hi.injective ht hu

theorem owns_add (i : Interner) (s : String) : (i.add s).2.Owns (i.add s).1 := by
  rw [Owns, add_text]
  exact get?_add_self i s

theorem Owns.add {h : Handle} (hh : i.Owns h) (s : String) : (i.add s).2.Owns h := by
  by_cases heq : s = h.text
  · subst heq
    rw [add_of_get? hh]
    exact hh
  · rw [Owns, get?_add_of_ne i heq]
    exact hh

/-- Identity of two handles of one interner is equality of their texts. -/
theorem Canonical.same_eq_sameText (hi : i.Canonical) {a b : Handle} (ha : i.Owns a)
    (hb : i.Owns b) :
    a.same b = a.sameText b := by
  obtain ⟨m, hm, ha⟩ := Option.map_eq_some_iff.mp ha
  obtain ⟨n, hn, hb⟩ := Option.map_eq_some_iff.mp hb
  rw [← ha, ← hb]
  apply Bool.eq_iff_iff.mpr
  simp only [Handle.same, Handle.sameText, beq_self_eq_true, Bool.true_and, beq_iff_eq]
  constructor
  · rintro rfl
    exact hi.injective hm hn
  · intro h
    rw [h, hn] at hm
    exact (Option.some.inj hm).symm

end

end LinkConnectors.Interner
