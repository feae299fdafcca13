import LinkConnectors.Hash
import Mathlib.Data.LawfulXor.Basic
import Mathlib.Data.Nat.ModEq
import Mathlib.Data.Nat.Prime.Basic

/-! Hashes of names that take in one octet after the other. Each of their steps is a bijection of
the words of 32 bits: shifting to the left and adding multiplies by an odd number, and what shifting
to the right and comparing changes can be told from the bits above. So a collision goes back to
where the names differ, and none arises behind that. -/
namespace LinkConnectors.Hash

section Words

variable {a b c k : Nat} {s : UInt32}

/-- Odd factors can be cancelled in words. -/
lemma odd_mul_modEq_iff (hc : Odd c) : c * a ≡ c * b [MOD 2 ^ k] ↔ a ≡ b [MOD 2 ^ k] := by
  refine ⟨Nat.ModEq.cancel_left_of_coprime ?_, Nat.ModEq.mul_left c⟩
  exact Nat.Coprime.pow_left k (Nat.coprime_two_left.mpr hc)

lemma toNat_shiftLeft (h : UInt32) (hs : s.toNat < 32) :
    (h <<< s).toNat = 2 ^ s.toNat * h.toNat % 2 ^ 32 := by
  rw [UInt32.toNat_shiftLeft, Nat.mod_eq_of_lt hs, Nat.shiftLeft_eq, Nat.mul_comm]

lemma toNat_add_shiftLeft (h : UInt32) (hs : s.toNat < 32) :
    (h + h <<< s).toNat = (2 ^ s.toNat + 1) * h.toNat % 2 ^ 32 := by
  rw [UInt32.toNat_add, toNat_shiftLeft h hs, Nat.add_mod_mod, Nat.add_mul, Nat.one_mul,
    Nat.add_comm]

/-- A word and its shift to the left add up to an odd multiple of the word. -/
theorem add_shiftLeft_injective (hpos : 0 < s.toNat) (hs : s.toNat < 32) :
    Function.Injective fun h : UInt32 => h + h <<< s := by
  intro g h heq
  have hodd : Odd (2 ^ s.toNat + 1) := (Nat.even_pow.mpr ⟨even_two, hpos.ne'⟩).add_one
  have hmod : (2 ^ s.toNat + 1) * g.toNat ≡ (2 ^ s.toNat + 1) * h.toNat [MOD 2 ^ 32] := by
    rw [Nat.ModEq, ← toNat_add_shiftLeft g hs, ← toNat_add_shiftLeft h hs]
    exact congrArg UInt32.toNat heq
  have hnat := ((odd_mul_modEq_iff hodd).mp hmod).eq_of_lt_of_lt g.toNat_lt h.toNat_lt
  exact UInt32.toNat_inj.mp hnat

/-- No word but 0 is its own shift to the right. -/
lemma eq_zero_of_shiftRight_eq {h : UInt32} (hpos : 0 < s.toNat) (hs : s.toNat < 32)
    (heq : h >>> s = h) : h = 0 := by
  have hdiv : h.toNat / 2 ^ s.toNat = h.toNat := by
    simpa [Nat.mod_eq_of_lt hs, Nat.shiftRight_eq_div_pow] using congrArg UInt32.toNat heq
  by_contra hne
  have hlt := Nat.div_lt_self (Nat.pos_of_ne_zero fun hzero => hne (UInt32.toNat_inj.mp hzero))
    (Nat.one_lt_two_pow hpos.ne')
  exact hlt.ne hdiv

/-- If two words compare alike with their shifts to the right, the bits in which the words differ
are their own shift. -/
theorem xor_shiftRight_injective (hpos : 0 < s.toNat) (hs : s.toNat < 32) :
    Function.Injective fun h : UInt32 => h ^^^ h >>> s := by
  intro g h heq
  have hright : g >>> s = g ^^^ (h ^^^ h >>> s) := (xor_eq_iff_right_eq _ _ _).mp heq
  have hself : (g ^^^ h) >>> s = g ^^^ h := by
    rw [UInt32.shiftRight_xor, hright, UInt32.xor_assoc, UInt32.xor_assoc, UInt32.xor_self,
      UInt32.xor_zero]
  exact xor_eq_zero_iff.mp (eq_zero_of_shiftRight_eq hpos hs hself)

end Words

section Rolling

/-- A hash that takes in the octets one by one. No step, and not the last one either, makes
different words equal, and different octets lead from one word to different words. -/
structure Rolling (hash : List UInt8 → UInt32) (start : UInt32) (step : UInt32 → UInt8 → UInt32)
    (finish : UInt32 → UInt32) : Prop where
  hash_eq : ∀ bs, hash bs = finish (bs.foldl step start)
  word_injective : ∀ b, Function.Injective fun h => step h b
  octet_injective : ∀ h, Function.Injective (step h)
  finish_injective : Function.Injective finish

variable {hash : List UInt8 → UInt32} {start : UInt32} {step : UInt32 → UInt8 → UInt32}
  {finish : UInt32 → UInt32} {x y : List UInt8}

namespace Rolling

lemma foldl_injective (hr : Rolling hash start step finish) (w : List UInt8) :
    Function.Injective fun h => w.foldl step h := by
  induction w with
  | nil => exact Function.injective_id
  | cons b w ih => exact ih.comp (hr.word_injective b)

/-- What two texts have in common at their ends decides nothing. -/
theorem append_iff (hr : Rolling hash start step finish) (x y w : List UInt8) :
    hash (x ++ w) = hash (y ++ w) ↔ hash x = hash y := by
  simp only [hr.hash_eq, List.foldl_append, hr.finish_injective.eq_iff,
    (hr.foldl_injective w).eq_iff]

/-- Another octet in one place makes another hash. -/
lemma set_injective (hr : Rolling hash start step finish) (x : List UInt8) {i : Nat}
    (hi : i < x.length) :
    Function.Injective fun b => hash (x.set i b) := by
  intro a b heq
  have hsplit (c : UInt8) : x.set i c = (x.take i ++ [c]) ++ x.drop (i + 1) := by
    simp [List.set_eq_take_append_cons_drop, hi]
  simp only [hsplit] at heq
  have hhead := (hr.append_iff _ _ _).mp heq
  simp only [hr.hash_eq, List.foldl_append, List.foldl_cons, List.foldl_nil] at hhead
  exact hr.octet_injective _ (hr.finish_injective hhead)

end Rolling

lemma single_difference_set {i : Nat} {a b : UInt8} (hi : i < x.length) (hne : a ≠ b) :
    ∃! j : Nat, (x.set i a)[j]? ≠ (x.set i b)[j]? := by
  refine ⟨i, ?_, fun j hj => ?_⟩
  · simpa [hi] using hne
  · by_contra hij
    exact hj (by rw [List.getElem?_set_ne (Ne.symm hij), List.getElem?_set_ne (Ne.symm hij)])

lemma eq_set_of_single_difference (hlength : x.length = y.length)
    (hdiffer : ∃! i : Nat, x[i]? ≠ y[i]?) :
    ∃ i a b, i < x.length ∧ a ≠ b ∧ x = x.set i a ∧ y = x.set i b := by
  obtain ⟨i, hne, hunique⟩ := hdiffer
  have hi : i < x.length := by
    by_contra hge
    exact hne (by simp [Nat.not_lt.mp hge, ← hlength])
  have hx := List.getElem?_eq_getElem hi
  have hy := List.getElem?_eq_getElem (hlength ▸ hi)
  refine ⟨i, x[i], y[i], hi, fun heq => hne ?_, (List.set_getElem_self hi).symm, ?_⟩
  · rw [hx, hy, heq]
  · ext1 j
    by_cases hj : i = j
    · subst hj
      rw [List.getElem?_set_self hi, hy]
    · rw [List.getElem?_set_ne hj]
      by_contra h
      exact hj (hunique j (Ne.symm h)).symm

theorem Rolling.ne_of_single_difference (hr : Rolling hash start step finish)
    (hlength : x.length = y.length) (hdiffer : ∃! i : Nat, x[i]? ≠ y[i]?) : hash x ≠ hash y := by
  obtain ⟨i, a, b, hi, hne, hx, hy⟩ := eq_set_of_single_difference hlength hdiffer
  rw [hx, hy]
  exact (hr.set_injective x hi).ne hne

end Rolling

section Steps

variable {g h : UInt32} {a b : UInt8}

lemma jenkinsStep_inj : jenkinsStep g a = jenkinsStep h b ↔ g + a.toUInt32 = h + b.toUInt32 :=
  ((xor_shiftRight_injective (s := 6) (by decide) (by decide)).comp
    (add_shiftLeft_injective (s := 10) (by decide) (by decide))).eq_iff

lemma jenkinsFinish_injective : Function.Injective jenkinsFinish :=
  (add_shiftLeft_injective (s := 15) (by decide) (by decide)).comp
    ((xor_shiftRight_injective (s := 11) (by decide) (by decide)).comp
      (add_shiftLeft_injective (s := 3) (by decide) (by decide)))

theorem rolling_jenkins : Rolling jenkins 0 jenkinsStep jenkinsFinish where
  hash_eq _ := rfl
  word_injective b _ _ heq := (UInt32.add_left_inj b.toUInt32).mp (jenkinsStep_inj.mp heq)
  octet_injective h _ _ heq :=
    UInt8.toUInt32_inj.mp ((UInt32.add_right_inj h).mp (jenkinsStep_inj.mp heq))
  finish_injective := jenkinsFinish_injective

theorem rolling_djb2 : Rolling djb2 5381 djb2Step id where
  hash_eq _ := rfl
  word_injective b g h heq := by
    have hsum := (UInt32.add_left_inj b.toUInt32).mp heq
    rw [UInt32.add_comm, UInt32.add_comm _ h] at hsum
    exact add_shiftLeft_injective (s := 5) (by decide) (by decide) hsum
  octet_injective h _ _ heq := UInt8.toUInt32_inj.mp ((UInt32.add_right_inj _).mp heq)
  finish_injective := Function.injective_id

end Steps

/-- For each of the two hashes of names, and for all octets: texts that end alike collide if and
only if they collide without their common end, and texts of one length that differ in one place
alone do not collide. -/
theorem collisions_before_common_end :
    (∀ x y w : List UInt8, jenkins (x ++ w) = jenkins (y ++ w) ↔ jenkins x = jenkins y) ∧
    (∀ x y w : List UInt8, djb2 (x ++ w) = djb2 (y ++ w) ↔ djb2 x = djb2 y) ∧
    ∀ x y : List UInt8, x.length = y.length → (∃! i : Nat, x[i]? ≠ y[i]?) →
      jenkins x ≠ jenkins y ∧ djb2 x ≠ djb2 y := by
  refine ⟨rolling_jenkins.append_iff, rolling_djb2.append_iff, fun x y hlength hdiffer => ?_⟩
  exact ⟨rolling_jenkins.ne_of_single_difference hlength hdiffer,
    rolling_djb2.ne_of_single_difference hlength hdiffer⟩

/-- Names that differ in a letter of the suffix, or in the marker. -/
theorem hashes_of_near_names : ofName "Ss" ≠ ofName "Sp" ∧ ofName "hS" ≠ ofName "dS" ∧
    djb2 (Text.bytes "hS") ≠ djb2 (Text.bytes "dS") := by
  have hsuffix : ∃! i : Nat, (Text.bytes "Ss")[i]? ≠ (Text.bytes "Sp")[i]? := by
    have hs : Text.bytes "Ss" = [83, 0].set 1 115 := by decide +kernel
    have hp : Text.bytes "Sp" = [83, 0].set 1 112 := by decide +kernel
    rw [hs, hp]
    exact single_difference_set (by decide) (by decide)
  have hmarker : ∃! i : Nat, (Text.bytes "hS")[i]? ≠ (Text.bytes "dS")[i]? := by
    have hh : Text.bytes "hS" = [0, 83].set 0 104 := by decide +kernel
    have hd : Text.bytes "dS" = [0, 83].set 0 100 := by decide +kernel
    rw [hh, hd]
    exact single_difference_set (by decide) (by decide)
  have hcollide := collisions_before_common_end.2.2
  exact ⟨(hcollide _ _ (by decide +kernel) hsuffix).1, hcollide _ _ (by decide +kernel) hmarker⟩

end LinkConnectors.Hash
