import LinkConnectors.Proofs.Suffix.Slots

/-! Packed suffixes in the order of how much they leave open. A suffix generalizes another if it has
letters in no other positions and the same letters there. Words are compared bit by bit, and what
comes out is read position by position. -/
namespace LinkConnectors.Suffix

/-- Each position of `s` is one of `t`, and both have the same letter there. -/
def generalizes (s t : Suffix) : Bool :=
  s.mask &&& t.mask == s.mask && (t.letters ^^^ s.letters) &&& s.mask == 0

variable {s t : Suffix} {n : Nat} {c : Char}

/-- One suffix generalizes another if no bit at its own positions tells them apart. -/
lemma generalizes_iff : s.generalizes t = true ↔ ∀ i, s.mask.toNat.testBit i = true →
    t.mask.toNat.testBit i = true ∧ t.letters.toNat.testBit i = s.letters.toNat.testBit i := by
  rw [generalizes, Bool.and_eq_true, beq_iff_eq, beq_iff_eq, ← UInt64.toNat_inj, ← UInt64.toNat_inj,
    UInt64.toNat_and, UInt64.toNat_and, UInt64.toNat_xor]
  constructor
  · rintro ⟨hmask, hletters⟩ i hi
    have hmask := congrArg (fun n => n.testBit i) hmask
    have hletters := congrArg (fun n => n.testBit i) hletters
    simp only [Nat.testBit_and, Nat.testBit_xor, hi, Bool.true_and, Bool.and_true] at hmask hletters
    exact ⟨hmask, by simpa using hletters⟩
  · intro h
    constructor <;> apply Nat.eq_of_testBit_eq <;> intro i
    · cases hi : s.mask.toNat.testBit i with
      | false => simp [hi]
      | true => simp [hi, (h i hi).1]
    · cases hi : s.mask.toNat.testBit i with
      | false => simp [hi]
      | true => simp [hi, (h i hi).2]

section Positions

/-- The mask marks all bits of the positions that carry a letter. -/
lemma Packed.testBit_mask_iff (hs : Packed s) (i : Nat) :
    s.mask.toNat.testBit i = true ↔ i / 7 < 9 ∧ s.letterAt (i / 7) ≠ '*' := by
  obtain hi | hi := Nat.lt_or_ge i 63
  · have hbit := testBit_slot s.mask (i / 7) (i % 7)
    have hlt : i % 7 < 7 := Nat.mod_lt i (by omega)
    have hfull : Nat.testBit 127 (i % 7) = true :=
      (Nat.testBit_two_pow_sub_one 7 _).trans (decide_eq_true hlt)
    rw [Nat.div_add_mod, decide_eq_true hlt, Bool.true_and, (hs.slot_eq (by omega : i / 7 < 9)).1]
      at hbit
    have hpos : i / 7 < 9 := by omega
    rw [← hbit]
    by_cases hstar : s.letterAt (i / 7) = '*'
    · simp [hstar]
    · simp [hstar, hfull, hpos]
  · have hfalse : s.mask.toNat.testBit i = false := by
      obtain rfl | hi := Nat.eq_or_lt_of_le hi
      · exact hs.mask_top
      · exact Nat.testBit_lt_two_pow
          (Nat.lt_of_lt_of_le s.mask.toNat_lt (Nat.pow_le_pow_right (by omega) hi))
    rw [hfalse]
    exact iff_of_false Bool.false_ne_true fun h => by omega

/-- At a position that carries a letter, the letter word has the bits of that letter. -/
lemma Packed.testBit_letters (hs : Packed s) {i : Nat} (hi : s.mask.toNat.testBit i = true) :
    s.letters.toNat.testBit i = (s.letterAt (i / 7)).toNat.testBit (i % 7) := by
  obtain ⟨hpos, hletter⟩ := (hs.testBit_mask_iff i).mp hi
  have hbit := testBit_slot s.letters (i / 7) (i % 7)
  rw [Nat.div_add_mod, decide_eq_true (Nat.mod_lt i (by omega)), Bool.true_and, (hs.slot_eq hpos).2,
    if_neg hletter] at hbit
  exact hbit.symm

/-- All bits of a position that carries a letter are marked. -/
lemma Packed.marked (hs : Packed s) (hn : n < 9) (hletter : s.letterAt n ≠ '*') {r : Nat}
    (hr : r < 7) :
    s.mask.toNat.testBit (7 * n + r) = true := by
  have hdiv : (7 * n + r) / 7 = n := by omega
  rw [hs.testBit_mask_iff, hdiv]
  exact ⟨hn, hletter⟩

/-- Letters at one position are the same if no bit of that position tells them apart. -/
lemma Packed.letterAt_eq_of_testBit (hs : Packed s) (ht : Packed t) (hn : n < 9)
    (hsn : s.letterAt n ≠ '*') (htn : t.letterAt n ≠ '*')
    (h : ∀ r < 7, s.letters.toNat.testBit (7 * n + r) = t.letters.toNat.testBit (7 * n + r)) :
    s.letterAt n = t.letterAt n := by
  refine eq_of_testBit (hs.isLetter_letterAt hn) (ht.isLetter_letterAt hn) fun r hr => ?_
  have hdiv : (7 * n + r) / 7 = n := by omega
  have hmod : (7 * n + r) % 7 = r := by omega
  have hbit := h r hr
  rwa [hs.testBit_letters (hs.marked hn hsn hr), ht.testBit_letters (ht.marked hn htn hr), hdiv,
    hmod] at hbit

/-- Packed suffixes are compatible if at each position one of them is open or both have the same
letter. -/
theorem Packed.compatible_iff_letterAt (hs : Packed s) (ht : Packed t) : s.compatible t = true ↔
    ∀ n < 9, s.letterAt n = '*' ∨ t.letterAt n = '*' ∨ s.letterAt n = t.letterAt n := by
  rw [compatible_iff]
  constructor
  · intro h n hn
    by_cases hsn : s.letterAt n = '*'
    · exact .inl hsn
    by_cases htn : t.letterAt n = '*'
    · exact .inr (.inl htn)
    exact .inr (.inr (hs.letterAt_eq_of_testBit ht hn hsn htn fun r hr =>
      h _ (hs.marked hn hsn hr) (ht.marked hn htn hr)))
  · intro h i hsi hti
    obtain ⟨hpos, hsn⟩ := (hs.testBit_mask_iff i).mp hsi
    obtain ⟨_, htn⟩ := (ht.testBit_mask_iff i).mp hti
    rw [hs.testBit_letters hsi, ht.testBit_letters hti,
      ((h _ hpos).resolve_left hsn).resolve_left htn]

/-- A packed suffix generalizes another if at each position it is open or has the letter of the
other. -/
theorem Packed.generalizes_iff_letterAt (hs : Packed s) (ht : Packed t) : s.generalizes t = true ↔
    ∀ n < 9, s.letterAt n = '*' ∨ s.letterAt n = t.letterAt n := by
  rw [generalizes_iff]
  constructor
  · intro h n hn
    by_cases hsn : s.letterAt n = '*'
    · exact .inl hsn
    have htn : t.letterAt n ≠ '*' := by
      have hmark := ((ht.testBit_mask_iff _).mp (h _ (hs.marked hn hsn (by omega : 0 < 7))).1).2
      rwa [Nat.add_zero, Nat.mul_div_cancel_left n (by omega)] at hmark
    exact .inr (hs.letterAt_eq_of_testBit ht hn hsn htn fun r hr =>
      (h _ (hs.marked hn hsn hr)).2.symm)
  · intro h i hsi
    obtain ⟨hpos, hsn⟩ := (hs.testBit_mask_iff i).mp hsi
    have heq := (h _ hpos).resolve_left hsn
    have hti : t.mask.toNat.testBit i = true := (ht.testBit_mask_iff i).mpr ⟨hpos, heq ▸ hsn⟩
    rw [hs.testBit_letters hsi, ht.testBit_letters hti, heq]
    exact ⟨hti, rfl⟩

end Positions

section Order

lemma Packed.generalizes_antisymm (hs : Packed s) (ht : Packed t) (hst : s.generalizes t = true)
    (hts : t.generalizes s = true) : s = t := by
  rw [hs.generalizes_iff_letterAt ht] at hst
  rw [ht.generalizes_iff_letterAt hs] at hts
  refine hs.eq_of_letterAt ht fun n hn => ?_
  obtain hopen | heq := hst n hn
  · obtain hopen' | heq := hts n hn
    · rw [hopen, hopen']
    · exact heq.symm
  · exact heq

lemma Packed.compatible_self (hs : Packed s) : s.compatible s = true :=
  (hs.compatible_iff_letterAt hs).mpr fun _ _ => .inr (.inr rfl)

/-- The suffix with a letter at one position and nothing else. -/
def single (n : Nat) (c : Char) : Suffix := pack (List.replicate n '*' ++ [c])

lemma isLetter_of_mem_single (hc : isLetter c = true) :
    ∀ d ∈ List.replicate n '*' ++ [c], isLetter d = true := by
  intro d hd
  obtain hd | hd := List.mem_append.mp hd
  · rw [List.eq_of_mem_replicate hd]
    rfl
  · rwa [List.mem_singleton.mp hd]

lemma length_single_le (hn : n < 9) (c : Char) :
    (List.replicate n '*' ++ [c]).length ≤ maxLetters := by
  rw [List.length_append, List.length_replicate, List.length_singleton]
  exact hn

lemma packed_single (hn : n < 9) (hc : isLetter c = true) : Packed (single n c) :=
  packed_pack (isLetter_of_mem_single hc) (length_single_le hn c)

lemma letterAt_single (hn : n < 9) (hc : isLetter c = true) (m : Nat) :
    (single n c).letterAt m = if m = n then c else '*' := by
  rw [single, letterAt_pack (isLetter_of_mem_single hc) (length_single_le hn c),
    List.getD_eq_getElem?_getD, List.getElem?_append, List.getElem?_replicate,
    List.length_replicate]
  obtain hlt | rfl | hgt := Nat.lt_trichotomy m n
  · rw [if_pos hlt, if_pos hlt, if_neg hlt.ne]
    rfl
  · rw [if_neg (Nat.lt_irrefl m), Nat.sub_self, if_pos rfl]
    rfl
  · rw [if_neg (by omega), List.getElem?_eq_none (by rw [List.length_singleton]; omega),
      if_neg hgt.ne']
    rfl

/-- A suffix with a single letter is compatible with those that are open there or have this
letter. -/
lemma Packed.compatible_single_iff (hs : Packed s) (hn : n < 9) (hc : isLetter c = true)
    (hstar : c ≠ '*') :
    s.compatible (single n c) = true ↔ s.letterAt n = '*' ∨ s.letterAt n = c := by
  rw [hs.compatible_iff_letterAt (packed_single hn hc)]
  constructor
  · intro h
    have hat := h n hn
    rw [letterAt_single hn hc, if_pos rfl] at hat
    simpa [hstar] using hat
  · intro h m _
    rw [letterAt_single hn hc]
    by_cases hm : m = n
    · rw [hm, if_pos rfl]
      exact h.imp_right .inr
    · rw [if_neg hm]
      exact .inr (.inl rfl)

/-- The more general suffix is compatible with whatever the other one is compatible with. Where it
has a letter that the other one lacks, a single letter tells them apart. -/
theorem Packed.generalizes_iff_forall (hs : Packed s) (ht : Packed t) : s.generalizes t = true ↔
    ∀ u, Packed u → t.compatible u = true → s.compatible u = true := by
  constructor
  · intro h u hu htu
    rw [hs.generalizes_iff_letterAt ht] at h
    rw [ht.compatible_iff_letterAt hu] at htu
    rw [hs.compatible_iff_letterAt hu]
    intro n hn
    obtain hopen | heq := h n hn
    · exact .inl hopen
    · rw [heq]
      exact htu n hn
  · intro h
    rw [hs.generalizes_iff_letterAt ht]
    intro n hn
    by_contra hnot
    rw [not_or] at hnot
    obtain ⟨hsn, hne⟩ := hnot
    -- a letter that `t` admits at this position and `s` does not
    obtain ⟨c, hc, hstar, htc, hsc⟩ : ∃ c, isLetter c = true ∧ c ≠ '*' ∧
        (t.letterAt n = '*' ∨ t.letterAt n = c) ∧
        s.letterAt n ≠ c := by
      by_cases htn : t.letterAt n = '*'
      · by_cases ha : s.letterAt n = 'a'
        · exact ⟨'b', by decide, by decide, .inl htn, by rw [ha]; decide⟩
        · exact ⟨'a', by decide, by decide, .inl htn, ha⟩
      · exact ⟨t.letterAt n, ht.isLetter_letterAt hn, htn, .inr rfl, hne⟩
    have hsingle := h _ (packed_single hn hc) ((ht.compatible_single_iff hn hc hstar).mpr htc)
    exact ((hs.compatible_single_iff hn hc hstar).mp hsingle).elim hsn hsc

end Order

end LinkConnectors.Suffix
