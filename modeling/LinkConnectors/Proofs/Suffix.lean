import LinkConnectors.Proofs.Encoding
import LinkConnectors.Proofs.Matching
import LinkConnectors.Suffix

/-! The bits of packed suffixes. Position `n` of a suffix has the bits from `7 * n` to `7 * n + 6`
in both words, and comparing the words compares the letters at every position that both suffixes
have. -/
namespace LinkConnectors.Suffix

/-- The word with a code of seven bits for each letter, from a slot on. -/
def wordFrom (code : Char → UInt64) (slot : Nat) : List Char → UInt64
  | [] => 0
  | c :: cs =>
    if c = wildcard then wordFrom code (slot + 1) cs
    else wordFrom code (slot + 1) cs ||| ((code c &&& slotMask) <<< shift slot)

variable {code : Char → UInt64} {c : Char} {cs ds : List Char} {slot : Nat}

lemma packFrom_eq (slot : Nat) (cs : List Char) :
    packFrom slot cs =
      ⟨wordFrom (fun c => UInt64.ofNat c.toNat) slot cs, wordFrom (fun _ => slotMask) slot cs⟩ := by
  induction cs generalizing slot with
  | nil => rfl
  | cons c cs ih =>
    rw [packFrom, ih, put, wordFrom, wordFrom]
    by_cases hc : c = wildcard
    · simp only [if_pos hc]
    · simp only [if_neg hc]
      rfl

/-- A code of seven bits that was moved to a slot has its bits there. -/
lemma testBit_shiftLeft (h : slot < maxLetters) (w : UInt64) (i : Nat) :
    ((w &&& slotMask) <<< shift slot).toNat.testBit i =
      (decide (i / 7 = slot) && w.toNat.testBit (i % 7)) := by
  change slot < 9 at h
  have hshift : (shift slot).toNat % 64 = 7 * slot := by
    rw [shift, slotBits, UInt64.toNat_ofNat']
    omega
  have hmask : slotMask.toNat = 2 ^ 7 - 1 := rfl
  rw [UInt64.toNat_shiftLeft, hshift, Nat.testBit_mod_two_pow, Nat.testBit_shiftLeft,
    UInt64.toNat_and, Nat.testBit_and, hmask, Nat.testBit_two_pow_sub_one]
  by_cases hi : i / 7 = slot
  · have hmod : i - 7 * slot = i % 7 := by omega
    have h64 : i < 64 := by omega
    have hle : 7 * slot ≤ i := by omega
    have hlt : i % 7 < 7 := by omega
    simp [hi, hmod, h64, hle, hlt]
  · by_cases hle : 7 * slot ≤ i
    · have hge : ¬ i - 7 * slot < 7 := by omega
      simp [hi, hge]
    · simp [hi, hle]

/-- Each bit comes from the letter at its position, if there is one and it is no wildcard. -/
theorem testBit_wordFrom (h : slot + cs.length ≤ maxLetters) (i : Nat) :
    (wordFrom code slot cs).toNat.testBit i =
      (decide (slot ≤ i / 7) &&
        cs[i / 7 - slot]?.any fun c => c != wildcard && (code c).toNat.testBit (i % 7)) := by
  induction cs generalizing slot with
  | nil => simp [wordFrom]
  | cons c cs ih =>
    rw [List.length_cons] at h
    have hhead : (wordFrom code slot (c :: cs)).toNat.testBit i =
        ((wordFrom code (slot + 1) cs).toNat.testBit i ||
          (decide (i / 7 = slot) && (c != wildcard && (code c).toNat.testBit (i % 7)))) := by
      rw [wordFrom]
      by_cases hc : c = wildcard
      · simp [hc]
      · rw [if_neg hc, UInt64.toNat_or, Nat.testBit_or, testBit_shiftLeft (by omega),
          bne_iff_ne.mpr hc, Bool.true_and]
    rw [hhead, ih (by omega)]
    obtain hlt | heq | hgt := Nat.lt_trichotomy (i / 7) slot
    · have hnext : ¬ slot + 1 ≤ i / 7 := by omega
      simp [hlt.ne, hnext, Nat.not_le.mpr hlt]
    · simp [heq]
    · have hposition : i / 7 - slot = (i / 7 - (slot + 1)) + 1 := by omega
      have hnext : slot + 1 ≤ i / 7 := hgt
      rw [hposition, List.getElem?_cons_succ]
      simp [hgt.ne', hnext, hgt.le]

lemma toNat_code (hc : isLetter c = true) : (UInt64.ofNat c.toNat).toNat = c.toNat := by
  have := toNat_of_isLetter hc
  rw [UInt64.toNat_ofNat']
  omega

/-- The letter word of a suffix holds its letters, seven bits each. -/
theorem testBit_pack_letters (hcs : ∀ c ∈ cs, isLetter c = true) (h : cs.length ≤ maxLetters)
    (i : Nat) :
    (pack cs).letters.toNat.testBit i =
      cs[i / 7]?.any fun c => c != wildcard && c.toNat.testBit (i % 7) := by
  rw [pack, packFrom_eq, testBit_wordFrom (by omega), Nat.sub_zero]
  cases hc : cs[i / 7]? with
  | none => simp
  | some c =>
    rw [Option.any_some, Option.any_some, toNat_code (hcs c (List.mem_of_getElem? hc))]
    simp

/-- The mask word of a suffix marks the positions of its letters. -/
theorem testBit_pack_mask (h : cs.length ≤ maxLetters) (i : Nat) :
    (pack cs).mask.toNat.testBit i = cs[i / 7]?.any fun c => c != wildcard := by
  have hmask : slotMask.toNat.testBit (i % 7) = true := by
    have hmask : slotMask.toNat = 2 ^ 7 - 1 := rfl
    rw [hmask, Nat.testBit_two_pow_sub_one, decide_eq_true_iff]
    omega
  rw [pack, packFrom_eq, testBit_wordFrom (by omega)]
  simp [hmask]

/-- Suffixes are compatible if no bit tells them apart at a position that both have. -/
lemma compatible_iff (a b : Suffix) : a.compatible b = true ↔
    ∀ i, a.mask.toNat.testBit i = true → b.mask.toNat.testBit i = true →
      a.letters.toNat.testBit i = b.letters.toNat.testBit i := by
  rw [compatible, beq_iff_eq, ← UInt64.toNat_inj, UInt64.toNat_and, UInt64.toNat_and,
    UInt64.toNat_xor]
  constructor
  · intro h i ha hb
    have hbit := congrArg (fun n => n.testBit i) h
    simpa [ha, hb] using hbit
  · intro h
    apply Nat.eq_of_testBit_eq
    intro i
    have hbit := h i
    cases ha : a.mask.toNat.testBit i with
    | false => simp [ha]
    | true =>
      cases hb : b.mask.toNat.testBit i with
      | false => simp [hb]
      | true => simp [ha, hb, hbit ha hb]

/-- Two letters with the same seven bits are the same. -/
lemma eq_of_testBit {c d : Char} (hc : isLetter c = true) (hd : isLetter d = true)
    (h : ∀ r < 7, c.toNat.testBit r = d.toNat.testBit r) : c = d := by
  apply Char.toNat_inj.mp
  apply Nat.eq_of_testBit_eq
  intro r
  obtain hr | hr := Nat.lt_or_ge r 7
  · exact h r hr
  · have hpow : 2 ^ 7 ≤ 2 ^ r := Nat.pow_le_pow_right (by omega) hr
    rw [Nat.testBit_lt_two_pow (Nat.lt_of_lt_of_le (toNat_of_isLetter hc) hpow),
      Nat.testBit_lt_two_pow (Nat.lt_of_lt_of_le (toNat_of_isLetter hd) hpow)]

lemma octet_ne_star (hc : isLetter c = true) (hw : (c != wildcard) = true) :
    Text.octet c ≠ Text.star := by
  intro hoctet
  exact bne_iff_ne.mp hw ((Text.octet_inj (toNat_of_isLetter hc) (by decide)).mp hoctet)

/-- Comparing packed suffixes is comparing them as they are written. -/
theorem compatible_pack (hcs : ∀ c ∈ cs, isLetter c = true) (hds : ∀ d ∈ ds, isLetter d = true)
    (hclen : cs.length ≤ maxLetters) (hdlen : ds.length ≤ maxLetters) :
    (pack cs).compatible (pack ds) =
      Matching.suffixesAgree (cs.map Text.octet) (ds.map Text.octet) := by
  apply Bool.eq_iff_iff.mpr
  rw [compatible_iff, Matching.suffixesAgree_iff]
  constructor
  · intro h n a b ha hb
    rw [List.getElem?_map, Option.map_eq_some_iff] at ha hb
    obtain ⟨c, hc, rfl⟩ := ha
    obtain ⟨d, hd, rfl⟩ := hb
    have hcl := hcs c (List.mem_of_getElem? hc)
    have hdl := hds d (List.mem_of_getElem? hd)
    by_cases hcw : c = wildcard
    · exact .inl (congrArg Text.octet hcw)
    by_cases hdw : d = wildcard
    · exact .inr (.inl (congrArg Text.octet hdw))
    refine .inr (.inr (congrArg Text.octet (eq_of_testBit hcl hdl fun r hr => ?_)))
    have hbit := h (7 * n + r)
    have hdiv : (7 * n + r) / 7 = n := by omega
    have hmod : (7 * n + r) % 7 = r := by omega
    rw [testBit_pack_mask hclen, testBit_pack_mask hdlen, testBit_pack_letters hcs hclen,
      testBit_pack_letters hds hdlen, hdiv, hmod, hc, hd] at hbit
    simp only [Option.any_some, bne_iff_ne.mpr hcw, bne_iff_ne.mpr hdw, Bool.true_and] at hbit
    exact hbit trivial trivial
  · intro h i ha hb
    rw [testBit_pack_mask hclen, Option.any_eq_true] at ha
    rw [testBit_pack_mask hdlen, Option.any_eq_true] at hb
    obtain ⟨c, hc, hcw⟩ := ha
    obtain ⟨d, hd, hdw⟩ := hb
    have hagree := h (i / 7) (Text.octet c) (Text.octet d) (by simp [hc]) (by simp [hd])
    have hcl := hcs c (List.mem_of_getElem? hc)
    have hdl := hds d (List.mem_of_getElem? hd)
    have heq : c = d := by
      obtain hc' | hd' | hcd := hagree
      · exact absurd hc' (octet_ne_star hcl hcw)
      · exact absurd hd' (octet_ne_star hdl hdw)
      · exact (Text.octet_inj (toNat_of_isLetter hcl) (toNat_of_isLetter hdl)).mp hcd
    rw [testBit_pack_letters hcs hclen, testBit_pack_letters hds hdlen, hc, hd, heq]

end LinkConnectors.Suffix
