import LinkConnectors.Proofs.Text.Ascii

/-! Texts read by their octets. A run of ASCII characters is the same run of octets, and what lies
between two octet positions is a text if both positions lie between characters. -/
namespace LinkConnectors.Text

section Runs

variable {p : Char → Bool} {q : UInt8 → Bool} {c : Char} {cs : List Char}

/-- A class of ASCII characters together with the class of their octets. -/
structure SameClass (p : Char → Bool) (q : UInt8 → Bool) : Prop where
  ascii : ∀ c, p c = true → c.toNat < 128
  agree : ∀ c, c.toNat < 128 → q (octet c) = p c
  other : ∀ b : UInt8, 128 ≤ b.toNat → q b = false

/-- The first octet of a character outside ASCII is no ASCII octet. -/
lemma exists_utf8EncodeChar (hc : 128 ≤ c.toNat) :
    ∃ b bs, String.utf8EncodeChar c = b :: bs ∧ 128 ≤ b.toNat := by
  have hval : c.val.toNat = c.toNat := rfl
  unfold String.utf8EncodeChar
  dsimp only
  split
  · omega
  split
  · refine ⟨_, _, rfl, ?_⟩
    rw [UInt8.toNat_ofNat']
    omega
  split
  · refine ⟨_, _, rfl, ?_⟩
    rw [UInt8.toNat_ofNat']
    omega
  · refine ⟨_, _, rfl, ?_⟩
    rw [UInt8.toNat_ofNat']
    omega

lemma SameClass.takeWhile_cons_of_neg (h : SameClass p q) (hc : p c = false) (bs : List UInt8) :
    (String.utf8EncodeChar c ++ bs).takeWhile q = [] ∧
      (String.utf8EncodeChar c ++ bs).dropWhile q = String.utf8EncodeChar c ++ bs := by
  have hhead : ∃ b rest, String.utf8EncodeChar c = b :: rest ∧ q b = false := by
    obtain hascii | hother := Nat.lt_or_ge c.toNat 128
    · exact ⟨_, _, utf8EncodeChar_of_ascii hascii, (h.agree c hascii).trans hc⟩
    · obtain ⟨b, rest, hencode, hb⟩ := exists_utf8EncodeChar hother
      exact ⟨b, rest, hencode, h.other b hb⟩
  obtain ⟨b, rest, hencode, hb⟩ := hhead
  simp [hencode, hb]

/-- A run of a class is the run of its octets, and both leave the same. -/
theorem SameClass.runs (h : SameClass p q) (cs : List Char) :
    (cs.flatMap String.utf8EncodeChar).takeWhile q = (cs.takeWhile p).map octet ∧
      (cs.flatMap String.utf8EncodeChar).dropWhile q =
        (cs.dropWhile p).flatMap String.utf8EncodeChar := by
  induction cs with
  | nil => exact ⟨rfl, rfl⟩
  | cons c cs ih =>
    cases hc : p c with
    | false =>
      rw [List.flatMap_cons, List.takeWhile_cons_of_neg (by simp [hc]),
        List.dropWhile_cons_of_neg (by simp [hc])]
      exact h.takeWhile_cons_of_neg hc _
    | true =>
      have hascii := h.ascii c hc
      have hq : q (octet c) = true := (h.agree c hascii).trans hc
      rw [List.flatMap_cons, utf8EncodeChar_of_ascii hascii, List.singleton_append,
        List.takeWhile_cons_of_pos hq, List.dropWhile_cons_of_pos hq, List.takeWhile_cons_of_pos hc,
        List.dropWhile_cons_of_pos hc, List.map_cons, ih.1, ih.2]
      exact ⟨rfl, rfl⟩

lemma isLowerByte_of_ge {b : UInt8} (hb : 128 ≤ b.toNat) : isLowerByte b = false := by
  simp only [isLowerByte, UInt8.le_iff_toNat_le, Bool.and_eq_false_iff, decide_eq_false_iff_not]
  right
  simp
  omega

lemma sameClass_isUpper : SameClass Char.isUpper isUpperByte where
  ascii c hc := by
    have := isUpper_iff.mp hc
    omega
  agree c hc := isUpperByte_octet hc
  other b hb := by
    simp only [isUpperByte, UInt8.le_iff_toNat_le, Bool.and_eq_false_iff, decide_eq_false_iff_not]
    right
    simp
    omega

end Runs

section Slices

variable {s a b c : String}

/-- The text between two octet positions. There is none if one of them lies inside a character. -/
def slice? (s : String) (start stop : Nat) : Option String :=
  if start ≤ stop ∧ String.Pos.Raw.IsValid s ⟨start⟩ ∧ String.Pos.Raw.IsValid s ⟨stop⟩ then
    some (String.Pos.Raw.extract s ⟨start⟩ ⟨stop⟩)
  else none

lemma byteCount_eq_utf8Len (cs : List Char) : byteCount (String.ofList cs) = String.utf8Len cs := by
  rw [byteCount, bytes, String.toList_ofList]
  induction cs with
  | nil => rfl
  | cons c cs ih =>
    rw [List.flatMap_cons, List.length_append, ih, String.length_utf8EncodeChar,
      String.utf8Len_cons, Nat.add_comm]

lemma isValid_append (a b : String) : String.Pos.Raw.IsValid (a ++ b) ⟨byteCount a⟩ := by
  apply String.Pos.Raw.isValid_iff_exists_append.mpr
  refine ⟨a, b, rfl, ?_⟩
  obtain ⟨cs, rfl⟩ := a.exists_eq_ofList
  rw [String.rawEndPos_ofList, byteCount_eq_utf8Len]

/-- A character begins where the octets before it end. -/
lemma get_position {before after : List Char} {x : Char} (hs : s.toList = before ++ x :: after) :
    String.Pos.Raw.IsValid s ⟨byteCount (String.ofList before)⟩ ∧
      String.Pos.Raw.get s ⟨byteCount (String.ofList before)⟩ = x := by
  have happend : s = String.ofList before ++ String.ofList (x :: after) := by
    rw [← String.ofList_append, ← hs, String.ofList_toList]
  refine ⟨happend ▸ isValid_append _ _, ?_⟩
  rw [happend, ← String.ofList_append, byteCount_eq_utf8Len]
  exact String.get_of_valid before (x :: after)

/-- The middle of a text is cut out by the positions where it begins and ends. -/
theorem slice?_append (a b c : String) :
    slice? (a ++ b ++ c) (byteCount a) (byteCount a + byteCount b) = some b := by
  have hstart : String.Pos.Raw.IsValid (a ++ b ++ c) ⟨byteCount a⟩ := by
    rw [String.append_assoc]
    exact isValid_append a (b ++ c)
  have hstop : String.Pos.Raw.IsValid (a ++ b ++ c) ⟨byteCount a + byteCount b⟩ := by
    rw [← byteCount_append]
    exact isValid_append (a ++ b) c
  rw [slice?, if_pos ⟨Nat.le_add_right _ _, hstart, hstop⟩]
  obtain ⟨l, rfl⟩ := a.exists_eq_ofList
  obtain ⟨m, rfl⟩ := b.exists_eq_ofList
  obtain ⟨r, rfl⟩ := c.exists_eq_ofList
  rw [← String.ofList_append, ← String.ofList_append, byteCount_eq_utf8Len, byteCount_eq_utf8Len]
  exact congrArg some (String.extract_of_valid l m r)

section Ascii

variable {as bs cs : List Char}

/-- Between ASCII characters, positions count characters. -/
lemma slice?_of_ascii (hs : s.toList = as ++ (bs ++ cs)) (has : IsAscii as) (hbs : IsAscii bs) :
    slice? s as.length (as.length + bs.length) = some (String.ofList bs) := by
  have hcut := slice?_append (String.ofList as) (String.ofList bs) (String.ofList cs)
  have happend : s = String.ofList as ++ String.ofList bs ++ String.ofList cs := by
    rw [← String.ofList_append, ← String.ofList_append, List.append_assoc, ← hs,
      String.ofList_toList]
  rwa [← happend, byteCount_ofList has, byteCount_ofList hbs] at hcut

/-- What follows some ASCII characters is cut out by their number. -/
lemma slice?_rest (hs : s.toList = as ++ cs) (has : IsAscii as) :
    slice? s as.length (bytes s).length = some (String.ofList cs) := by
  have hcut := slice?_append (String.ofList as) (String.ofList cs) ""
  have happend : s = String.ofList as ++ String.ofList cs ++ "" := by
    rw [String.append_empty, ← String.ofList_append, ← hs, String.ofList_toList]
  have hlength : (bytes s).length = byteCount (String.ofList as) +
      byteCount (String.ofList cs) := by
    rw [happend, String.append_empty]
    exact byteCount_append _ _
  rw [← happend, ← hlength, byteCount_ofList has] at hcut
  exact hcut

end Ascii

end Slices

end LinkConnectors.Text
