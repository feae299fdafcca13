import LinkConnectors.Proofs.Encoding.Grammar
import LinkConnectors.Proofs.Suffix.Slots

/-! The packed suffix as part of an encoding. Role, core and packed suffix give the name back, up to
the wildcards at its end, which nothing but its length would tell. -/
namespace LinkConnectors.Encoding

open Suffix (strip unpack Packed)

variable {name other : String} {e f : Encoding} {cs ds : List Char} {s : Suffix}

section Endings

lemma strip_append (hcs : ∀ c ∈ cs, c ≠ '*') (ds : List Char) :
    strip (cs ++ ds) = cs ++ strip ds := by
  induction ds using List.reverseRecOn with
  | nil =>
    rw [List.append_nil]
    have hlast : ∀ hne : cs ≠ [], ¬ (cs.getLast hne == '*') = true := by
      intro hne hstar
      exact hcs _ (List.getLast_mem hne) (beq_iff_eq.mp hstar)
    exact (List.rdropWhile_eq_self_iff.mpr hlast).trans (List.append_nil cs).symm
  | append_singleton ds d ih =>
    rw [← List.append_assoc, Suffix.strip_concat, Suffix.strip_concat]
    split
    · exact ih
    · rw [List.append_assoc]

lemma Spells.ne_star (h : e.Spells name) : ∀ c ∈ e.role.marker ++ e.core.toList, c ≠ '*' := by
  rintro c hc rfl
  obtain hc | hc := List.mem_append.mp hc
  · cases hrole : e.role <;> simp [hrole, Role.marker] at hc
  · cases h.core_upper _ hc

/-- Only the suffix ends in wildcards. -/
lemma Spells.strip_eq (h : e.Spells name) :
    strip name.toList = e.role.marker ++ (e.core.toList ++ strip e.suffix.toList) := by
  rw [h.name_eq, ← List.append_assoc, strip_append h.ne_star, List.append_assoc]

/-- Without the wildcards at its end, a name is accepted with the same packed suffix. -/
lemma Spells.stripped (h : e.Spells name) :
    Spells ⟨e.role, e.core, String.ofList (strip e.suffix.toList), e.packed⟩
      (String.ofList (strip name.toList)) := by
  have hsub : strip e.suffix.toList <+: e.suffix.toList := List.rdropWhile_prefix _ _
  have hletter : ∀ c ∈ strip e.suffix.toList, Suffix.isLetter c = true := fun c hc =>
    h.suffix_letter c (hsub.subset hc)
  have hlength : (strip e.suffix.toList).length ≤ Suffix.maxLetters :=
    hsub.length_le.trans h.suffix_length
  have hidem : strip e.suffix.toList = strip (strip e.suffix.toList) :=
    (List.rdropWhile_idempotent _ _).symm
  constructor
  · simp only [String.toList_ofList]
    exact h.strip_eq
  · exact h.core_ne
  · exact h.core_upper
  · exact h.core_length
  · simpa using hletter
  · simpa using hlength
  · rw [String.toList_ofList, h.packed_eq]
    exact (Suffix.pack_eq_pack_iff h.suffix_letter hletter h.suffix_length hlength).mpr hidem

end Endings

/-- Encodings of names agree in all but the suffix as it is written if the names differ only in the
wildcards at their ends. -/
theorem Spells.same_code_iff (he : e.Spells name) (hf : f.Spells other) :
    (e.role = f.role ∧ e.core = f.core ∧ e.packed = f.packed) ↔
      strip name.toList = strip other.toList := by
  constructor
  · rintro ⟨hrole, hcore, hpacked⟩
    rw [he.packed_eq, hf.packed_eq] at hpacked
    have hsuffix := (Suffix.pack_eq_pack_iff he.suffix_letter hf.suffix_letter he.suffix_length
      hf.suffix_length).mp hpacked
    rw [he.strip_eq, hf.strip_eq, hrole, hcore, hsuffix]
  · intro h
    -- both encodings without the wildcards at the end are read from the one stripped name
    have hstripped := hf.stripped
    rw [← h] at hstripped
    injection he.stripped.eq hstripped with hrole hcore _ hpacked
    exact ⟨hrole, hcore, hpacked⟩

/-- With any marker in front of the core and any nine letters and wildcards behind it, there is a
name again. -/
lemma Spells.recombined (h : e.Spells name) (role : Role) (hs : Packed s) :
    Spells ⟨role, e.core, String.ofList (s.unpack 9), s⟩
      (String.ofList (role.marker ++ (e.core.toList ++ s.unpack 9))) := by
  constructor
  · simp only [String.toList_ofList]
  · exact h.core_ne
  · exact h.core_upper
  · exact h.core_length
  · simpa using hs.isLetter_unpack
  · simp [Suffix.length_unpack, Suffix.maxLetters, Suffix.slotBits]
  · rw [String.toList_ofList, hs.pack_unpack]

/-- Every suffix of nine letters and wildcards stands in some name. -/
lemma exists_spells_packed (h : Packed s) : ∃ name e, ofName name = .ok e ∧ e.packed = s := by
  have hcore : ofName "A" = .ok ⟨.unmarked, "A", "", .clear⟩ := by decide +kernel
  exact ⟨_, _, ofName_eq_ok_iff.mpr ((spells_of_ofName hcore).recombined .unmarked h), rfl⟩

/-- The packed suffix of an accepted name reads as its suffix was written. Names have the same role,
core and packed suffix if they differ only in the wildcards at their ends. The pairs of words that
come up are those whose slots are clear or hold a small letter. -/
theorem packed_faithful :
    (∀ name e, ofName name = .ok e → e.packed.unpack (Text.byteCount e.suffix) = e.suffix.toList ∧
      String.ofList e.role.marker ++ e.core ++ String.ofList
        (e.packed.unpack (Text.byteCount e.suffix)) = name) ∧
    (∀ name other e f, ofName name = .ok e → ofName other = .ok f →
      ((e.role = f.role ∧ e.core = f.core ∧ e.packed.letters = f.packed.letters ∧
        e.packed.mask = f.packed.mask) ↔
        String.ofList (strip name.toList) = String.ofList (strip other.toList))) ∧
    ∀ letters mask,
      (∃ name e, ofName name = .ok e ∧ e.packed.letters = letters ∧ e.packed.mask = mask) ↔
      Packed ⟨letters, mask⟩ := by
  refine ⟨fun name e he => ?_, fun name other e f he hf => ?_,
    fun letters mask => ⟨?_, fun h => ?_⟩⟩
  · have h := spells_of_ofName he
    have hunpack : e.packed.unpack (Text.byteCount e.suffix) = e.suffix.toList := by
      rw [h.packed_eq, Text.byteCount_of_ascii h.isAscii_suffix]
      exact Suffix.unpack_pack h.suffix_letter h.suffix_length
    refine ⟨hunpack, ?_⟩
    rw [hunpack, String.ofList_toList, h.written.name_eq]
  · rw [String.ofList_inj, ← (spells_of_ofName he).same_code_iff (spells_of_ofName hf)]
    have hpacked : e.packed = f.packed ↔ e.packed.letters = f.packed.letters ∧
        e.packed.mask = f.packed.mask := by
      rw [← Suffix.mk.injEq]
    rw [hpacked]
  · rintro ⟨name, e, he, rfl, rfl⟩
    have h := spells_of_ofName he
    have hpacked := Suffix.packed_pack h.suffix_letter h.suffix_length
    rwa [← h.packed_eq] at hpacked
  · obtain ⟨name, e, he, hpacked⟩ := exists_spells_packed h
    exact ⟨name, e, he, congrArg Suffix.letters hpacked, congrArg Suffix.mask hpacked⟩

theorem unpack_of_two_names :
    (∃ e f, ofName "hAB*c" = .ok e ∧ ofName "hAB*c**" = .ok f ∧ e.packed.unpack 2 = ['*', 'c'] ∧
      f.packed.unpack 4 = ['*', 'c', '*', '*'] ∧ e.packed.letters = f.packed.letters ∧
      e.packed.mask = f.packed.mask) ∧ Packed ⟨0x3180, 0x3f80⟩ := by
  obtain ⟨hunpack, hsame, himage⟩ := packed_faithful
  have he : ofName "hAB*c" = .ok ⟨.head, "AB", "*c", ⟨0x3180, 0x3f80⟩⟩ := by decide +kernel
  have hf : ofName "hAB*c**" = .ok ⟨.head, "AB", "*c**", ⟨0x3180, 0x3f80⟩⟩ := by decide +kernel
  have hcode := (hsame _ _ _ _ he hf).mpr (by decide +kernel)
  exact ⟨⟨_, _, he, hf, (hunpack _ _ he).1, (hunpack _ _ hf).1, hcode.2.2.1, hcode.2.2.2⟩,
    (himage _ _).mp ⟨_, _, he, rfl, rfl⟩⟩

end LinkConnectors.Encoding
