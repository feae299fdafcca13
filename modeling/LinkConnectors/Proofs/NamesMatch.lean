import LinkConnectors.Proofs.Suffix

/-! Matching of accepted names. Comparing two names octet by octet comes down to comparing their
cores, their packed suffixes and their roles. -/
namespace LinkConnectors

/-- The octet that marks a role. -/
def Role.octet? (r : Role) : Option UInt8 := r.marker.head?.map Text.octet

/-- Roles exclude each other if their names begin with the same marker. -/
lemma Role.octet?_excludes (a b : Role) :
    (a.octet?.isSome && a.octet? == b.octet?) = a.excludes b := by
  cases a <;> cases b <;> rfl

namespace Encoding.Spells

variable {e f : Encoding} {name other : String}

lemma bytes_eq (h : e.Spells name) : Text.bytes name =
    e.role.marker.map Text.octet ++
      (e.core.toList.map Text.octet ++ e.suffix.toList.map Text.octet) := by
  rw [Text.bytes_of_ascii h.isAscii, h.name_eq, List.map_append, List.map_append]

lemma isUpperByte_core (h : e.Spells name) :
    ∀ b ∈ e.core.toList.map Text.octet, Text.isUpperByte b = true := by
  intro b hb
  obtain ⟨c, hc, rfl⟩ := List.mem_map.mp hb
  rw [Text.isUpperByte_octet (h.isAscii_core c hc)]
  exact h.core_upper c hc

lemma isUpperByte_suffix (h : e.Spells name) :
    ∀ b ∈ e.suffix.toList.map Text.octet, Text.isUpperByte b = false := by
  intro b hb
  obtain ⟨c, hc, rfl⟩ := List.mem_map.mp hb
  rw [Text.isUpperByte_octet (h.isAscii_suffix c hc)]
  exact Suffix.isUpper_of_isLetter (h.suffix_letter c hc)

/-- The marker is split off, and nothing else. -/
lemma splitMarker_bytes (h : e.Spells name) : Matching.splitMarker (Text.bytes name) =
    (e.role.octet?, e.core.toList.map Text.octet ++ e.suffix.toList.map Text.octet) := by
  rw [h.bytes_eq]
  cases hrole : e.role with
  | head | dependent => rfl
  | unmarked =>
    obtain ⟨c, cs, hcore, hupper⟩ := h.exists_capital
    have hlower : Text.isLowerByte (Text.octet c) = false := by
      rw [Text.isLowerByte_octet (h.isAscii_core c (by simp [hcore]))]
      exact isLower_of_isUpper hupper
    rw [hcore]
    simp [Role.marker, Role.octet?, Matching.splitMarker, hlower]

/-- Names match if their cores are equal, their suffixes compatible, and their roles do not exclude
each other. -/
theorem namesMatch_eq (he : e.Spells name) (hf : f.Spells other) : Matching.namesMatch name other =
    (e.core == f.core && (e.packed.compatible f.packed && !e.role.excludes f.role)) := by
  have hcore : (e.core.toList.map Text.octet == f.core.toList.map Text.octet) =
      (e.core == f.core) := by
    apply Bool.eq_iff_iff.mpr
    rw [beq_iff_eq, beq_iff_eq, Text.map_octet_inj he.isAscii_core hf.isAscii_core,
      String.toList_inj]
  have hsuffix := Suffix.compatible_pack he.suffix_letter hf.suffix_letter he.suffix_length
    hf.suffix_length
  rw [← he.packed_eq, ← hf.packed_eq] at hsuffix
  unfold Matching.namesMatch Matching.bytesMatch
  rw [he.splitMarker_bytes, hf.splitMarker_bytes]
  dsimp only
  rw [Matching.bodiesAgree_append he.isUpperByte_core hf.isUpperByte_core
    (fun b hb => he.isUpperByte_suffix b (List.mem_of_mem_head? hb))
    (fun b hb => hf.isUpperByte_suffix b (List.mem_of_mem_head? hb)), Role.octet?_excludes, hcore,
    ← hsuffix, Bool.and_comm, Bool.and_assoc]

end Encoding.Spells

end LinkConnectors
