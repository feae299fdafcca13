import LinkConnectors.Proofs.Encoding.Packing
import LinkConnectors.Proofs.NamesMatch
import LinkConnectors.Proofs.Suffix.Generality

/-! Partners of a connector: the accepted names that it matches. A connector that says less has more
of them, and how much a connector says can be told from its partners. -/
namespace LinkConnectors

/-- A role that excludes no more than another is none at all or the same. -/
lemma Role.excludes_imp_iff (a b : Role) :
    (∀ r, a.excludes r = false → b.excludes r = false) ↔ b = .unmarked ∨ b = a := by
  cases a <;> cases b <;> simp [Role.excludes]

namespace Encoding

open Matching (namesMatch)
open Suffix (strip Packed)

variable {name other partner : String} {e f g : Encoding} {s : Suffix}

lemma Spells.packed (h : e.Spells name) : Packed e.packed := by
  rw [h.packed_eq]
  exact Suffix.packed_pack h.suffix_letter h.suffix_length

lemma Spells.namesMatch_iff (he : e.Spells name) (hf : f.Spells other) :
    namesMatch name other = true ↔
    e.core = f.core ∧ e.packed.compatible f.packed = true ∧ e.role.excludes f.role = false := by
  rw [he.namesMatch_eq hf, Bool.and_eq_true, Bool.and_eq_true, beq_iff_eq, Bool.not_eq_true']

/-- Each role and each packed suffix that goes with a name stands in a partner of it. -/
lemma Spells.exists_partner (h : e.Spells name) (role : Role) (hrole : e.role.excludes role = false)
    (hs : Packed s) (hcompatible : e.packed.compatible s = true) :
    ∃ (t : String) (g : Encoding), g.Spells t ∧ g.core = e.core ∧ g.role = role ∧ g.packed = s ∧
      namesMatch name t = true :=
  have hspells := h.recombined role hs
  ⟨_, _, hspells, rfl, rfl, rfl, (h.namesMatch_iff hspells).mpr ⟨rfl, hcompatible, hrole⟩⟩

/-- All partners of a name are partners of another if this one has the same core and says no more of
the marker and of the suffix. -/
theorem Spells.partners_subset_iff (he : e.Spells name) (hf : f.Spells other) :
    (∀ t g, ofName t = .ok g → namesMatch name t = true → namesMatch other t = true) ↔
      f.core = e.core ∧ (f.role = .unmarked ∨ f.role = e.role) ∧
        f.packed.generalizes e.packed = true := by
  rw [← Role.excludes_imp_iff, hf.packed.generalizes_iff_forall he.packed]
  constructor
  · intro h
    have hpartner : ∀ {role : Role} {s : Suffix}, e.role.excludes role = false → Packed s →
        e.packed.compatible s = true →
          f.core = e.core ∧ f.packed.compatible s = true ∧ f.role.excludes role = false := by
      intro role s hrole hs hcompatible
      obtain ⟨t, g, hg, hcore, rfl, rfl, hmatch⟩ := he.exists_partner role hrole hs hcompatible
      have hother := (hf.namesMatch_iff hg).mp (h t g (ofName_eq_ok_iff.mpr hg) hmatch)
      rwa [hcore] at hother
    have hopen : e.role.excludes .unmarked = false := by cases e.role <;> rfl
    refine ⟨(hpartner hopen he.packed he.packed.compatible_self).1, fun role hrole => ?_,
      fun s hs hcompatible => ?_⟩
    · exact (hpartner hrole he.packed he.packed.compatible_self).2.2
    · exact (hpartner hopen hs hcompatible).2.1
  · rintro ⟨hcore, hrole, hsuffix⟩ t g hg hmatch
    have hg := spells_of_ofName hg
    obtain ⟨hecore, hcompatible, hexcludes⟩ := (he.namesMatch_iff hg).mp hmatch
    exact (hf.namesMatch_iff hg).mpr ⟨hcore.trans hecore, hsuffix _ hg.packed hcompatible,
      hrole _ hexcludes⟩

/-- Names with the same partners have the same role, core and packed suffix. -/
lemma Spells.same_partners_iff (he : e.Spells name) (hf : f.Spells other) :
    (∀ t g, ofName t = .ok g → namesMatch name t = namesMatch other t) ↔
      e.role = f.role ∧ e.core = f.core ∧ e.packed = f.packed := by
  constructor
  · intro h
    obtain ⟨hcore, hrole, hsuffix⟩ :=
      (he.partners_subset_iff hf).mp fun t g hg hmatch => (h t g hg).symm.trans hmatch
    obtain ⟨_, hrole', hsuffix'⟩ :=
      (hf.partners_subset_iff he).mp fun t g hg hmatch => (h t g hg).trans hmatch
    refine ⟨?_, hcore.symm, he.packed.generalizes_antisymm hf.packed hsuffix' hsuffix⟩
    obtain hf' | hrole := hrole
    · obtain he' | hrole' := hrole'
      · rw [he', hf']
      · exact hrole'
    · exact hrole.symm
  · rintro ⟨hrole, hcore, hpacked⟩ t g hg
    have hg := spells_of_ofName hg
    rw [he.namesMatch_eq hg, hf.namesMatch_eq hg, hrole, hcore, hpacked]

/-- Every partner of one accepted name is a partner of another if and only if both have the same
core, the other one has no marker or the same, and its suffix has letters in no other positions and
the same letters there. Names have exactly the same partners if and only if they differ in nothing
but the wildcards at their ends. -/
theorem partners_kept_iff :
    (∀ name other e f, ofName name = .ok e → ofName other = .ok f →
      ((∀ t g, ofName t = .ok g → namesMatch name t = true → namesMatch other t = true) ↔
        f.core = e.core ∧ (f.role = .unmarked ∨ f.role = e.role) ∧
          f.packed.mask &&& e.packed.mask = f.packed.mask ∧
          (e.packed.letters ^^^ f.packed.letters) &&& f.packed.mask = 0)) ∧
    ∀ name other e f, ofName name = .ok e → ofName other = .ok f →
      ((∀ t g, ofName t = .ok g → namesMatch name t = namesMatch other t) ↔
        String.ofList (strip name.toList) = String.ofList (strip other.toList)) := by
  constructor
  · intro name other e f he hf
    rw [(spells_of_ofName he).partners_subset_iff (spells_of_ofName hf), Suffix.generalizes,
      Bool.and_eq_true, beq_iff_eq, beq_iff_eq]
  · intro name other e f he hf
    rw [(spells_of_ofName he).same_partners_iff (spells_of_ofName hf), String.ofList_inj]
    exact (spells_of_ofName he).same_code_iff (spells_of_ofName hf)

/-- What matches `hSab` matches `S*b`, but not the other way round, and `Sa` has the partners of
`Sa**`. -/
theorem partners_of_more_general :
    (∀ t g, ofName t = .ok g → namesMatch "hSab" t = true → namesMatch "S*b" t = true) ∧
      ¬ (∀ t g, ofName t = .ok g → namesMatch "S*b" t = true → namesMatch "hSab" t = true) ∧
      ∀ t g, ofName t = .ok g → namesMatch "Sa" t = namesMatch "Sa**" t := by
  obtain ⟨hkept, hsame⟩ := partners_kept_iff
  have he : ofName "hSab" = .ok ⟨.head, "S", "ab", ⟨0x3161, 0x3fff⟩⟩ := by decide +kernel
  have hf : ofName "S*b" = .ok ⟨.unmarked, "S", "*b", ⟨0x3100, 0x3f80⟩⟩ := by decide +kernel
  have hshort : ofName "Sa" = .ok ⟨.unmarked, "S", "a", ⟨0x61, 0x7f⟩⟩ := by decide +kernel
  have hlong : ofName "Sa**" = .ok ⟨.unmarked, "S", "a**", ⟨0x61, 0x7f⟩⟩ := by decide +kernel
  refine ⟨(hkept _ _ _ _ he hf).mpr (by decide +kernel), fun h => ?_,
    (hsame _ _ _ _ hshort hlong).mpr (by decide +kernel)⟩
  exact absurd ((hkept _ _ _ _ hf he).mp h) (by decide +kernel)

end Encoding

end LinkConnectors
