import LinkConnectors.Encoding
import LinkConnectors.Proofs.Text.Ascii
import Mathlib.Data.List.TakeWhile

/-! The spelling of connector names. A name that is accepted is its marker, its core and its suffix
in a row, and all of it is ASCII. -/
namespace LinkConnectors

section Characters

variable {c : Char}

lemma isLower_of_isUpper (h : c.isUpper = true) : c.isLower = false := by
  apply Bool.eq_false_iff.mpr
  intro hl
  have := Text.isUpper_iff.mp h
  have := Text.isLower_iff.mp hl
  omega

lemma Suffix.isLetter_cases (h : isLetter c = true) : c = wildcard ∨ c.isLower = true := by
  simpa [isLetter] using h

lemma Suffix.toNat_of_isLetter (h : isLetter c = true) : c.toNat < 128 := by
  obtain rfl | hl := isLetter_cases h
  · decide
  · have := Text.isLower_iff.mp hl
    omega

lemma Suffix.isUpper_of_isLetter (h : isLetter c = true) : c.isUpper = false := by
  obtain rfl | hl := isLetter_cases h
  · decide
  · apply Bool.eq_false_iff.mpr
    intro hu
    rw [isLower_of_isUpper hu] at hl
    cases hl

end Characters

namespace Encoding

/-- The encoding tells how the name is spelled. -/
structure Spells (e : Encoding) (name : String) : Prop where
  name_eq : name.toList = e.role.marker ++ (e.core.toList ++ e.suffix.toList)
  core_ne : e.core.toList ≠ []
  core_upper : ∀ c ∈ e.core.toList, c.isUpper = true
  core_length : e.core.toList.length ≤ maxCore
  suffix_letter : ∀ c ∈ e.suffix.toList, Suffix.isLetter c = true
  suffix_length : e.suffix.toList.length ≤ Suffix.maxLetters
  packed_eq : e.packed = Suffix.pack e.suffix.toList

variable {name : String} {role : Role} {body : List Char} {e : Encoding}

lemma spells_of_ofBody (h : ofBody name role body = .ok e)
    (hname : name.toList = role.marker ++ body) :
    e.Spells name := by
  unfold ofBody at h
  dsimp only at h
  split at h
  · cases h
  · rename_i hcore
    split at h
    · cases h
    · rename_i hlong
      split at h
      · cases h
      · rename_i hsuffix
        split at h
        · cases h
        · rename_i hletters
          obtain rfl := Except.ok.inj h
          constructor
          · simpa using hname
          · simpa using hcore
          · intro c hc
            rw [String.toList_ofList] at hc
            exact List.mem_takeWhile_imp hc
          · simpa using hlong
          · rw [String.toList_ofList]
            exact List.dropWhile_eq_nil_iff.mp hsuffix
          · simpa using hletters
          · simp

/-- Every accepted name is spelled as its encoding tells. -/
theorem spells_of_ofName (h : ofName name = .ok e) : e.Spells name := by
  unfold ofName at h
  split at h
  · cases h
  · rename_i c cs hname
    split at h
    · split at h
      · rename_i role hrole
        refine spells_of_ofBody h ?_
        rw [hname, Role.ofMarker?_eq_some_iff.mp hrole]
        rfl
      · cases h
    · exact spells_of_ofBody h hname

namespace Spells

lemma isAscii_marker (role : Role) : Text.IsAscii role.marker := by
  cases role <;> simp [Text.IsAscii, Role.marker]

/-- A core begins with a capital letter. -/
lemma exists_capital (h : e.Spells name) : ∃ c cs, e.core.toList = c :: cs ∧ c.isUpper = true := by
  obtain ⟨c, cs, hcore⟩ := List.exists_cons_of_ne_nil h.core_ne
  exact ⟨c, cs, hcore, h.core_upper c (by rw [hcore]; exact List.mem_cons_self)⟩

lemma isAscii_core (h : e.Spells name) : Text.IsAscii e.core.toList := by
  intro c hc
  have := Text.isUpper_iff.mp (h.core_upper c hc)
  omega

lemma isAscii_suffix (h : e.Spells name) : Text.IsAscii e.suffix.toList := fun c hc =>
  Suffix.toNat_of_isLetter (h.suffix_letter c hc)

theorem isAscii (h : e.Spells name) : Text.IsAscii name.toList := by
  intro c hc
  rw [h.name_eq, List.mem_append, List.mem_append] at hc
  obtain hc | hc | hc := hc
  · exact isAscii_marker e.role c hc
  · exact h.isAscii_core c hc
  · exact h.isAscii_suffix c hc

end Spells

end Encoding

end LinkConnectors
