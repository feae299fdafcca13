import LinkConnectors.Proofs.Session.Grouping
import LinkConnectors.Proofs.Table.CoreRange
import LinkConnectors.Proofs.Text.Order
import Mathlib.Data.Finset.Sort

/-! The stretches of the view by core in a session. Any string may be asked for. The two searches
divide the view into what comes before the string in the order of octets, what has it as its core,
and what comes after it. -/
namespace LinkConnectors

namespace Table

/-- What the two searches for a string cut out of the view. -/
structure Stretch (t : Table) (core : String) : Prop where
  ordered : (t.coreBounds core).1 ≤ (t.coreBounds core).2
  within : (t.coreBounds core).2 ≤ t.byCore.size
  /-- Each search ends where its question gets another answer. -/
  divides : ∀ rank id, t.byCore[rank]? = some id → ∃ d, t.get? id = some d ∧
    (rank < (t.coreBounds core).1 ↔ Text.bytes d.core < Text.bytes core) ∧
    (rank < (t.coreBounds core).2 ↔ Text.bytes d.core ≤ Text.bytes core)
  range_eq : t.coreRange core =
    t.byCore.toList.filter fun id => (t.get? id).any fun d => d.core == core
  mem_iff : ∀ id, id ∈ t.coreRange core ↔ ∃ d, t.get? id = some d ∧ d.core = core

namespace Numbered

variable {t : Table}

lemma exists_of_byCore (ht : t.Numbered) {rank id : Nat} (hid : t.byCore[rank]? = some id) :
    ∃ d, t.get? id = some d ∧ t.coreOfRank rank = d.core ∧ rank < t.byCore.size := by
  obtain ⟨hsize, _⟩ := Array.getElem?_eq_some_iff.mp hid
  rw [ht.byCore, List.getElem?_toArray] at hid
  obtain ⟨d, hd⟩ := mem_sortedIds_iff_exists.mp (List.mem_of_getElem? hid)
  exact ⟨d, hd, (ht.coreOfRank_eq hid).trans (coreAt_of_getElem? hd), hsize⟩

lemma coreRange_eq_filter_get? (ht : t.Numbered) (core : String) :
    t.coreRange core =
      t.byCore.toList.filter fun id => (t.get? id).any fun d => d.core == core := by
  rw [ht.coreRange_eq, ht.byCore]
  refine List.filter_congr fun id hid => ?_
  obtain ⟨d, hd⟩ := mem_sortedIds_iff_exists.mp hid
  rw [coreAt_of_getElem? hd, get?, hd, Option.any_some]

theorem stretch (ht : t.Numbered) (core : String) : t.Stretch core where
  ordered := (ht.coreBounds_le core).1
  within := (ht.coreBounds_le core).2
  divides rank id hid := by
    obtain ⟨d, hd, hcore, hsize⟩ := ht.exists_of_byCore hid
    obtain ⟨hbefore, hfrom⟩ := ht.lower_spec core
    obtain ⟨hupto, hafter⟩ := ht.upper_spec core
    refine ⟨d, hd, ?_, ?_⟩
    · rw [Text.bytes_lt_iff, ← hcore]
      exact ⟨hbefore rank, fun hlt => Nat.lt_of_not_le fun hle => (hfrom rank hle hsize).not_gt hlt⟩
    · rw [Text.bytes_le_iff, ← hcore]
      exact ⟨hupto rank, fun hle => Nat.lt_of_not_le fun hge => (hafter rank hge hsize).not_ge hle⟩
  range_eq := ht.coreRange_eq_filter_get? core
  mem_iff id := by
    rw [ht.coreRange_eq_filter_get?, List.mem_filter, Option.any_eq_true]
    simp only [beq_iff_eq]
    refine and_iff_right_of_imp ?_
    rintro ⟨d, hd, _⟩
    rw [ht.byCore]
    exact mem_sortedIds_iff_exists.mpr ⟨d, hd⟩

end Numbered

end Table

namespace TableSession

/-- In every session with a grouped table, the two searches cut out of the view what has the string
that is asked for as its core, be it a core of the table or not. The stretches of the cores of the
table, in the order of octets, make up the view. -/
theorem stretches_after_start (count : Nat) (xs : List Step)
    (hg : ((start count).after xs).table.grouped = true) :
    let t := ((start count).after xs).table
    (∀ core, t.Stretch core) ∧
    ∃ cores : List String, (cores.Pairwise fun a b => Text.bytes a < Text.bytes b) ∧
      (∀ core, core ∈ cores ↔ ∃ id d, t.get? id = some d ∧ d.core = core) ∧
      cores.flatMap t.coreRange = t.byCore.toList := by
  intro t
  have ht : t.Numbered := (sound_after_start count xs).numbered hg
  have hsorted := (Table.coresOf t.descriptors).sortedLT_sort.pairwise
  refine ⟨ht.stretch, (Table.coresOf t.descriptors).sort (· ≤ ·), ?_, fun core => ?_, ?_⟩
  · exact hsorted.imp fun hlt => (Text.bytes_lt_iff _ _).mpr hlt
  · rw [Finset.mem_sort, Table.mem_coresOf]
    rfl
  · exact ht.flatMap_coreRange hsorted fun core hcore => (Finset.mem_sort _).mpr hcore

/-- One core begins with another, one name has a marker, and one string that is asked for is no
core. -/
theorem stretches_of_nested_cores :
    let t := ((start 0).after [.internAll ["SIs", "hS", "S", "A"], .group]).table
    (∀ id < 4, id ∈ t.coreRange "S" ↔ id = 1 ∨ id = 2) ∧
    (∀ id < 4, id ∈ t.coreRange "SI" ↔ id = 0) ∧
    (∀ id < 4, id ∉ t.coreRange "é") ∧
    ∃ cores : List String, (cores.Pairwise fun a b => Text.bytes a < Text.bytes b) ∧
      cores.flatMap t.coreRange = t.byCore.toList := by
  intro t
  let u := ((start 0).after [.internAll ["SIs", "hS", "S", "A"]]).table
  obtain ⟨hstretch, cores, hcores, _, hview⟩ :=
    stretches_after_start 0 [.internAll ["SIs", "hS", "S", "A"], .group] (by decide +kernel)
  have hmem (core : String) (id : Nat) : id ∈ t.coreRange core ↔
      (u.get? id).any (fun d => d.core == core) = true := by
    have hget : t.get? id = (u.get? id).map (Table.numbered (Table.coresOf u.descriptors)) :=
      u.get?_group id
    rw [(hstretch core).mem_iff, hget]
    cases u.get? id with
    | none => simp
    | some d => simp [Table.numbered, Descriptor.core]
  refine ⟨?_, ?_, ?_, cores, hcores, hview⟩
  · simp only [hmem]
    decide +kernel
  · simp only [hmem]
    decide +kernel
  · simp only [hmem]
    decide +kernel

end TableSession

end LinkConnectors
