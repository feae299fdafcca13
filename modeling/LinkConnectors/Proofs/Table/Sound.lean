import LinkConnectors.Proofs.Encoding
import LinkConnectors.Proofs.Table.Frame
import LinkConnectors.Proofs.Table.Interning

/-! The invariant of the table. It joins what is known of the descriptors, of the slots and of the
view by core, and each operation on a table keeps it. -/
namespace LinkConnectors.Table

/-- A table that has not been grouped yet. -/
structure Unnumbered (t : Table) : Prop where
  byCore : t.byCore = #[]
  coreCount : t.coreCount = 0
  unset : ∀ {id : Nat} {d : Descriptor}, t.descriptors[id]? = some d → d.coreId = none ∧ d.limit = 0

/-- What holds of a table whose names all went through the given interner. -/
structure Sound (strings : Interner) (t : Table) : Prop where
  registered : Registered strings t.descriptors
  bounded : t.size ≤ maxDescriptors
  slots : (t.slots = #[] ∧ t.descriptors = #[]) ∨ t.LaidOut
  numbered : t.grouped = true → t.Numbered
  unnumbered : t.grouped = false → t.Unnumbered

/-- Every name in a table is a connector name, spelled as its descriptor tells. -/
lemma Registered.spells {strings : Interner} {descriptors : Array Descriptor} {id : Nat}
    {d : Descriptor} (hr : Registered strings descriptors) (hd : descriptors[id]? = some d) :
    d.encoding.Spells d.text := Encoding.spells_of_ofName (hr.encoded hd)

theorem sound_ofExpected (owner count : Nat) : Sound { owner := owner } (ofExpected count) where
  registered := by
    refine ⟨Interner.canonical_empty owner, ?_, ?_, ?_, ?_⟩ <;> simp [ofExpected]
  bounded := Nat.zero_le _
  slots := .inl ⟨rfl, rfl⟩
  numbered h := by cases h
  unnumbered _ := ⟨rfl, rfl, by simp [ofExpected]⟩

namespace Sound

variable {strings : Interner} {t : Table}

/-- The interner may take in more strings. -/
theorem add (ht : Sound strings t) (s : String) : Sound (strings.add s).2 t where
  registered := {
    canonical := ht.registered.canonical.add s
    owned hd := (ht.registered.owned hd).add s
    hash_eq := ht.registered.hash_eq
    encoded := ht.registered.encoded
    distinct := ht.registered.distinct }
  bounded := ht.bounded
  slots := ht.slots
  numbered := ht.numbered
  unnumbered := ht.unnumbered

/-- Before slots are allocated, the hint may be changed. -/
theorem expect (ht : Sound strings t) (count : Nat) : Sound strings (t.expect count).value := by
  unfold Table.expect
  split
  · rename_i hempty
    refine ⟨ht.registered, ht.bounded, ?_, fun hg => ?_, fun hg => ?_⟩
    · obtain hbare | hlaid := ht.slots
      · exact .inl hbare
      · rw [hlaid.slots_isEmpty] at hempty
        cases hempty
    · obtain ⟨grouped, byCore, coreCount, coreId⟩ := ht.numbered hg
      exact ⟨grouped, byCore, coreCount, coreId⟩
    · obtain ⟨byCore, coreCount, unset⟩ := ht.unnumbered hg
      exact ⟨byCore, coreCount, unset⟩
  · exact ht

/-- Other slots will do as well, if they are in order. -/
lemma withSlots (ht : Sound strings t) {slots : Array (Option Nat)}
    (hlaid : LaidOut { t with slots := slots }) : Sound strings { t with slots := slots } := by
  refine ⟨ht.registered, ht.bounded, .inr hlaid, fun hg => ?_, fun hg => ?_⟩
  · obtain ⟨grouped, byCore, coreCount, coreId⟩ := ht.numbered hg
    exact ⟨grouped, byCore, coreCount, coreId⟩
  · obtain ⟨byCore, coreCount, unset⟩ := ht.unnumbered hg
    exact ⟨byCore, coreCount, unset⟩

lemma ready (ht : Sound strings t) : Sound strings t.ready.value := by
  have hlaid := laidOut_ready ht.slots
  obtain ⟨slots, hslots⟩ := t.ready_value
  rw [hslots] at hlaid ⊢
  exact ht.withSlots hlaid

lemma extend (ht : Sound strings t) {h : Handle} {e : Encoding} {slots : Array (Option Nat)}
    (hh : strings.Owns h) (hnew : t.Lacks h.text) (he : Encoding.ofName h.text = .ok e)
    (hg : t.grouped = false) (hroom : t.size < maxDescriptors)
    (hlaid : (t.extend (fresh h e) slots).LaidOut) :
    Sound strings (t.extend (fresh h e) slots) := by
  refine ⟨ht.registered.push hh he hnew, ?_, .inr hlaid, fun hg' => ?_, fun _ => ?_⟩
  · rwa [size_extend]
  · exact absurd (hg.symm.trans hg') Bool.false_ne_true
  · obtain ⟨byCore, coreCount, unset⟩ := ht.unnumbered hg
    refine ⟨byCore, coreCount, fun {id d} hd => ?_⟩
    change (t.descriptors.push (fresh h e))[id]? = some d at hd
    rw [Array.getElem?_push] at hd
    split at hd
    · rw [← Option.some.inj hd]
      exact ⟨rfl, rfl⟩
    · exact unset hd

/-- Whatever interning answers, the table it leaves is sound. -/
theorem intern (ht : Sound strings t) {h : Handle} (hh : strings.Owns h) :
    Sound strings (t.intern h).value.2 := by
  have hinterning := interning_intern ht.slots ht.registered hh
  generalize t.intern h = r at hinterning ⊢
  cases hinterning with
  | known hd htext => exact ht
  | frozen hnew hg => exact ht
  | malformed hnew hg herr => exact ht.ready
  | full hnew hg he hfull => exact ht.ready
  | created hnew hg he hroom hfilled hlaid => exact ht.extend hh hnew he hg hroom hlaid

/-- A table that differs in core numbers and limits alone is sound, if it is numbered. -/
lemma congr (ht : Sound strings t) {u : Table} (h : SameOrigin t u) (hu : u.Numbered) :
    Sound strings u := by
  refine ⟨ht.registered.congr h.origin, ?_, ?_, fun _ => hu, fun hg => ?_⟩
  · rw [h.size_eq]
    exact ht.bounded
  · obtain ⟨hslots, hdescriptors⟩ | hlaid := ht.slots
    · refine .inl ⟨h.slots.trans hslots, Array.eq_empty_of_size_eq_zero ?_⟩
      have hsize := h.size_eq
      rwa [size, size, hdescriptors] at hsize
    · exact .inr (hlaid.congr h)
  · exact absurd (hg.symm.trans hu.grouped) Bool.false_ne_true

theorem group (ht : Sound strings t) : Sound strings t.group.value :=
  ht.congr (sameOrigin_group t) (numbered_group t)

/-- Limits are stamped onto grouped tables alone. -/
theorem stamp (ht : Sound strings t) (r : Reach.Registry) (hg : t.grouped = true) :
    Sound strings (r.stamp t).value :=
  ht.congr (r.sameOrigin_stamp t) (r.numbered_stamp (ht.numbered hg))

end Sound

end LinkConnectors.Table
