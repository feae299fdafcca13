import LinkConnectors.Proofs.Table.Capacity
import LinkConnectors.Proofs.Table.Numbering
import LinkConnectors.Reach.Registry

/-! What stays when a table is grouped or stamped. Grouping writes core numbers and stamping writes
limits. What a descriptor was made with stays, and with it everything that the slots and the
interner rely on. -/
namespace LinkConnectors

namespace Descriptor

/-- What a descriptor is made with. -/
def origin (d : Descriptor) : Handle × UInt32 × Encoding := (d.name, d.hash, d.encoding)

/-- The descriptor without its limit. -/
def forgetLimit (d : Descriptor) : Descriptor := { d with limit := 0 }

end Descriptor

namespace Table

section Origin

variable {descriptors others : Array Descriptor}

lemma exists_origin_eq (h : others.map Descriptor.origin = descriptors.map Descriptor.origin)
    {id : Nat} {d : Descriptor} (hd : others[id]? = some d) :
    ∃ e, descriptors[id]? = some e ∧ e.name = d.name ∧ e.hash = d.hash ∧
      e.encoding = d.encoding := by
  have hid := congrArg (fun ds => ds[id]?) h
  simp only [Array.getElem?_map, hd, Option.map_some] at hid
  obtain ⟨e, he, heq⟩ := Option.map_eq_some_iff.mp hid.symm
  simp only [Descriptor.origin, Prod.mk.injEq] at heq
  exact ⟨e, he, heq⟩

lemma size_eq_of_origin (h : others.map Descriptor.origin = descriptors.map Descriptor.origin) :
    others.size = descriptors.size := by
  simpa using congrArg Array.size h

lemma map_sortKey_eq_of_origin
    (h : others.map Descriptor.origin = descriptors.map Descriptor.origin) :
    others.map Descriptor.sortKey = descriptors.map Descriptor.sortKey := by
  have hkey : Descriptor.sortKey =
      (fun o : Handle × UInt32 × Encoding => toLex (o.2.2.core, o.1.text)) ∘ Descriptor.origin :=
    rfl
  rw [hkey, ← Array.map_map, ← Array.map_map, h]

theorem Registered.congr {strings : Interner} (hr : Registered strings descriptors)
    (h : others.map Descriptor.origin = descriptors.map Descriptor.origin) :
    Registered strings others where
  canonical := hr.canonical
  owned hd := by
    obtain ⟨e, he, hname, _⟩ := exists_origin_eq h hd
    rw [← hname]
    exact hr.owned he
  hash_eq hd := by
    obtain ⟨e, he, hname, hhash, _⟩ := exists_origin_eq h hd
    rw [Descriptor.text, ← hname, ← hhash]
    exact hr.hash_eq he
  encoded hd := by
    obtain ⟨e, he, hname, _, hencoding⟩ := exists_origin_eq h hd
    rw [Descriptor.text, ← hname, ← hencoding]
    exact hr.encoded he
  distinct ha hb htext := by
    obtain ⟨a', ha', haname, _⟩ := exists_origin_eq h ha
    obtain ⟨b', hb', hbname, _⟩ := exists_origin_eq h hb
    rw [Descriptor.text, Descriptor.text, ← haname, ← hbname] at htext
    exact hr.distinct ha' hb' htext

theorem Seating.congr_origin {slots : Array (Option Nat)} {ids : Nat → Prop}
    (hs : Seating descriptors slots ids)
    (h : others.map Descriptor.origin = descriptors.map Descriptor.origin) :
    Seating others slots ids where
  held := hs.held
  once := hs.once
  seated hid hd := by
    obtain ⟨e, he, _, hhash, _⟩ := exists_origin_eq h hd
    rw [← hhash]
    exact hs.seated hid he

end Origin

section Change

variable {t u : Table}

/-- Nothing but core numbers and limits differs, and whatever else grouping writes. -/
structure SameOrigin (t u : Table) : Prop where
  slots : u.slots = t.slots
  expected : u.expected = t.expected
  origin : u.descriptors.map Descriptor.origin = t.descriptors.map Descriptor.origin

lemma SameOrigin.size_eq (h : SameOrigin t u) : u.size = t.size := size_eq_of_origin h.origin

lemma SameOrigin.trans {v : Table} (h : SameOrigin t u) (h' : SameOrigin u v) : SameOrigin t v :=
  ⟨h'.slots.trans h.slots, h'.expected.trans h.expected, h'.origin.trans h.origin⟩

theorem LaidOut.congr (ht : t.LaidOut) (h : SameOrigin t u) : u.LaidOut where
  seating := by
    rw [h.slots, h.size_eq]
    exact ht.seating.congr_origin h.origin
  capacity := by
    rw [Table.capacity, h.slots, h.expected, h.size_eq]
    exact ht.capacity

theorem sameOrigin_group (t : Table) : SameOrigin t t.group.value := by
  rw [group_eq]
  refine ⟨rfl, rfl, ?_⟩
  rw [Array.map_map]
  rfl

end Change

end Table

namespace Reach.Registry

open Table

section Stamping

/-- A loop whose steps change nothing but limits changes nothing but limits. -/
lemma Stamping.foldl_forgetLimit {α : Type} {f : Stamping → α → Stamping}
    (hf : ∀ s a, (f s a).descriptors.map Descriptor.forgetLimit =
      s.descriptors.map Descriptor.forgetLimit) (xs : List α) (s : Stamping) :
    (xs.foldl f s).descriptors.map Descriptor.forgetLimit =
      s.descriptors.map Descriptor.forgetLimit := by
  induction xs generalizing s with
  | nil => rfl
  | cons x xs ih => rw [List.foldl_cons, ih, hf]

lemma Stamping.stamp_forgetLimit (limit : Nat) (p : Pattern) (s : Stamping) (id : Nat) :
    (s.stamp limit p id).descriptors.map Descriptor.forgetLimit =
      s.descriptors.map Descriptor.forgetLimit := by
  unfold Stamping.stamp
  split
  · rfl
  · rename_i d hd
    split
    · apply Array.ext_getElem?
      intro i
      simp only [Array.getElem?_map, Array.getElem?_setIfInBounds]
      by_cases hi : id = i
      · subst hi
        obtain ⟨hlt, hd⟩ := Array.getElem?_eq_some_iff.mp hd
        simp [hlt, hd, Descriptor.forgetLimit]
      · rw [if_neg hi]
    · rfl

end Stamping

/-- Stamping writes nothing but limits. -/
theorem stamp_eq_descriptors (r : Registry) (t : Table) :
    ∃ stamped, (r.stamp t).value = { t with descriptors := stamped } ∧
      stamped.map Descriptor.forgetLimit = t.descriptors.map Descriptor.forgetLimit := by
  have hrules : (r.rules.foldl (Stamping.stampRule t.coreRange) ⟨t.descriptors, 0⟩).descriptors.map
      Descriptor.forgetLimit = t.descriptors.map Descriptor.forgetLimit := by
    refine Stamping.foldl_forgetLimit (fun s rule => ?_) _ _
    refine Stamping.foldl_forgetLimit (fun s p => ?_) _ _
    exact Stamping.foldl_forgetLimit (Stamping.stamp_forgetLimit _ _) _ _
  refine ⟨_, rfl, ?_⟩
  rw [← hrules]
  split
  · rfl
  · rw [Array.map_map]
    congr 1
    funext d
    simp only [Function.comp_apply, lift, Descriptor.forgetLimit]
    split <;> rfl

lemma map_origin_eq_of_forgetLimit {descriptors others : Array Descriptor}
    (h : others.map Descriptor.forgetLimit = descriptors.map Descriptor.forgetLimit) :
    others.map Descriptor.origin = descriptors.map Descriptor.origin := by
  have horigin : Descriptor.origin = Descriptor.origin ∘ Descriptor.forgetLimit := rfl
  rw [horigin, ← Array.map_map, ← Array.map_map, h]

theorem sameOrigin_stamp (r : Registry) (t : Table) : SameOrigin t (r.stamp t).value := by
  obtain ⟨stamped, hstamp, hforget⟩ := r.stamp_eq_descriptors t
  rw [hstamp]
  exact ⟨rfl, rfl, map_origin_eq_of_forgetLimit hforget⟩

/-- A grouped table stays as grouping left it when limits are stamped. -/
theorem numbered_stamp (r : Registry) {t : Table} (ht : t.Numbered) :
    (r.stamp t).value.Numbered := by
  obtain ⟨stamped, hstamp, hforget⟩ := r.stamp_eq_descriptors t
  have hkeys := map_sortKey_eq_of_origin (map_origin_eq_of_forgetLimit hforget)
  rw [hstamp]
  constructor
  · exact ht.grouped
  · rw [sortedIds_congr hkeys]
    exact ht.byCore
  · rw [coresOf_congr hkeys]
    exact ht.coreCount
  · intro id d hd
    have hid := congrArg (fun ds => ds[id]?) hforget
    simp only [Array.getElem?_map, hd, Option.map_some] at hid
    obtain ⟨e, he, heq⟩ := Option.map_eq_some_iff.mp hid.symm
    have hcoreId := congrArg Descriptor.coreId heq
    have hcore := congrArg Descriptor.core heq
    change e.coreId = d.coreId at hcoreId
    change e.core = d.core at hcore
    rw [coresOf_congr hkeys, ← hcoreId, ← hcore]
    exact ht.coreId he

end Reach.Registry

end LinkConnectors
