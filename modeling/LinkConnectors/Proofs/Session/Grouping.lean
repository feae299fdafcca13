import LinkConnectors.Proofs.Session.NameList
import LinkConnectors.Proofs.Text.Order

/-! Grouping the table of a session. The view by core lists the names in the order of their octets,
and the number of a core counts the smaller ones. Neither depends on the order in which the names
came in. -/
namespace LinkConnectors

namespace Table

/-- The order of the view by core, octet by octet. -/
def Precedes (a b : Descriptor) : Prop :=
  Text.bytes a.core < Text.bytes b.core ∨
    (a.core = b.core ∧ Text.bytes a.text < Text.bytes b.text)

/-- How many of the cores are smaller than a core, octet by octet. -/
def coresBelow (descriptors : Array Descriptor) (core : String) : Nat :=
  ((coresOf descriptors).filter fun c => Text.bytes c < Text.bytes core).card

/-- The names of the view by core, in its order. -/
def viewNames? (t : Table) : Option (List String) :=
  t.sorted?.map fun ds => ds.map fun p => p.2.text

/-- What grouping makes of a table. -/
structure Grouping (t g : Table) : Prop where
  view : g.byCore.toList.Perm (List.range t.size)
  increasing : g.byCore.toList.Pairwise fun i j =>
    ∀ a b, g.get? i = some a → g.get? j = some b → Precedes a b
  /-- Nothing but the number of the core is written. -/
  get : ∀ id, g.get? id =
    (t.get? id).map fun d => { d with coreId := some (coresBelow t.descriptors d.core) }
  coreId_eq_iff : ∀ {i j : Nat} {a b : Descriptor}, g.get? i = some a → g.get? j = some b →
    (a.coreId = b.coreId ↔ a.core = b.core)
  coreId_lt_iff : ∀ {i j m n : Nat} {a b : Descriptor}, g.get? i = some a → g.get? j = some b →
    a.coreId = some m → b.coreId = some n → (m < n ↔ Text.bytes a.core < Text.bytes b.core)
  used : ∀ n, (∃ id d, g.get? id = some d ∧ d.coreId = some n) ↔ n < g.coreCount
  /-- The last number of 32 bits is none of a core. -/
  unreserved : ∀ {id : Nat} {d : Descriptor}, g.get? id = some d → d.coreId ≠ some (UInt32.size - 1)
  coreCount : g.coreCount = (coresOf t.descriptors).card
  empty : g.coreCount = 0 ↔ t.size = 0
  slots : g.slots = t.slots
  expected : g.expected = t.expected

variable {strings : Interner} {descriptors : Array Descriptor} {t : Table} {id : Nat}
  {d : Descriptor}

lemma coresBelow_eq (descriptors : Array Descriptor) (core : String) :
    coresBelow descriptors core = rankIn (coresOf descriptors) core := by
  simp only [coresBelow, rankIn, Text.bytes_lt_iff]

lemma coresOf_card_le (descriptors : Array Descriptor) :
    (coresOf descriptors).card ≤ descriptors.size := by
  have h := (descriptors.toList.map Descriptor.core).toFinset_card_le
  rwa [List.length_map, Array.length_toList] at h

lemma get?_group (t : Table) (id : Nat) :
    t.group.value.get? id = (t.get? id).map (numbered (coresOf t.descriptors)) := by
  rw [group_eq]
  exact Array.getElem?_map

lemma exists_of_get?_group (hd : t.group.value.get? id = some d) :
    ∃ e, t.get? id = some e ∧ numbered (coresOf t.descriptors) e = d ∧
      d.core ∈ coresOf t.descriptors := by
  rw [get?_group, Option.map_eq_some_iff] at hd
  obtain ⟨e, he, rfl⟩ := hd
  exact ⟨e, he, rfl, mem_coresOf.mpr ⟨id, e, he, rfl⟩⟩

/-- Names are distinct, so no two of them have the same place in the order. -/
lemma Registered.precedes_of_sorted (hr : Registered strings t.descriptors) {i j : Nat}
    {a b : Descriptor} (hij : i ≠ j) (hle : keyAt t.descriptors i ≤ keyAt t.descriptors j)
    (ha : t.get? i = some a) (hb : t.get? j = some b) : Precedes a b := by
  rw [keyAt_of_getElem? ha, keyAt_of_getElem? hb] at hle
  have hne : a.sortKey ≠ b.sortKey := by
    intro h
    have htext : a.text = b.text := congrArg (fun key => (ofLex key).2) h
    exact hij (hr.distinct ha hb htext)
  have hlt := lt_of_le_of_ne hle hne
  rw [Descriptor.sortKey, Descriptor.sortKey, Prod.Lex.toLex_lt_toLex] at hlt
  rwa [Precedes, Text.bytes_lt_iff, Text.bytes_lt_iff]

lemma Sound.view_increasing (ht : Sound strings t) : (sortedIds t.descriptors).Pairwise fun i j =>
    ∀ a b, t.group.value.get? i = some a → t.group.value.get? j = some b → Precedes a b := by
  have hsorted := sorted_map_keyAt t.descriptors
  rw [List.pairwise_map] at hsorted
  have hnodup : (sortedIds t.descriptors).Nodup :=
    (sortedIds_perm t.descriptors).nodup_iff.mpr List.nodup_range
  refine (hsorted.and hnodup).imp ?_
  rintro i j ⟨hle, hij⟩ a b ha hb
  obtain ⟨c, hc, rfl, _⟩ := exists_of_get?_group ha
  obtain ⟨d, hd, rfl, _⟩ := exists_of_get?_group hb
  change Precedes c d
  exact ht.registered.precedes_of_sorted hij hle hc hd

lemma used_iff (t : Table) (n : Nat) :
    (∃ id d, t.group.value.get? id = some d ∧ d.coreId = some n) ↔
      n < (coresOf t.descriptors).card := by
  constructor
  · rintro ⟨id, d, hd, hn⟩
    obtain ⟨e, _, rfl, hcore⟩ := exists_of_get?_group hd
    rw [← Option.some.inj hn]
    exact rankIn_lt_card hcore
  · intro hn
    obtain ⟨core, hcore, rfl⟩ := exists_rankIn_eq hn
    obtain ⟨id, d, hd, rfl⟩ := mem_coresOf.mp hcore
    refine ⟨id, numbered (coresOf t.descriptors) d, ?_, rfl⟩
    rw [get?_group, get?, hd, Option.map_some]

theorem Sound.grouping (ht : Sound strings t) : Grouping t t.group.value where
  view := by
    rw [group_eq]
    exact sortedIds_perm t.descriptors
  increasing := by
    have h := ht.view_increasing
    rw [group_eq] at h ⊢
    exact h
  get id := by
    rw [get?_group]
    cases hd : t.get? id with
    | none => rfl
    | some d => rw [Option.map_some, Option.map_some, Table.numbered, coresBelow_eq]
  coreId_eq_iff ha hb := by
    obtain ⟨a, _, rfl, ha⟩ := exists_of_get?_group ha
    obtain ⟨b, _, rfl, hb⟩ := exists_of_get?_group hb
    exact Option.some_inj.trans (rankIn_inj ha hb)
  coreId_lt_iff ha hb hm hn := by
    obtain ⟨a, _, rfl, ha⟩ := exists_of_get?_group ha
    obtain ⟨b, _, rfl, hb⟩ := exists_of_get?_group hb
    rw [← Option.some.inj hm, ← Option.some.inj hn]
    exact (rankIn_lt_iff ha hb).trans (Text.bytes_lt_iff _ _).symm
  used n := by
    rw [used_iff, group_eq]
  unreserved {id d} hd := by
    intro hlast
    have hlt := (used_iff t (UInt32.size - 1)).mp ⟨id, d, hd, hlast⟩
    have := coresOf_card_le t.descriptors
    have : t.descriptors.size ≤ UInt32.size - 1 := ht.bounded
    omega
  coreCount := by rw [group_eq]
  empty := by
    rw [group_eq]
    simp [coresOf, size]
  slots := (sameOrigin_group t).slots
  expected := (sameOrigin_group t).expected

section View

/-- What the view sorts a name by. -/
def keyOfName (name : String) : String ×ₗ String :=
  match Encoding.ofName name with
  | .ok e => toLex (e.core, name)
  | .error _ => toLex ("", name)

lemma Sound.map_sortKey (ht : Sound strings t) :
    t.descriptors.toList.map Descriptor.sortKey = t.nameList.names.map keyOfName := by
  rw [nameList, List.map_map]
  apply List.map_congr_left
  intro d hd
  obtain ⟨id, hid⟩ := List.mem_iff_getElem?.mp hd
  rw [Array.getElem?_toList] at hid
  rw [Function.comp_apply, keyOfName, ht.registered.encoded hid]
  rfl

lemma viewNames?_group (t : Table) :
    t.group.value.viewNames? =
      some (((sortedIds t.descriptors).map (keyAt t.descriptors)).map
        fun key => (ofLex key).2) := by
  have hview : t.group.value.byCore.toList = sortedIds t.descriptors := by rw [group_eq]
  have hgrouped : t.group.value.grouped = true := (numbered_group t).grouped
  rw [viewNames?, sorted?, if_pos hgrouped, hview, Option.map_some, List.map_filterMap,
    List.map_map, ← List.filterMap_eq_map]
  congr 1
  apply List.filterMap_congr
  intro id hid
  obtain ⟨d, hd⟩ := mem_sortedIds_iff_exists.mp hid
  rw [get?_group, get?, hd, Function.comp_apply, Function.comp_apply, keyAt_of_getElem? hd]
  rfl

/-- The view by core is there, and lists the names of the table. -/
lemma exists_viewNames?_group (t : Table) : ∃ view, t.group.value.viewNames? = some view ∧
    ∀ name, name ∈ view ↔ name ∈ t.nameList.names := by
  refine ⟨_, t.viewNames?_group, fun name => ?_⟩
  rw [List.map_map, List.mem_map, mem_names]
  constructor
  · rintro ⟨id, hid, rfl⟩
    obtain ⟨d, hd⟩ := mem_sortedIds_iff_exists.mp hid
    rw [Function.comp_apply, keyAt_of_getElem? hd]
    exact ⟨id, d, hd, rfl⟩
  · rintro ⟨id, d, hd, rfl⟩
    refine ⟨id, mem_sortedIds_iff_exists.mpr ⟨d, hd⟩, ?_⟩
    rw [Function.comp_apply, keyAt_of_getElem? hd]
    rfl

/-- Tables of the same names have the same view, whatever order the names came in. -/
theorem Sound.viewNames?_congr {others : Interner} {u : Table} (ht : Sound strings t)
    (hu : Sound others u) (hnames : ∀ name, name ∈ t.nameList.names ↔ name ∈ u.nameList.names) :
    t.group.value.viewNames? = u.group.value.viewNames? := by
  have hperm : t.nameList.names.Perm u.nameList.names :=
    (List.perm_ext_iff_of_nodup ht.nodup_names hu.nodup_names).mpr hnames
  have hkeys := hperm.map keyOfName
  rw [← ht.map_sortKey, ← hu.map_sortKey] at hkeys
  rw [viewNames?_group, viewNames?_group, map_sortedIds_keyAt_congr hkeys]

end View

end Table

namespace TableSession

/-- At every point of every session, grouping numbers the cores by their order. The names in the
view by core do not depend on how they came in, and nothing that is done later makes grouping change
anything again. -/
theorem grouping_after_start (count : Nat) (xs : List Step) :
    let t := ((start count).after xs).table
    Table.Grouping t t.group.value ∧
      (∀ (hint : Nat) (ys : List Step),
        let u := ((start hint).after ys).table
        (∀ name, name ∈ t.nameList.names ↔ name ∈ u.nameList.names) →
          t.group.value.viewNames? = u.group.value.viewNames?) ∧
      ∀ ys : List Step,
        let u := ((start count).after (xs ++ .group :: ys)).table
        u.group.value = u := by
  intro t
  have ht : Table.Sound ((start count).after xs).strings t := sound_after_start count xs
  refine ⟨ht.grouping, ?_, ?_⟩
  · intro hint ys u hnames
    exact ht.viewNames?_congr (sound_after_start hint ys) hnames
  · intro ys u
    exact (numbered_after_group count xs ys).group_value

/-- The same two names, taken in the other order. -/
theorem viewNames?_of_two_orders :
    ((start 0).after [.intern "hS", .intern "A"]).table.group.value.viewNames? =
      ((start 40).after [.internAll ["A", "hS"]]).table.group.value.viewNames? := by
  refine (grouping_after_start 0 [.intern "hS", .intern "A"]).2.1 40 [.internAll ["A", "hS"]] ?_
  intro name
  have ht := (sound_start 0).nameList_after [.intern "hS", .intern "A"] (by decide +kernel)
  have hu := (sound_start 40).nameList_after [.internAll ["A", "hS"]] (by decide +kernel)
  have htnames : (NameList.after {} [.intern "hS", .intern "A"]).names = ["hS", "A"] := by
    decide +kernel
  have hunames : (NameList.after {} [.internAll ["A", "hS"]]).names = ["A", "hS"] := by
    decide +kernel
  have hstart : ∀ count, (start count).table.nameList = {} := fun _ => rfl
  rw [ht, hu, hstart, hstart, htnames, hunames]
  simp [or_comm]

end TableSession

end LinkConnectors
