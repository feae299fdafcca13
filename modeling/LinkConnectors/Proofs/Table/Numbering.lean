import LinkConnectors.Proofs.Table.CoreOrder
import Mathlib.Data.Finset.Card
import Mathlib.Data.Finset.Dedup

/-! Numbering the cores. The loop over the sorted descriptors only compares neighbours. Since equal
cores stand together, the number it gives to a core is the number of distinct cores before it, and a
second pass gives the same numbers again. -/
namespace LinkConnectors.Table

/-- How many of the cores come before a core. -/
def rankIn (cores : Finset String) (core : String) : Nat := (cores.filter (· < core)).card

section Rank

variable {cores : Finset String} {a b : String}

lemma rankIn_eq_zero (h : ∀ c ∈ cores, a ≤ c) : rankIn cores a = 0 := by
  rw [rankIn, Finset.card_eq_zero, Finset.filter_eq_empty_iff]
  intro c hc
  exact not_lt_of_ge (h c hc)

lemma rankIn_insert_of_lt (ha : a ∉ cores) (hab : a < b) :
    rankIn (insert a cores) b = rankIn cores b + 1 := by
  rw [rankIn, Finset.filter_insert, if_pos hab, Finset.card_insert_of_notMem]
  · rfl
  · exact fun h => ha (Finset.mem_of_mem_filter a h)

lemma rankIn_lt_rankIn (ha : a ∈ cores) (hab : a < b) : rankIn cores a < rankIn cores b := by
  apply Finset.card_lt_card
  rw [Finset.ssubset_iff_of_subset]
  · exact ⟨a, Finset.mem_filter.mpr ⟨ha, hab⟩, fun h => lt_irrefl a (Finset.mem_filter.mp h).2⟩
  · intro c hc
    obtain ⟨hc, hca⟩ := Finset.mem_filter.mp hc
    exact Finset.mem_filter.mpr ⟨hc, hca.trans hab⟩

lemma rankIn_lt_card (ha : a ∈ cores) : rankIn cores a < cores.card := by
  apply Finset.card_lt_card
  rw [Finset.ssubset_iff_of_subset (Finset.filter_subset _ _)]
  exact ⟨a, ha, fun h => lt_irrefl a (Finset.mem_filter.mp h).2⟩

lemma rankIn_add_one (ha : a ∈ cores) (hmax : ∀ c ∈ cores, c ≤ a) :
    rankIn cores a + 1 = cores.card := by
  have herase : cores.filter (· < a) = cores.erase a := by
    ext c
    rw [Finset.mem_filter, Finset.mem_erase]
    constructor
    · rintro ⟨hc, hca⟩
      exact ⟨hca.ne, hc⟩
    · rintro ⟨hca, hc⟩
      exact ⟨hc, lt_of_le_of_ne (hmax c hc) hca⟩
  rw [rankIn, herase, Finset.card_erase_add_one ha]

/-- Of two cores the smaller one has the smaller number. -/
theorem rankIn_lt_iff (ha : a ∈ cores) (hb : b ∈ cores) :
    rankIn cores a < rankIn cores b ↔ a < b := by
  refine ⟨fun h => ?_, rankIn_lt_rankIn ha⟩
  by_contra hba
  obtain rfl | hba := eq_or_lt_of_le (not_lt.mp hba)
  · exact lt_irrefl _ h
  · exact lt_asymm h (rankIn_lt_rankIn hb hba)

theorem rankIn_inj (ha : a ∈ cores) (hb : b ∈ cores) : rankIn cores a = rankIn cores b ↔ a = b := by
  refine ⟨fun h => ?_, fun h => h ▸ rfl⟩
  obtain hab | hab | hab := lt_trichotomy a b
  · exact absurd h (rankIn_lt_rankIn ha hab).ne
  · exact hab
  · exact absurd h (rankIn_lt_rankIn hb hab).ne'

/-- Every number below the number of cores belongs to one of them. -/
theorem exists_rankIn_eq {n : Nat} (hn : n < cores.card) : ∃ a ∈ cores, rankIn cores a = n := by
  have himage : cores.image (rankIn cores) = Finset.range cores.card := by
    apply Finset.eq_of_subset_of_card_le
    · intro m hm
      obtain ⟨a, ha, rfl⟩ := Finset.mem_image.mp hm
      exact Finset.mem_range.mpr (rankIn_lt_card ha)
    · rw [Finset.card_range, Finset.card_image_of_injOn]
      intro a ha b hb h
      exact (rankIn_inj ha hb).mp h
  have hmem : n ∈ cores.image (rankIn cores) := by
    rw [himage]
    exact Finset.mem_range.mpr hn
  exact Finset.mem_image.mp hmem

end Rank

section Runs

variable {xs : List String}

/-- On a sorted list the running number counts the distinct texts before. -/
theorem numberRuns_of_sorted (n : Nat) (h : xs.Pairwise (· ≤ ·)) :
    numberRuns n xs = xs.map fun x => n + rankIn xs.toFinset x := by
  induction xs generalizing n with
  | nil => rfl
  | cons a xs ih =>
    obtain ⟨hle, htail⟩ := List.pairwise_cons.mp h
    have hzero : rankIn (a :: xs).toFinset a = 0 := by
      apply rankIn_eq_zero
      intro c hc
      obtain rfl | hc := List.mem_cons.mp (List.mem_toFinset.mp hc)
      · exact le_rfl
      · exact hle c hc
    cases xs with
    | nil => rw [numberRuns, List.map_singleton, hzero, Nat.add_zero]
    | cons b rest =>
      have hmap : (a :: b :: rest).map (fun x => n + rankIn (a :: b :: rest).toFinset x) =
          n :: (b :: rest).map fun x => n + rankIn (a :: b :: rest).toFinset x := by
        rw [List.map_cons, hzero, Nat.add_zero]
      rw [numberRuns, ih _ htail, hmap]
      congr 1
      apply List.map_congr_left
      intro x hx
      by_cases hab : a = b
      · subst hab
        have hset : (a :: a :: rest).toFinset = (a :: rest).toFinset := by
          ext c
          simp
        rw [if_pos rfl, hset]
      · -- the first text stands before all others and is none of them
        have hlt : ∀ y ∈ b :: rest, a < y := by
          intro y hy
          have hby : b ≤ y := by
            obtain rfl | hy := List.mem_cons.mp hy
            · exact le_rfl
            · exact (List.pairwise_cons.mp htail).1 y hy
          exact lt_of_lt_of_le (lt_of_le_of_ne (hle b (by simp)) hab) hby
        have hnot : a ∉ (b :: rest).toFinset := by
          intro ha
          exact lt_irrefl a (hlt a (List.mem_toFinset.mp ha))
        have hset : (a :: b :: rest).toFinset = insert a (b :: rest).toFinset := List.toFinset_cons
        rw [if_neg hab, hset, rankIn_insert_of_lt hnot (hlt x hx)]
        omega

theorem runCount_of_sorted (h : xs.Pairwise (· ≤ ·)) : runCount xs = xs.toFinset.card := by
  rw [runCount, numberRuns_of_sorted 0 h, List.getLast?_map]
  cases hlast : xs.getLast? with
  | none =>
    rw [List.getLast?_eq_none_iff] at hlast
    simp [hlast]
  | some a =>
    obtain ⟨ys, rfl⟩ := List.getLast?_eq_some_iff.mp hlast
    simp only [Option.map_some, Nat.zero_add]
    apply rankIn_add_one
    · simp
    · intro c hc
      rw [List.mem_toFinset, List.mem_append, List.mem_singleton] at hc
      obtain hc | rfl := hc
      · exact (List.pairwise_append.mp h).2.2 c hc a (by simp)
      · exact le_rfl

end Runs

/-- The distinct cores of the descriptors. -/
def coresOf (descriptors : Array Descriptor) : Finset String :=
  (descriptors.toList.map Descriptor.core).toFinset

lemma mem_coresOf {descriptors : Array Descriptor} {core : String} :
    core ∈ coresOf descriptors ↔ ∃ (id : Nat) (d : Descriptor), descriptors[id]? = some d ∧
      d.core = core := by
  rw [coresOf, List.mem_toFinset, List.mem_map]
  constructor
  · rintro ⟨d, hd, rfl⟩
    obtain ⟨id, hid⟩ := List.mem_iff_getElem?.mp hd
    exact ⟨id, d, by rwa [← Array.getElem?_toList], rfl⟩
  · rintro ⟨id, d, hd, rfl⟩
    exact ⟨d, List.mem_of_getElem? (by rwa [Array.getElem?_toList]), rfl⟩

/-- The number that grouping gives to a descriptor. -/
def numbered (cores : Finset String) (d : Descriptor) : Descriptor :=
  { d with coreId := some (rankIn cores d.core) }

section Group

variable {descriptors : Array Descriptor}

lemma toFinset_map_coreAt (descriptors : Array Descriptor) :
    ((sortedIds descriptors).map (coreAt descriptors)).toFinset = coresOf descriptors := by
  ext core
  rw [List.mem_toFinset, List.mem_map, mem_coresOf]
  constructor
  · rintro ⟨id, hid, rfl⟩
    obtain ⟨d, hd⟩ := mem_sortedIds_iff_exists.mp hid
    exact ⟨id, d, hd, (coreAt_of_getElem? hd).symm⟩
  · rintro ⟨id, d, hd, rfl⟩
    exact ⟨id, mem_sortedIds_iff_exists.mpr ⟨d, hd⟩, coreAt_of_getElem? hd⟩

/-- The numbering loop writes to every descriptor in its list, whatever their order. -/
lemma getElem?_foldl_setCoreId (f : Nat → Nat) (ids : List Nat) (descriptors : Array Descriptor)
    (id : Nat) :
    ((ids.map fun i => (i, f i)).foldl setCoreId descriptors)[id]? =
      if id ∈ ids then descriptors[id]?.map fun d => { d with coreId := some (f id) }
      else descriptors[id]? := by
  induction ids generalizing descriptors with
  | nil => simp
  | cons i ids ih =>
    rw [List.map_cons, List.foldl_cons, ih, setCoreId, Array.getElem?_modify]
    by_cases hi : i = id
    · subst hi
      by_cases hmem : i ∈ ids <;> simp [hmem, Function.comp_def]
    · have hi' : id ≠ i := fun h => hi h.symm
      simp [hi, hi']

theorem foldl_setCoreId_numberRuns (descriptors : Array Descriptor) :
    ((sortedIds descriptors).zip
        (numberRuns 0 ((sortedIds descriptors).map (coreAt descriptors)))).foldl setCoreId
          descriptors =
      descriptors.map (numbered (coresOf descriptors)) := by
  have hruns := numberRuns_of_sorted 0 (sorted_map_coreAt descriptors)
  rw [toFinset_map_coreAt, List.map_map] at hruns
  have hzip := List.zip_map' (f := id)
    (g := (fun core => 0 + rankIn (coresOf descriptors) core) ∘ coreAt descriptors)
    (l := sortedIds descriptors)
  rw [List.map_id] at hzip
  rw [hruns, hzip]
  apply Array.ext_getElem?
  intro id
  simp only [id_eq]
  rw [getElem?_foldl_setCoreId, Array.getElem?_map]
  cases hd : descriptors[id]? with
  | none => simp
  | some d =>
    rw [if_pos (mem_sortedIds_iff_exists.mpr ⟨_, hd⟩)]
    simp [numbered, coreAt_of_getElem? hd]

/-- Grouping, in one piece: the view is sorted, and every descriptor gets the rank of its core. -/
theorem group_eq (t : Table) : t.group = ⟨{ t with
    descriptors := t.descriptors.map (numbered (coresOf t.descriptors))
    byCore := (sortedIds t.descriptors).toArray
    coreCount := (coresOf t.descriptors).card
    grouped := true }, [.grouped t.size (coresOf t.descriptors).card]⟩ := by
  unfold group
  simp only [runCount_of_sorted (sorted_map_coreAt _), toFinset_map_coreAt,
    foldl_setCoreId_numberRuns]
  rfl

lemma coresOf_congr {others : Array Descriptor}
    (h : descriptors.map Descriptor.sortKey = others.map Descriptor.sortKey) :
    coresOf descriptors = coresOf others := by
  have hlist : ∀ ds : Array Descriptor, ds.toList.map Descriptor.core =
      (ds.map Descriptor.sortKey).toList.map fun key => (ofLex key).1 := by
    intro ds
    simp [Function.comp_def, Descriptor.sortKey]
  rw [coresOf, coresOf, hlist, hlist, h]

@[simp] lemma map_numbered_sortKey (cores : Finset String) (descriptors : Array Descriptor) :
    (descriptors.map (numbered cores)).map Descriptor.sortKey =
      descriptors.map Descriptor.sortKey := by
  rw [Array.map_map]
  rfl

end Group

/-- A table as grouping leaves it. -/
structure Numbered (t : Table) : Prop where
  grouped : t.grouped = true
  byCore : t.byCore = (sortedIds t.descriptors).toArray
  coreCount : t.coreCount = (coresOf t.descriptors).card
  coreId : ∀ {id : Nat} {d : Descriptor}, t.descriptors[id]? = some d →
    d.coreId = some (rankIn (coresOf t.descriptors) d.core)

theorem numbered_group (t : Table) : t.group.value.Numbered := by
  have hkeys := map_numbered_sortKey (coresOf t.descriptors) t.descriptors
  rw [group_eq]
  constructor
  · rfl
  · rw [sortedIds_congr hkeys]
  · rw [coresOf_congr hkeys]
  · intro id d hd
    simp only [Array.getElem?_map, Option.map_eq_some_iff] at hd
    obtain ⟨e, _, rfl⟩ := hd
    rw [coresOf_congr hkeys]
    rfl

/-- Grouping once more changes nothing. -/
theorem Numbered.group_value {t : Table} (h : t.Numbered) : t.group.value = t := by
  have hdescriptors : t.descriptors.map (numbered (coresOf t.descriptors)) = t.descriptors := by
    apply Array.ext_getElem?
    intro id
    rw [Array.getElem?_map]
    cases hd : t.descriptors[id]? with
    | none => rfl
    | some d => rw [Option.map_some, numbered, ← h.coreId hd]
  rw [group_eq, hdescriptors, ← h.byCore, ← h.coreCount, ← h.grouped]

end LinkConnectors.Table
