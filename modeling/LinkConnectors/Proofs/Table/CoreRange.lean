import LinkConnectors.Proofs.Table.Numbering
import LinkConnectors.Table.CoreRange

/-! The stretch of a core. The view by core is sorted by core, so what the two binary searches bound
are the descriptors with the core that was asked for, and all of them. -/
namespace LinkConnectors.Table

/-- If `p` holds on a first part of the interval alone, the search ends where that part ends. -/
theorem boundary_spec (p : Nat → Bool) (lo hi : Nat)
    (h : ∀ i j, lo ≤ i → i ≤ j → j < hi → p j = true → p i = true) :
    (∀ i, lo ≤ i → i < boundary p lo hi → p i = true) ∧
      ∀ i, boundary p lo hi ≤ i → i < hi → p i = false := by
  fun_induction boundary p lo hi with
  | case1 lo hi hlt hp ih =>
    obtain ⟨hbelow, habove⟩ := ih fun i j hi => h i j (by omega)
    refine ⟨fun i hli hib => ?_, habove⟩
    obtain him | him := Nat.lt_or_ge ((lo + hi) / 2) i
    · exact hbelow i (by omega) hib
    · exact h i ((lo + hi) / 2) hli him (by omega) hp
  | case2 lo hi hlt hp ih =>
    obtain ⟨hbelow, habove⟩ := ih fun i j hi hij hj => h i j hi hij (by omega)
    refine ⟨hbelow, fun i hbi hih => ?_⟩
    obtain him | him := Nat.lt_or_ge i ((lo + hi) / 2)
    · exact habove i hbi him
    · apply Bool.eq_false_iff.mpr
      intro hpi
      exact hp (h ((lo + hi) / 2) i (by omega) him hih hpi)
  | case3 lo hi hlt => exact ⟨fun i _ _ => by omega, fun i _ _ => by omega⟩

/-- A stretch that leaves out nothing but members of other kinds holds all members of its kind. -/
lemma filter_eq_take_drop {α : Type} {p : α → Bool} {xs : List α} {lo hi : Nat} (hle : lo ≤ hi)
    (hbefore : ∀ i a, i < lo → xs[i]? = some a → p a = false)
    (hwithin : ∀ i a, lo ≤ i → i < hi → xs[i]? = some a → p a = true)
    (hafter : ∀ i a, hi ≤ i → xs[i]? = some a → p a = false) :
    xs.filter p = (xs.drop lo).take (hi - lo) := by
  have hsplit :
      xs = xs.take lo ++ ((xs.drop lo).take (hi - lo) ++ (xs.drop lo).drop (hi - lo)) := by
    rw [List.take_append_drop, List.take_append_drop]
  have htake : (xs.take lo).filter p = [] := by
    rw [List.filter_eq_nil_iff]
    intro a ha
    obtain ⟨i, hi⟩ := List.mem_iff_getElem?.mp ha
    rw [List.getElem?_take] at hi
    split at hi
    · simp [hbefore i a ‹_› hi]
    · cases hi
  have hmiddle : ((xs.drop lo).take (hi - lo)).filter p = (xs.drop lo).take (hi - lo) := by
    rw [List.filter_eq_self]
    intro a ha
    obtain ⟨i, hi⟩ := List.mem_iff_getElem?.mp ha
    rw [List.getElem?_take] at hi
    split at hi
    · rw [List.getElem?_drop] at hi
      exact hwithin (lo + i) a (by omega) (by omega) hi
    · cases hi
  have hdrop : ((xs.drop lo).drop (hi - lo)).filter p = [] := by
    rw [List.filter_eq_nil_iff]
    intro a ha
    obtain ⟨i, hi⟩ := List.mem_iff_getElem?.mp ha
    rw [List.drop_drop, List.getElem?_drop] at hi
    simp [hafter _ a (by omega) hi]
  calc xs.filter p
      = (xs.take lo).filter p ++ (((xs.drop lo).take (hi - lo)).filter p ++
          ((xs.drop lo).drop (hi - lo)).filter p) := by
        rw [← List.filter_append, ← List.filter_append, ← hsplit]
    _ = (xs.drop lo).take (hi - lo) := by
        rw [htake, hmiddle, hdrop, List.nil_append, List.append_nil]

section Stretches

variable {α κ : Type} [LinearOrder κ] {f : α → κ} {k : κ} {ks : List κ} {xs : List α}

/-- In a sorted list the members with the smallest key stand in front. -/
lemma filter_append_filter_of_sorted (hxs : (xs.map f).Pairwise (· ≤ ·))
    (hmin : ∀ x ∈ xs, k ≤ f x) :
    (xs.filter fun x => f x == k) ++ xs.filter (fun x => f x != k) = xs := by
  induction xs with
  | nil => rfl
  | cons x xs ih =>
    obtain ⟨hx, hsorted⟩ := List.pairwise_cons.mp hxs
    obtain ⟨hkx, hmin⟩ := List.forall_mem_cons.mp hmin
    obtain heq | hlt := hkx.eq_or_lt
    · rw [List.filter_cons_of_pos (by simp [heq]), List.filter_cons_of_neg (by simp [heq]),
        List.cons_append, ih hsorted hmin]
    · have hgreater : ∀ y ∈ x :: xs, f y ≠ k := by
        refine List.forall_mem_cons.mpr ⟨hlt.ne', fun y hy => ?_⟩
        exact (hlt.trans_le (hx (f y) (List.mem_map_of_mem hy))).ne'
      rw [List.filter_eq_nil_iff.mpr (by simpa using hgreater),
        List.filter_eq_self.mpr (by simpa using hgreater), List.nil_append]

/-- A list that is sorted by keys is made up of the stretches of the keys. -/
lemma flatMap_filter_of_sorted (hxs : (xs.map f).Pairwise (· ≤ ·)) (hks : ks.Pairwise (· < ·))
    (hmem : ∀ x ∈ xs, f x ∈ ks) :
    (ks.flatMap fun k => xs.filter fun x => f x == k) = xs := by
  induction ks generalizing xs with
  | nil => exact (List.eq_nil_iff_forall_not_mem.mpr fun x hx => List.not_mem_nil (hmem x hx)).symm
  | cons k ks ih =>
    obtain ⟨hk, hks⟩ := List.pairwise_cons.mp hks
    have hmin : ∀ x ∈ xs, k ≤ f x := by
      intro x hx
      obtain heq | hx := List.mem_cons.mp (hmem x hx)
      · exact heq.ge
      · exact (hk (f x) hx).le
    -- the greater keys find their members behind those of the smallest
    have hrest : (ks.flatMap fun j => xs.filter fun x => f x == j) =
        ks.flatMap fun j => (xs.filter fun x => f x != k).filter fun x => f x == j := by
      refine List.flatMap_congr fun j hj => ?_
      rw [List.filter_filter]
      refine List.filter_congr fun x hx => ?_
      by_cases heq : f x = j
      · simp [heq, (hk j hj).ne']
      · simp [heq]
    have hsorted : ((xs.filter fun x => f x != k).map f).Pairwise (· ≤ ·) :=
      hxs.sublist (List.filter_sublist.map f)
    rw [List.flatMap_cons, hrest, ih hsorted hks, filter_append_filter_of_sorted hxs hmin]
    intro x hx
    obtain ⟨hx, hne⟩ := List.mem_filter.mp hx
    exact (List.mem_cons.mp (hmem x hx)).resolve_left (bne_iff_ne.mp hne)

end Stretches

namespace Numbered

variable {t : Table}

lemma coreOfRank_eq (ht : t.Numbered) {rank id : Nat}
    (h : (sortedIds t.descriptors)[rank]? = some id) :
    t.coreOfRank rank = coreAt t.descriptors id := by
  rw [coreOfRank, ht.byCore, List.getElem?_toArray, h]
  rfl

lemma coreOfRank_le (ht : t.Numbered) {i j : Nat} (hij : i ≤ j) (hj : j < t.byCore.size) :
    t.coreOfRank i ≤ t.coreOfRank j := by
  have hsize : t.byCore.size = (sortedIds t.descriptors).length := by rw [ht.byCore]; rfl
  have hsorted := sorted_map_coreAt t.descriptors
  rw [List.pairwise_map, List.pairwise_iff_getElem] at hsorted
  have hi' := List.getElem?_eq_getElem (l := sortedIds t.descriptors) (i := i) (by omega)
  have hj' := List.getElem?_eq_getElem (l := sortedIds t.descriptors) (i := j) (by omega)
  obtain rfl | hlt := Nat.eq_or_lt_of_le hij
  · exact le_rfl
  · rw [ht.coreOfRank_eq hi', ht.coreOfRank_eq hj']
    exact hsorted i j (by omega) (by omega) hlt

/-- Before its stretch the view has smaller cores than the one asked for. -/
lemma lower_spec (ht : t.Numbered) (core : String) :
    (∀ rank < (t.coreBounds core).1, t.coreOfRank rank < core) ∧
      ∀ rank, (t.coreBounds core).1 ≤ rank → rank < t.byCore.size → core ≤ t.coreOfRank rank := by
  obtain ⟨hbelow, habove⟩ := boundary_spec (fun rank => decide (t.coreOfRank rank < core)) 0
    t.byCore.size (by
      intro i j _ hij hj hp
      exact decide_eq_true ((ht.coreOfRank_le hij hj).trans_lt (of_decide_eq_true hp)))
  exact ⟨fun rank hr => of_decide_eq_true (hbelow rank (Nat.zero_le _) hr),
    fun rank hr hsize => not_lt.mp (of_decide_eq_false (habove rank hr hsize))⟩

/-- After it the view has greater ones. -/
lemma upper_spec (ht : t.Numbered) (core : String) :
    (∀ rank < (t.coreBounds core).2, t.coreOfRank rank ≤ core) ∧
      ∀ rank, (t.coreBounds core).2 ≤ rank → rank < t.byCore.size → core < t.coreOfRank rank := by
  obtain ⟨hbelow, habove⟩ := boundary_spec (fun rank => decide (t.coreOfRank rank ≤ core)) 0
    t.byCore.size (by
      intro i j _ hij hj hp
      exact decide_eq_true ((ht.coreOfRank_le hij hj).trans (of_decide_eq_true hp)))
  exact ⟨fun rank hr => of_decide_eq_true (hbelow rank (Nat.zero_le _) hr),
    fun rank hr hsize => not_le.mp (of_decide_eq_false (habove rank hr hsize))⟩

theorem coreBounds_le (ht : t.Numbered) (core : String) :
    (t.coreBounds core).1 ≤ (t.coreBounds core).2 ∧ (t.coreBounds core).2 ≤ t.byCore.size := by
  have hlo := (boundary_bounds (fun rank => decide (t.coreOfRank rank < core))
    (Nat.zero_le t.byCore.size)).2
  refine ⟨?_, (boundary_bounds _ (Nat.zero_le _)).2⟩
  by_contra hlt
  have hrank := Nat.not_le.mp hlt
  exact lt_asymm ((ht.lower_spec core).1 _ hrank)
    ((ht.upper_spec core).2 _ le_rfl (Nat.lt_of_lt_of_le hrank hlo))

/-- The stretch of a core is what the view has with this core, in the order of the view. -/
theorem coreRange_eq (ht : t.Numbered) (core : String) :
    t.coreRange core = (sortedIds t.descriptors).filter fun id =>
      coreAt t.descriptors id == core := by
  obtain ⟨hle, hsize⟩ := ht.coreBounds_le core
  have hlength : t.byCore.size = (sortedIds t.descriptors).length := by rw [ht.byCore]; rfl
  rw [coreRange, Array.toList_extract, List.extract_eq_take_drop, filter_eq_take_drop hle,
    ht.byCore]
  · intro rank id hrank hid
    have hlt := (ht.lower_spec core).1 rank hrank
    rw [ht.coreOfRank_eq hid] at hlt
    exact beq_eq_false_iff_ne.mpr hlt.ne
  · intro rank id hlo hhi hid
    have hge := (ht.lower_spec core).2 rank hlo (by omega)
    have hle := (ht.upper_spec core).1 rank hhi
    rw [ht.coreOfRank_eq hid] at hge hle
    exact beq_iff_eq.mpr (le_antisymm hle hge)
  · intro rank id hrank hid
    have hlt : rank < t.byCore.size := hlength ▸ (List.getElem?_eq_some_iff.mp hid).1
    have hgt := (ht.upper_spec core).2 rank hrank hlt
    rw [ht.coreOfRank_eq hid] at hgt
    exact beq_eq_false_iff_ne.mpr hgt.ne'

/-- The stretches of all cores, in their order, make up the view. -/
theorem flatMap_coreRange (ht : t.Numbered) {cores : List String} (hcores : cores.Pairwise (· < ·))
    (hmem : ∀ core ∈ coresOf t.descriptors, core ∈ cores) :
    cores.flatMap t.coreRange = t.byCore.toList := by
  rw [funext ht.coreRange_eq, flatMap_filter_of_sorted (sorted_map_coreAt t.descriptors) hcores,
    ht.byCore]
  intro id hid
  obtain ⟨d, hd⟩ := mem_sortedIds_iff_exists.mp hid
  rw [coreAt_of_getElem? hd]
  exact hmem d.core (mem_coresOf.mpr ⟨id, d, hd, rfl⟩)

end Numbered

end LinkConnectors.Table
