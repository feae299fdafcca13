import LinkConnectors.Table.Grouping
import Mathlib.Data.Prod.Lex
import Mathlib.Data.String.Basic

/-! The view by core. Sorting the numbers of the descriptors sorts the descriptors by core and name,
so the view lists each number once, and its names depend on the names in the table alone. -/
namespace LinkConnectors

/-- What the view by core sorts by. -/
def Descriptor.sortKey (d : Descriptor) : String ×ₗ String := toLex (d.core, d.text)

lemma Descriptor.sortsBefore_eq (a b : Descriptor) :
    a.sortsBefore b = decide (a.sortKey ≤ b.sortKey) := by
  apply Bool.eq_iff_iff.mpr
  rw [decide_eq_true_iff]
  unfold sortsBefore
  rw [sortKey, sortKey, Prod.Lex.toLex_le_toLex]
  simp only [Bool.or_eq_true, Bool.and_eq_true, decide_eq_true_eq, beq_iff_eq]

namespace Table

variable {descriptors : Array Descriptor}

/-- The sort key of a number, which is that of its descriptor. -/
def keyAt (descriptors : Array Descriptor) (id : Nat) : String ×ₗ String :=
  (descriptors[id]?.map Descriptor.sortKey).getD (toLex ("", ""))

lemma keyAt_of_getElem? {id : Nat} {d : Descriptor} (hd : descriptors[id]? = some d) :
    keyAt descriptors id = d.sortKey := by
  simp [keyAt, hd]

lemma coreAt_of_getElem? {id : Nat} {d : Descriptor} (hd : descriptors[id]? = some d) :
    coreAt descriptors id = d.core := by
  simp [coreAt, hd]

lemma sortedIds_perm (descriptors : Array Descriptor) :
    (sortedIds descriptors).Perm (List.range descriptors.size) := List.mergeSort_perm _ _

lemma mem_sortedIds {id : Nat} : id ∈ sortedIds descriptors ↔ id < descriptors.size := by
  rw [(sortedIds_perm descriptors).mem_iff, List.mem_range]

/-- The view has the numbers that belong to descriptors. -/
lemma mem_sortedIds_iff_exists {id : Nat} :
    id ∈ sortedIds descriptors ↔ ∃ d, descriptors[id]? = some d := by
  rw [mem_sortedIds]
  exact ⟨fun h => ⟨_, Array.getElem?_eq_getElem h⟩,
    fun ⟨_, hd⟩ => (Array.getElem?_eq_some_iff.mp hd).1⟩

lemma sortsBeforeAt_eq {i j : Nat} (hi : i < descriptors.size) (hj : j < descriptors.size) :
    sortsBeforeAt descriptors i j = decide (keyAt descriptors i ≤ keyAt descriptors j) := by
  have hi := Array.getElem?_eq_getElem hi
  have hj := Array.getElem?_eq_getElem hj
  unfold sortsBeforeAt
  rw [hi, hj, keyAt_of_getElem? hi, keyAt_of_getElem? hj]
  exact Descriptor.sortsBefore_eq _ _

lemma map_range_keyAt (descriptors : Array Descriptor) :
    (List.range descriptors.size).map (keyAt descriptors) =
      descriptors.toList.map Descriptor.sortKey := by
  apply List.ext_getElem?
  intro i
  obtain h | h := Nat.lt_or_ge i descriptors.size
  · have hd := Array.getElem?_eq_getElem h
    simp [h, keyAt_of_getElem? hd]
  · simp [h]

lemma keyLe_trans (a b c : String ×ₗ String) (hab : decide (a ≤ b) = true)
    (hbc : decide (b ≤ c) = true) :
    decide (a ≤ c) = true :=
  decide_eq_true ((of_decide_eq_true hab).trans (of_decide_eq_true hbc))

lemma keyLe_total (a b : String ×ₗ String) : (decide (a ≤ b) || decide (b ≤ a)) = true := by
  rw [Bool.or_eq_true, decide_eq_true_eq, decide_eq_true_eq]
  exact le_total a b

/-- Sorting numbers is sorting keys. -/
theorem map_sortedIds_keyAt (descriptors : Array Descriptor) :
    (sortedIds descriptors).map (keyAt descriptors) =
      (descriptors.toList.map Descriptor.sortKey).mergeSort (fun a b => decide (a ≤ b)) := by
  rw [← map_range_keyAt, sortedIds]
  apply List.map_mergeSort
  intro i hi j hj
  exact sortsBeforeAt_eq (List.mem_range.mp hi) (List.mem_range.mp hj)

theorem sorted_map_keyAt (descriptors : Array Descriptor) :
    ((sortedIds descriptors).map (keyAt descriptors)).Pairwise (· ≤ ·) := by
  rw [map_sortedIds_keyAt]
  have h :=
    List.pairwise_mergeSort keyLe_trans keyLe_total (descriptors.toList.map Descriptor.sortKey)
  exact h.imp of_decide_eq_true

/-- Only cores and names decide the view. -/
theorem sortedIds_congr {others : Array Descriptor}
    (h : descriptors.map Descriptor.sortKey = others.map Descriptor.sortKey) :
    sortedIds descriptors = sortedIds others := by
  have hsize : descriptors.size = others.size := by simpa using congrArg Array.size h
  have hkey : keyAt descriptors = keyAt others := by
    funext id
    have := congrArg (fun keys => keys[id]?) h
    simp only [Array.getElem?_map] at this
    rw [keyAt, keyAt, this]
  have hmap := List.map_mergeSort (r := sortsBeforeAt descriptors) (s := sortsBeforeAt others)
    (f := id) (l := List.range descriptors.size) (by
      intro i hi j hj
      rw [List.mem_range] at hi hj
      rw [sortsBeforeAt_eq hi hj, id, id, sortsBeforeAt_eq (hsize ▸ hi) (hsize ▸ hj), hkey])
  rw [List.map_id, List.map_id] at hmap
  rw [sortedIds, sortedIds, hmap, hsize]

/-- The keys of the view do not depend on the order in which the descriptors were created. -/
theorem map_sortedIds_keyAt_congr {others : Array Descriptor}
    (h : (descriptors.toList.map Descriptor.sortKey).Perm (others.toList.map Descriptor.sortKey)) :
    (sortedIds descriptors).map (keyAt descriptors) = (sortedIds others).map (keyAt others) := by
  apply List.Perm.eq_of_pairwise (fun _ _ _ _ => le_antisymm) (sorted_map_keyAt descriptors)
    (sorted_map_keyAt others)
  rw [map_sortedIds_keyAt, map_sortedIds_keyAt]
  exact (List.mergeSort_perm _ _).trans (h.trans (List.mergeSort_perm _ _).symm)

lemma coreAt_eq_keyAt (descriptors : Array Descriptor) (id : Nat) :
    coreAt descriptors id = (ofLex (keyAt descriptors id)).1 := by
  unfold coreAt keyAt
  cases descriptors[id]? <;> rfl

/-- Equal cores stand together in the view, and smaller ones before greater ones. -/
theorem sorted_map_coreAt (descriptors : Array Descriptor) :
    ((sortedIds descriptors).map (coreAt descriptors)).Pairwise (· ≤ ·) := by
  have h := sorted_map_keyAt descriptors
  rw [List.pairwise_map] at h ⊢
  refine h.imp fun {i j} hij => ?_
  rw [coreAt_eq_keyAt, coreAt_eq_keyAt]
  exact Prod.Lex.monotone_fst_ofLex hij

end Table

end LinkConnectors
