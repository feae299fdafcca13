import LinkConnectors.Proofs.Interner
import LinkConnectors.Proofs.Table.Seating

/-! Finding handles and growing the slots. With one interner behind all handles, identity of handles
is equality of names, so a probe walks like a look-up. Growing then enters every number at an empty
slot, and the grown slots hold what the old ones held. -/
namespace LinkConnectors.Table

/-- Descriptors of distinct names, each made from the handle that the interner gives for the
name. -/
structure Registered (strings : Interner) (descriptors : Array Descriptor) : Prop where
  canonical : strings.Canonical
  owned : ∀ {id : Nat} {d : Descriptor}, descriptors[id]? = some d → strings.Owns d.name
  hash_eq : ∀ {id : Nat} {d : Descriptor}, descriptors[id]? = some d → d.hash = Hash.ofName d.text
  encoded : ∀ {id : Nat} {d : Descriptor}, descriptors[id]? = some d →
    Encoding.ofName d.text = .ok d.encoding
  distinct : ∀ {i j : Nat} {a b : Descriptor}, descriptors[i]? = some a → descriptors[j]? = some b →
    a.text = b.text → i = j

lemma seating_replicate (descriptors : Array Descriptor) (count : Nat) :
    Seating descriptors (Array.replicate count none) (fun _ => False) := by
  have hnone : ∀ i id : Nat, (Array.replicate count (none : Option Nat))[i]? ≠ some (some id) := by
    intro i id h
    rw [Array.getElem?_replicate] at h
    split at h <;> cases h
  exact ⟨fun h => hnone _ _ h, fun h => absurd h (hnone _ _), fun h => h.elim⟩

lemma Seating.congr {descriptors : Array Descriptor} {slots : Array (Option Nat)}
    {ids ids' : Nat → Prop} (h : Seating descriptors slots ids) (hids : ∀ id, ids id ↔ ids' id) :
    Seating descriptors slots ids' := by
  rwa [funext fun id => propext (hids id)] at h

namespace Registered

variable {strings : Interner} {descriptors : Array Descriptor} {slots : Array (Option Nat)}
  {ids : Nat → Prop}

lemma judgeHandle_eq (hr : Registered strings descriptors) {h : Handle} (hh : strings.Owns h) :
    judgeHandle descriptors h = judgeText descriptors h.text := by
  funext id
  unfold judgeHandle judgeText
  split
  · rfl
  · rename_i d hd
    have hsame := hr.canonical.same_eq_sameText (hr.owned hd) hh
    rw [hsame, Handle.sameText, Descriptor.text]
    split <;> simp_all

lemma probe_eq (hr : Registered strings descriptors) (slots : Array (Option Nat)) {h : Handle}
    (hh : strings.Owns h) (hash : UInt32) :
    probe slots descriptors h hash = walkFromHome slots (judgeText descriptors h.text) hash := by
  rw [probe, hr.judgeHandle_eq hh]

/-- Entering a number that the slots do not hold yet fills an empty slot. -/
theorem place_new (hr : Registered strings descriptors) (hs : Seating descriptors slots ids)
    (hids : ∀ id, ids id → id < descriptors.size) (hroom : descriptors.size < slots.size) {id : Nat}
    (hlt : id < descriptors.size) (hid : ¬ ids id) :
    ∃ filled, place descriptors slots id = .ok filled ∧ filled.size = slots.size ∧
      Seating descriptors filled (fun j => ids j ∨ j = id) := by
  obtain ⟨d, hd⟩ : ∃ d, descriptors[id]? = some d := ⟨_, Array.getElem?_eq_getElem hlt⟩
  have hnew : ∀ (j : Nat) (e : Descriptor), ids j → descriptors[j]? = some e → e.text ≠ d.text := by
    intro j e hj he htext
    exact hid (hr.distinct he hd htext ▸ hj)
  obtain ⟨n, hn, hwalk, hvacant, hway⟩ :=
    hs.walkFromHome_vacant (hs.exists_vacant hids hroom) d.hash hids hnew
  refine ⟨_, ?_, ?_, hs.fill hn hvacant hway hd hid⟩
  · have hprobe := (hr.probe_eq slots (hr.owned hd) d.hash).trans hwalk
    rw [place, hd]
    simp only [hprobe]
  · simp

/-- The rehash loop enters the numbers one after the other, and what is in so far is seated. -/
theorem foldlM_place (hr : Registered strings descriptors) (todo : List Nat) (hnodup : todo.Nodup)
    (hs : Seating descriptors slots ids) (hids : ∀ id, ids id → id < descriptors.size)
    (hroom : descriptors.size < slots.size)
    (htodo : ∀ id ∈ todo, id < descriptors.size ∧ ¬ ids id) :
    ∃ filled, todo.foldlM (place descriptors) slots = .ok filled ∧ filled.size = slots.size ∧
      Seating descriptors filled (fun j => ids j ∨ j ∈ todo) := by
  induction todo generalizing slots ids with
  | nil => exact ⟨slots, rfl, rfl, hs.congr (by simp)⟩
  | cons id todo ih =>
    obtain ⟨hnot, hnodup⟩ := List.nodup_cons.mp hnodup
    obtain ⟨hlt, hid⟩ := htodo id (by simp)
    obtain ⟨next, hplace, hsize, hnext⟩ := hr.place_new hs hids hroom hlt hid
    obtain ⟨filled, hfold, hfilled, hseating⟩ := ih hnodup hnext
      (by rintro j (hj | rfl); exacts [hids j hj, hlt]) (by omega)
      (by
        intro j hj
        obtain ⟨hjlt, hjnot⟩ := htodo j (by simp [hj])
        refine ⟨hjlt, ?_⟩
        rintro (h | rfl)
        · exact hjnot h
        · exact hnot hj)
    refine ⟨filled, ?_, by omega, hseating.congr (by simp [or_assoc])⟩
    rw [List.foldlM_cons, hplace]
    exact hfold

end Registered

section Held

variable {descriptors : Array Descriptor} {slots : Array (Option Nat)} {ids : Nat → Prop}

/-- The numbers in the slots, in the order of the slots. -/
lemma mem_filterMap_slots (slots : Array (Option Nat)) (id : Nat) :
    id ∈ slots.toList.filterMap (fun a => a) ↔ ∃ i : Nat, slots[i]? = some (some id) := by
  rw [List.mem_filterMap]
  simp only [exists_eq_right, List.mem_iff_getElem?, Array.getElem?_toList]

lemma Seating.mem_filterMap (hs : Seating descriptors slots ids)
    (hids : ∀ id, ids id → id < descriptors.size) (id : Nat) :
    id ∈ slots.toList.filterMap (fun a => a) ↔ ids id := by
  rw [mem_filterMap_slots]
  constructor
  · rintro ⟨i, hi⟩
    exact hs.held hi
  · intro hid
    obtain ⟨n, _, hslot, _⟩ := hs.seated hid (Array.getElem?_eq_getElem (hids id hid))
    exact ⟨_, hslot⟩

lemma Seating.nodup_filterMap (hs : Seating descriptors slots ids) :
    (slots.toList.filterMap (fun a => a)).Nodup := by
  rw [List.Nodup, List.pairwise_filterMap, List.pairwise_iff_getElem]
  intro i j hi hj hij a ha b hb hab
  have hslot : ∀ (k : Nat) (hk : k < slots.toList.length) (c : Nat),
      slots.toList[k] = some c → slots[k]? = some (some c) := by
    intro k hk c hc
    rw [← Array.getElem?_toList, List.getElem?_eq_getElem hk, hc]
  have := hs.once (hslot i hi a ha) (hslot j hj a (hab ▸ hb))
  omega

end Held

/-- Rehashing never meets an occupied slot, and keeps every number. -/
theorem rehash_ok {strings : Interner} {t : Table} (hr : Registered strings t.descriptors)
    (hs : Seating t.descriptors t.slots (· < t.size)) {count : Nat} (hroom : t.size < count) :
    ∃ slots, t.rehash count = .ok { t with slots := slots } ∧ slots.size = count ∧
      Seating t.descriptors slots (· < t.size) := by
  have hmem := hs.mem_filterMap (fun _ h => h)
  obtain ⟨slots, hfold, hsize, hseating⟩ := hr.foldlM_place (t.slots.toList.filterMap id)
    hs.nodup_filterMap (seating_replicate t.descriptors count) (fun _ h => h.elim)
    (by rwa [Array.size_replicate])
    (fun id h => ⟨(hmem id).mp h, fun h => h⟩)
  refine ⟨slots, ?_, by simpa using hsize, hseating.congr ?_⟩
  · rw [rehash, hfold]
    rfl
  · intro id
    rw [false_or]
    exact hmem id

end LinkConnectors.Table
