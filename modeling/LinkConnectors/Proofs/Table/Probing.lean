import LinkConnectors.Proofs.Table.Interning
import Mathlib.Data.List.Nodup
import Mathlib.Data.Nat.ModEq

/-! Searches that have nothing but an empty slot to stop them. They pass taken slots only, each at
most once, so what is in the slots bounds them, and a walk that counts its steps lands where they
stop. -/
namespace LinkConnectors.Table

/-- A search from slot `i` on that inspects the slots `js` one after the other and stops with a
landing. It has no rule for getting on outside the slots, from a number without a descriptor or from
a foreign name. -/
inductive Search (slots : Array (Option Nat)) (descriptors : Array Descriptor)
    (judge : Nat → Verdict) : Nat → List Nat → Landing → Prop
  | vacant {i : Nat} (hslot : slots[i]? = some none) :
      Search slots descriptors judge i [i] (.vacant i)
  | held {i id : Nat} (hslot : slots[i]? = some (some id)) (hid : id < descriptors.size)
      (hjudge : judge id = .here) :
      Search slots descriptors judge i [i] (.held i id)
  | pass {i id : Nat} {js : List Nat} {l : Landing} (hslot : slots[i]? = some (some id))
      (hid : id < descriptors.size) (hjudge : judge id = .elsewhere)
      (hrest : Search slots descriptors judge ((i + 1) &&& (slots.size - 1)) js l) :
      Search slots descriptors judge i (i :: js) l

/-- Where the search for a name has to stop, if the slots hold the numbers `ids`: at the slot of
that name, or, if none of them has it, at the first empty slot, counted round from the slot of its
hash. -/
def Landing.Right (slots : Array (Option Nat)) (descriptors : Array Descriptor) (ids : Nat → Prop)
    (hash : UInt32) (name : String) : Landing → Prop
  | .held p id => slots[p]? = some (some id) ∧ ids id ∧ ∃ d, descriptors[id]? = some d ∧
    d.text = name
  | .vacant p =>
    slots[p]? = some none ∧
      (∃ n, p = slotAfter slots (home slots hash) n ∧ Unbroken slots (home slots hash) n) ∧
      ∀ (id : Nat) (d : Descriptor), ids id → descriptors[id]? = some d → d.text ≠ name
  | .foreign _ | .nowhere => False

/-- The search for a name comes to an end, after no more slots than there are taken ones and one,
all of them among the slots, and the walk with a bound lands where it stops. -/
structure Ends (slots : Array (Option Nat)) (descriptors : Array Descriptor) (ids : Nat → Prop)
    (judge : Nat → Verdict) (hash : UInt32) (name : String) (js : List Nat) (l : Landing) :
    Prop where
  search : Search slots descriptors judge (hash.toNat &&& (slots.size - 1)) js l
  length_le : js.length ≤ slots.countP Option.isSome + 1
  inside : ∀ j ∈ js, j < slots.size
  walk_eq : walkFromHome slots judge hash = l
  right : l.Right slots descriptors ids hash name

variable {slots : Array (Option Nat)} {descriptors : Array Descriptor} {judge : Nat → Verdict}
  {ids : Nat → Prop} {i n : Nat} {js js' : List Nat} {l l' : Landing} {hash : UInt32}
  {name : String}

section Search

/-- From one slot there is one search. -/
theorem Search.unique (h : Search slots descriptors judge i js l)
    (h' : Search slots descriptors judge i js' l') : js = js' ∧ l = l' := by
  induction h generalizing js' with
  | vacant hslot =>
    cases h' with
    | vacant => exact ⟨rfl, rfl⟩
    | held hslot' | pass hslot' => cases hslot.symm.trans hslot'
  | held hslot hid hjudge =>
    cases h' with
    | vacant hslot' => cases hslot.symm.trans hslot'
    | held hslot' =>
      cases hslot.symm.trans hslot'
      exact ⟨rfl, rfl⟩
    | pass hslot' hid' hjudge' =>
      cases hslot.symm.trans hslot'
      cases hjudge.symm.trans hjudge'
  | pass hslot hid hjudge hrest ih =>
    cases h' with
    | vacant hslot' => cases hslot.symm.trans hslot'
    | held hslot' hid' hjudge' =>
      cases hslot.symm.trans hslot'
      cases hjudge.symm.trans hjudge'
    | pass hslot' hid' hjudge' hrest' =>
      obtain ⟨rfl, rfl⟩ := ih hrest'
      exact ⟨rfl, rfl⟩

lemma Search.inside (h : Search slots descriptors judge i js l) : ∀ j ∈ js, j < slots.size := by
  induction h with
  | vacant hslot | held hslot =>
    intro j hj
    rw [List.mem_singleton.mp hj]
    exact (Array.getElem?_eq_some_iff.mp hslot).1
  | pass hslot hid hjudge hrest ih =>
    intro j hj
    obtain rfl | hj := List.mem_cons.mp hj
    · exact (Array.getElem?_eq_some_iff.mp hslot).1
    · exact ih j hj

/-- Masking goes round where the number of slots is a power of two. -/
lemma and_size_sub_one {k : Nat} (hpower : slots.size = 2 ^ k) (i : Nat) :
    i &&& (slots.size - 1) = i % slots.size := by
  rw [hpower]
  exact Nat.and_two_pow_sub_one_eq_mod i k

/-- A search gets on over everything that a walk passes. -/
lemma Passed.search {k : Nat} (hpower : slots.size = 2 ^ k)
    (hheld : ∀ {j id : Nat}, slots[j]? = some (some id) → id < descriptors.size)
    (hi : i < slots.size) (h : Passed slots judge i n)
    (hlast : Search slots descriptors judge (slotAfter slots i n) js l) :
    Search slots descriptors judge i ((List.range n).map (slotAfter slots i) ++ js) l := by
  -- the first slot is passed by itself, the others are the same walk from the next slot on
  induction n generalizing i with
  | zero => rwa [slotAfter_zero hi] at hlast
  | succ n ih =>
    obtain ⟨id, hslot, hjudge⟩ := h 0 (Nat.succ_pos n)
    rw [slotAfter_zero hi] at hslot
    have hrest : Passed slots judge ((i + 1) % slots.size) n := by
      intro m hm
      rw [← slotAfter_succ]
      exact h (m + 1) (Nat.succ_lt_succ hm)
    have hnext : (i + 1) % slots.size < slots.size := Nat.mod_lt _ (Nat.zero_lt_of_lt hi)
    have hindices : (List.range (n + 1)).map (slotAfter slots i) =
        i :: (List.range n).map (slotAfter slots ((i + 1) % slots.size)) := by
      rw [List.range_succ_eq_map, List.map_cons, List.map_map, slotAfter_zero hi]
      exact congrArg (i :: ·) (List.map_congr_left fun m _ => slotAfter_succ slots i m)
    rw [slotAfter_succ] at hlast
    rw [hindices]
    refine .pass hslot (hheld hslot) hjudge ?_
    rw [and_size_sub_one hpower]
    exact ih hnext hrest hlast

end Search

section Count

/-- Within one turn no slot is met twice. -/
lemma nodup_slotAfter (hn : n ≤ slots.size) : ((List.range n).map (slotAfter slots i)).Nodup := by
  refine List.Nodup.map_on (fun m hm m' hm' heq => ?_) List.nodup_range
  have hm := List.mem_range.mp hm
  have hm' := List.mem_range.mp hm'
  have hmod : i + m ≡ i + m' [MOD slots.size] := heq
  exact (hmod.add_left_cancel' i).eq_of_lt_of_lt (by omega) (by omega)

/-- The taken slots, by their numbers. -/
def taken (slots : Array (Option Nat)) : List Nat :=
  (List.range slots.size).filter fun j => slots[j]?.join.isSome

lemma mem_taken {j id : Nat} (h : slots[j]? = some (some id)) : j ∈ taken slots := by
  refine List.mem_filter.mpr ⟨List.mem_range.mpr (Array.getElem?_eq_some_iff.mp h).1, ?_⟩
  rw [h]
  rfl

lemma length_taken (slots : Array (Option Nat)) :
    (taken slots).length = slots.countP Option.isSome := by
  have hslots : slots.toList = (List.range slots.size).map fun j => slots[j]?.join := by
    refine List.ext_getElem (by simp) fun j hj _ => ?_
    simp only [List.getElem_map, List.getElem_range, Array.getElem_toList]
    rw [Array.getElem?_eq_getElem (by simpa using hj)]
    rfl
  rw [← Array.countP_toList, hslots, List.countP_map, taken, List.countP_eq_length_filter]
  rfl

/-- Slots that are met before an empty one are all taken, so there are as many taken ones at
least. -/
theorem Unbroken.le_countP (h : Unbroken slots i n) (hn : n ≤ slots.size) :
    n ≤ slots.countP Option.isSome := by
  have hsub : (List.range n).map (slotAfter slots i) ⊆ taken slots := by
    intro j hj
    obtain ⟨m, hm, rfl⟩ := List.mem_map.mp hj
    obtain ⟨id, hslot⟩ := h m (List.mem_range.mp hm)
    exact mem_taken hslot
  have hlength := ((nodup_slotAfter hn).subperm hsub).length_le
  rwa [List.length_map, List.length_range, length_taken] at hlength

end Count

section Ends

/-- The end of a search that passes `n` slots and stops at the next one. -/
lemma Passed.ends {k : Nat} (hpower : slots.size = 2 ^ k)
    (hheld : ∀ {j id : Nat}, slots[j]? = some (some id) → id < descriptors.size)
    (h : Passed slots judge (home slots hash) n) (hn : n < slots.size)
    (hlast : Search slots descriptors judge (slotAfter slots (home slots hash) n)
      [slotAfter slots (home slots hash) n] l)
    (hwalk : walkFromHome slots judge hash = l) (hright : l.Right slots descriptors ids hash name) :
    Ends slots descriptors ids judge hash name
      ((List.range n).map (slotAfter slots (home slots hash)) ++
        [slotAfter slots (home slots hash) n]) l := by
  have hsearch := h.search hpower hheld (home_lt (Nat.zero_lt_of_lt hn) hash) hlast
  refine ⟨?_, ?_, hsearch.inside, hwalk, hright⟩
  · rw [and_size_sub_one hpower]
    exact hsearch
  · rw [List.length_append, List.length_map, List.length_range, List.length_singleton]
    exact Nat.succ_le_succ (h.unbroken.le_countP (Nat.le_of_lt hn))

/-- With an empty slot somewhere, the search for a name comes to its end where it should, whatever
the name is. -/
theorem Seating.ends (hs : Seating descriptors slots ids)
    (hids : ∀ id, ids id → id < descriptors.size)
    (hvacant : ∃ i : Nat, slots[i]? = some none) {k : Nat} (hpower : slots.size = 2 ^ k)
    (hhash : ∀ (id : Nat) (d : Descriptor), ids id → descriptors[id]? = some d → d.text = name →
      d.hash = hash) :
    ∃ js l, Ends slots descriptors ids (judgeText descriptors name) hash name js l := by
  obtain ⟨i, hi⟩ := hvacant
  obtain ⟨hlt, _⟩ := Array.getElem?_eq_some_iff.mp hi
  have hpos : 0 < slots.size := Nat.zero_lt_of_lt hlt
  have hheld : ∀ {j id : Nat}, slots[j]? = some (some id) → id < descriptors.size :=
    fun hj => hids _ (hs.held hj)
  have hreach := walkFromHome_reached hpos (judgeText descriptors name) hash
  cases hl : walkFromHome slots (judgeText descriptors name) hash with
  | held p id =>
    rw [hl] at hreach
    obtain ⟨n, hn, hpassed, rfl, hslot, hjudge⟩ := hreach
    obtain ⟨d, hd⟩ : ∃ d, descriptors[id]? = some d := ⟨_, Array.getElem?_eq_getElem (hheld hslot)⟩
    exact ⟨_, _, hpassed.ends hpower hheld hn (.held hslot (hheld hslot) hjudge) hl
      ⟨hslot, hs.held hslot, d, hd, text_of_judgeText_here hd hjudge⟩⟩
  | vacant p =>
    rw [hl] at hreach
    obtain ⟨n, hn, hpassed, rfl, hslot⟩ := hreach
    refine ⟨_, _, hpassed.ends hpower hheld hn (.vacant hslot) hl
      ⟨hslot, ⟨n, rfl, hpassed.unbroken⟩, ?_⟩⟩
    intro id d hid hd htext
    rw [← htext, ← hhash id d hid hd htext] at hpassed
    rw [← hhash id d hid hd htext] at hslot
    exact hs.not_passed hid hd hpassed (.inr hslot)
  | foreign id => exact absurd hl (walkFromHome_ne_foreign hpos _ _ _)
  | nowhere =>
    rw [hl] at hreach
    exact absurd hi (Passed.not_vacant (home_lt hpos hash) hreach i)

end Ends

section Answers

/-- The number that a search has found. -/
def Landing.id? : Landing → Option Nat
  | .held _ id => some id
  | .vacant _ | .foreign _ | .nowhere => none

/-- What interning may answer where its search stops, if there are `count` descriptors: the number
that is held there, or at an empty slot the number that a new descriptor gets. -/
def Landing.Answered (count : Nat) (r : Except TableError Nat) : Landing → Prop
  | .held _ id => r = .ok id
  | .vacant _ => ∀ id, r = .ok id → id = count
  | .foreign _ | .nowhere => False

/-- Looking a name up counts its steps, yet it answers what any search for the name lands on. -/
lemma Ends.lookup_eq {t : Table}
    (h : Ends t.slots t.descriptors ids (judgeText t.descriptors name) (Hash.ofName name) name js l)
    (h' : Search t.slots t.descriptors (judgeText t.descriptors name)
      ((Hash.ofName name).toNat &&& (t.slots.size - 1)) js' l') :
    t.lookup name = l'.id? := by
  obtain ⟨-, rfl⟩ := h.search.unique h'
  rw [lookup, h.walk_eq]
  cases l <;> rfl

/-- A name that the search meets is known by the number it is met under, and no other name is
known. -/
lemma Interning.answered {strings : Interner} {t : Table} {h : Handle}
    {r : Logged (Except TableError Nat × Table)} (hr : Interning t h r)
    (ht : Registered strings t.descriptors)
    (hright : l.Right slots t.descriptors (· < t.size) hash h.text) :
    l.Answered t.size r.value.1 := by
  cases l with
  | held p id =>
    obtain ⟨_, _, d, hd, htext⟩ := hright
    cases hr with
    | known hd' htext' => exact congrArg Except.ok (ht.distinct hd' hd (htext'.trans htext.symm))
    | frozen hnew | malformed hnew | full hnew | created hnew => exact absurd htext (hnew hd)
  | vacant p =>
    obtain ⟨_, _, hnone⟩ := hright
    intro id hid
    cases hr with
    | known hd htext => exact absurd htext (hnone _ _ (Array.getElem?_eq_some_iff.mp hd).1 hd)
    | frozen | malformed | full => cases hid
    | created => exact (Except.ok.inj hid).symm
  | foreign id | nowhere => exact hright.elim

end Answers

section Growth

/-- While the numbers move into more slots, the search for each of them ends at an empty slot. -/
def GrowthEnds (t : Table) : Prop :=
  ∀ (before : List Nat) (id : Nat) (later : List Nat),
    t.slots.toList.filterMap (fun a => a) = before ++ id :: later →
    ∃ slots d, before.foldlM (place t.descriptors)
      (Array.replicate (t.capacity * growFactor) none) = .ok slots ∧
      t.get? id = some d ∧ ∃ js p,
        Ends slots t.descriptors (· ∈ before) (judgeHandle t.descriptors d.name) d.hash d.text js
          (.vacant p)

theorem Registered.growthEnds {strings : Interner} {t : Table}
    (hr : Registered strings t.descriptors)
    (hs : Seating t.descriptors t.slots (· < t.size)) {k : Nat} (hpower : t.capacity = 2 ^ k)
    (hroom : t.size < t.capacity * growFactor) : t.GrowthEnds := by
  intro before id later hsplit
  have hmem : ∀ {j : Nat}, j ∈ before ++ id :: later → j < t.size := by
    intro j hj
    rw [← hsplit] at hj
    exact (hs.mem_filterMap (fun _ h => h) j).mp hj
  have hnodup : (before ++ id :: later).Nodup := by
    rw [← hsplit]
    exact hs.nodup_filterMap
  have hbefore : ∀ j ∈ before, j < t.size := fun j hj => hmem (List.mem_append_left _ hj)
  have hid : id ∉ before :=
    fun hid => (List.nodup_append.mp hnodup).2.2 id hid id List.mem_cons_self rfl
  obtain ⟨slots, hfold, hsize, hseating⟩ := hr.foldlM_place before (List.nodup_append.mp hnodup).1
    (seating_replicate t.descriptors (t.capacity * growFactor)) (fun _ h => h.elim)
      (by rwa [Array.size_replicate])
    (fun j hj => ⟨hbefore j hj, fun h => h⟩)
  rw [Array.size_replicate] at hsize
  obtain ⟨d, hd⟩ : ∃ d, t.get? id = some d :=
    ⟨_, Array.getElem?_eq_getElem (hmem (List.mem_append_right before List.mem_cons_self))⟩
  have hseating : Seating t.descriptors slots (· ∈ before) := hseating.congr (by simp)
  have hvacant := hseating.exists_vacant hbefore (by rwa [hsize])
  have hdouble : slots.size = 2 ^ (k + 1) := by rw [hsize, hpower, growFactor, Nat.pow_succ]
  have hhash : ∀ (j : Nat) (e : Descriptor), j ∈ before → t.descriptors[j]? = some e →
      e.text = d.text → e.hash = d.hash := by
    intro j e _ he htext
    rw [hr.hash_eq he, hr.hash_eq hd, htext]
  obtain ⟨js, l, hends⟩ := hseating.ends hbefore hvacant hdouble hhash
  refine ⟨slots, d, hfold, hd, js, ?_⟩
  rw [hr.judgeHandle_eq (hr.owned hd)]
  cases l with
  | vacant p => exact ⟨p, hends⟩
  | held p j =>
    -- the name would have moved already
    obtain ⟨_, hj, e, he, htext⟩ := hends.right
    rw [hr.distinct he hd htext] at hj
    exact absurd hj hid
  | foreign j | nowhere => exact hends.right.elim

end Growth

end LinkConnectors.Table
