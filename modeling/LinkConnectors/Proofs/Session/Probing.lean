import LinkConnectors.Proofs.Session.Layout
import LinkConnectors.Proofs.Session.NameList
import LinkConnectors.Proofs.Table.Probing

/-! Searches in any session. Growth keeps an empty slot at all times, and it is the empty slot that
stops a search for a name that is not there. -/
namespace LinkConnectors

namespace Table

variable {strings : Interner} {t : Table} {h : Handle} {e : Encoding} {slot : Nat}

/-- In a table that is laid out, the search for any text comes to its end. -/
lemma LaidOut.ends (ht : t.LaidOut) (hr : Registered strings t.descriptors)
    (name : String) : ∃ js l,
    Ends t.slots t.descriptors (· < t.size) (judgeText t.descriptors name)
      (Hash.ofName name) name js l := by
  obtain ⟨k, hk⟩ := ht.capacity_eq_two_pow
  refine ht.seating.ends (fun _ hid => hid) ht.exists_vacant hk fun id d _ hd htext => ?_
  rw [hr.hash_eq hd, htext]

/-- When a new name has been entered at the slot where its search stopped, the slots can be made to
grow. -/
lemma LaidOut.growthEnds_append (ht : t.LaidOut) (hr : Registered strings t.descriptors)
    (hh : strings.Owns h)
    (hprobe : probe t.slots t.descriptors h (Hash.ofName h.text) = .vacant slot)
    (he : Encoding.ofName h.text = .ok e) :
    (t.append slot h (Hash.ofName h.text) e).GrowthEnds := by
  have hnew : t.Lacks h.text := by
    intro id d hd htext
    obtain ⟨p, hheld⟩ := ht.walkFromHome_of_get? hr hd
    rw [htext, ← hr.probe_eq t.slots hh, hprobe] at hheld
    cases hheld
  obtain ⟨n, hn, hslot, hvacant, hway⟩ := ht.exists_slot hr hh hnew
  obtain rfl := Landing.vacant.inj (hprobe.symm.trans hslot)
  obtain ⟨k, hk⟩ := ht.capacity_eq_two_pow
  have hs := ht.seating_extend (d := fresh h e) hn hvacant hway
  have happend :
      t.append (slotAfter t.slots (home t.slots (Hash.ofName h.text)) n) h (Hash.ofName h.text) e =
      t.extend (fresh h e)
        (t.slots.setIfInBounds (slotAfter t.slots (home t.slots (Hash.ofName h.text)) n)
          (some t.size)) := rfl
  have hcapacity : (t.slots.setIfInBounds (slotAfter t.slots (home t.slots (Hash.ofName h.text)) n)
      (some t.size)).size = t.capacity := Array.size_setIfInBounds
  rw [happend]
  refine (hr.push hh he hnew).growthEnds ?_ (hcapacity.trans hk) ?_
  · rwa [size_extend]
  · have := ht.size_lt_capacity
    rw [size_extend, capacity_extend, hcapacity, growFactor]
    omega

end Table

namespace TableSession

/-- In every session and for every text, be it in the table, refused or never seen, the loops that
look for it among the slots come to an end, and nothing but the slots stops them. They inspect one
slot more than are taken at most, and the descriptors of taken slots alone. They stop at the slot
that holds the text, or at the first empty slot counted from the slot of its hash, if no descriptor
has it. This goes for looking up the text and for looking for its handle, as interning does. Looking
up answers the number in the slot where a search for the text stops, and none at an empty slot.
Interning answers that number too, and at an empty slot no number that a descriptor has already. The
searches of every number that moves when a new descriptor makes the slots grow end as well, in the
slots that were filled until then. -/
theorem probing_after_start (count : Nat) (xs : List Step) (name : String) :
    let s := (start count).after xs
    let h := (s.strings.add name).1
    let hash := Hash.ofName name
    let t := s.table.ready.value
    (s.table.slots ≠ #[] → t = s.table) ∧
      (∃ js l, Table.Ends t.slots t.descriptors (· < t.size)
        (Table.judgeText t.descriptors name) hash name js l) ∧
      (∃ js l, Table.Ends t.slots t.descriptors (· < t.size)
        (Table.judgeHandle t.descriptors h) hash name js l) ∧
      (∀ js l,
        Table.Search t.slots t.descriptors (Table.judgeText t.descriptors name)
          (hash.toNat &&& (t.capacity - 1)) js l →
        s.table.lookup name = l.id?) ∧
      (∀ js l,
        Table.Search t.slots t.descriptors (Table.judgeHandle t.descriptors h)
          (hash.toNat &&& (t.capacity - 1)) js l →
        l.Answered s.table.size (s.table.intern h).value.1) ∧
      ∀ slot e, Table.probe t.slots t.descriptors h hash = .vacant slot →
        Encoding.ofName name = .ok e → (t.append slot h hash e).GrowthEnds := by
  intro s h hash t
  have hs : Table.Sound (s.strings.add name).2 s.table := (sound_after_start count xs).add name
  have hh : (s.strings.add name).2.Owns h := s.strings.owns_add name
  have htext : h.text = name := Interner.add_text s.strings name
  have hlaid : t.LaidOut := Table.laidOut_ready hs.slots
  have hr : Table.Registered (s.strings.add name).2 t.descriptors := hs.ready.registered
  have hprobing :
      ∃ js l, Table.Ends t.slots t.descriptors (· < t.size)
        (Table.judgeHandle t.descriptors h) hash name js l := by
    rw [hr.judgeHandle_eq hh, htext]
    exact hlaid.ends hr name
  have hdescriptors : t.descriptors = s.table.descriptors := s.table.descriptors_ready
  have hknown : s.table.lookup name = t.lookup name := by
    rw [hs.lookup_eq, hs.ready.lookup_eq, Table.nameList_ready]
  refine ⟨fun hslots => ?_, hlaid.ends hr name, hprobing, fun js l hsearch => ?_,
    fun js l hsearch => ?_, ?_⟩
  · obtain ⟨hempty, _⟩ | hs := hs.slots
    · exact absurd hempty hslots
    · exact congrArg Logged.value hs.ready_eq
  · obtain ⟨_, _, hends⟩ := hlaid.ends hr name
    rw [hknown]
    exact hends.lookup_eq hsearch
  · obtain ⟨_, l', hends⟩ := hprobing
    obtain ⟨-, rfl⟩ := hends.search.unique hsearch
    have hinterning := Table.interning_intern hs.slots hs.registered hh
    have hright : l'.Right t.slots s.table.descriptors (· < s.table.size) hash h.text := by
      rw [htext, Table.size, ← hdescriptors]
      exact hends.right
    exact hinterning.answered hs.registered hright
  · intro slot e hprobe he
    rw [← htext] at he
    change Table.probe t.slots t.descriptors h (Hash.ofName name) = _ at hprobe
    change (t.append slot h (Hash.ofName name) e).GrowthEnds
    rw [← htext] at hprobe ⊢
    exact hlaid.growthEnds_append hr hh hprobe he

/-- The seventh name is looked for among six. It is not met, so its number is a new one. When it has
made sixteen slots grow and three numbers have moved, the search for the next one ends. -/
theorem searches_for_seventh_name :
    let s := (start 0).after [.internAll ["A", "B", "C", "D", "E", "F"]]
    let t := s.table.ready.value
    let h := (s.strings.add "G").1
    let bigger := t.append 13 h (Hash.ofName "G") ⟨.unmarked, "G", "", .clear⟩
    t = s.table ∧
      (∃ js, Table.Search t.slots t.descriptors (Table.judgeHandle t.descriptors h)
        ((Hash.ofName "G").toNat &&& (t.capacity - 1)) js (.vacant 13)) ∧
      (∀ id, (s.table.intern h).value.1 = .ok id → id = 6) ∧
      ∃ slots d,
        [0, 5, 1].foldlM (Table.place bigger.descriptors)
          (Array.replicate (bigger.capacity * Table.growFactor) none) = .ok slots ∧
        bigger.get? 4 = some d ∧
        ∃ js p, Table.Ends slots bigger.descriptors (· ∈ [0, 5, 1])
          (Table.judgeHandle bigger.descriptors d.name) d.hash d.text js (.vacant p) := by
  -- the sessions are written out so that interning is compared as a term and not evaluated
  obtain ⟨hready, _, ⟨js, l, hends⟩, _, hintern, hgrowth⟩ :=
    probing_after_start 0 [.internAll ["A", "B", "C", "D", "E", "F"]] "G"
  have hslots :
      ((start 0).after [.internAll ["A", "B", "C", "D", "E", "F"]]).table.slots ≠ #[] := by
    decide +kernel
  have hsize : ((start 0).after [.internAll ["A", "B", "C", "D", "E", "F"]]).table.size = 6 := by
    decide +kernel
  obtain rfl : l = .vacant 13 := hends.walk_eq.symm.trans (by decide +kernel)
  have hmoving := hgrowth 13 ⟨.unmarked, "G", "", .clear⟩ (by decide +kernel) (by decide +kernel)
  exact ⟨hready hslots, ⟨js, hends.search⟩,
    fun id hid => (hintern js _ hends.search id hid).trans hsize,
    hmoving [0, 5, 1] 4 [2, 3, 6] (by decide +kernel)⟩

end TableSession

end LinkConnectors
