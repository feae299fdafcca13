import LinkConnectors.Proofs.Session.Run

/-! The slots of the table of a session. They are allocated for the hint in force when the first
name comes in, and their number depends on that hint and on the number of names alone. -/
namespace LinkConnectors

namespace Table

/-- The layout of slots that were allocated for a hint. -/
structure Layout (hint : Nat) (t : Table) : Prop where
  /-- Of the powers of two the least that will do, doubled as few times as will do. -/
  doubled : ∃ first k, t.capacity = first * 2 ^ k ∧
    IsLeast {p | (∃ j, p = 2 ^ j) ∧ max hint 16 ≤ p} first ∧
    IsLeast {k | 8 * t.size ≤ 3 * (first * 2 ^ k)} k
  filled : ∀ {i id : Nat}, t.slots[i]? = some (some id) → id < t.size
  once : ∀ id < t.size, ∃! i : Nat, t.slots[i]? = some (some id)
  /-- No slot is empty on the way from the slot that the hash selects. -/
  unbroken : ∀ {id : Nat} {d : Descriptor}, t.get? id = some d → ∃ n < t.capacity,
    t.slots[((d.hash.toNat &&& (t.capacity - 1)) + n) % t.capacity]? = some (some id) ∧
    ∀ m < n, ∃ other,
      t.slots[((d.hash.toNat &&& (t.capacity - 1)) + m) % t.capacity]? = some (some other)
  hash_eq : ∀ {id : Nat} {d : Descriptor}, t.get? id = some d → d.hash = Hash.ofName d.text
  distinct : ∀ {i j : Nat} {a b : Descriptor}, t.get? i = some a → t.get? j = some b →
    a.text = b.text → i = j

variable {strings : Interner} {t : Table} {h : Handle}

/-- The number of slots is a power of two, so the slot of a hash can be found by masking it. -/
lemma LaidOut.home_eq_and (ht : t.LaidOut) (hash : UInt32) :
    home t.slots hash = hash.toNat &&& (t.capacity - 1) := by
  obtain ⟨k, hk⟩ := ht.capacity_eq_two_pow
  rw [hk, Nat.and_two_pow_sub_one_eq_mod, ← hk]
  rfl

theorem LaidOut.layout (ht : t.LaidOut) (hr : Registered strings t.descriptors) :
    Layout t.expected t where
  doubled := by
    obtain ⟨k, hk, hleast⟩ := ht.capacity
    exact ⟨_, k, hk, slotsFor_isLeast _, hleast⟩
  filled := ht.seating.held
  once id hid := by
    obtain ⟨n, _, hslot, _⟩ := ht.seating.seated hid (Array.getElem?_eq_getElem hid)
    exact ⟨_, hslot, fun j hj => ht.seating.once hj hslot⟩
  unbroken {id d} hd := by
    obtain ⟨n, hn, hslot, hway⟩ := ht.seating.seated (Array.getElem?_eq_some_iff.mp hd).1 hd
    rw [← ht.home_eq_and]
    exact ⟨n, hn, hslot, hway⟩
  hash_eq := hr.hash_eq
  distinct := hr.distinct

/-- Slots can be made to grow at any time. -/
theorem Sound.grow_ok (ht : Sound strings t) : ∃ grown, t.grow.value = .ok grown := by
  obtain ⟨hslots, _⟩ | hlaid := ht.slots
  · refine ⟨{ t with slots := Array.replicate (t.capacity * growFactor) none }, ?_⟩
    change t.rehash (t.capacity * growFactor) = _
    unfold rehash
    rw [hslots]
    rfl
  · have hroom : t.size < t.capacity * growFactor := by
      have := hlaid.size_lt_capacity
      rw [growFactor]
      omega
    obtain ⟨slots, hrehash, _⟩ := rehash_ok ht.registered hlaid.seating hroom
    exact ⟨_, hrehash⟩

lemma ready_events {e : Event} (he : e ∈ t.ready.events) :
    ∃ hint slots, e = .hintRounded hint slots := by
  unfold ready allocate at he
  dsimp only at he
  split at he
  · split at he
    · exact ⟨_, _, List.mem_singleton.mp he⟩
    · cases he
  · cases he

variable {r : Logged (Except TableError Nat × Table)}

/-- When interning makes the slots grow, it gives a number. -/
lemma Interning.ok_of_growing (hr : Interning t h r) {fewer more : Nat}
    (he : .growing fewer more ∈ r.events) : ∃ id, r.value.1 = .ok id := by
  cases hr with
  | known | frozen => cases he
  | malformed | full =>
    obtain ⟨_, _, heq⟩ := ready_events he
    cases heq
  | created => exact ⟨_, rfl⟩

lemma ready_expected (t : Table) : t.ready.value.expected = t.expected := by
  obtain ⟨slots, hslots⟩ := t.ready_value
  rw [hslots]

/-- The table was given slots for this hint, or will never have any. -/
def Settled (hint : Nat) (t : Table) : Prop :=
  (t.slots ≠ #[] ∧ t.expected = hint) ∨ (t.slots = #[] ∧ t.grouped = true)

lemma LaidOut.slots_ne (ht : t.LaidOut) : t.slots ≠ #[] :=
  Array.isEmpty_eq_false_iff.mp ht.slots_isEmpty

/-- The first name that comes in settles for which hint there are slots. -/
lemma Interning.settled (hr : Interning t h r) (ht : Sound strings t) :
    Settled t.expected r.value.2 := by
  have hready := (laidOut_ready ht.slots).slots_ne
  cases hr with
  | known hd htext => exact .inl ⟨(laidOut_of_get? ht.slots hd).slots_ne, rfl⟩
  | frozen hnew hg =>
    by_cases hslots : t.slots = #[]
    · exact .inr ⟨hslots, hg⟩
    · exact .inl ⟨hslots, rfl⟩
  | malformed | full => exact .inl ⟨hready, t.ready_expected⟩
  | created hnew hg he hroom hfilled hlaid => exact .inl ⟨hlaid.slots_ne, rfl⟩

variable {hint : Nat}

lemma Settled.interning (hs : Settled hint t) (ht : Sound strings t) (hr : Interning t h r) :
    Settled hint r.value.2 := by
  obtain ⟨_, hexpected⟩ | ⟨hslots, hg⟩ := hs
  · rw [← hexpected]
    exact hr.settled ht
  · cases hr with
    | known | frozen => exact .inr ⟨hslots, hg⟩
    | malformed hnew hg' | full hnew hg' | created hnew hg' =>
      exact absurd (hg'.symm.trans hg) Bool.false_ne_true

lemma Settled.expect (hs : Settled hint t) (count : Nat) : Settled hint (t.expect count).value := by
  obtain ⟨hslots, hexpected⟩ | ⟨hslots, hg⟩ := hs
  · rw [Table.expect, if_neg (by simpa using hslots)]
    exact .inl ⟨hslots, hexpected⟩
  · rw [Table.expect, if_pos (by rw [hslots]; rfl)]
    exact .inr ⟨hslots, hg⟩

lemma Settled.congr (hs : Settled hint t) {u : Table} (h : SameOrigin t u)
    (hg : t.grouped = true → u.grouped = true) : Settled hint u := by
  obtain ⟨hslots, hexpected⟩ | ⟨hslots, hgrouped⟩ := hs
  · exact .inl ⟨by rwa [h.slots], h.expected.trans hexpected⟩
  · exact .inr ⟨h.slots.trans hslots, hg hgrouped⟩

end Table

namespace TableSession

variable {s : TableSession} {hint : Nat}

/-- The hint in force when the first name is interned, if the hint before the steps is the given
one. -/
def firstHint (hint : Nat) : List Step → Nat
  | [] => hint
  | .expect count :: xs => firstHint count xs
  | .intern _ :: _ | .internAll (_ :: _) :: _ => hint
  | _ :: xs => firstHint hint xs

lemma Sound.settled_move {u : TableSession} (hs : s.Sound) (h : Move s u)
    (ht : s.table.Settled hint) :
    u.table.Settled hint := by
  cases h with
  | expect count => exact ht.expect count
  | intern name => exact ht.interning hs (hs.interning name)
  | group => exact ht.congr (Table.sameOrigin_group s.table) fun _ => rfl
  | stamp hg =>
    obtain ⟨hsame, hgrouped⟩ := hs.sameOrigin_stamp hg
    exact ht.congr hsame fun _ => hgrouped
  | register registry => exact ht

lemma Sound.expected_of_settled (hs : s.Sound) (ht : s.table.Settled hint) (xs : List Step) :
    (s.after xs).table.slots = #[] ∨ (s.after xs).table.expected = hint := by
  obtain ⟨_, hexpected⟩ | ⟨hslots, _⟩ := hs.kept Sound.settled_move ht (moves_after s xs)
  · exact .inr hexpected
  · exact .inl hslots

/-- If there are slots in the end, they were allocated for the hint in force at the first name. -/
theorem Sound.expected_after (hs : s.Sound) (hslots : s.table.slots = #[]) (xs : List Step) :
    (s.after xs).table.slots = #[] ∨
      (s.after xs).table.expected = firstHint s.table.expected xs := by
  induction xs generalizing s with
  | nil => exact .inr rfl
  | cons x xs ih =>
    cases x with
    | expect count =>
      have htable : (s.table.expect count).value = { s.table with expected := count } := by
        rw [Table.expect, if_pos (by rw [hslots]; rfl)]
        rfl
      have hnext := ih (hs.step (.expect count))
      change (s.table.expect count).value.slots = #[] →
        _ ∨ _ = firstHint (s.table.expect count).value.expected xs at hnext
      rw [htable] at hnext
      exact hnext hslots
    | intern name =>
      exact (hs.intern name).expected_of_settled ((hs.interning name).settled hs) xs
    | internAll names =>
      cases names with
      | nil => exact ih hs hslots
      | cons name names =>
        have hfirst := (hs.interning name).settled hs
        have hall := (hs.intern name).kept Sound.settled_move hfirst (moves_internAll _ names)
        exact (hs.step (.internAll (name :: names))).expected_of_settled hall xs
    | group => exact ih (hs.step .group) hslots
    | push head patterns =>
      obtain ⟨registry, hpush⟩ := s.step_push head patterns
      have hnext := ih (hs.step (.push head patterns))
      rw [hpush] at hnext
      rw [after_cons, hpush]
      exact hnext hslots
    | registry => exact ih hs hslots
    | apply =>
      have hsame := (hs.sameOrigin_applyRules {}).1
      have hnext := ih (hs.step .apply) (hsame.slots.trans hslots)
      change _ ∨ _ = firstHint (s.applyRules {}).value.2.table.expected xs at hnext
      rwa [hsame.expected] at hnext
    | applyCopy =>
      have hsame := (hs.sameOrigin_applyRules s.registry).1
      have hnext := ih (hs.step .applyCopy) (hsame.slots.trans hslots)
      change _ ∨ _ = firstHint (s.applyRules s.registry).value.2.table.expected xs at hnext
      rwa [hsame.expected] at hnext
    | query q => exact ih hs hslots

/-- At every point of every session there are no slots yet and no descriptors, or the slots are laid
out for the hint in force at the first name. So growing never meets an occupied slot: not when
interning asks for it, and not at any other time. -/
theorem layout_after_start (count : Nat) (xs : List Step) :
    let s := (start count).after xs
    ((s.table.slots = #[] ∧ s.table.descriptors = #[]) ∨ s.table.Layout (firstHint count xs)) ∧
      (∃ grown, s.table.grow.value = .ok grown) ∧
      ∀ name : String,
        (∀ fewer more, .growing fewer more ∈ (s.intern name).events →
          ∃ id, (s.intern name).value.1 = .ok id) ∧
        ∀ slot existing moving, (s.intern name).value.1 ≠
          .error (.slotTaken slot existing moving) := by
  intro s
  have hs : s.Sound := sound_after_start count xs
  refine ⟨?_, hs.grow_ok,
    fun name => ⟨fun fewer more he => ?_, fun slot existing moving herr => ?_⟩⟩
  · obtain hbare | hlaid := hs.slots
    · exact .inl hbare
    · right
      have hlayout := hlaid.layout hs.registered
      obtain hslots | hexpected := (sound_start count).expected_after rfl xs
      · exact absurd hslots hlaid.slots_ne
      · rwa [hexpected] at hlayout
  · rw [intern_events] at he
    exact (hs.interning name).ok_of_growing he
  · obtain h | ⟨_, _, h⟩ | ⟨_, h⟩ := (hs.interning name).error herr <;> cases h

/-- The seventh name makes sixteen slots grow. -/
theorem growing_for_seventh_name :
    let s := (start 0).after [.internAll ["A", "B", "C", "D", "E", "F"]]
    .growing 16 32 ∈ (s.intern "G").events ∧ ∃ id, (s.intern "G").value.1 = .ok id := by
  have hgrowing : Event.growing 16 32 ∈
      (((start 0).after [.internAll ["A", "B", "C", "D", "E", "F"]]).intern "G").events := by
    decide +kernel
  exact ⟨hgrowing, ((layout_after_start 0 _).2.2 "G").1 16 32 hgrowing⟩

end TableSession

end LinkConnectors
