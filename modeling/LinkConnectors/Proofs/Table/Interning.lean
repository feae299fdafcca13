import LinkConnectors.Proofs.Table.Capacity

/-! What interning does to a table. `Interning` lists the outcomes with what is known in each of
them, and a table whose slots are in order meets no other. -/
namespace LinkConnectors.Table

variable {strings : Interner} {t : Table} {h : Handle} {d : Descriptor} {e : Encoding}

/-- No descriptor has this name. -/
def Lacks (t : Table) (name : String) : Prop :=
  ∀ {id : Nat} {d : Descriptor}, t.get? id = some d → d.text ≠ name

/-- The table with its slots allocated. -/
def ready (t : Table) : Logged Table := if t.slots.isEmpty then t.allocate else pure t

/-- One more descriptor over the given slots. -/
def extend (t : Table) (d : Descriptor) (slots : Array (Option Nat)) : Table :=
  { t with descriptors := t.descriptors.push d, slots := slots }

/-- The descriptor that is made for a new name. -/
def fresh (h : Handle) (e : Encoding) : Descriptor :=
  { name := h, hash := Hash.ofName h.text, encoding := e }

/-- What is logged when slots have to make room for a descriptor. -/
def growth (t : Table) : List Event :=
  if t.isCrowded then [.growing t.capacity (t.capacity * growFactor)] else []

/-- What interning a handle can give and leave behind. -/
inductive Interning (t : Table) (h : Handle) : Logged (Except TableError Nat × Table) → Prop
  | known {id : Nat} {d : Descriptor} (hd : t.get? id = some d) (htext : d.text = h.text) :
      Interning t h ⟨(.ok id, t), []⟩
  | frozen (hnew : t.Lacks h.text) (hgrouped : t.grouped = true) :
      Interning t h ⟨(.error (.frozen h.text), t), []⟩
  | malformed {err : EncodeError} (hnew : t.Lacks h.text) (hgrouped : t.grouped = false)
      (herr : Encoding.ofName h.text = .error err) :
      Interning t h ⟨(.error (.encode err), t.ready.value), t.ready.events⟩
  | full {e : Encoding} (hnew : t.Lacks h.text) (hgrouped : t.grouped = false)
      (he : Encoding.ofName h.text = .ok e) (hfull : maxDescriptors ≤ t.size) :
      Interning t h ⟨(.error (.full t.size), t.ready.value), t.ready.events⟩
  | created {e : Encoding} {filled slots : Array (Option Nat)} (hnew : t.Lacks h.text)
      (hgrouped : t.grouped = false) (he : Encoding.ofName h.text = .ok e)
      (hroom : t.size < maxDescriptors) (hfilled : filled.size = t.ready.value.capacity)
      (hlaid : (t.extend (fresh h e) slots).LaidOut) :
      Interning t h ⟨(.ok t.size, t.extend (fresh h e) slots),
        t.ready.events ++ .creating h.text :: (t.extend (fresh h e) filled).growth⟩

/-- Interning refuses a name for three reasons only. -/
lemma Interning.error {r : Logged (Except TableError Nat × Table)} (hr : Interning t h r)
    {err : TableError} (herr : r.value.1 = .error err) :
    err = .frozen h.text ∨ (∃ e, Encoding.ofName h.text = .error e ∧ err = .encode e) ∨
      (maxDescriptors ≤ t.size ∧ err = .full t.size) := by
  cases hr with
  | known | created => cases herr
  | frozen => exact .inl (Except.error.inj herr).symm
  | malformed hnew hg he => exact .inr (.inl ⟨_, he, (Except.error.inj herr).symm⟩)
  | full hnew hg he hfull => exact .inr (.inr ⟨hfull, (Except.error.inj herr).symm⟩)

section Ready

lemma allocate_value (t : Table) :
    t.allocate.value = { t with slots := Array.replicate (slotsFor t.expected) none } := by
  unfold allocate
  dsimp only
  split <;> rfl

lemma ready_of_isEmpty (ht : t.slots.isEmpty = true) : t.ready = t.allocate := if_pos ht

lemma LaidOut.slots_isEmpty (ht : t.LaidOut) : t.slots.isEmpty = false := by
  have := ht.sixteen_le_capacity
  rw [Array.isEmpty_eq_false_iff]
  intro hempty
  simp [Table.capacity, hempty] at this

lemma LaidOut.ready_eq (ht : t.LaidOut) : t.ready = pure t := by
  rw [ready, ht.slots_isEmpty]
  rfl

/-- Making ready allocates slots and does nothing else. -/
lemma ready_value (t : Table) : ∃ slots, t.ready.value = { t with slots := slots } := by
  unfold ready
  split
  · exact ⟨_, t.allocate_value⟩
  · exact ⟨t.slots, rfl⟩

lemma descriptors_ready (t : Table) : t.ready.value.descriptors = t.descriptors := by
  obtain ⟨slots, hready⟩ := t.ready_value
  rw [hready]

/-- A hint is written down or ignored. -/
lemma expect_value (t : Table) (count : Nat) :
    ∃ expected, (t.expect count).value = { t with expected := expected } := by
  unfold expect
  split
  · exact ⟨count, rfl⟩
  · exact ⟨t.expected, rfl⟩

lemma laidOut_ready (ht : (t.slots = #[] ∧ t.descriptors = #[]) ∨ t.LaidOut) :
    t.ready.value.LaidOut := by
  obtain ⟨hslots, hdescriptors⟩ | ht := ht
  · rw [ready_of_isEmpty (by rw [hslots]; rfl), allocate_value]
    constructor
    · refine (seating_replicate _ _).congr fun id => ?_
      simp [size, hdescriptors]
    · refine ⟨0, ?_, ?_⟩
      · simp [capacity]
      · simpa [size, hdescriptors] using doublings_zero (slotsFor t.expected)
  · rwa [ht.ready_eq]

lemma laidOut_of_get? (ht : (t.slots = #[] ∧ t.descriptors = #[]) ∨ t.LaidOut) {id : Nat}
    (hd : t.get? id = some d) : t.LaidOut := by
  obtain ⟨_, hdescriptors⟩ | ht := ht
  · simp [get?, hdescriptors] at hd
  · exact ht

lemma intern_eq (hg : t.slots.isEmpty = true → t.grouped = false) :
    t.intern h = t.ready >>= fun u => u.internIntoSlots h := by
  unfold intern ready
  split
  · rename_i hempty
    rw [if_neg (by simp [hg hempty])]
  · rfl

end Ready

/-- Interning never opens or closes a table. -/
lemma Interning.grouped_eq {r : Logged (Except TableError Nat × Table)} (hr : Interning t h r) :
    r.value.2.grouped = t.grouped := by
  cases hr with
  | known | frozen | created => rfl
  | malformed | full =>
    obtain ⟨slots, hslots⟩ := t.ready_value
    dsimp only
    rw [hslots]

section Extend

variable {slots : Array (Option Nat)} {n : Nat}

@[simp] lemma size_extend (t : Table) (d : Descriptor) (slots : Array (Option Nat)) :
    (t.extend d slots).size = t.size + 1 := Array.size_push _

@[simp] lemma capacity_extend (t : Table) (d : Descriptor) (slots : Array (Option Nat)) :
    (t.extend d slots).capacity = slots.size := rfl

@[simp] lemma expected_extend (t : Table) (d : Descriptor) (slots : Array (Option Nat)) :
    (t.extend d slots).expected = t.expected := rfl

theorem Registered.push {descriptors : Array Descriptor} (hr : Registered strings descriptors)
    (hh : strings.Owns h) (he : Encoding.ofName h.text = .ok e)
    (hnew : ∀ {id : Nat} {d : Descriptor}, descriptors[id]? = some d → d.text ≠ h.text) :
    Registered strings (descriptors.push (fresh h e)) := by
  have hcases : ∀ {id : Nat} {d : Descriptor}, (descriptors.push (fresh h e))[id]? = some d →
      (id = descriptors.size ∧ d = fresh h e) ∨ descriptors[id]? = some d := by
    intro id d hd
    rw [Array.getElem?_push] at hd
    split at hd
    · exact .inl ⟨‹_›, (Option.some.inj hd).symm⟩
    · exact .inr hd
  refine ⟨hr.canonical, fun hd => ?_, fun hd => ?_, fun hd => ?_, fun ha hb htext => ?_⟩
  · obtain ⟨_, rfl⟩ | hd := hcases hd
    · exact hh
    · exact hr.owned hd
  · obtain ⟨_, rfl⟩ | hd := hcases hd
    · rfl
    · exact hr.hash_eq hd
  · obtain ⟨_, rfl⟩ | hd := hcases hd
    · exact he
    · exact hr.encoded hd
  · obtain ⟨hi, rfl⟩ | ha := hcases ha
    · obtain ⟨hj, rfl⟩ | hb := hcases hb
      · exact hi.trans hj.symm
      · exact absurd htext.symm (hnew hb)
    · obtain ⟨hj, rfl⟩ | hb := hcases hb
      · exact absurd htext (hnew ha)
      · exact hr.distinct ha hb htext

lemma Seating.push {descriptors : Array Descriptor} {ids : Nat → Prop}
    (hs : Seating descriptors slots ids) (hids : ∀ id, ids id → id < descriptors.size)
    (d : Descriptor) :
    Seating (descriptors.push d) slots ids where
  held := hs.held
  once := hs.once
  seated {id e} hid he := by
    have hlt := hids id hid
    rw [Array.getElem?_push, if_neg (by omega)] at he
    exact hs.seated hid he

/-- A descriptor appended at the slot where its name belongs is seated like the others. -/
lemma LaidOut.seating_extend (ht : t.LaidOut) (hn : n < t.slots.size)
    (hvacant : t.slots[slotAfter t.slots (home t.slots d.hash) n]? = some none)
    (hway : Unbroken t.slots (home t.slots d.hash) n) :
    Seating (t.descriptors.push d)
      (t.slots.setIfInBounds (slotAfter t.slots (home t.slots d.hash) n) (some t.size))
      (· < t.size + 1) := by
  have hs := ht.seating.push (fun _ hid => hid) d
  have hd : (t.descriptors.push d)[t.size]? = some d := Array.getElem?_push_size
  refine (hs.fill hn hvacant hway hd (Nat.lt_irrefl _)).congr fun id => ?_
  omega

/-- Where there is room without growing, the slots stay in order. -/
theorem LaidOut.extend_of_roomy (ht : t.LaidOut) (hsize : slots.size = t.slots.size)
    (hs : Seating (t.descriptors.push d) slots (· < t.size + 1))
    (hroomy : 8 * (t.size + 1) ≤ 3 * t.capacity) : (t.extend d slots).LaidOut := by
  obtain ⟨k, hk, hleast⟩ := ht.capacity
  refine ⟨by rwa [size_extend], k, ?_, ?_⟩
  · exact hsize.trans hk
  · rw [size_extend, expected_extend]
    exact hleast.succ_of_roomy (by rwa [← hk])

/-- Otherwise doubling them brings them in order again. -/
theorem LaidOut.extend_of_crowded (ht : t.LaidOut) (hsize : slots.size = t.capacity * growFactor)
    (hs : Seating (t.descriptors.push d) slots (· < t.size + 1))
    (hcrowded : 3 * t.capacity < 8 * (t.size + 1)) : (t.extend d slots).LaidOut := by
  obtain ⟨k, hk, hleast⟩ := ht.capacity
  refine ⟨by rwa [size_extend], k + 1, ?_, ?_⟩
  · rw [capacity_extend, expected_extend, hsize, hk, growFactor, Nat.pow_succ, Nat.mul_assoc]
  · rw [size_extend, expected_extend]
    exact hleast.succ_of_crowded (sixteen_le_slotsFor _) (by rwa [← hk])

/-- Slots that hold one more descriptor can be made to grow. -/
lemma LaidOut.grow_extend (ht : t.LaidOut) (hr : Registered strings (t.descriptors.push d))
    (hsize : slots.size = t.capacity) (hs : Seating (t.descriptors.push d) slots (· < t.size + 1)) :
    ∃ grown, grown.size = t.capacity * growFactor ∧
      (t.extend d slots).grow =
        ⟨.ok (t.extend d grown), [.growing t.capacity (t.capacity * growFactor)]⟩ ∧
      Seating (t.descriptors.push d) grown (· < t.size + 1) := by
  have hroom : (t.extend d slots).size < t.capacity * growFactor := by
    have := ht.size_lt_capacity
    have := ht.sixteen_le_capacity
    rw [size_extend, growFactor]
    omega
  obtain ⟨grown, hrehash, hgrown, hseating⟩ :=
    rehash_ok (t := t.extend d slots) hr (by rwa [size_extend]) hroom
  rw [size_extend] at hseating
  refine ⟨grown, hgrown, ?_, hseating⟩
  have hcapacity : (t.extend d slots).capacity = t.capacity := hsize
  unfold grow
  simp only [hcapacity, hrehash]
  rfl

end Extend

/-- Creating a descriptor always succeeds, and leaves the slots in order. -/
theorem LaidOut.create_eq (ht : t.LaidOut) {hash : UInt32}
    (hd : d = { name := h, hash := hash, encoding := e })
    (hr : Registered strings (t.descriptors.push d)) {n : Nat} (hn : n < t.slots.size)
    (hvacant : t.slots[slotAfter t.slots (home t.slots d.hash) n]? = some none)
    (hway : Unbroken t.slots (home t.slots d.hash) n) :
    ∃ filled slots, filled.size = t.capacity ∧
      t.create (slotAfter t.slots (home t.slots d.hash) n) h hash e =
        ⟨(.ok t.size, t.extend d slots), .creating h.text :: (t.extend d filled).growth⟩ ∧
      (t.extend d slots).LaidOut := by
  have hs := ht.seating_extend hn hvacant hway
  have happend : t.append (slotAfter t.slots (home t.slots d.hash) n) h hash e = t.extend d
      (t.slots.setIfInBounds (slotAfter t.slots (home t.slots d.hash) n) (some t.size)) := by
    rw [hd]
    rfl
  generalize hfilled :
    t.slots.setIfInBounds (slotAfter t.slots (home t.slots d.hash) n) (some t.size) = filled at *
  have hsize : filled.size = t.capacity := by
    rw [← hfilled]
    exact Array.size_setIfInBounds
  have hcrowded_iff : (t.extend d filled).isCrowded = true ↔ 3 * t.capacity < 8 * (t.size + 1) := by
    rw [isCrowded, decide_eq_true_iff, size_extend, capacity_extend, hsize]
  unfold create
  simp only [happend]
  by_cases hcrowded : (t.extend d filled).isCrowded
  · obtain ⟨slots, hslots, hgrow, hgrown⟩ := ht.grow_extend hr hsize hs
    refine ⟨filled, slots, hsize, ?_, ht.extend_of_crowded hslots hgrown (hcrowded_iff.mp hcrowded)⟩
    rw [if_pos hcrowded, hgrow, growth, if_pos hcrowded, capacity_extend, hsize]
    rfl
  · have hroomy : 8 * (t.size + 1) ≤ 3 * t.capacity := by
      have := mt hcrowded_iff.mpr hcrowded
      omega
    refine ⟨filled, filled, hsize, ?_, ht.extend_of_roomy hsize hs hroomy⟩
    rw [if_neg hcrowded, growth, if_neg hcrowded]
    rfl

section Intern

/-- A name that the table has is found. -/
lemma LaidOut.walkFromHome_of_get? (ht : t.LaidOut) (hr : Registered strings t.descriptors)
    {id : Nat} (hd : t.get? id = some d) : ∃ p,
      walkFromHome t.slots (judgeText t.descriptors d.text) (Hash.ofName d.text) = .held p id := by
  have hpos : 0 < t.slots.size := Nat.lt_of_lt_of_le (by omega) ht.sixteen_le_capacity
  rw [← hr.hash_eq hd]
  exact ht.seating.walkFromHome_held hpos hr.distinct (fun _ hid => hid)
    (Array.getElem?_eq_some_iff.mp hd).1 hd

lemma LaidOut.internIntoSlots_known (ht : t.LaidOut) (hr : Registered strings t.descriptors)
    (hh : strings.Owns h) {id : Nat} (hd : t.get? id = some d) (htext : d.text = h.text) :
    t.internIntoSlots h = ⟨(.ok id, t), []⟩ := by
  obtain ⟨p, hwalk⟩ := ht.walkFromHome_of_get? hr hd
  rw [htext] at hwalk
  unfold internIntoSlots
  simp only [hr.probe_eq t.slots hh, hwalk]
  rfl

/-- A new name is looked for in vain, and the walk shows the slot where it belongs. -/
lemma LaidOut.exists_slot (ht : t.LaidOut) (hr : Registered strings t.descriptors)
    (hh : strings.Owns h) (hnew : t.Lacks h.text) :
    ∃ n < t.slots.size, probe t.slots t.descriptors h (Hash.ofName h.text) =
        .vacant (slotAfter t.slots (home t.slots (Hash.ofName h.text)) n) ∧
      t.slots[slotAfter t.slots (home t.slots (Hash.ofName h.text)) n]? = some none ∧
      Unbroken t.slots (home t.slots (Hash.ofName h.text)) n := by
  rw [hr.probe_eq t.slots hh]
  exact ht.seating.walkFromHome_vacant ht.exists_vacant _ (fun _ hid => hid)
    (fun _ _ _ hd => hnew hd)

/-- With slots in place, a new name is refused in a grouped table, whatever it looks like. Otherwise
it is read, and a descriptor is created if it is a connector name and there is a number left. -/
lemma LaidOut.internIntoSlots_new (ht : t.LaidOut) (hr : Registered strings t.descriptors)
    (hh : strings.Owns h) (hnew : t.Lacks h.text) :
    (t.grouped = true → t.internIntoSlots h = ⟨(.error (.frozen h.text), t), []⟩) ∧
    (t.grouped = false → ∀ err, Encoding.ofName h.text = .error err →
      t.internIntoSlots h = ⟨(.error (.encode err), t), []⟩) ∧
    (t.grouped = false → ∀ e, Encoding.ofName h.text = .ok e →
      (maxDescriptors ≤ t.size → t.internIntoSlots h = ⟨(.error (.full t.size), t), []⟩) ∧
      (t.size < maxDescriptors → ∃ filled slots, filled.size = t.capacity ∧
        t.internIntoSlots h = ⟨(.ok t.size, t.extend (fresh h e) slots),
          .creating h.text :: (t.extend (fresh h e) filled).growth⟩ ∧
        (t.extend (fresh h e) slots).LaidOut)) := by
  obtain ⟨n, hn, hprobe, hvacant, hway⟩ := ht.exists_slot hr hh hnew
  unfold internIntoSlots
  dsimp only
  rw [hprobe]
  dsimp only
  refine ⟨fun hg => ?_, fun hg err herr => ?_, fun hg e he => ⟨fun hfull => ?_, fun hroom => ?_⟩⟩
  · rw [if_pos hg]
    rfl
  · rw [if_neg (by simp [hg]), herr]
    rfl
  · rw [if_neg (by simp [hg]), he]
    dsimp only
    rw [if_neg (by omega)]
    rfl
  · rw [if_neg (by simp [hg]), he]
    dsimp only
    rw [if_pos hroom]
    exact ht.create_eq (d := fresh h e) rfl (hr.push hh he hnew) hn hvacant hway

/-- A name that the table does not have, once there are slots or names may come in. -/
lemma interning_new (ht : (t.slots = #[] ∧ t.descriptors = #[]) ∨ t.LaidOut)
    (hr : Registered strings t.descriptors) (hh : strings.Owns h) (hnew : t.Lacks h.text)
    (hopen : t.slots.isEmpty = true → t.grouped = false) :
    t.Interning h (t.ready >>= fun u => u.internIntoSlots h) := by
  change t.Interning h ⟨(t.ready.value.internIntoSlots h).value,
    t.ready.events ++ (t.ready.value.internIntoSlots h).events⟩
  cases hg : t.grouped with
  | true =>
    obtain ⟨hslots, _⟩ | ht := ht
    · have hfalse := hopen (by rw [hslots]; rfl)
      exact absurd (hfalse.symm.trans hg) Bool.false_ne_true
    · obtain ⟨hfrozen, _⟩ := ht.internIntoSlots_new hr hh hnew
      rw [ht.ready_eq, Logged.pure_value, hfrozen hg]
      exact .frozen hnew hg
  | false =>
    obtain ⟨slots, hready⟩ := t.ready_value
    have hlaid := laidOut_ready ht
    rw [hready] at hlaid
    obtain ⟨_, hmalformed, hread⟩ := hlaid.internIntoSlots_new hr hh hnew
    cases he : Encoding.ofName h.text with
    | error err =>
      rw [hready, hmalformed hg err he, List.append_nil, ← hready]
      exact .malformed hnew hg he
    | ok e =>
      obtain ⟨hfull, hcreate⟩ := hread hg e he
      obtain hroom | hroom := Nat.lt_or_ge t.size maxDescriptors
      · obtain ⟨filled, grown, hfilled, hinto, hgrown⟩ := hcreate hroom
        rw [hready, hinto]
        refine .created hnew hg he hroom ?_ hgrown
        rw [hready]
        exact hfilled
      · have hrefused := Interning.full hnew hg he hroom
        rw [hready] at hrefused ⊢
        rw [hfull hroom, List.append_nil]
        exact hrefused

/-- Interning has no outcome but those of `Interning`. -/
theorem interning_intern (ht : (t.slots = #[] ∧ t.descriptors = #[]) ∨ t.LaidOut)
    (hr : Registered strings t.descriptors) (hh : strings.Owns h) : t.Interning h (t.intern h) := by
  by_cases hknown : ∃ id d, t.get? id = some d ∧ d.text = h.text
  · obtain ⟨id, d, hd, htext⟩ := hknown
    have hlaid := laidOut_of_get? ht hd
    rw [intern, if_neg (by rw [hlaid.slots_isEmpty]; exact Bool.false_ne_true),
      hlaid.internIntoSlots_known hr hh hd htext]
    exact .known hd htext
  · have hnew : t.Lacks h.text := fun {id d} hd htext => hknown ⟨id, d, hd, htext⟩
    by_cases hclosed : t.slots.isEmpty = true ∧ t.grouped = true
    · rw [intern, if_pos hclosed.1, if_pos hclosed.2]
      exact .frozen hnew hclosed.2
    · have hopen : t.slots.isEmpty = true → t.grouped = false := by simpa using hclosed
      rw [intern_eq hopen]
      exact interning_new ht hr hh hnew hopen

end Intern

end LinkConnectors.Table
