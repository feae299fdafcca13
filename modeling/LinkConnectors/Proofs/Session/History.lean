import LinkConnectors.Proofs.Session.Hints
import LinkConnectors.Proofs.Session.Refusals

/-! The log of a session. It is written while descriptors and slots come in, and nothing fails once
it is written, so it tells what is in the table. -/
namespace LinkConnectors

namespace Table

/-- A log from which the names of a table and the growth of its slots can be read, if `first` slots
were allocated for it. -/
structure Faithful (first : Nat) (log : List Event) (t : Table) : Prop where
  names : createdNames log = t.descriptors.toList.map Descriptor.text
  doubled : ∀ p ∈ growths log, p.2 = 2 * p.1
  linked : (growths log).IsChain fun p q => p.2 = q.1
  begins : ∀ p ∈ (growths log).head?, p.1 = first
  capacity : t.slots ≠ #[] → t.capacity = slotsTold first log
  /-- A growth stands right behind the name that made more than three eighths of the slots taken. -/
  grows : ∀ {before : List Event} {fewer more : Nat}, before ++ [.growing fewer more] <+: log →
    ∃ earlier name, before = earlier ++ [.creating name] ∧
      8 * (createdNames earlier).length ≤ 3 * fewer ∧
      3 * fewer < 8 * ((createdNames earlier).length + 1)
  /-- Behind every such name there is a growth. -/
  grows_of_crowded : ∀ {before : List Event} {name : String}, before ++ [.creating name] <+: log →
    3 * slotsTold first before < 8 * ((createdNames before).length + 1) →
      before ++ [.creating name, .growing (slotsTold first before) (2 * slotsTold first before)] <+:
        log

/-- What a log is for a table at all times: there are no slots and nothing to tell, or it is a
history of the table. -/
def Recorded (log : List Event) (t : Table) : Prop :=
  (t.slots = #[] ∧ ∀ e ∈ log, e.tells = false) ∨
    (t.slots ≠ #[] ∧ History (slotsFor t.expected) log t.nameList.names t.capacity)

variable {strings : Interner} {t u : Table} {h : Handle} {d : Descriptor}
  {slots filled : Array (Option Nat)} {log es : List Event} {e : Event}
  {r : Logged (Except TableError Nat × Table)} {first : Nat}

section Quiet

lemma ready_quiet (he : e ∈ t.ready.events) : e.tells = false := by
  obtain ⟨hint, slots, rfl⟩ := ready_events he
  rfl

lemma expect_quiet {count : Nat} (he : e ∈ (t.expect count).events) : e.tells = false := by
  by_cases hslots : t.slots = #[]
  · rw [expect_of_bare hslots] at he
    cases he
  · rw [expect_of_slots hslots, List.mem_singleton] at he
    rw [he]
    rfl

lemma group_quiet (he : e ∈ t.group.events) : e.tells = false := by
  rw [group_eq, List.mem_singleton] at he
  rw [he]
  rfl

lemma stamp_quiet {registry : Reach.Registry} (he : e ∈ (registry.stamp t).events) :
    e.tells = false := by
  rw [List.mem_singleton.mp he]
  rfl

/-- Interning that does not give a new number tells of nothing. -/
lemma Interning.quiet (hr : Interning t h r) (hold : ∀ id, r.value.1 = .ok id → id < t.size)
    (he : e ∈ r.events) :
    e.tells = false := by
  cases hr with
  | known | frozen => cases he
  | malformed | full => exact ready_quiet he
  | created => exact absurd (hold t.size rfl) (Nat.lt_irrefl _)

end Quiet

section Capacity

lemma capacity_allocate (t : Table) : t.allocate.value.capacity = slotsFor t.expected := by
  rw [allocate_value]
  exact Array.size_replicate

/-- One name more makes the slots double or leaves them as they are. -/
lemma LaidOut.capacity_succ (ht : t.LaidOut) (hu : u.LaidOut) (hexpected : u.expected = t.expected)
    (hsize : u.size = t.size + 1) :
    u.capacity = if 3 * t.capacity < 8 * (t.size + 1) then 2 * t.capacity else t.capacity := by
  obtain ⟨k, hk, hleast⟩ := ht.capacity
  obtain ⟨j, hj, hnext⟩ := hu.capacity
  rw [hexpected] at hj hnext
  rw [hsize] at hnext
  by_cases hcrowded : 3 * t.capacity < 8 * (t.size + 1)
  · have hdouble := hleast.succ_of_crowded (sixteen_le_slotsFor _) (by rwa [← hk])
    rw [if_pos hcrowded, hj, hnext.unique hdouble, hk, Nat.pow_succ, Nat.mul_left_comm 2,
      Nat.mul_comm 2]
  · have hroomy : 8 * (t.size + 1) ≤ 3 * (slotsFor t.expected * 2 ^ k) := by
      rw [← hk]
      exact Nat.not_lt.mp hcrowded
    rw [if_neg hcrowded, hj, hnext.unique (hleast.succ_of_roomy hroomy), hk]

lemma growth_extend (hfilled : filled.size = u.capacity) : (t.extend d filled).growth =
    if 3 * u.capacity < 8 * (t.size + 1) then [.growing u.capacity (2 * u.capacity)] else [] := by
  rw [growth, isCrowded, size_extend, capacity_extend, hfilled, growFactor, Nat.mul_comm _ 2]
  simp only [decide_eq_true_eq]

lemma size_ready (t : Table) : t.ready.value.size = t.size := by
  rw [← length_names, nameList_ready, length_names]

lemma names_extend (t : Table) (d : Descriptor) (slots : Array (Option Nat)) :
    (t.extend d slots).nameList.names = t.nameList.names ++ [d.text] := by
  simp [nameList, extend]

end Capacity

namespace Recorded

/-- What happens aside from names and slots changes nothing in what is told. -/
lemma aside (hlog : Recorded log t) (h : SameOrigin t u) (hes : ∀ e ∈ es, e.tells = false) :
    Recorded (log ++ es) u := by
  have hnames : u.nameList.names = t.nameList.names := by rw [nameList_congr h]
  obtain ⟨hslots, hquiet⟩ | ⟨hslots, hhistory⟩ := hlog
  · refine .inl ⟨h.slots.trans hslots, fun e he => ?_⟩
    obtain he | he := List.mem_append.mp he
    · exact hquiet e he
    · exact hes e he
  · refine .inr ⟨by rwa [h.slots], ?_⟩
    rw [h.expected, hnames, capacity, h.slots]
    exact hhistory.asides hes

/-- A hint is written down before anything is told. -/
lemma expect (hlog : Recorded log t) (count : Nat) :
    Recorded (log ++ (t.expect count).events) (t.expect count).value := by
  by_cases hslots : t.slots = #[]
  · obtain ⟨_, hquiet⟩ | ⟨hne, _⟩ := hlog
    · rw [expect_of_bare hslots, List.append_nil]
      exact .inl ⟨hslots, hquiet⟩
    · exact absurd hslots hne
  · have hsame : SameOrigin t (t.expect count).value := by
      rw [expect_of_slots hslots]
      exact ⟨rfl, rfl, rfl⟩
    exact hlog.aside hsame fun e => expect_quiet

/-- As long as there are no slots, there is nothing to tell, whatever is going to be allocated. -/
lemma of_bare (hlog : Recorded log t) (ht : Sound strings t) (hslots : t.slots = #[])
    (first : Nat) :
    History first log t.nameList.names first := by
  obtain ⟨_, hquiet⟩ | ⟨hne, _⟩ := hlog
  · obtain ⟨_, hdescriptors⟩ | hlaid := ht.slots
    · rw [nameList, hdescriptors]
      exact History.start.asides hquiet
    · exact absurd hslots hlaid.slots_ne
  · exact absurd hslots hne

lemma of_slots (hlog : Recorded log t) (hslots : t.slots ≠ #[]) :
    History (slotsFor t.expected) log t.nameList.names t.capacity := by
  obtain ⟨hbare, _⟩ | ⟨_, hhistory⟩ := hlog
  · exact absurd hbare hslots
  · exact hhistory

/-- Once slots are allocated, the log is a history. -/
lemma ready (hlog : Recorded log t) (ht : Sound strings t) :
    History (slotsFor t.expected) (log ++ t.ready.events) t.nameList.names
      t.ready.value.capacity := by
  refine History.asides ?_ fun e => ready_quiet
  by_cases hslots : t.slots = #[]
  · rw [ready_of_isEmpty (by rw [hslots]; rfl), capacity_allocate]
    exact hlog.of_bare ht hslots _
  · have hready : t.ready = pure t := if_neg (by simpa using hslots)
    rw [hready]
    exact hlog.of_slots hslots

/-- The log of an interning goes on with the history. -/
theorem interning (hlog : Recorded log t) (ht : Sound strings t) (hr : Interning t h r) :
    Recorded (log ++ r.events) r.value.2 := by
  have hready := hlog.ready ht
  have hlaid := laidOut_ready ht.slots
  cases hr with
  | known | frozen => rwa [List.append_nil]
  | malformed | full =>
    refine .inr ⟨hlaid.slots_ne, ?_⟩
    rw [ready_expected, nameList_ready]
    exact hready
  | @created e filled slots hnew hg he hroom hfilled hextended =>
    -- the slots that are left behind and the growth that is logged go by one comparison
    have hcapacity :=
      hlaid.capacity_succ hextended t.ready_expected.symm (by rw [size_ready, size_extend])
    have hfits := hlaid.eight_size_le
    rw [size_ready] at hcapacity hfits
    refine .inr ⟨hextended.slots_ne, ?_⟩
    change History (slotsFor t.expected)
      (log ++ (t.ready.events ++ .creating h.text :: (t.extend (fresh h e) filled).growth))
      (t.extend (fresh h e) slots).nameList.names (t.extend (fresh h e) slots).capacity
    rw [growth_extend hfilled, names_extend, hcapacity, ← List.append_assoc]
    by_cases hcrowded : 3 * t.ready.value.capacity < 8 * (t.size + 1)
    · rw [if_pos hcrowded, if_pos hcrowded]
      exact hready.crowded h.text (by rwa [length_names]) (by rwa [length_names])
    · rw [if_neg hcrowded, if_neg hcrowded]
      exact hready.roomy h.text (by rw [length_names]; omega)

/-- What is recorded can be read. -/
theorem faithful (hlog : Recorded log t) (ht : Sound strings t)
    (hfirst : t.slots = #[] ∨ slotsFor t.expected = first) :
    Faithful first log t := by
  have hhistory : ∃ slots, History first log t.nameList.names slots ∧
      (t.slots ≠ #[] → t.capacity = slots) := by
    by_cases hslots : t.slots = #[]
    · exact ⟨first, hlog.of_bare ht hslots first, fun hne => absurd hslots hne⟩
    · exact ⟨t.capacity, hfirst.resolve_left hslots ▸ hlog.of_slots hslots, fun _ => rfl⟩
  obtain ⟨slots, hhistory, hcapacity⟩ := hhistory
  exact ⟨hhistory.createdNames_eq, hhistory.doubled, hhistory.linked, hhistory.begins,
    fun hslots => (hcapacity hslots).trans hhistory.slotsTold_eq.symm, hhistory.grows,
      hhistory.grows_of_crowded⟩

end Recorded

end Table

namespace TableSession

variable {s : TableSession} {x : Step} {log : List Event} {e : Event}

/-- All events of a session, in order. -/
def eventLog (s : TableSession) (xs : List Step) : List Event :=
  (s.run xs).flatMap fun r => r.events

@[simp] lemma eventLog_nil (s : TableSession) : s.eventLog [] = [] := rfl

lemma eventLog_cons (s : TableSession) (x : Step) (xs : List Step) :
    s.eventLog (x :: xs) = (s.step x).events ++ (s.step x).value.2.eventLog xs := List.flatMap_cons

lemma step_expect_events (s : TableSession) (count : Nat) :
    (s.step (.expect count)).events = (s.table.expect count).events := List.append_nil _

lemma step_internAll_events (s : TableSession) (names : List String) :
    (s.step (.internAll names)).events = (s.internAll names).events := List.append_nil _

lemma step_intern_events (s : TableSession) (name : String) :
    (s.step (.intern name)).events = (s.intern name).events :=
  List.append_nil _

/-- Several names are interned one after the other. -/
theorem internAll_eq_interns (s : TableSession) (names : List String) :
    (s.internAll names).events = s.eventLog (names.map .intern) ∧
      (s.internAll names).value.2 = s.after (names.map .intern) := by
  induction names generalizing s with
  | nil => exact ⟨rfl, rfl⟩
  | cons name names ih =>
    obtain ⟨ihevents, ihafter⟩ := ih (s.intern name).value.2
    have hevents : (s.internAll (name :: names)).events =
        (s.intern name).events ++ (((s.intern name).value.2.internAll names).events ++ []) := rfl
    rw [List.map_cons, eventLog_cons, step_intern_events, hevents, List.append_nil, ihevents]
    exact ⟨rfl, ihafter⟩

lemma applyRules_quiet {kept : Reach.Registry} (he : e ∈ (s.applyRules kept).events) :
    e.tells = false := by
  cases hg : s.table.grouped with
  | true =>
    rw [applyRules_of_grouped hg] at he
    exact Table.stamp_quiet he
  | false =>
    rw [applyRules_of_not_grouped hg] at he
    cases he

/-- Steps that offer no name tell of nothing. -/
lemma step_quiet (hx : x.offers = false) (he : e ∈ (s.step x).events) : e.tells = false := by
  cases x with
  | expect count =>
    rw [step_expect_events] at he
    exact Table.expect_quiet he
  | intern name => cases hx
  | internAll names =>
    cases names with
    | nil => cases he
    | cons name names => cases hx
  | group =>
    rw [step, Logged.bind_events, Logged.pure_events, List.append_nil] at he
    exact Table.group_quiet he
  | push head patterns =>
    unfold step at he
    dsimp only at he
    split at he <;> cases he
  | apply | applyCopy =>
    rw [step, Logged.bind_events, Logged.pure_events, List.append_nil] at he
    exact applyRules_quiet he
  | registry | query q => cases he

namespace Sound

/-- A name that gets no new number is not told of. -/
lemma intern_quiet (hs : s.Sound) {name : String}
    (hold : ∀ id, (s.intern name).value.1 = .ok id → id < s.table.size)
    (he : e ∈ (s.intern name).events) : e.tells = false := by
  rw [intern_events] at he
  exact (hs.interning name).quiet hold he

lemma recorded_intern (hs : s.Sound) (hlog : Table.Recorded log s.table) (name : String) :
    Table.Recorded (log ++ (s.intern name).events) (s.intern name).value.2.table := by
  rw [intern_events]
  exact hlog.interning hs (hs.interning name)

lemma recorded_internAll (hs : s.Sound) (hlog : Table.Recorded log s.table) (names : List String) :
    Table.Recorded (log ++ (s.internAll names).events) (s.internAll names).value.2.table := by
  induction names generalizing s log with
  | nil => rwa [internAll, Logged.pure_events, List.append_nil]
  | cons name names ih =>
    have hevents : (s.internAll (name :: names)).events =
        (s.intern name).events ++ (((s.intern name).value.2.internAll names).events ++ []) := rfl
    rw [hevents, List.append_nil, ← List.append_assoc]
    exact ih (hs.intern name) (hs.recorded_intern hlog name)

/-- The log goes on with every step. -/
theorem recorded_step (hs : s.Sound) (hlog : Table.Recorded log s.table) (x : Step) :
    Table.Recorded (log ++ (s.step x).events) (s.step x).value.2.table := by
  have haside : x.offers = false → Table.SameOrigin s.table (s.step x).value.2.table →
      Table.Recorded (log ++ (s.step x).events) (s.step x).value.2.table :=
    fun hx h => hlog.aside h fun e => step_quiet hx
  cases x with
  | expect count =>
    rw [step_expect_events]
    exact hlog.expect count
  | intern name =>
    rw [step_intern_events]
    exact hs.recorded_intern hlog name
  | internAll names =>
    rw [step_internAll_events]
    exact hs.recorded_internAll hlog names
  | group => exact haside rfl (Table.sameOrigin_group s.table)
  | push head patterns =>
    refine haside rfl ?_
    obtain ⟨registry, hpush⟩ := s.step_push head patterns
    rw [hpush]
    exact ⟨rfl, rfl, rfl⟩
  | apply => exact haside rfl (hs.sameOrigin_applyRules {}).1
  | applyCopy => exact haside rfl (hs.sameOrigin_applyRules s.registry).1
  | registry | query q => exact haside rfl ⟨rfl, rfl, rfl⟩

theorem recorded_after (hs : s.Sound) (hlog : Table.Recorded log s.table) (xs : List Step) :
    Table.Recorded (log ++ s.eventLog xs) (s.after xs).table := by
  induction xs generalizing s log with
  | nil => rwa [eventLog_nil, List.append_nil]
  | cons x xs ih =>
    rw [eventLog_cons, ← List.append_assoc]
    exact ih (hs.step x) (hs.recorded_step hlog x)

end Sound

/-- The log of a session tells what is in its table. -/
theorem faithful_after_start (count : Nat) (xs : List Step) :
    Table.Faithful (Table.ofExpected (firstHint count xs)).allocate.value.capacity
      ((start count).eventLog xs)
      ((start count).after xs).table := by
  have hs : (start count).Sound := sound_start count
  have hempty : Table.Recorded [] (start count).table :=
    .inl ⟨rfl, fun e he => absurd he List.not_mem_nil⟩
  refine (hs.recorded_after hempty xs).faithful (sound_after_start count xs) ?_
  rw [Table.capacity_allocate]
  obtain hslots | hexpected := hs.expected_after rfl xs
  · exact .inl hslots
  · exact .inr (congrArg Table.slotsFor hexpected)

end TableSession

end LinkConnectors
