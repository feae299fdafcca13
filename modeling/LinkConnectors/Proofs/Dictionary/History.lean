import LinkConnectors.Proofs.Dictionary.Declared
import LinkConnectors.Proofs.Dictionary.Refusals
import LinkConnectors.Proofs.Session.Handles
import LinkConnectors.Proofs.Session.History

/-! The log of a dictionary that loads. It tells of the table like the log of any session, and in
the end it counts the names that were accepted, their cores, and all names that came in. -/
namespace LinkConnectors

namespace Interner

/-- Takes in strings one after the other. -/
def addAll (i : Interner) (names : List String) : Interner :=
  names.foldl (fun i name => (i.add name).2) i

lemma addAll_append (i : Interner) (names others : List String) :
    i.addAll (names ++ others) = (i.addAll names).addAll others := List.foldl_append

lemma isSome_get?_addAll (owner : Nat) (names : List String) (text : String) :
    ((addAll { owner := owner } names).get? text).isSome = true ↔ text ∈ names := by
  induction names using List.reverseRecOn with
  | nil => simp [addAll, get?]
  | append_singleton names name ih =>
    rw [addAll_append, List.mem_append, List.mem_singleton, ← ih, or_comm]
    exact isSome_get?_add _ name text

/-- An interner counts the distinct strings that it has taken in. -/
theorem size_addAll (owner : Nat) (names : List String) :
    (addAll { owner := owner } names).size = names.toFinset.card := by
  induction names using List.reverseRecOn with
  | nil => rfl
  | append_singleton names name ih =>
    have hinsert : (names ++ [name]).toFinset = insert name names.toFinset := by
      ext text
      simp
    have hmem := isSome_get?_addAll owner names name
    rw [addAll_append, hinsert, Finset.card_insert_eq_ite, ← ih]
    change ((addAll { owner := owner } names).add name).2.size = _
    rw [size_add]
    simp only [List.mem_toFinset, hmem]

end Interner

namespace Table

/-- Interning leaves the hint as it is. -/
lemma Interning.expected_eq {t : Table} {h : Handle} {r : Logged (Except TableError Nat × Table)}
    (hr : Interning t h r) :
    r.value.2.expected = t.expected := by
  cases hr with
  | known | frozen | created => rfl
  | malformed | full => exact t.ready_expected

end Table

namespace Builder

variable {b : Builder} {x : Step} {name : String} {log : List Event} {e : Event}

section Step

/-- A step that brings a name in does what interning the name does. -/
lemma step_of_name (b : Builder) (hx : x.name? = some name) :
    (b.step x).events = (b.session.intern name).events ∧
    (b.step x).value.2 = ofSession (b.session.intern name).value.2 := by
  cases x with
  | add other =>
    obtain rfl := Option.some.inj hx
    rw [step_add]
    exact ⟨rfl, rfl⟩
  | token text =>
    cases htoken : Token.ofText text with
    | error err =>
      rw [Step.name?, htoken] at hx
      cases hx
    | ok t =>
      rw [Step.name?, htoken] at hx
      obtain rfl := Option.some.inj hx
      rw [step_token_of_ok b htoken]
      exact ⟨rfl, rfl⟩
  | define | push | query => cases hx

/-- Other steps leave the names alone and log nothing. -/
lemma step_of_no_name (b : Builder) (hx : x.name? = none) : (b.step x).events = [] ∧
    (b.step x).value.2.table = b.table ∧ (b.step x).value.2.strings = b.strings := by
  have hqueue : ∀ r, (b.queue r).events = [] ∧ (b.queue r).value.2.table = b.table ∧
      (b.queue r).value.2.strings = b.strings := by
    intro r
    cases r <;> exact ⟨rfl, rfl, rfl⟩
  cases x with
  | add other => cases hx
  | token text =>
    cases htoken : Token.ofText text with
    | error err =>
      rw [step_token_of_error b htoken]
      exact ⟨rfl, rfl, rfl⟩
    | ok t =>
      rw [Step.name?, htoken] at hx
      cases hx
  | define name patterns =>
    rw [step_define]
    exact hqueue _
  | push limit patterns =>
    rw [step_push]
    exact hqueue _
  | query q => exact ⟨rfl, rfl, rfl⟩

lemma strings_step (b : Builder) (x : Step) :
    (b.step x).value.2.strings = b.strings.addAll x.name?.toList := by
  cases hx : x.name? with
  | some name =>
    rw [(b.step_of_name hx).2]
    rfl
  | none => exact (b.step_of_no_name hx).2.2

/-- The interner takes in every name that a step is to bring in, also if the table refuses it. -/
theorem strings_run (b : Builder) (xs : List Step) :
    (b.run xs).value.2.strings = b.strings.addAll (xs.filterMap Step.name?) := by
  induction xs generalizing b with
  | nil => rfl
  | cons x xs ih =>
    rw [run_cons, ih, strings_step, ← Interner.addAll_append]
    cases hx : x.name? with
    | some name => rw [List.filterMap_cons_some hx, Option.toList_some, List.singleton_append]
    | none => rw [List.filterMap_cons_none hx, Option.toList_none, List.nil_append]

end Step

namespace Loading

lemma recorded_step (hb : b.Loading) (hlog : Table.Recorded log b.table) (x : Step) :
    Table.Recorded (log ++ (b.step x).events) (b.step x).value.2.table := by
  cases hx : x.name? with
  | some name =>
    obtain ⟨hevents, hnext⟩ := b.step_of_name hx
    rw [hevents, hnext]
    exact hb.sound.recorded_intern hlog name
  | none =>
    obtain ⟨hevents, htable, _⟩ := b.step_of_no_name hx
    rwa [hevents, htable, List.append_nil]

theorem recorded_run (hb : b.Loading) (hlog : Table.Recorded log b.table) (xs : List Step) :
    Table.Recorded (log ++ (b.run xs).events) (b.run xs).value.2.table := by
  induction xs generalizing b log with
  | nil => exact hlog.aside ⟨rfl, rfl, rfl⟩ fun e he => absurd he List.not_mem_nil
  | cons x xs ih =>
    rw [run_cons, ← List.append_assoc]
    exact ih (hb.step x) (hb.recorded_step hlog x)

/-- No step changes the hint. -/
lemma expected_run (hb : b.Loading) (xs : List Step) :
    (b.run xs).value.2.table.expected = b.table.expected := by
  induction xs generalizing b with
  | nil => rfl
  | cons x xs ih =>
    rw [run_cons, ih (hb.step x)]
    cases hx : x.name? with
    | some name =>
      rw [(b.step_of_name hx).2]
      exact (hb.sound.interning name).expected_eq
    | none => rw [(b.step_of_no_name hx).2.1]

/-- Nothing is reported as ready while names come in. -/
lemma ready_not_mem_step (hb : b.Loading) (x : Step) (connectors cores strings : Nat) :
    .dictionaryReady connectors cores strings ∉ (b.step x).events := by
  intro he
  cases hx : x.name? with
  | some name =>
    rw [(b.step_of_name hx).1, TableSession.intern_events] at he
    obtain htells | ⟨_, _, heq⟩ := (hb.sound.interning name).tells_or_rounded he
    · cases htells
    · cases heq
  | none =>
    rw [(b.step_of_no_name hx).1] at he
    cases he

lemma ready_not_mem_run (hb : b.Loading) (xs : List Step) (connectors cores strings : Nat) :
    .dictionaryReady connectors cores strings ∉ (b.run xs).events := by
  induction xs generalizing b with
  | nil => exact List.not_mem_nil
  | cons x xs ih =>
    rw [run_cons, List.mem_append, not_or]
    exact ⟨hb.ready_not_mem_step x connectors cores strings, ih (hb.step x)⟩

end Loading

section Finish

lemma finish_quiet (he : e ∈ b.finish.events) : e.tells = false := by
  rw [events_finish, List.mem_append, List.mem_append, List.mem_singleton] at he
  obtain (he | he) | rfl := he
  · exact Table.group_quiet he
  · exact Table.stamp_quiet he
  · rfl

/-- The end of the log of a finished dictionary is the report that it is ready. -/
lemma ready_concat (b : Builder) : ∃ rest, b.finish.events = rest ++
      [.dictionaryReady b.finish.value.table.size b.finish.value.table.coreCount b.strings.size] ∧
    ∀ connectors cores strings, .dictionaryReady connectors cores strings ∉ rest := by
  refine ⟨_, b.events_finish, fun connectors cores strings he => ?_⟩
  obtain he | he := List.mem_append.mp he
  · rw [Table.group_eq] at he
    cases List.mem_singleton.mp he
  · cases List.mem_singleton.mp he

end Finish

section Counts

/-- The cores of the names that are connector names. -/
def coresOfNames (names : List String) : Finset String :=
  (names.filterMap fun name => (Encoding.ofName name).toOption.map Encoding.core).toFinset

lemma mem_coresOfNames {names : List String} {core : String} :
    core ∈ coresOfNames names ↔ ∃ name ∈ names, ∃ e, Encoding.ofName name = .ok e ∧
      e.core = core := by
  rw [coresOfNames, List.mem_toFinset, List.mem_filterMap]
  refine exists_congr fun name => and_congr_right fun _ => ?_
  cases Encoding.ofName name <;> simp [Except.toOption]

lemma mem_names_of_ofExpected (count : Nat) (xs : List Step) (name : String) :
    name ∈ ((ofExpected count).run xs).value.2.table.nameList.names ↔
      name ∈ (ofExpected count).acceptedNames xs := by
  have hempty : (ofExpected count).table.nameList.names = [] := rfl
  rw [(loading_ofExpected count).mem_names_run, hempty]
  simp

/-- There are as many connectors as distinct names were accepted. -/
lemma size_finish_run (count : Nat) (xs : List Step) :
    ((ofExpected count).run xs).value.2.finish.value.table.size =
    ((ofExpected count).acceptedNames xs).toFinset.card := by
  have hb := (loading_ofExpected count).run xs
  have hnames : ((ofExpected count).acceptedNames xs).toFinset =
      ((ofExpected count).run xs).value.2.table.nameList.names.toFinset := by
    ext name
    rw [List.mem_toFinset, List.mem_toFinset, mem_names_of_ofExpected]
  rw [hnames, List.toFinset_card_of_nodup hb.table_sound.nodup_names, ← finish_names,
    Table.length_names]

lemma coreCount_finish_run (count : Nat) (xs : List Step) :
    ((ofExpected count).run xs).value.2.finish.value.table.coreCount =
      (coresOfNames ((ofExpected count).acceptedNames xs)).card := by
  have hb := (loading_ofExpected count).run xs
  rw [finish_coreCount]
  congr 1
  ext core
  rw [hb.table_sound.mem_coresOf_iff, mem_coresOfNames]
  simp only [mem_names_of_ofExpected]

lemma card_coresOfNames_le (names : List String) :
    (coresOfNames names).card ≤ names.toFinset.card := by
  have hsub : coresOfNames names ⊆
      names.toFinset.image fun name =>
        ((Encoding.ofName name).toOption.map Encoding.core).getD "" := by
    intro core hcore
    obtain ⟨name, hname, e, he, rfl⟩ := mem_coresOfNames.mp hcore
    refine Finset.mem_image.mpr ⟨name, List.mem_toFinset.mpr hname, ?_⟩
    rw [he]
    rfl
  exact (Finset.card_le_card hsub).trans Finset.card_image_le

/-- What was accepted had come in. -/
lemma acceptedNames_subset (b : Builder) (xs : List Step) :
    b.acceptedNames xs ⊆ xs.filterMap Step.name? := by
  intro name hname
  obtain ⟨x, hx, hxname⟩ := List.mem_filterMap.mp hname
  obtain ⟨p, hp, rfl⟩ := List.mem_map.mp hx
  exact List.mem_filterMap.mpr ⟨p.1, (List.of_mem_zip (List.mem_filter.mp hp).1).1, hxname⟩

end Counts

/-- The log tells what has happened to a table. From the log of a session one can read the names of
the descriptors in the order of their numbers, and how the slots grew: each time to twice as many,
from what they had grown to before, right behind the name that made it necessary, and from the slots
that were allocated first to those that there are. Interning that fails or finds a name it has tells
of nothing, and neither does a step that offers no name. Several names tell what they would tell one
by one. The log of a dictionary tells the same, and ends with the only report that it is ready. This
counts the distinct names that were accepted, their distinct cores, and the distinct names that came
in, be it that they were refused. -/
theorem log_tells_history :
    (∀ (count : Nat) (xs : List TableSession.Step),
      let s := (TableSession.start count).after xs
      Table.Faithful (Table.ofExpected (TableSession.firstHint count xs)).allocate.value.capacity
          ((TableSession.start count).eventLog xs) s.table ∧
        (∀ name : String,
          ((∃ err, (s.intern name).value.1 = .error err) ∨
            ∃ id < s.table.size, (s.intern name).value.1 = .ok id) →
            ∀ e ∈ (s.intern name).events, e.tells = false) ∧
        (∀ x : TableSession.Step, x.offers = false → ∀ e ∈ (s.step x).events, e.tells = false) ∧
        ∀ names : List String, (s.step (.internAll names)).events =
          s.eventLog (names.map .intern)) ∧
    ∀ (count : Nat) (xs : List Step),
      let b := ofExpected count
      let r := b.run xs
      let d := r.value.2.finish
      let connectors := (b.acceptedNames xs).toFinset.card
      let cores := (coresOfNames (b.acceptedNames xs)).card
      let strings := (xs.filterMap Step.name?).toFinset.card
      Table.Faithful (Table.ofExpected count).allocate.value.capacity
        (r.events ++ d.events) d.value.table ∧
        (∃ rest, r.events ++ d.events = rest ++ [.dictionaryReady connectors cores strings] ∧
          ∀ m n k, .dictionaryReady m n k ∉ rest) ∧
        cores ≤ connectors ∧ connectors ≤ strings := by
  refine ⟨fun count xs => ?_, fun count xs => ?_⟩
  · intro s
    have hs : s.Sound := TableSession.sound_after_start count xs
    refine ⟨TableSession.faithful_after_start count xs, fun name hanswer e => ?_,
      fun x hx e => TableSession.step_quiet hx,
      fun names => ?_⟩
    · refine hs.intern_quiet fun id hid => ?_
      obtain ⟨err, herr⟩ | ⟨old, hold, hanswer⟩ := hanswer
      · cases herr.symm.trans hid
      · cases hanswer.symm.trans hid
        exact hold
    · rw [TableSession.step_internAll_events]
      exact (s.internAll_eq_interns names).1
  · intro b r d connectors cores strings
    have hb : r.value.2.Loading := (loading_ofExpected count).run xs
    have hempty : Table.Recorded [] b.table := .inl ⟨rfl, fun e he => absurd he List.not_mem_nil⟩
    have hlog : Table.Recorded (r.events ++ d.events) d.value.table :=
      ((loading_ofExpected count).recorded_run hempty xs).aside r.value.2.sameOrigin_finish fun e =>
        finish_quiet
    have hstrings : r.value.2.strings.size = strings := by
      rw [strings_run]
      exact Interner.size_addAll 0 _
    have hexpected : d.value.table.expected = count :=
      r.value.2.sameOrigin_finish.expected.trans ((loading_ofExpected count).expected_run xs)
    have hfirst : Table.slotsFor d.value.table.expected =
        (Table.ofExpected count).allocate.value.capacity := by
      rw [hexpected, Table.capacity_allocate]
      rfl
    refine ⟨hlog.faithful hb.finish_sound (.inr hfirst), ?_, card_coresOfNames_le _, ?_⟩
    · obtain ⟨rest, hrest, hnew⟩ := r.value.2.ready_concat
      rw [hstrings, size_finish_run, coreCount_finish_run] at hrest
      refine ⟨r.events ++ rest, ?_, fun m n k he => ?_⟩
      · rw [List.append_assoc, ← hrest]
      · obtain he | he := List.mem_append.mp he
        · exact (loading_ofExpected count).ready_not_mem_run xs m n k he
        · exact hnew m n k he
    · refine Finset.card_le_card fun name hname => ?_
      rw [List.mem_toFinset] at hname ⊢
      exact b.acceptedNames_subset xs hname

/-- Seven names make sixteen slots grow once, and a malformed one tells of nothing. A dictionary
that takes two names with one core and refuses a third counts them. -/
theorem log_of_seven_names :
    let xs : List TableSession.Step := [.internAll ["A", "B", "C", "D", "E", "F", "G"]]
    let s := (TableSession.start 0).after xs
    let r := (ofExpected 0).run [.add "Ss", .add "x", .token "@hS*b-", .add "Ss"]
    s.table.capacity = slotsTold 16 ((TableSession.start 0).eventLog xs) ∧
      (∀ e ∈ (s.intern "x").events, e.tells = false) ∧
      ∃ rest, r.events ++ r.value.2.finish.events = rest ++ [.dictionaryReady 2 1 3] := by
  intro xs s r
  obtain ⟨hsession, hdictionary⟩ := log_tells_history
  obtain ⟨hfaithful, hquiet, _⟩ := hsession 0 xs
  obtain ⟨_, ⟨rest, hrest, _⟩, _⟩ := hdictionary 0 [.add "Ss", .add "x", .token "@hS*b-", .add "Ss"]
  have hslots : s.table.slots ≠ #[] := by decide +kernel
  have hfirst : (Table.ofExpected (TableSession.firstHint 0 xs)).allocate.value.capacity = 16 := by
    decide +kernel
  have hcapacity :=
    congrArg (fun first => slotsTold first ((TableSession.start 0).eventLog xs)) hfirst
  refine ⟨(hfaithful.capacity hslots).trans hcapacity,
    hquiet "x" (.inl ⟨.encode (.invalidMarker "x" 'x'), by decide +kernel⟩), rest, ?_⟩
  have hconnectors :
      ((ofExpected 0).acceptedNames
        [.add "Ss", .add "x", .token "@hS*b-", .add "Ss"]).toFinset.card = 2 := by
    decide +kernel
  have hcores :
      (coresOfNames ((ofExpected 0).acceptedNames
        [.add "Ss", .add "x", .token "@hS*b-", .add "Ss"])).card = 1 := by
    decide +kernel
  have hstrings :
      ([Step.add "Ss", .add "x", .token "@hS*b-", .add "Ss"].filterMap
        Step.name?).toFinset.card = 3 := by
    decide +kernel
  rwa [hconnectors, hcores, hstrings] at hrest

end Builder

end LinkConnectors
