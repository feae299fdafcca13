import LinkConnectors.Proofs.Session.Layout
import LinkConnectors.Proofs.Table.History

/-! Size hints. A hint counts until the first name is offered to the table, whether the table takes
that name or not. From then on there are slots, and hints are ignored. -/
namespace LinkConnectors

namespace Table

variable {t : Table} {h : Handle} {r : Logged (Except TableError Nat × Table)}

lemma expect_of_bare (hslots : t.slots = #[]) (count : Nat) :
    t.expect count = ⟨{ t with expected := count }, []⟩ := by
  rw [expect, if_pos (by rw [hslots]; rfl)]
  rfl

lemma expect_of_slots (hslots : t.slots ≠ #[]) (count : Nat) :
    t.expect count = ⟨t, [.hintIgnored count t.capacity]⟩ := by
  rw [expect, if_neg (by simpa using hslots)]
  rfl

/-- One name never makes the slots grow. -/
lemma LaidOut.capacity_of_single (ht : t.LaidOut) (hsize : t.size = 1) :
    t.capacity = slotsFor t.expected := by
  obtain ⟨k, hk, hleast⟩ := ht.capacity
  have hsixteen := sixteen_le_slotsFor t.expected
  have hzero : k ≤ 0 := by
    apply hleast.2
    change 8 * t.size ≤ 3 * (slotsFor t.expected * 2 ^ 0)
    omega
  rw [hk, Nat.le_zero.mp hzero, Nat.pow_zero, Nat.mul_one]

/-- When the first name is taken, there are as many slots as the hint asks for. -/
lemma Interning.capacity_of_first (hr : Interning t h r) (hsize : t.size = 0) {id : Nat}
    (hok : r.value.1 = .ok id) :
    r.value.2.capacity = slotsFor t.expected := by
  cases hr with
  | known hd htext =>
    have hlt := (Array.getElem?_eq_some_iff.mp hd).1
    exact absurd hlt (by rw [size] at hsize; omega)
  | frozen | malformed | full => cases hok
  | created hnew hg he hroom hfilled hlaid =>
    exact hlaid.capacity_of_single (by rw [size_extend, hsize])

/-- Interning logs what comes in, and that a hint was rounded, and no more. -/
lemma Interning.tells_or_rounded (hr : Interning t h r) {e : Event} (he : e ∈ r.events) :
    e.tells = true ∨ ∃ hint slots, e = .hintRounded hint slots := by
  have hgrowth : ∀ u : Table, e ∈ u.growth → e.tells = true := by
    intro u he
    unfold growth at he
    split at he
    · rw [List.mem_singleton.mp he]
      rfl
    · cases he
  cases hr with
  | known | frozen => cases he
  | malformed | full => exact .inr (ready_events he)
  | created =>
    obtain he | he := List.mem_append.mp he
    · exact .inr (ready_events he)
    · obtain rfl | he := List.mem_cons.mp he
      · exact .inl rfl
      · exact .inl (hgrowth _ he)

/-- Interning says nothing about ignored hints. -/
lemma Interning.hintIgnored_not_mem (hr : Interning t h r) (count slots : Nat) :
    .hintIgnored count slots ∉ r.events := by
  intro he
  obtain htells | ⟨_, _, heq⟩ := hr.tells_or_rounded he
  · cases htells
  · cases heq

end Table

namespace TableSession

variable {s : TableSession} {x : Step}

/-- Whether a step offers a name to the table. -/
def Step.offers : Step → Bool
  | .intern _ | .internAll (_ :: _) => true
  | _ => false

lemma Sound.slots_step (hs : s.Sound) (hslots : s.table.slots = #[]) (hx : x.offers = false) :
    (s.step x).value.2.table.slots = #[] := by
  cases x with
  | expect count =>
    change (s.table.expect count).value.slots = #[]
    rw [Table.expect_of_bare hslots]
    exact hslots
  | intern name => cases hx
  | internAll names =>
    cases names with
    | nil => exact hslots
    | cons name names => cases hx
  | push head patterns =>
    obtain ⟨registry, hpush⟩ := s.step_push head patterns
    rw [hpush]
    exact hslots
  | apply => exact (hs.sameOrigin_applyRules {}).1.slots.trans hslots
  | applyCopy => exact (hs.sameOrigin_applyRules s.registry).1.slots.trans hslots
  | group | registry | query q => exact hslots

/-- An offered name settles the hint, whether the table takes it or not. -/
lemma Sound.settled_step (hs : s.Sound) (hx : x.offers = true) :
    (s.step x).value.2.table.Settled s.table.expected := by
  cases x with
  | intern name => exact (hs.interning name).settled hs
  | internAll names =>
    cases names with
    | nil => cases hx
    | cons name names =>
      exact (hs.intern name).kept Sound.settled_move ((hs.interning name).settled hs)
        (moves_internAll _ names)
  | _ => cases hx

/-- As long as a table takes names, it has slots if and only if a name was offered to it. -/
theorem Sound.slots_after_iff (hs : s.Sound) (hslots : s.table.slots = #[]) (xs : List Step)
    (hg : (s.after xs).table.grouped = false) :
    (s.after xs).table.slots = #[] ↔ xs.any Step.offers = false := by
  induction xs generalizing s with
  | nil => simpa using hslots
  | cons x xs ih =>
    rw [after_cons] at hg ⊢
    rw [List.any_cons]
    cases hx : x.offers with
    | false => exact ih (hs.step x) (hs.slots_step hslots hx) hg
    | true =>
      -- a settled table without slots is closed, and this one is not
      obtain ⟨hsome, _⟩ | ⟨_, hgrouped⟩ :=
        (hs.step x).kept Sound.settled_move (hs.settled_step hx) (moves_after _ xs)
      · simp [hsome]
      · exact absurd (hg.symm.trans hgrouped) Bool.false_ne_true

/-- The hint for a table that takes names and has none yet. If no name was ever offered, the hint
decides how many slots there are, without a word in the log. If one was offered and refused, the
hint is ignored, and the one that was in force then decides. -/
theorem hint_before_first_name (hint : Nat) (xs : List Step) :
    let s := (start hint).after xs
    s.table.grouped = false → s.table.size = 0 → ∀ (count : Nat) (name : String),
      let r := s.step (.expect count)
      let q := r.value.2.intern name
      (∃ id, q.value.1 = .ok id) →
      (xs.any Step.offers = false → r.events = [] ∧ (∀ n slots, .hintIgnored n slots ∉ q.events) ∧
        IsLeast {p | (∃ j, p = 2 ^ j) ∧ max count 16 ≤ p} q.value.2.table.capacity) ∧
      (xs.any Step.offers = true → r.events = [.hintIgnored count s.table.capacity] ∧
        IsLeast {p | (∃ j, p = 2 ^ j) ∧ max (firstHint hint xs) 16 ≤ p}
          q.value.2.table.capacity) := by
  intro s hg hsize count name r q
  rintro ⟨id, hid⟩
  have hs : s.Sound := sound_after_start hint xs
  have hbare := (sound_start hint).slots_after_iff rfl xs hg
  have hevents : r.events = (s.table.expect count).events := List.append_nil _
  have htable : r.value.2.table = (s.table.expect count).value := rfl
  have hfirst : r.value.2.table.size = 0 → q.value.2.table.capacity =
      Table.slotsFor r.value.2.table.expected :=
    fun hempty => ((hs.step (.expect count)).interning name).capacity_of_first hempty hid
  refine ⟨fun hnone => ?_, fun hsome => ?_⟩
  · have hexpect := Table.expect_of_bare (hbare.mpr hnone) count
    rw [hexpect] at hevents htable
    refine ⟨hevents, fun n slots => ?_, ?_⟩
    · have hnot := ((hs.step (.expect count)).interning name).hintIgnored_not_mem n slots
      rwa [← intern_events] at hnot
    · rw [hfirst (by rw [htable]; exact hsize), htable]
      exact Table.slotsFor_isLeast count
  · have hslots : s.table.slots ≠ #[] := fun hslots => by
      rw [hbare.mp hslots] at hsome
      cases hsome
    have hexpect := Table.expect_of_slots hslots count
    rw [hexpect] at hevents htable
    refine ⟨hevents, ?_⟩
    have hexpected := ((sound_start hint).expected_after rfl xs).resolve_left hslots
    rw [hfirst (by rw [htable]; exact hsize), htable, hexpected]
    exact Table.slotsFor_isLeast _

/-- A hint for a new table counts, and the same hint after a refused name does not. -/
theorem slots_of_two_hints :
    (((start 0).after []).step (.expect 64)).events = [] ∧
      IsLeast {p | (∃ j, p = 2 ^ j) ∧ max 64 16 ≤ p}
        ((((start 0).after []).step (.expect 64)).value.2.intern "S").value.2.table.capacity ∧
    (((start 0).after [.intern "x"]).step (.expect 64)).events =
        [.hintIgnored 64 ((start 0).after [.intern "x"]).table.capacity] ∧
      IsLeast {p | (∃ j, p = 2 ^ j) ∧ max (firstHint 0 [.intern "x"]) 16 ≤ p}
        ((((start 0).after [.intern "x"]).step (.expect 64)).value.2.intern
          "S").value.2.table.capacity := by
  have htaken : ∃ id, ((((start 0).after []).step (.expect 64)).value.2.intern "S").value.1 =
      .ok id :=
    ⟨0, by decide +kernel⟩
  have htakenLater :
      ∃ id, ((((start 0).after [.intern "x"]).step (.expect 64)).value.2.intern "S").value.1 =
          .ok id :=
    ⟨0, by decide +kernel⟩
  have hcounts := hint_before_first_name 0 [] (by decide +kernel) (by decide +kernel) 64 "S" htaken
  have hcomesLate :=
    hint_before_first_name 0 [.intern "x"] (by decide +kernel)
      (by decide +kernel) 64 "S" htakenLater
  obtain ⟨hquiet, _, hleast⟩ := hcounts.1 rfl
  obtain ⟨hignored, hleastLater⟩ := hcomesLate.2 rfl
  exact ⟨hquiet, hleast, hignored, hleastLater⟩

/-- It is not enough for a hint to come before the first name that is taken. The hint for 64 names
comes after one that was refused, and is ignored. -/
theorem exists_ignored_hint :
    ¬ ∀ (hint : Nat) (xs : List Step),
      let s := (start hint).after xs
      s.table.grouped = false → s.table.size = 0 → ∀ (count : Nat) (name : String),
        let r := s.step (.expect count)
        let q := r.value.2.intern name
        (∃ id, q.value.1 = .ok id) →
        r.events = [] ∧ (∀ n slots, .hintIgnored n slots ∉ q.events) ∧
          IsLeast {p | (∃ j, p = 2 ^ j) ∧ max count 16 ≤ p} q.value.2.table.capacity := by
  intro h
  have htaken :
      ∃ id, ((((start 0).after [.intern "x"]).step (.expect 64)).value.2.intern "S").value.1 =
        .ok id :=
    ⟨0, by decide +kernel⟩
  have hquiet := (h 0 [.intern "x"] (by decide +kernel) (by decide +kernel) 64 "S" htaken).1
  have hevents : (((start 0).after [.intern "x"]).step (.expect 64)).events =
      [.hintIgnored 64 16] := by
    decide +kernel
  rw [hevents] at hquiet
  cases hquiet

end TableSession

end LinkConnectors
