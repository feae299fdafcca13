import LinkConnectors.Proofs.Session.Refusals
import LinkConnectors.Session.Load

/-! Loading a dictionary as a session. A builder interns like a session of its table and queues
rules like it, so what is known of sessions holds while a dictionary loads. The table then has the
names that were accepted, and the queue holds the accepted rules. -/
namespace LinkConnectors

namespace Table

/-- A name that is taken is among the names from then on, and no other name comes or goes. -/
lemma mem_names_internName (t : Table) (name other : String) :
    other ∈ (t.internName name).value.2.nameList.names ↔
      other ∈ t.nameList.names ∨ ((t.internName name).value.1.isOk = true ∧ other = name) := by
  unfold internName
  cases hid : t.nameList.names.idxOf? name with
  | some id =>
    obtain ⟨hlt, hid, _⟩ := List.idxOf?_eq_some_iff.mp hid
    have hmem : name ∈ t.nameList.names := hid ▸ List.getElem_mem hlt
    constructor
    · exact .inl
    · rintro (hother | ⟨_, rfl⟩)
      · exact hother
      · exact hmem
  | none =>
    have hrefused : ∀ err : TableError, other ∈ t.nameList.names ↔ other ∈ t.nameList.names ∨
        ((Except.error err : Except TableError Nat).isOk = true ∧ other = name) :=
      fun err => ⟨.inl, fun h => h.resolve_right fun h => Bool.false_ne_true h.1⟩
    dsimp only
    split
    · exact hrefused _
    · split
      · exact hrefused _
      · split
        · simp [nameList, fresh, Descriptor.text, Except.isOk, Except.toBool]
        · exact hrefused _

end Table

lemma TableSession.Sound.mem_names_intern {s : TableSession} (hs : s.Sound) (name other : String) :
    other ∈ (s.intern name).value.2.table.nameList.names ↔
      other ∈ s.table.nameList.names ∨ ((s.intern name).value.1.isOk = true ∧ other = name) := by
  obtain ⟨hanswer, htable, _⟩ := hs.intern_plain name
  have h := s.table.plain.mem_names_internName name other
  rwa [← hanswer, ← htable, Table.nameList_plain, Table.nameList_plain] at h

namespace Builder

/-- The session that a builder carries on. -/
def session (b : Builder) : TableSession := ⟨b.strings, b.table, b.limits⟩

def ofSession (s : TableSession) : Builder := ⟨s.strings, s.table, s.registry⟩

def Answer.refused : Answer → Bool
  | .added r => !r.isOk
  | .resolved r => !r.isOk
  | .queued r => !r.isOk
  | .reply _ => false

/-- The name that a step is to bring in. -/
def Step.name? : Step → Option String
  | .add name => some name
  | .token text => (Token.ofText text).toOption.map Token.name
  | _ => none

/-- The rule that a step is to queue. -/
def Step.rule? : Step → Option Reach.Rule
  | .define name patterns => (Reach.Rule.ofDefine name patterns).toOption
  | .push limit patterns => (Reach.Rule.ofLimit limit patterns).toOption
  | _ => none

/-- The steps of a run that were not refused. -/
def accepted (b : Builder) (xs : List Step) : List Step :=
  ((xs.zip (b.run xs).value.1).filter fun p => !p.2.refused).map Prod.fst

def acceptedNames (b : Builder) (xs : List Step) : List String :=
  (b.accepted xs).filterMap Step.name?

def acceptedRules (b : Builder) (xs : List Step) : List Reach.Rule :=
  (b.accepted xs).filterMap Step.rule?

variable {b : Builder}

lemma add_eq (b : Builder) (name : String) : b.add name =
    ⟨((b.session.intern name).value.1.mapError .table, ofSession (b.session.intern name).value.2),
      (b.session.intern name).events⟩ := rfl

lemma addToken_of_error {text : String} {e : TokenError} (h : Token.ofText text = .error e) :
    b.addToken text = pure (.error (.token e), b) := by
  unfold addToken
  rw [h]

lemma addToken_of_ok {text : String} {t : Token} (h : Token.ofText text = .ok t) : b.addToken text =
    ⟨((b.add t.name).value.1.map fun id => ⟨id, t.direction, t.multi⟩, (b.add t.name).value.2),
      (b.add t.name).events⟩ := by
  unfold addToken
  rw [h]
  exact Logged.bind_pure_eq _ _

lemma isOk_mapError {ε δ α : Type} (r : Except ε α) (f : ε → δ) : (r.mapError f).isOk = r.isOk := by
  cases r <;> rfl

lemma isOk_map {ε α β : Type} (r : Except ε α) (f : α → β) : (r.map f).isOk = r.isOk := by
  cases r <;> rfl

/-- The table of a dictionary that loads is sound and takes names. -/
structure Loading (b : Builder) : Prop where
  sound : b.session.Sound
  ungrouped : b.table.grouped = false

theorem loading_ofExpected (count : Nat) : (ofExpected count).Loading :=
  ⟨TableSession.sound_start count, rfl⟩

namespace Loading

lemma add (hb : b.Loading) (name : String) : (b.add name).value.2.Loading where
  sound := hb.sound.intern name
  ungrouped := (hb.sound.interning name).grouped_eq.trans hb.ungrouped

theorem step (hb : b.Loading) (x : Step) : (b.step x).value.2.Loading := by
  cases x with
  | add name => exact hb.add name
  | token text =>
    change (b.addToken text).value.2.Loading
    cases htoken : Token.ofText text with
    | error e =>
      rw [addToken_of_error htoken]
      exact hb
    | ok t =>
      rw [addToken_of_ok htoken]
      exact hb.add t.name
  | define name patterns =>
    change (b.define name patterns).2.Loading
    unfold define
    split <;> exact ⟨hb.sound, hb.ungrouped⟩
  | push limit patterns =>
    change (b.pushLimit limit patterns).2.Loading
    unfold pushLimit
    split <;> exact ⟨hb.sound, hb.ungrouped⟩
  | query q => exact hb

theorem run (hb : b.Loading) (xs : List Step) : (b.run xs).value.2.Loading := by
  induction xs generalizing b with
  | nil => exact hb
  | cons x xs ih => exact ih (hb.step x)

lemma table_sound (hb : b.Loading) : Table.Sound b.strings b.table := hb.sound

lemma finish_sound (hb : b.Loading) : Table.Sound b.strings b.finish.value.table := by
  rw [table_finish]
  exact hb.table_sound.group.stamp b.limits (Table.numbered_group b.table).grouped

end Loading

lemma finish_numbered (b : Builder) : b.finish.value.table.Numbered := by
  rw [table_finish]
  exact b.limits.numbered_stamp (Table.numbered_group b.table)

lemma sameOrigin_finish (b : Builder) : Table.SameOrigin b.table b.finish.value.table := by
  rw [table_finish]
  exact (Table.sameOrigin_group b.table).trans (b.limits.sameOrigin_stamp b.table.group.value)

section Accepted

lemma run_cons (b : Builder) (x : Step) (xs : List Step) : b.run (x :: xs) =
    ⟨((b.step x).value.1 :: ((b.step x).value.2.run xs).value.1,
      ((b.step x).value.2.run xs).value.2),
      (b.step x).events ++ ((b.step x).value.2.run xs).events⟩ :=
  congrArg (Logged.mk _) (congrArg _ (List.append_nil _))

lemma accepted_cons (b : Builder) (x : Step) (xs : List Step) : b.accepted (x :: xs) =
    if (b.step x).value.1.refused then (b.step x).value.2.accepted xs
    else x :: (b.step x).value.2.accepted xs := by
  rw [accepted, run_cons, List.zip_cons_cons, List.filter_cons]
  cases (b.step x).value.1.refused <;> rfl

lemma Loading.mem_names_add (hb : b.Loading) (name other : String) :
    other ∈ (b.add name).value.2.table.nameList.names ↔ other ∈ b.table.nameList.names ∨
      (((b.add name).value.1.isOk = true) ∧ other = name) := by
  have h := hb.sound.mem_names_intern name other
  rw [add_eq, isOk_mapError]
  exact h

/-- A step brings in the name it is to bring in, unless it is refused. -/
lemma Loading.mem_names_step (hb : b.Loading) (x : Step) (other : String) :
    other ∈ (b.step x).value.2.table.nameList.names ↔ other ∈ b.table.nameList.names ∨
      ((b.step x).value.1.refused = false ∧ x.name? = some other) := by
  cases x with
  | add name =>
    have hrefused : (b.step (.add name)).value.1.refused = !(b.add name).value.1.isOk := rfl
    have hname : (Step.add name).name? = some name := rfl
    rw [hrefused, hname, Bool.not_eq_false', Option.some_inj, eq_comm (a := name)]
    exact hb.mem_names_add name other
  | token text =>
    have hrefused : (b.step (.token text)).value.1.refused = !(b.addToken text).value.1.isOk := rfl
    have hnext : (b.step (.token text)).value.2 = (b.addToken text).value.2 := rfl
    rw [hrefused, hnext, Step.name?]
    cases htoken : Token.ofText text with
    | error e =>
      rw [addToken_of_error htoken]
      simp [Except.toOption]
    | ok t =>
      rw [addToken_of_ok htoken, isOk_map]
      simp only [Except.toOption, Option.map_some, Bool.not_eq_false', Option.some_inj,
        eq_comm (a := t.name)]
      exact hb.mem_names_add t.name other
  | define name patterns =>
    have htable : (b.step (.define name patterns)).value.2.table = b.table := by
      change (b.define name patterns).2.table = b.table
      unfold define
      split <;> rfl
    simp [htable, Step.name?]
  | push limit patterns =>
    have htable : (b.step (.push limit patterns)).value.2.table = b.table := by
      change (b.pushLimit limit patterns).2.table = b.table
      unfold pushLimit
      split <;> rfl
    simp [htable, Step.name?]
  | query q =>
    have hnext : (b.step (.query q)).value.2 = b := rfl
    simp [hnext, Step.name?]

/-- The names of the table are those that were accepted on the way. -/
theorem Loading.mem_names_run (hb : b.Loading) (xs : List Step) (name : String) :
    name ∈ (b.run xs).value.2.table.nameList.names ↔
      name ∈ b.table.nameList.names ∨ name ∈ b.acceptedNames xs := by
  induction xs generalizing b with
  | nil =>
    have hrun : (b.run []).value.2 = b := rfl
    simp [hrun, acceptedNames, accepted]
  | cons x xs ih =>
    rw [run_cons, ih (hb.step x), hb.mem_names_step, acceptedNames, acceptedNames, accepted_cons]
    cases hrefused : (b.step x).value.1.refused with
    | true => simp
    | false => cases hname : x.name? <;> simp [hname, or_assoc, eq_comm]

/-- A step queues the rule it is to queue, unless it is refused. -/
lemma rules_step (b : Builder) (x : Step) : (b.step x).value.2.limits.rules =
    b.limits.rules ++ if (b.step x).value.1.refused then [] else x.rule?.toList := by
  have hnone : ∀ y : Step, y.rule? = none → b.limits.rules =
      b.limits.rules ++ if (b.step y).value.1.refused then [] else y.rule?.toList := by
    intro y hy
    rw [hy]
    split <;> exact (List.append_nil _).symm
  cases x with
  | add name => exact hnone (.add name) rfl
  | token text =>
    have hlimits : (b.step (.token text)).value.2.limits = b.limits := by
      change (b.addToken text).value.2.limits = b.limits
      unfold addToken
      split <;> rfl
    rw [hlimits]
    exact hnone (.token text) rfl
  | define name patterns =>
    cases hrule : Reach.Rule.ofDefine name patterns with
    | error e => simp [step, define, hrule, Answer.refused, Except.isOk, Except.toBool]
    | ok rule =>
      simp [step, define, hrule, Answer.refused, Except.isOk, Except.toBool, Step.rule?,
        Except.toOption, pushRule, Reach.Registry.push]
  | push limit patterns =>
    cases hrule : Reach.Rule.ofLimit limit patterns with
    | error e => simp [step, pushLimit, hrule, Answer.refused, Except.isOk, Except.toBool]
    | ok rule =>
      simp [step, pushLimit, hrule, Answer.refused, Except.isOk, Except.toBool, Step.rule?,
        Except.toOption, pushRule, Reach.Registry.push]
  | query q => exact hnone (.query q) rfl

/-- The rules that are queued are those that were accepted on the way, in their order. -/
theorem rules_run (b : Builder) (xs : List Step) :
    (b.run xs).value.2.limits.rules = b.limits.rules ++ b.acceptedRules xs := by
  induction xs generalizing b with
  | nil => exact (List.append_nil _).symm
  | cons x xs ih =>
    rw [run_cons, ih, rules_step, acceptedRules, acceptedRules, accepted_cons, List.append_assoc]
    cases (b.step x).value.1.refused with
    | true => simp
    | false => cases hrule : x.rule? <;> simp [hrule]

end Accepted

end Builder

end LinkConnectors
