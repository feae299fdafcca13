import LinkConnectors.Proofs.Dictionary.Loading

/-! Refused steps while a dictionary loads. They leave as little behind as refused steps of any
session, so the finished dictionary answers as if they had not been taken. -/
namespace LinkConnectors.Builder

def Answer.plain : Answer → Answer
  | .reply r => .reply r.plain
  | a => a

variable {b c : Builder}

section Step

lemma Loading.add_congr (hb : b.Loading) (hc : c.Loading) (h : c.session.plain = b.session.plain)
    (name : String) :
    (c.add name).value.1 = (b.add name).value.1 ∧
      (c.add name).value.2.session.plain = (b.add name).value.2.session.plain ∧
      plainEvents (c.add name).events = plainEvents (b.add name).events := by
  obtain ⟨hanswer, hrest⟩ := hb.sound.intern_congr hc.sound h name
  rw [add_eq, add_eq, hanswer]
  exact ⟨rfl, hrest⟩

lemma Loading.add_refused (hb : b.Loading) {name : String}
    (hrefused : (b.add name).value.1.isOk = false) :
    (b.add name).value.2.session.plain = b.session.plain ∧
      plainEvents (b.add name).events = [] := by
  rw [add_eq, isOk_mapError] at hrefused
  cases hanswer : (b.session.intern name).value.1 with
  | ok id =>
    rw [hanswer] at hrefused
    cases hrefused
  | error err => exact hb.sound.intern_refused hanswer

/-- What a step gives in a builder, beside what it gives in one that shows the same and leaves
refused steps out. -/
inductive Replayed (b : Builder) (r q : Logged (Answer × Builder)) : Prop
  | refused (hrefused : r.value.1.refused = true)
      (hplain : r.value.2.session.plain = b.session.plain)
      (hevents : plainEvents r.events = [])
  | kept (hkept : r.value.1.refused = false) (hanswer : q.value.1.plain = r.value.1.plain)
      (hplain : q.value.2.session.plain = r.value.2.session.plain)
      (hevents : plainEvents q.events = plainEvents r.events)

/-- Queues a rule, or tells why there is none. -/
def queue (b : Builder) : Except Reach.LimitError Reach.Rule → Logged (Answer × Builder)
  | .error e => pure (.queued (.error (.limit e)), b)
  | .ok rule => pure (.queued (.ok ()), b.pushRule rule)

lemma step_define (b : Builder) (name : String) (patterns : List String) :
    b.step (.define name patterns) = b.queue (Reach.Rule.ofDefine name patterns) := by
  change pure (Answer.queued (b.define name patterns).1, (b.define name patterns).2) = _
  unfold define
  cases Reach.Rule.ofDefine name patterns <;> rfl

lemma step_push (b : Builder) (limit : Nat) (patterns : List String) :
    b.step (.push limit patterns) = b.queue (Reach.Rule.ofLimit limit patterns) := by
  change pure (Answer.queued (b.pushLimit limit patterns).1, (b.pushLimit limit patterns).2) = _
  unfold pushLimit
  cases Reach.Rule.ofLimit limit patterns <;> rfl

/-- A rule is queued or refused, whatever is in the table. -/
lemma replayed_queue (h : c.session.plain = b.session.plain)
    (r : Except Reach.LimitError Reach.Rule) :
    Replayed b (b.queue r) (c.queue r) := by
  cases r with
  | error e => exact .refused rfl rfl rfl
  | ok rule =>
    have htable := TableSession.table_of_plain_eq h
    have hlimits : c.limits.push rule = b.limits.push rule :=
      congrArg (fun r : Reach.Registry => r.push rule) (TableSession.registry_of_plain_eq h)
    exact .kept rfl rfl (TableSession.plain_eq htable hlimits) rfl

lemma step_add (b : Builder) (name : String) : b.step (.add name) =
    ⟨(.added (b.add name).value.1, (b.add name).value.2), (b.add name).events⟩ :=
  Logged.bind_pure_eq _ _

lemma step_token (b : Builder) (text : String) : b.step (.token text) =
    ⟨(.resolved (b.addToken text).value.1, (b.addToken text).value.2), (b.addToken text).events⟩ :=
  Logged.bind_pure_eq _ _

lemma step_token_of_ok (b : Builder) {text : String} {t : Token} (h : Token.ofText text = .ok t) :
    b.step (.token text) =
      ⟨(.resolved ((b.add t.name).value.1.map fun id => ⟨id, t.direction, t.multi⟩),
        (b.add t.name).value.2),
        (b.add t.name).events⟩ := by
  rw [step_token, addToken_of_ok h]

lemma step_token_of_error (b : Builder) {text : String} {e : TokenError}
    (h : Token.ofText text = .error e) :
    b.step (.token text) = ⟨(.resolved (.error (.token e)), b), []⟩ := by
  rw [step_token, addToken_of_error h]
  rfl

/-- A step is refused and shows nothing, or it has the same effect wherever the same is shown. -/
theorem Loading.replayed (hb : b.Loading) (hc : c.Loading) (h : c.session.plain = b.session.plain)
    (x : Step) :
    Replayed b (b.step x) (c.step x) := by
  cases x with
  | add name =>
    rw [step_add, step_add]
    cases hok : (b.add name).value.1.isOk with
    | false =>
      obtain ⟨hplain, hevents⟩ := hb.add_refused hok
      exact .refused (congrArg not hok) hplain hevents
    | true =>
      obtain ⟨hanswer, hplain, hevents⟩ := hb.add_congr hc h name
      exact .kept (congrArg not hok) (congrArg Answer.added hanswer) hplain hevents
  | token text =>
    cases htoken : Token.ofText text with
    | error e =>
      rw [step_token_of_error b htoken]
      exact .refused rfl rfl rfl
    | ok t =>
      have hrefused : ∀ r : Except LoadError Nat,
          (Answer.resolved (r.map fun id => ⟨id, t.direction, t.multi⟩)).refused = !r.isOk :=
        fun r => congrArg not (isOk_map r _)
      rw [step_token_of_ok b htoken, step_token_of_ok c htoken]
      cases hok : (b.add t.name).value.1.isOk with
      | false =>
        obtain ⟨hplain, hevents⟩ := hb.add_refused hok
        exact .refused ((hrefused _).trans (congrArg not hok)) hplain hevents
      | true =>
        obtain ⟨hanswer, hplain, hevents⟩ := hb.add_congr hc h t.name
        rw [hanswer]
        exact .kept ((hrefused _).trans (congrArg not hok)) rfl hplain hevents
  | define name patterns =>
    rw [step_define, step_define]
    exact replayed_queue h _
  | push limit patterns =>
    rw [step_push, step_push]
    exact replayed_queue h _
  | query q =>
    have hreply := Table.Sound.reply_congr hc.sound hb.sound (TableSession.table_of_plain_eq h) q
    exact .kept rfl (congrArg Answer.reply hreply) h rfl

end Step

/-- The accepted steps alone get the answers they got among the others, and lead to a builder that
shows the same. -/
theorem Loading.replay (hb : b.Loading) (hc : c.Loading) (h : c.session.plain = b.session.plain)
    (xs : List Step) :
    let r := b.run xs
    let q := c.run (b.accepted xs)
    q.value.1.map Answer.plain = (r.value.1.filter fun a => !a.refused).map Answer.plain ∧
      plainEvents q.events = plainEvents r.events ∧
        q.value.2.session.plain = r.value.2.session.plain := by
  induction xs generalizing b c with
  | nil => exact ⟨rfl, rfl, h⟩
  | cons x xs ih =>
    rw [accepted_cons, run_cons]
    dsimp only
    rw [plainEvents_append, List.filter_cons]
    cases hb.replayed hc h x with
    | refused hrefused hplain hevents =>
      rw [hrefused, hevents]
      exact ih (hb.step x) hc (h.trans hplain.symm)
    | kept hkept hanswer hplain hevents =>
      obtain ⟨ihanswers, ihlog, ihplain⟩ := ih (hb.step x) (hc.step x) hplain
      rw [hkept, if_neg Bool.false_ne_true, run_cons]
      dsimp only
      rw [plainEvents_append, hevents, ihlog, List.map_cons, hanswer, ihanswers]
      exact ⟨rfl, rfl, ihplain⟩

section Finish

lemma plainEvents_finish (b : Builder) : plainEvents b.finish.events =
    plainEvents b.table.group.events ++ (plainEvents (b.limits.stamp b.table.group.value).events ++
      [.dictionaryReady b.finish.value.table.size b.finish.value.table.coreCount 0]) := by
  rw [events_finish, List.append_assoc, plainEvents_append, plainEvents_append]
  rfl

/-- What a finished dictionary shows is decided by what the builder showed. -/
lemma stamp_group_plain (b : Builder) : b.limits.stamp b.table.plain.group.value =
    ⟨b.finish.value.table.plain, (b.limits.stamp b.table.group.value).events⟩ := by
  rw [b.table.group_plain, table_finish]
  exact (Table.numbered_group b.table).stamp_plain b.limits

theorem finish_congr (h : c.session.plain = b.session.plain) :
    c.finish.value.table.plain = b.finish.value.table.plain ∧
      plainEvents c.finish.events = plainEvents b.finish.events := by
  have hlimits : c.limits = b.limits := TableSession.registry_of_plain_eq h
  have htable : c.table.plain = b.table.plain := TableSession.table_of_plain_eq h
  have hgroup := c.table.group_plain
  rw [htable, b.table.group_plain] at hgroup
  have hstamp := c.stamp_group_plain
  rw [hlimits, htable, b.stamp_group_plain] at hstamp
  obtain ⟨hfinish, hstampEvents⟩ := Logged.mk.inj hstamp
  have hsize := congrArg Table.size hfinish
  have hcores := congrArg Table.coreCount hfinish
  rw [Table.size_plain, Table.size_plain] at hsize
  rw [Table.coreCount_plain, Table.coreCount_plain] at hcores
  refine ⟨hfinish.symm, ?_⟩
  rw [plainEvents_finish, plainEvents_finish, (Logged.mk.inj hgroup).2, hlimits, hstampEvents,
    hsize, hcores]

end Finish

/-- Refused steps can be left out. In a session of a table, and while a dictionary loads, the other
steps get the same answers without them, whatever is asked, and log the same but for slots and the
size of the interner. A text that is no token does not touch even the interner. -/
theorem refused_steps_leave_no_trace :
    (∀ (count : Nat) (xs : List TableSession.Step),
      let s := TableSession.start count
      let kept := (s.survivors xs).map Prod.fst
      s.answers kept = (s.survivors xs).map Prod.snd ∧ s.log kept = s.log xs ∧
        (s.after kept).plain = (s.after xs).plain) ∧
    (∀ (count : Nat) (xs : List Step),
      let b := ofExpected count
      let r := b.run xs
      let q := b.run (b.accepted xs)
      q.value.1.map Answer.plain = (r.value.1.filter fun a => !a.refused).map Answer.plain ∧
        plainEvents q.events = plainEvents r.events ∧
        q.value.2.session.plain = r.value.2.session.plain ∧
        (∀ query, (q.value.2.finish.value.table.reply query).plain =
          (r.value.2.finish.value.table.reply query).plain) ∧
        plainEvents q.value.2.finish.events = plainEvents r.value.2.finish.events) ∧
    ∀ (b : Builder) (text : String) (e : TokenError), Token.ofText text = .error e →
      b.addToken text = pure (.error (.token e), b) := by
  refine ⟨fun count xs => ?_, fun count xs => ?_, fun b text e htoken => addToken_of_error htoken⟩
  · have hs := TableSession.sound_start count
    exact hs.replay hs rfl xs
  · intro b r q
    have hb : b.Loading := loading_ofExpected count
    obtain ⟨hanswers, hlog, hplain⟩ := hb.replay hb rfl xs
    obtain ⟨hfinish, hfinishLog⟩ := finish_congr hplain
    refine ⟨hanswers, hlog, hplain, fun query => ?_, hfinishLog⟩
    exact ((hb.run _).finish_sound).reply_congr (hb.run xs).finish_sound hfinish query

/-- Malformed names, a rule without a limit and rules that are applied too early are left out. -/
theorem answers_without_refusals :
    let xs : List TableSession.Step := [.intern "x", .intern "Ss", .push (.limit 0) ["S"],
      .internAll ["O", "y", "Ss"], .applyCopy, .query (.lookup "O"), .group]
    let kept : List TableSession.Step :=
      [.intern "Ss", .internAll ["O", "Ss"], .query (.lookup "O"), .group]
    (TableSession.start 0).answers kept = ((TableSession.start 0).survivors xs).map Prod.snd ∧
      (ofExpected 0).addToken "Ss" =
        pure (.error (.token (.missingDirection "Ss")), ofExpected 0) := by
  intro xs kept
  obtain ⟨hsession, _, htoken⟩ := refused_steps_leave_no_trace
  have hkept : ((TableSession.start 0).survivors xs).map Prod.fst = kept := by decide +kernel
  have hanswers := (hsession 0 xs).1
  rw [hkept] at hanswers
  exact ⟨hanswers, htoken _ "Ss" _ (by decide)⟩

end LinkConnectors.Builder
