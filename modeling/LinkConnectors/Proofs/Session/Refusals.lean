import LinkConnectors.Proofs.Session.Limits
import LinkConnectors.Proofs.Table.Plain

/-! Refused steps. A name or a rule that is refused leaves nothing behind that a user of the session
could see, so the session goes on as if the step had not been taken. -/
namespace LinkConnectors.TableSession

/-- What a session shows to its users. -/
def plain (s : TableSession) : TableSession := { s with strings := {}, table := s.table.plain }

def Answer.plain : Answer → Answer
  | .reply r => .reply r.plain
  | a => a

/-- The names that were taken, of several names with the answers to them. -/
def takenOf (names : List String) (rs : List (Except TableError Nat)) : List String :=
  ((names.zip rs).filter fun p => p.2.isOk).map Prod.fst

/-- What is left of a step and of the answer to it when refusals are left out. Of several names
those that were taken are left. Applying rules too early is refused as well, but it forgets the
rules, so it is left as it is. -/
def survivor? : Step → Answer → Option (Step × Answer)
  | .intern _, .interned (.error _) => none
  | .internAll names, .internedAll rs =>
    some (.internAll (takenOf names rs), .internedAll (rs.filter Except.isOk))
  | .push _ _, .pushed (.error _) => none
  | .applyCopy, .applied (.error _) => none
  | x, a => some (x, a.plain)

/-- What is left of the steps of a session, each with what is left of its answer. -/
def survivors (s : TableSession) : List Step → List (Step × Answer)
  | [] => []
  | x :: xs => (survivor? x (s.step x).value.1).toList ++ (s.step x).value.2.survivors xs

/-- The answers to the steps of a session, as far as they show. -/
def answers (s : TableSession) (xs : List Step) : List Answer :=
  (s.run xs).map fun r => r.value.1.plain

/-- The log of a session, as far as it does not tell of slots. -/
def log (s : TableSession) (xs : List Step) : List Event :=
  (s.run xs).flatMap fun r => plainEvents r.events

variable {s u : TableSession}

lemma table_of_plain_eq (h : u.plain = s.plain) : u.table.plain = s.table.plain :=
  congrArg TableSession.table h

lemma registry_of_plain_eq (h : u.plain = s.plain) : u.registry = s.registry := by
  change u.plain.registry = s.plain.registry
  rw [h]

lemma grouped_of_plain_eq (h : u.plain = s.plain) : u.table.grouped = s.table.grouped := by
  change u.plain.table.grouped = s.plain.table.grouped
  rw [h]

lemma plain_eq (htable : u.table.plain = s.table.plain) (hregistry : u.registry = s.registry) :
    u.plain = s.plain := by
  rw [plain, plain, htable, hregistry]

section Step

lemma step_expect (s : TableSession) (count : Nat) : s.step (.expect count) =
    ⟨(.done, { s with table := (s.table.expect count).value }), (s.table.expect count).events⟩ :=
  Logged.bind_pure_eq _ _

lemma step_intern (s : TableSession) (name : String) : s.step (.intern name) =
    ⟨(.interned (s.intern name).value.1, (s.intern name).value.2), (s.intern name).events⟩ :=
  Logged.bind_pure_eq _ _

lemma step_internAll (s : TableSession) (names : List String) : s.step (.internAll names) =
    ⟨(.internedAll (s.internAll names).value.1, (s.internAll names).value.2),
      (s.internAll names).events⟩ :=
  Logged.bind_pure_eq _ _

lemma step_group (s : TableSession) : s.step .group =
    ⟨(.done, { s with table := s.table.group.value }), s.table.group.events⟩ :=
  Logged.bind_pure_eq _ _

lemma step_apply (s : TableSession) : s.step .apply =
    ⟨(.applied (s.applyRules {}).value.1, (s.applyRules {}).value.2), (s.applyRules {}).events⟩ :=
  Logged.bind_pure_eq _ _

lemma step_applyCopy (s : TableSession) : s.step .applyCopy =
    ⟨(.applied (s.applyRules s.registry).value.1, (s.applyRules s.registry).value.2),
      (s.applyRules s.registry).events⟩ :=
  Logged.bind_pure_eq _ _

end Step

section Intern

/-- What interning a name shows is decided by what the session has shown. -/
lemma Sound.intern_plain (hs : s.Sound) (name : String) :
    (s.intern name).value.1 = (s.table.plain.internName name).value.1 ∧
      (s.intern name).value.2.table.plain = (s.table.plain.internName name).value.2 ∧
      plainEvents (s.intern name).events = (s.table.plain.internName name).events := by
  have h := (hs.interning name).plain_eq (hs.add name)
  rw [Interner.add_text] at h
  rw [← h, intern_events]
  exact ⟨rfl, rfl, rfl⟩

lemma Sound.intern_congr (hs : s.Sound) (hu : u.Sound) (h : u.plain = s.plain) (name : String) :
    (u.intern name).value.1 = (s.intern name).value.1 ∧
      (u.intern name).value.2.plain = (s.intern name).value.2.plain ∧
      plainEvents (u.intern name).events = plainEvents (s.intern name).events := by
  obtain ⟨hsanswer, hstable, hsevents⟩ := hs.intern_plain name
  obtain ⟨huanswer, hutable, huevents⟩ := hu.intern_plain name
  rw [table_of_plain_eq h] at huanswer hutable huevents
  have hregistry := registry_of_plain_eq h
  exact ⟨huanswer.trans hsanswer.symm, plain_eq (hutable.trans hstable.symm) hregistry,
    huevents.trans hsevents.symm⟩

/-- A refused name may have gone into the interner, and there may be slots now, but nothing of it
shows. -/
lemma Sound.intern_refused (hs : s.Sound) {name : String} {err : TableError}
    (herr : (s.intern name).value.1 = .error err) :
    (s.intern name).value.2.plain = s.plain ∧ plainEvents (s.intern name).events = [] := by
  obtain ⟨hanswer, htable, hevents⟩ := hs.intern_plain name
  have hrefused := Table.internName_of_error (hanswer.symm.trans herr)
  rw [hrefused] at htable hevents
  exact ⟨plain_eq htable rfl, hevents⟩

lemma internAll_cons (s : TableSession) (name : String) (names : List String) :
    s.internAll (name :: names) =
      ⟨((s.intern name).value.1 :: ((s.intern name).value.2.internAll names).value.1,
        ((s.intern name).value.2.internAll names).value.2),
        (s.intern name).events ++ ((s.intern name).value.2.internAll names).events⟩ :=
  congrArg (Logged.mk _) (congrArg _ (List.append_nil _))

/-- Interning the names that were taken, and no others, gives the numbers that were given. -/
lemma Sound.internAll_taken (hs : s.Sound) (hu : u.Sound) (h : u.plain = s.plain)
    (names : List String) :
    let r := s.internAll names
    let q := u.internAll (takenOf names r.value.1)
    q.value.1 = r.value.1.filter Except.isOk ∧ q.value.2.plain = r.value.2.plain ∧
      plainEvents q.events = plainEvents r.events := by
  induction names generalizing s u with
  | nil => exact ⟨rfl, h, rfl⟩
  | cons name names ih =>
    rw [internAll_cons]
    dsimp only
    rw [plainEvents_append]
    cases hanswer : (s.intern name).value.1 with
    | error err =>
      -- the name is not among those that were taken, so the other session stays where it is
      obtain ⟨hplain, hnone⟩ := hs.intern_refused hanswer
      rw [hnone]
      exact ih (hs.intern name) hu (h.trans hplain.symm)
    | ok id =>
      obtain ⟨hsame, hplain, hlog⟩ := hs.intern_congr hu h name
      obtain ⟨ihanswers, ihplain, ihlog⟩ := ih (hs.intern name) (hu.intern name) hplain
      have htaken : ∀ rs, takenOf (name :: names) (.ok id :: rs) = name :: takenOf names rs :=
        fun _ => rfl
      rw [htaken, internAll_cons]
      dsimp only
      rw [hsame, hanswer, ihanswers, ihplain, plainEvents_append, hlog, ihlog]
      exact ⟨rfl, rfl, rfl⟩

end Intern

section Rules

variable {kept : Reach.Registry}

lemma applyRules_of_grouped (hg : s.table.grouped = true) : s.applyRules kept =
    ⟨(.ok (), { s with table := (s.registry.stamp s.table).value, registry := kept }),
      (s.registry.stamp s.table).events⟩ := by
  unfold applyRules
  rw [Reach.Registry.apply_of_grouped hg]
  exact congrArg (Logged.mk _) (List.append_nil _)

lemma applyRules_of_not_grouped (hg : s.table.grouped = false) :
    s.applyRules kept = ⟨(.error .notGrouped, { s with registry := kept }), []⟩ := by
  unfold applyRules
  rw [Reach.Registry.apply_of_not_grouped hg]
  rfl

/-- What stamping shows is decided by what the sessions have shown. -/
lemma Sound.stamp_congr (hs : s.Sound) (hu : u.Sound) (h : u.plain = s.plain)
    (hg : s.table.grouped = true) :
    (u.registry.stamp u.table).value.plain = (s.registry.stamp s.table).value.plain ∧
      (u.registry.stamp u.table).events = (s.registry.stamp s.table).events := by
  have hsplain := (hs.numbered hg).stamp_plain s.registry
  have huplain := (hu.numbered ((grouped_of_plain_eq h).trans hg)).stamp_plain u.registry
  rw [table_of_plain_eq h, registry_of_plain_eq h, hsplain] at huplain
  rw [registry_of_plain_eq h]
  exact ⟨(congrArg Logged.value huplain).symm, (congrArg Logged.events huplain).symm⟩

end Rules

/-- A step is refused and shows nothing, or what is left of it has the same effect in a session that
shows the same. -/
theorem Sound.survivor (hs : s.Sound) (hu : u.Sound) (h : u.plain = s.plain) (x : Step) :
    (survivor? x (s.step x).value.1 = none ∧ (s.step x).value.2.plain = s.plain ∧
      plainEvents (s.step x).events = []) ∨
    ∃ y, survivor? x (s.step x).value.1 = some (y, (u.step y).value.1.plain) ∧
      (u.step y).value.2.plain = (s.step x).value.2.plain ∧
      plainEvents (u.step y).events = plainEvents (s.step x).events := by
  have hregistry := registry_of_plain_eq h
  cases x with
  | expect count =>
    obtain ⟨hstable, hsevents⟩ := s.table.expect_plain count
    obtain ⟨hutable, huevents⟩ := u.table.expect_plain count
    have htable := hutable.trans ((table_of_plain_eq h).trans hstable.symm)
    refine .inr ⟨.expect count, ?_⟩
    rw [step_expect, step_expect]
    exact ⟨rfl, plain_eq htable hregistry, huevents.trans hsevents.symm⟩
  | intern name =>
    rw [step_intern]
    cases hanswer : (s.intern name).value.1 with
    | error err => exact .inl ⟨rfl, hs.intern_refused hanswer⟩
    | ok id =>
      obtain ⟨hsame, hplain, hlog⟩ := hs.intern_congr hu h name
      refine .inr ⟨.intern name, ?_⟩
      rw [step_intern, hsame, hanswer]
      exact ⟨rfl, hplain, hlog⟩
  | internAll names =>
    obtain ⟨hsame, hplain, hlog⟩ := hs.internAll_taken hu h names
    refine .inr ⟨.internAll (takenOf names (s.internAll names).value.1), ?_⟩
    rw [step_internAll, step_internAll, hsame]
    exact ⟨rfl, hplain, hlog⟩
  | group =>
    have hgroup := u.table.group_plain
    rw [table_of_plain_eq h, s.table.group_plain] at hgroup
    obtain ⟨htable, hevents⟩ := Logged.mk.inj hgroup
    refine .inr ⟨.group, ?_⟩
    rw [step_group, step_group, hevents]
    exact ⟨rfl, plain_eq htable.symm hregistry, rfl⟩
  | push head patterns =>
    cases hrule : head.rule patterns with
    | error err =>
      rw [step_push_of_error hrule]
      exact .inl ⟨rfl, rfl, rfl⟩
    | ok rule =>
      have htable := table_of_plain_eq h
      refine .inr ⟨.push head patterns, ?_⟩
      rw [step_push_of_ok hrule, step_push_of_ok hrule, hregistry]
      exact ⟨rfl, plain_eq htable rfl, rfl⟩
  | registry =>
    refine .inr ⟨.registry, ?_, h, rfl⟩
    exact congrArg (fun r => some (_, Answer.registry r)) hregistry.symm
  | apply =>
    refine .inr ⟨.apply, ?_⟩
    rw [step_apply, step_apply]
    cases hg : s.table.grouped with
    | false =>
      have htable := table_of_plain_eq h
      rw [applyRules_of_not_grouped hg,
        applyRules_of_not_grouped ((grouped_of_plain_eq h).trans hg)]
      exact ⟨rfl, plain_eq htable rfl, rfl⟩
    | true =>
      obtain ⟨htable, hevents⟩ := hs.stamp_congr hu h hg
      rw [applyRules_of_grouped hg, applyRules_of_grouped ((grouped_of_plain_eq h).trans hg),
        hevents]
      exact ⟨rfl, plain_eq htable rfl, rfl⟩
  | applyCopy =>
    rw [step_applyCopy]
    cases hg : s.table.grouped with
    | false =>
      rw [applyRules_of_not_grouped hg]
      exact .inl ⟨rfl, rfl, rfl⟩
    | true =>
      obtain ⟨htable, hevents⟩ := hs.stamp_congr hu h hg
      refine .inr ⟨.applyCopy, ?_⟩
      rw [step_applyCopy, applyRules_of_grouped hg,
        applyRules_of_grouped ((grouped_of_plain_eq h).trans hg), hevents]
      exact ⟨rfl, plain_eq htable hregistry, rfl⟩
  | query q =>
    refine .inr ⟨.query q, ?_, h, rfl⟩
    have hreply := Table.Sound.reply_congr hu hs (table_of_plain_eq h) q
    exact congrArg (fun r => some (_, Answer.reply r)) hreply.symm

/-- The steps that are left get the answers they got before, in any session that shows the same, and
lead to a session that shows the same. -/
theorem Sound.replay (hs : s.Sound) (hu : u.Sound) (h : u.plain = s.plain) (xs : List Step) :
    let kept := (s.survivors xs).map Prod.fst
    u.answers kept = (s.survivors xs).map Prod.snd ∧ u.log kept = s.log xs ∧
      (u.after kept).plain = (s.after xs).plain := by
  induction xs generalizing s u with
  | nil => exact ⟨rfl, rfl, h⟩
  | cons x xs ih =>
    have hlog : s.log (x :: xs) = plainEvents (s.step x).events ++ (s.step x).value.2.log xs :=
      List.flatMap_cons
    dsimp only
    rw [survivors, hlog, after_cons]
    obtain ⟨hnone, hplain, hevents⟩ | ⟨y, hsome, hplain, hevents⟩ := hs.survivor hu h x
    · rw [hnone, hevents]
      exact ih (hs.step x) hu (h.trans hplain.symm)
    · obtain ⟨ihanswers, ihlog, ihplain⟩ := ih (hs.step x) (hu.step y) hplain
      rw [hsome, ← hevents, ← ihlog, ← ihplain]
      refine ⟨?_, List.flatMap_cons, rfl⟩
      exact congrArg _ ihanswers

end LinkConnectors.TableSession
