import LinkConnectors.Proofs.Arena.LastWrites
import LinkConnectors.Proofs.Session.Undo
import LinkConnectors.Session.Load
import LinkConnectors.Session.Parse

/-! Histories of slots, and arenas side by side. Numbers are given out again and again, so a number
alone does not say which connector is meant. But nothing of an earlier connector is left in a slot
that has been filled anew, nothing gets across from one arena to the other, and nothing gets back
into the dictionary. -/
namespace LinkConnectors

namespace Arena

/-- What a slot was last filled with on the way, and the steps taken since then. -/
def latest? (id : Nat) : Arena → List Step → Option (Allocation × List Step)
  | _, [] => none
  | a, x :: xs =>
    (latest? id (a.step x).value.2 xs).or ((a.allocation? id x).map fun al => (al, xs))

/-- The numbers of the connectors that a step is about. -/
def Step.targets : Step → List Nat
  | .get id | .change id _ | .setNext id _ => [id]
  | .chain head _ | .release head => head.toList
  | .matching m n => [m, n]
  | .new _ _ | .newChain _ _ | .clear => []

variable {a : Arena} {id : Nat} {c : Connector} {x : Step}

/-- What is found in a slot is what it was last filled with, overwritten since then, if it was
filled at all on the way. -/
theorem Tidy.after_cases (ha : a.Tidy) (xs : List Step) (hc : (a.after xs).get? id = some c) :
    (∃ al since, latest? id a xs = some (al, since) ∧ c = overwritten al.connector id since) ∨
      (latest? id a xs = none ∧ ∃ c₀, a.get? id = some c₀ ∧ c = overwritten c₀ id xs) := by
  induction xs generalizing a with
  | nil => exact .inr ⟨rfl, c, hc, (overwritten_nil c id).symm⟩
  | cons x xs ih =>
    rw [latest?]
    obtain ⟨al, since, hlatest, heq⟩ | ⟨hlatest, c₁, hc₁, heq⟩ := ih (ha.alike.step x).2.2.left hc
    · rw [hlatest]
      exact .inl ⟨al, since, rfl, heq⟩
    · rw [hlatest, Option.none_or]
      obtain ⟨al, hal, rfl⟩ | ⟨hnone, c₀, hc₀, rfl⟩ := ha.step_cases x hc₁
      · rw [hal]
        exact .inl ⟨al, xs, rfl, heq⟩
      · rw [hnone]
        exact .inr ⟨rfl, c₀, hc₀, heq.trans (overwritten_cons c₀ id x xs).symm⟩

/-- A step about a dead number changes nothing. -/
lemma step_of_dead (hdead : a.get? id = none) (hid : id ∈ x.targets) : (a.step x).value.2 = a := by
  have hmodify : ∀ f, a.modify id f = a := by
    intro f
    rw [modify, hdead]
  cases x with
  | get slot | chain head count | matching m n => rfl
  | change slot u =>
    obtain rfl := List.mem_singleton.mp hid
    exact hmodify _
  | setNext slot next =>
    obtain rfl := List.mem_singleton.mp hid
    exact hmodify _
  | release head =>
    obtain rfl := Option.mem_toList.mp hid
    rw [step_release, release_of_remove?_eq_none (remove?_eq_none_iff.mpr hdead)]
  | new d o | newChain ds o | clear => cases hid

end Arena

lemma Both.set_get {α : Type} (b : Both α) (side : Side) : b.set side (b.get side) = b := by
  cases side <;> rfl

namespace ParseSession

/-- The work on an arena that an action comes down to, if it comes down to any. -/
def Action.arenaStep? (d : Dictionary) : Action → Option Arena.Step
  | .new name o => (d.descriptor? name).map fun e => .new e o
  | .newChain names o => (d.descriptors? names).map fun es => .newChain es o
  | .arena x => some x
  | _ => none

/-- The work that a step does on one of the arenas. -/
def Step.workAt? (d : Dictionary) (side : Side) (x : Step) : Option Arena.Step :=
  if x.side = side then x.action.arenaStep? d else none

/-- All the work that is done on one of the arenas, in order. -/
def workAt (d : Dictionary) (side : Side) (xs : List Step) : List Arena.Step :=
  xs.filterMap (Step.workAt? d side)

/-- The session that the steps lead to. -/
def after (s : ParseSession) (xs : List Step) : ParseSession :=
  xs.foldl (fun s x => (s.step x).value.2) s

lemma stepArena_eq (s : ParseSession) (side : Side) (y : Arena.Step) : s.stepArena side y =
    ⟨(.arena ((s.arenas.get side).step y).value.1,
      { s with arenas := s.arenas.set side ((s.arenas.get side).step y).value.2 }),
      ((s.arenas.get side).step y).events⟩ := Logged.bind_pure_eq _ _

/-- What the dictionary says of a step: it is work on one of the arenas, or there is an answer that
changes nothing. -/
theorem step_cases (d : Dictionary) (x : Step) :
    (∃ y, x.action.arenaStep? d = some y ∧ ∀ s : ParseSession, s.dictionary = d →
      s.step x = s.stepArena x.side y) ∨
      (x.action.arenaStep? d = none ∧
        ∃ answer, ∀ s : ParseSession, s.dictionary = d → s.step x = pure (answer, s)) := by
  obtain ⟨side, action⟩ := x
  -- where no names are looked up in vain, the answer is the one that a new session gives
  have hidle : (∀ s : ParseSession, s.dictionary = d →
      s.step ⟨side, action⟩ = pure ((step { dictionary := d } ⟨side, action⟩).value.1, s)) →
      ∃ answer, ∀ s : ParseSession, s.dictionary = d → s.step ⟨side, action⟩ = pure (answer, s) :=
    fun h => ⟨_, h⟩
  cases action with
  | arena y => exact .inl ⟨y, rfl, fun _ _ => rfl⟩
  | query q | descriptor name | pairHash tableSize k =>
    refine .inr ⟨rfl, hidle ?_⟩
    rintro ⟨_, arenas⟩ rfl
    rfl
  | matchNames m n | limit name o =>
    refine .inr ⟨rfl, hidle ?_⟩
    rintro ⟨_, arenas⟩ rfl
    unfold step
    dsimp only
    split <;> rfl
  | new name o =>
    cases hd : d.descriptor? name with
    | some e =>
      refine .inl ⟨.new e o, by rw [Action.arenaStep?, hd, Option.map_some], fun s hs => ?_⟩
      unfold step
      dsimp only
      rw [hs, hd]
    | none =>
      refine .inr ⟨by rw [Action.arenaStep?, hd, Option.map_none], .unknownName, fun s hs => ?_⟩
      unfold step
      dsimp only
      rw [hs, hd]
  | newChain names o =>
    cases hds : d.descriptors? names with
    | some es =>
      refine .inl ⟨.newChain es o, by rw [Action.arenaStep?, hds, Option.map_some], fun s hs => ?_⟩
      unfold step
      dsimp only
      rw [hs, hds]
    | none =>
      refine .inr ⟨by rw [Action.arenaStep?, hds, Option.map_none], .unknownName, fun s hs => ?_⟩
      unfold step
      dsimp only
      rw [hs, hds]

lemma step_dictionary (s : ParseSession) (x : Step) :
    (s.step x).value.2.dictionary = s.dictionary := by
  obtain ⟨y, _, hstep⟩ | ⟨_, answer, hstep⟩ := step_cases s.dictionary x
  · rw [hstep s rfl, stepArena_eq]
  · rw [hstep s rfl]
    rfl

/-- Of a step, an arena sees the work that is done on it, and nothing else. -/
lemma step_arena (s : ParseSession) (side : Side) (x : Step) : (s.step x).value.2.arenas.get side =
    (x.workAt? s.dictionary side).elim (s.arenas.get side) fun y =>
      ((s.arenas.get side).step y).value.2 := by
  obtain ⟨y, hy, hstep⟩ | ⟨hnone, answer, hstep⟩ := step_cases s.dictionary x
  · rw [hstep s rfl, stepArena_eq, Step.workAt?, hy]
    by_cases hside : x.side = side
    · rw [if_pos hside, hside, Both.get_set_self]
      rfl
    · rw [if_neg hside, Both.get_set_of_ne _ hside]
      rfl
  · rw [hstep s rfl, Step.workAt?, hnone, ite_self]
    rfl

theorem after_dictionary (s : ParseSession) (xs : List Step) :
    (s.after xs).dictionary = s.dictionary := by
  induction xs generalizing s with
  | nil => rfl
  | cons x xs ih => exact (ih (s.step x).value.2).trans (s.step_dictionary x)

/-- Of a whole session, an arena sees the work that is done on it, and nothing else. -/
theorem after_arena (s : ParseSession) (side : Side) (xs : List Step) :
    (s.after xs).arenas.get side = (s.arenas.get side).after (workAt s.dictionary side xs) := by
  induction xs generalizing s with
  | nil => rfl
  | cons x xs ih =>
    have hrest := ih (s.step x).value.2
    rw [step_dictionary, step_arena] at hrest
    rw [workAt]
    cases hx : x.workAt? s.dictionary side with
    | none =>
      rw [List.filterMap_cons_none hx]
      rw [hx] at hrest
      exact hrest
    | some y =>
      rw [List.filterMap_cons_some hx]
      rw [hx] at hrest
      exact hrest

/-- Whatever is done in whatever order on two arenas over one dictionary, on live numbers and on
dead ones, the dictionary gives the answers that it gave at the start, and each arena is what the
work on it alone makes of it. A live slot has the descriptor that it was last filled with, the limit
that follows from it under the options given then or when the limit was last computed, and in all
other fields what was last written since then, or what a new connector has there. A connector or a
chain that is made next is live as it is made. Work at dead numbers and work on the other arena
leave the slots as they are. Fewer than `2 ^ 32` slots are assumed, so that numbers and slots are
the same. -/
theorem slots_isolated (d : Dictionary) (xs : List Step) :
    let s := after { dictionary := d } xs
    s.dictionary = d ∧
    (∀ x : Step, x.action.arenaStep? d = none → s.step x =
      pure ((step { dictionary := d } x).value.1, s)) ∧
    ∀ side,
      let a := s.arenas.get side
      let ys := workAt d side xs
      a = Arena.after {} ys ∧
      (∀ id c, a.get? id = some c → ∃ al since, Arena.latest? id {} ys = some (al, since) ∧
        c.descriptor = al.descriptor ∧
        c.limit = Reach.effectiveLimit al.descriptor
          (Arena.lastWritten (Arena.Step.options? id) since al.options) ∧
        c.multi = Arena.lastWritten (Arena.Step.multi? id) since false ∧
        c.nearestWord = Arena.lastWritten (Arena.Step.nearestWord? id) since 0 ∧
        c.wordSet = Arena.lastWritten (Arena.Step.wordSet? id) since none ∧
        c.next = Arena.lastWritten (Arena.Step.next? id) since al.next) ∧
      (∀ e o, Arena.Filled o (a.new e o).2 [(a.new e o).1] [e]) ∧
      (∀ es o, ∃ ids, (a.newChain es o).1 = ids.head? ∧ Arena.Filled o (a.newChain es o).2 ids es) ∧
      (∀ id, a.get? id = none → ∀ y : Arena.Step, id ∈ y.targets →
        (s.step ⟨side, .arena y⟩).value.2 = s) ∧
      ∀ x : Step, x.side ≠ side → (s.step x).value.2.arenas.get side = a := by
  intro s
  have hdictionary : s.dictionary = d := after_dictionary _ xs
  refine ⟨hdictionary, fun x hx => ?_, fun side => ?_⟩
  · obtain ⟨y, hy, _⟩ | ⟨_, answer, hstep⟩ := step_cases d x
    · rw [hx] at hy
      cases hy
    · rw [hstep s hdictionary, hstep { dictionary := d } rfl]
      rfl
  · intro a ys
    have harena : a = Arena.after {} ys := by
      rw [show a = _ from after_arena _ side xs]
      cases side <;> rfl
    have htidy : a.Tidy := by
      rw [harena]
      exact Arena.tidy_empty.after ys
    refine ⟨harena, fun id c hc => ?_, htidy.filled_new, htidy.filled_newChain,
      fun id hdead y hid => ?_, fun x hx => ?_⟩
    · rw [harena] at hc
      obtain ⟨al, since, hlatest, rfl⟩ | ⟨_, c₀, hc₀, _⟩ := Arena.tidy_empty.after_cases ys hc
      · exact ⟨al, since, hlatest, rfl, Arena.limit_overwritten al id since, rfl, rfl, rfl, rfl⟩
      · cases hc₀
    · change (s.stepArena side y).value.2 = s
      rw [stepArena_eq, Arena.step_of_dead hdead hid, Both.set_get]
    · rw [step_arena, Step.workAt?, if_neg hx]
      rfl

/-- A chain of two is released, and the end of a chain of three takes its slots, while the second
arena works with the same numbers. -/
theorem slot_in_second_chain :
    let d := ((Builder.ofExpected 2).run [.add "O", .push 255 ["S"]]).value.2.finish.value
    let xs : List Step :=
      [⟨.first, .newChain ["O", "O"] none⟩, ⟨.second, .new "O" none⟩,
        ⟨.first, .arena (.change 1 { multi := some true, nearestWord := some 3 })⟩,
          ⟨.first, .arena (.release (some 1))⟩,
        ⟨.first, .newChain ["O", "O", "O"] (some { shortLength := 6 })⟩,
        ⟨.second, .arena (.change 0 { multi := some true })⟩,
          ⟨.first, .arena (.change 1 { wordSet := some (some 9) })⟩]
    let s := after { dictionary := d } xs
    (∃ c, (s.arenas.get .first).get? 1 = some c ∧ c.descriptor.text = "O" ∧ c.limit = 6 ∧
      c.multi = false ∧
      c.nearestWord = 0 ∧ c.wordSet = some 9 ∧ c.next = some 0) ∧
    (∃ e id, d.descriptor? "O" = some e ∧
      ((s.arenas.get .first).new e none).2.get? id = some (.ofDescriptor e none)) ∧
    (s.step ⟨.first, .arena (.setNext 3 (some 1))⟩).value.2 = s ∧
    (s.step ⟨.second, .arena .clear⟩).value.2.arenas.get .first = s.arenas.get .first ∧
    s.step ⟨.first, .limit "O" none⟩ = pure (.limit 255, s) := by
  intro d xs s
  obtain ⟨_, hanswers, harenas⟩ := slots_isolated d xs
  obtain ⟨_, hlive, hnew, _, hdead, hother⟩ := harenas .first
  refine ⟨?_, ?_, hdead 3 (by decide +kernel) _ (by decide), hother _ (by decide), ?_⟩
  · have hsome : ((s.arenas.get .first).get? 1).isSome = true := by decide +kernel
    obtain ⟨c, hc⟩ := Option.isSome_iff_exists.mp hsome
    obtain ⟨al, since, hlatest, hdescriptor, hlimit, hmulti, hnearest, hwordSet, hnext⟩ :=
      hlive 1 c hc
    have hknown : (Arena.latest? 1 {} (workAt d .first xs)).map
        (fun r => (r.1.descriptor.text, r.1.descriptor.limit, r.1.options, r.1.next, r.2)) =
          some ("O", 0, some { shortLength := 6 }, some 0,
            [.change 1 { wordSet := some (some 9) }]) := by
      decide +kernel
    rw [hlatest, Option.map_some, Option.some.injEq] at hknown
    simp only [Prod.mk.injEq] at hknown
    obtain ⟨htext, hzero, hoptions, hfollowing, rfl⟩ := hknown
    rw [hoptions] at hlimit
    rw [hfollowing] at hnext
    refine ⟨c, hc, by rw [hdescriptor, htext], ?_, hmulti, hnearest, hwordSet, hnext⟩
    exact hlimit.trans (if_pos (.inl hzero))
  · have hsome : (d.descriptor? "O").isSome = true := by decide +kernel
    obtain ⟨e, he⟩ := Option.isSome_iff_exists.mp hsome
    exact ⟨e, _, he, (hnew e none).get? (i := 0) rfl rfl⟩
  · have hanswer : (step { dictionary := d } ⟨.first, .limit "O" none⟩).value.1 = .limit 255 := by
      decide +kernel
    rw [hanswers _ rfl, hanswer]

end ParseSession

end LinkConnectors
