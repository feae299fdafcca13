import LinkConnectors.Proofs.Session.Grouping
import LinkConnectors.Proofs.Session.Limits
import LinkConnectors.Proofs.Session.Matching
import LinkConnectors.Session.Query

/-! Grouped tables. Once it has been grouped, a table takes no names and keeps its slots and its
view by core, and nothing but a limit is ever written to it again. -/
namespace LinkConnectors

namespace Table

/-- Nothing but limits differs, and the hint, which may still be given to a table that has no
slots. -/
structure LimitsAlone (t u : Table) : Prop where
  slots : u.slots = t.slots
  byCore : u.byCore = t.byCore
  coreCount : u.coreCount = t.coreCount
  grouped : u.grouped = t.grouped
  descriptors : u.descriptors.map Descriptor.forgetLimit = t.descriptors.map Descriptor.forgetLimit

/-- A grouped table and what became of it later: only limits can be told apart. -/
structure Frozen (t u : Table) : Prop where
  size : u.size = t.size
  descriptor : ∀ {id : Nat} {d : Descriptor}, t.get? id = some d →
    ∃ limit, u.get? id = some { d with limit := limit }
  byCore : u.byCore = t.byCore
  coreCount : u.coreCount = t.coreCount
  slots : u.slots = t.slots
  grouped : u.grouped = true
  lookup : ∀ name, u.lookup name = t.lookup name
  matching : ∀ i j, u.matching? i j = t.matching? i j

namespace LimitsAlone

variable {t u v : Table}

lemma refl (t : Table) : LimitsAlone t t := ⟨rfl, rfl, rfl, rfl, rfl⟩

lemma trans (h : LimitsAlone t u) (h' : LimitsAlone u v) : LimitsAlone t v where
  slots := h'.slots.trans h.slots
  byCore := h'.byCore.trans h.byCore
  coreCount := h'.coreCount.trans h.coreCount
  grouped := h'.grouped.trans h.grouped
  descriptors := h'.descriptors.trans h.descriptors

/-- A descriptor is where it was, with another limit at most. -/
lemma get?_cases (h : LimitsAlone t u) (id : Nat) :
    (t.get? id = none ∧ u.get? id = none) ∨
      ∃ d limit, t.get? id = some d ∧ u.get? id = some { d with limit := limit } := by
  have hid := congrArg (fun ds => ds[id]?) h.descriptors
  simp only [Array.getElem?_map] at hid
  cases hd : t.descriptors[id]? with
  | none =>
    rw [hd, Option.map_none, Option.map_eq_none_iff] at hid
    exact .inl ⟨hd, hid⟩
  | some d =>
    rw [hd, Option.map_some, Option.map_eq_some_iff] at hid
    obtain ⟨e, he, heq⟩ := hid
    have hlimit : e = { d with limit := e.limit } := by
      change e = { d.forgetLimit with limit := e.limit }
      rw [← heq]
      rfl
    exact .inr ⟨d, e.limit, hd, he.trans (congrArg some hlimit)⟩

/-- A walk reads names, and looks at no limit. -/
lemma lookup_eq (h : LimitsAlone t u) (name : String) : u.lookup name = t.lookup name := by
  have hjudge : judgeText u.descriptors name = judgeText t.descriptors name := by
    funext id
    unfold judgeText
    obtain ⟨ht, hu⟩ | ⟨d, limit, ht, hu⟩ := h.get?_cases id
    · rw [show t.descriptors[id]? = none from ht, show u.descriptors[id]? = none from hu]
    · rw [show t.descriptors[id]? = _ from ht, show u.descriptors[id]? = _ from hu]
      rfl
  rw [lookup, lookup, h.slots, hjudge]

lemma matching?_eq (h : LimitsAlone t u) (i j : Nat) : u.matching? i j = t.matching? i j := by
  unfold matching?
  obtain ⟨hti, hui⟩ | ⟨a, m, hti, hui⟩ := h.get?_cases i
  · rw [hti, hui]
    rfl
  · obtain ⟨htj, huj⟩ | ⟨b, n, htj, huj⟩ := h.get?_cases j
    · rw [hti, hui, htj, huj]
      rfl
    · rw [hti, hui, htj, huj]
      rfl

theorem frozen (h : LimitsAlone t u) (hg : t.grouped = true) : Frozen t u where
  size := by simpa [Table.size] using congrArg Array.size h.descriptors
  descriptor {id d} hd := by
    obtain ⟨hnone, _⟩ | ⟨e, limit, he, hu⟩ := h.get?_cases id
    · cases hnone.symm.trans hd
    · obtain rfl := Option.some.inj (he.symm.trans hd)
      exact ⟨limit, hu⟩
  byCore := h.byCore
  coreCount := h.coreCount
  slots := h.slots
  grouped := h.grouped.trans hg
  lookup := h.lookup_eq
  matching := h.matching?_eq

end LimitsAlone

end Table

namespace TableSession

open Table (LimitsAlone)

variable {s u : TableSession} {x : Step}

namespace Sound

section Grouped

/-- A grouped table answers for the names it has, and is left as it is. -/
lemma table_intern (hs : s.Sound) (hg : s.table.grouped = true) (name : String) :
    (s.intern name).value.2.table = s.table := by
  have h := hs.interning name
  change (s.table.intern (s.strings.add name).1).value.2 = s.table
  generalize s.table.intern (s.strings.add name).1 = r at h ⊢
  cases h with
  | known | frozen => rfl
  | malformed hnew hopen | full hnew hopen | created hnew hopen =>
    exact absurd (hopen.symm.trans hg) Bool.false_ne_true

lemma table_internAll (hs : s.Sound) (hg : s.table.grouped = true) (names : List String) :
    (s.internAll names).value.2.table = s.table := by
  induction names generalizing s with
  | nil => rfl
  | cons name names ih =>
    have hfirst := hs.table_intern hg name
    exact (ih (hs.intern name) (by rw [hfirst, hg])).trans hfirst

/-- The one move that writes to a grouped table stamps limits. -/
theorem limitsAlone_move (hs : s.Sound) (hg : s.table.grouped = true) (h : Move s u) :
    LimitsAlone s.table u.table := by
  cases h with
  | expect count =>
    obtain ⟨expected, hexpect⟩ := s.table.expect_value count
    dsimp only
    rw [hexpect]
    exact ⟨rfl, rfl, rfl, rfl, rfl⟩
  | intern name =>
    rw [hs.table_intern hg name]
    exact .refl _
  | group =>
    dsimp only
    rw [(hs.numbered hg).group_value]
    exact .refl _
  | stamp _ =>
    obtain ⟨stamped, hstamp, hforget⟩ := s.registry.stamp_eq_descriptors s.table
    dsimp only
    rw [hstamp]
    exact ⟨rfl, rfl, rfl, rfl, hforget⟩
  | register registry => exact .refl _

theorem limitsAlone_after (hs : s.Sound) (hg : s.table.grouped = true) (xs : List Step) :
    LimitsAlone s.table (s.after xs).table :=
  hs.kept (P := fun u => LimitsAlone s.table u.table)
    (fun hv hmove h => h.trans (hv.limitsAlone_move (h.grouped.trans hg) hmove)) (.refl _)
      (moves_after s xs)

/-- Limits of a grouped table are written when rules are applied, and at no other time. -/
theorem descriptors_step (hs : s.Sound) (hg : s.table.grouped = true) (happly : x ≠ .apply)
    (hcopy : x ≠ .applyCopy) : (s.step x).value.2.table.descriptors = s.table.descriptors := by
  cases x with
  | expect count =>
    obtain ⟨expected, hexpect⟩ := s.table.expect_value count
    change (s.table.expect count).value.descriptors = s.table.descriptors
    rw [hexpect]
  | intern name => exact congrArg Table.descriptors (hs.table_intern hg name)
  | internAll names => exact congrArg Table.descriptors (hs.table_internAll hg names)
  | group => exact congrArg Table.descriptors (hs.numbered hg).group_value
  | push head patterns =>
    obtain ⟨registry, hpush⟩ := s.step_push head patterns
    rw [hpush]
  | registry => rfl
  | apply => exact absurd rfl happly
  | applyCopy => exact absurd rfl hcopy
  | query q => rfl

end Grouped

section Grouping

lemma grouped_internAll (hs : s.Sound) (names : List String) :
    (s.internAll names).value.2.table.grouped = s.table.grouped := by
  induction names generalizing s with
  | nil => rfl
  | cons name names ih => exact (ih (hs.intern name)).trans (hs.interning name).grouped_eq

lemma grouped_step (hs : s.Sound) (hx : x ≠ .group) :
    (s.step x).value.2.table.grouped = s.table.grouped := by
  cases x with
  | expect count =>
    obtain ⟨expected, hexpect⟩ := s.table.expect_value count
    change (s.table.expect count).value.grouped = s.table.grouped
    rw [hexpect]
  | intern name => exact (hs.interning name).grouped_eq
  | internAll names => exact hs.grouped_internAll names
  | group => exact absurd rfl hx
  | push head patterns =>
    obtain ⟨registry, hpush⟩ := s.step_push head patterns
    rw [hpush]
  | registry => rfl
  | apply => exact (hs.sameOrigin_applyRules {}).2
  | applyCopy => exact (hs.sameOrigin_applyRules s.registry).2
  | query q => rfl

/-- No step but grouping groups a table. -/
theorem grouped_after (hs : s.Sound) {xs : List Step} (hxs : .group ∉ xs) :
    (s.after xs).table.grouped = s.table.grouped := by
  induction xs generalizing s with
  | nil => rfl
  | cons x xs ih =>
    rw [List.mem_cons, not_or] at hxs
    exact (ih (hs.step x) hxs.2).trans (hs.grouped_step (Ne.symm hxs.1))

end Grouping

end Sound

/-- When a table is grouped for the first time, no limit has been set yet. -/
lemma limit_after_group {count : Nat} {xs : List Step} (hxs : .group ∉ xs) {id : Nat}
    {d : Descriptor}
    (hd : ((start count).after (xs ++ [.group])).table.get? id = some d) : d.limit = 0 := by
  rw [table_after_group, Table.get?_group] at hd
  obtain ⟨e, he, rfl⟩ := Option.map_eq_some_iff.mp hd
  have hs : Sound ((start count).after xs) := sound_after_start count xs
  exact ((hs.unnumbered ((sound_start count).grouped_after hxs)).unset he).2

/-- A table that is found grouped was grouped by some first grouping step. Whatever steps follow, at
every point it shows what it showed right after that step, but for limits, and no step other than
applying rules writes a limit. -/
theorem frozen_after_group (count : Nat) (xs : List Step)
    (hg : ((start count).after xs).table.grouped = true) :
    ∃ before later, xs = before ++ .group :: later ∧ .group ∉ before ∧ ∀ ys,
      let s := (start count).after (xs ++ ys)
      Table.Frozen ((start count).after (before ++ [.group])).table s.table ∧
        ∀ x, x ≠ .apply → x ≠ .applyCopy → (s.step x).value.2.table.descriptors =
          s.table.descriptors := by
  have hmem : .group ∈ xs := by
    by_contra hnot
    have hopen := (sound_start count).grouped_after hnot
    exact absurd (hopen.symm.trans hg) Bool.false_ne_true
  obtain ⟨before, later, rfl, hbefore⟩ := List.eq_append_cons_of_mem hmem
  refine ⟨before, later, rfl, hbefore, fun ys => ?_⟩
  intro s
  have hs : s.Sound := sound_after_start count _
  have hsplit : s = ((start count).after (before ++ [.group])).after (later ++ ys) := by
    rw [← after_append, List.append_assoc, List.singleton_append, ← List.cons_append,
      ← List.append_assoc]
  have hfirst : ((start count).after (before ++ [.group])).table.grouped = true :=
    congrArg Table.grouped (table_after_group _ before)
  have hlimits :=
    (sound_after_start count (before ++ [.group])).limitsAlone_after hfirst (later ++ ys)
  rw [← hsplit] at hlimits
  have hfrozen := hlimits.frozen hfirst
  exact ⟨hfrozen, fun x => hs.descriptors_step hfrozen.grouped⟩

/-- A table with two names and a rule for one of them, and one that was grouped before it had a
name. When the first has been grouped, applying the rule writes a limit, and nothing else is written
whatever is tried. The second stays empty. -/
theorem frozen_with_two_names_or_none :
    (let xs : List Step := [.internAll ["Ss", "hS*b", "x"], .push (.limit 3) ["S"]]
     let g := ((start 0).after (xs ++ [.group])).table
     let t := ((start 0).after (xs ++ [.group] ++ [.apply, .internAll ["x", "T"], .group])).table
     (∃ d, g.get? 0 = some d ∧ d.limit = 0 ∧ t.get? 0 = some { d with limit := 3 }) ∧
      t.size = 2 ∧ t.lookup "hS*b" = some 1 ∧ t.lookup "T" = none ∧ t.matching? 0 1 = some true) ∧
    (let xs : List Step := [.expect 20, .internAll ["s", "S"], .group, .apply]
     let t := ((start 4).after ([.intern "s", .group] ++ xs)).table
     t.size = 0 ∧ t.lookup "S" = none ∧ t.capacity = 16) := by
  constructor
  · -- while the steps have a name, nothing is evaluated but the facts that ask for it
    generalize hxs : [Step.internAll ["Ss", "hS*b", "x"], .push (.limit 3) ["S"]] = xs
    intro _ g t
    have hnot : .group ∉ xs := by
      subst hxs
      decide
    have hg : g.grouped = true := congrArg Table.grouped (table_after_group _ xs)
    obtain ⟨before, later, hsplit, _, hfrozen⟩ := frozen_after_group 0 (xs ++ [.group]) hg
    obtain ⟨rfl, -⟩ := (List.append_cons_inj_of_notMem hnot List.not_mem_nil).mp hsplit
    have hs : Sound ((start 0).after (xs ++ [.group])) := sound_after_start 0 _
    have hnames : g.nameList.names = ["Ss", "hS*b"] := by
      subst hxs
      exact (congrArg NameList.names ((sound_start 0).nameList_after _ (by decide +kernel))).trans
        (by decide +kernel)
    obtain ⟨d, hd, hdtext⟩ : ∃ d, g.get? 0 = some d ∧ d.text = "Ss" :=
      Table.exists_of_names (by rw [hnames]; rfl)
    obtain ⟨e, he, hetext⟩ : ∃ e, g.get? 1 = some e ∧ e.text = "hS*b" :=
      Table.exists_of_names (by rw [hnames]; rfl)
    have hlimit : d.limit = 0 := limit_after_group hnot hd
    have hrule : ((start 0).after (xs ++ [.group])).registry.limitOf "Ss" 0 = 3 := by
      subst hxs
      decide +kernel
    -- of the three steps only the first one writes
    have hkept :
        t.descriptors = ((start 0).after (xs ++ [.group] ++ [.apply])).table.descriptors := by
      have hintern := (hfrozen [.apply]).2 (.internAll ["x", "T"]) (by decide) (by decide)
      have hgroup := (hfrozen [.apply, .internAll ["x", "T"]]).2 .group (by decide) (by decide)
      have ht : t = (((start 0).after (xs ++ [.group])).after
          [.apply, .internAll ["x", "T"], .group]).table :=
        congrArg TableSession.table (after_append _ _ _)
      rw [after_append] at hintern hgroup ⊢
      rw [ht]
      exact hgroup.trans hintern
    obtain ⟨hlater, _⟩ := hfrozen [.apply, .internAll ["x", "T"], .group]
    refine ⟨⟨d, hd, hlimit, ?_⟩, ?_, ?_, ?_, ?_⟩
    · have happly := hs.get?_apply hg (declared_after_start 0 _) hd
      rw [hdtext, hlimit, hrule] at happly
      rw [Table.get?, hkept, after_append]
      exact happly
    · rw [hlater.size, ← Table.length_names, hnames]
      rfl
    · rw [hlater.lookup, Table.Sound.lookup_eq hs, hnames]
      decide
    · rw [hlater.lookup, Table.Sound.lookup_eq hs, hnames]
      decide
    · rw [hlater.matching, Table.matching?, hd, he]
      refine ((hs.numbered hg).matches?_eq hs.registered hd he).trans ?_
      rw [hdtext, hetext]
      decide +kernel
  · obtain ⟨before, later, hsplit, _, hfrozen⟩ :=
      frozen_after_group 4 [.intern "s", .group] (by decide +kernel)
    have hnot : Step.group ∉ [.intern "s"] := by decide
    obtain ⟨rfl, -⟩ := (List.append_cons_inj_of_notMem hnot List.not_mem_nil).mp hsplit
    obtain ⟨hfrozen, _⟩ := hfrozen [.expect 20, .internAll ["s", "S"], .group, .apply]
    refine ⟨hfrozen.size.trans (by decide +kernel),
      (hfrozen.lookup "S").trans (by decide +kernel), ?_⟩
    exact (congrArg Array.size hfrozen.slots).trans (by decide +kernel)

end TableSession

end LinkConnectors
