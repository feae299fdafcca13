import LinkConnectors.Proofs.Reach.Hits
import LinkConnectors.Proofs.Reach.Stamping
import LinkConnectors.Proofs.Session.NameList

/-! Applying rules in a session. Each name of a grouped table gets the limit of the last rule that
hits it, as a scan over all names with the written patterns would have it, and nothing else
changes. -/
namespace LinkConnectors

namespace Reach

variable {d : Descriptor} {rule : Rule} {r : Registry}

lemma Rule.Declared.reaches_eq (hrule : rule.Declared) {p : Pattern} (hp : p ∈ rule.patterns)
    (hd : d.encoding.Spells d.text) : p.reaches d = Reach.hits p.text d.text :=
  ((hrule.spells hp).hits_eq hd).symm

lemma Rule.Declared.hits_eq (hrule : rule.Declared) (hd : d.encoding.Spells d.text) :
    rule.hits d.text = rule.reaches d := by
  apply Bool.eq_iff_iff.mpr
  simp only [Rule.hits, Rule.reaches, List.any_eq_true]
  constructor
  · rintro ⟨p, hp, hhits⟩
    exact ⟨p, hp, (hrule.reaches_eq hp hd).trans hhits⟩
  · rintro ⟨p, hp, hreaches⟩
    exact ⟨p, hp, (hrule.reaches_eq hp hd).symm.trans hreaches⟩

namespace Registry

lemma declaresUnlimited_eq_false_iff :
    r.declaresUnlimited = false ↔ ∀ rule ∈ r.rules, rule.limit ≠ 255 := by
  simp [declaresUnlimited, unlimited]

/-- Stamping a descriptor gives it the limit of its name. -/
theorem Declared.restamp_eq (hr : r.Declared) (hd : d.encoding.Spells d.text) :
    r.restamp d = { d with limit := r.limitOf d.text d.limit } := by
  have hrules : (r.rules.filter fun rule => rule.hits d.text) =
      r.rules.filter fun rule => rule.reaches d :=
    List.filter_congr fun rule hrule => (hr rule hrule).hits_eq hd
  unfold restamp lastLimit? limitOf
  rw [hrules]
  cases hlast : (r.rules.filter fun rule => rule.reaches d).getLast? with
  | none =>
    cases hunlimited : r.declaresUnlimited with
    | true =>
      have hsome : ¬ ∀ rule ∈ r.rules, rule.limit ≠ 255 := by
        rw [← declaresUnlimited_eq_false_iff, hunlimited]
        exact Bool.noConfusion
      rw [if_pos rfl]
      dsimp only
      rw [if_neg fun h => hsome h.2]
      rfl
    | false =>
      have hnone := declaresUnlimited_eq_false_iff.mp hunlimited
      rw [if_neg Bool.false_ne_true, lift]
      simp only [Option.map_none, Option.getD_none]
      by_cases hlimit : d.limit = 0
      · rw [if_pos hlimit, if_pos ⟨hlimit, hnone⟩]
        rfl
      · rw [if_neg hlimit, if_neg fun h => hlimit h.1]
  | some rule =>
    have hmem : rule ∈ r.rules := List.mem_of_mem_filter (List.mem_of_getLast? hlast)
    -- a rule never sets 0, so what it has stamped is not lifted
    have hlimit := (hr rule hmem).limit_ne_zero
    simp [lift, hlimit]

lemma Declared.reachCount_eq (hr : r.Declared) {ds : List Descriptor}
    (hds : ∀ d ∈ ds, d.encoding.Spells d.text) :
    r.reachCount ds = r.hitCount (ds.map Descriptor.text) := by
  unfold reachCount hitCount
  congr 1
  apply List.map_congr_left
  intro rule hrule
  congr 1
  apply List.map_congr_left
  intro p hp
  rw [List.countP_map]
  apply List.countP_congr
  intro d hd
  rw [(hr rule hrule).reaches_eq hp (hds d hd)]
  rfl

end Registry

end Reach

namespace TableSession

variable {s : TableSession}

lemma step_push_of_error {head : RuleHead} {patterns : List String} {err : Reach.LimitError}
    (h : head.rule patterns = .error err) :
    s.step (.push head patterns) = pure (.pushed (.error err), s) := by
  simp only [step, h]

lemma step_push_of_ok {head : RuleHead} {patterns : List String} {rule : Reach.Rule}
    (h : head.rule patterns = .ok rule) : s.step (.push head patterns) =
      pure (.pushed (.ok rule), { s with registry := s.registry.push rule }) := by
  simp only [step, h]

lemma declared_step (hs : s.registry.Declared) (x : Step) :
    (s.step x).value.2.registry.Declared := by
  have hempty : Reach.Registry.Declared {} := by simp [Reach.Registry.Declared]
  cases x with
  | push head patterns =>
    cases hrule : head.rule patterns with
    | error err =>
      rw [step_push_of_error hrule]
      exact hs
    | ok rule =>
      rw [step_push_of_ok hrule]
      intro other hother
      obtain hother | hother := List.mem_append.mp hother
      · exact hs other hother
      · exact ⟨head, patterns, List.mem_singleton.mp hother ▸ hrule⟩
  | apply =>
    change (s.applyRules {}).value.2.registry.Declared
    rw [applyRules_eq]
    exact hempty
  | applyCopy =>
    change (s.applyRules s.registry).value.2.registry.Declared
    rw [applyRules_eq]
    exact hs
  | internAll names =>
    change (s.internAll names).value.2.registry.Declared
    induction names generalizing s with
    | nil => exact hs
    | cons name names ih => exact ih hs
  | _ => exact hs

/-- The rules of every session were all made. -/
theorem declared_after_start (count : Nat) (xs : List Step) :
    ((start count).after xs).registry.Declared := by
  have hstart : (start count).registry.Declared := by simp [start, Reach.Registry.Declared]
  generalize start count = s at hstart
  induction xs generalizing s with
  | nil => exact hstart
  | cons x xs ih => exact ih _ (declared_step hstart x)

/-- Applying the rules of a session gives a descriptor the limit of its name. -/
lemma Sound.get?_apply (hs : s.Sound) (hg : s.table.grouped = true) (hr : s.registry.Declared)
    {id : Nat} {d : Descriptor} (hd : s.table.get? id = some d) :
    (s.step .apply).value.2.table.get? id =
      some { d with limit := s.registry.limitOf d.text d.limit } := by
  change (s.applyRules {}).value.2.table.descriptors[id]? = _
  rw [applyRules_eq]
  dsimp only
  rw [if_pos hg, Reach.Registry.stamp_eq _ (hs.numbered hg), Array.getElem?_map]
  change (s.table.get? id).map _ = _
  rw [hd, Option.map_some, hr.restamp_eq (hs.registered.spells hd)]

/-- At every point of every session, applying rules to a grouped table gives each name the limit of
the last rule that hits it, touches nothing else, and counts the hits. A table that is not grouped
is left as it is. -/
theorem limits_after_apply (count : Nat) (xs : List Step) (r : Reach.Registry) (hr : r.Declared) :
    let s := (start count).after xs
    (s.table.grouped = true →
      r.apply s.table = ⟨.ok { s.table with
          descriptors := s.table.descriptors.map fun d =>
            { d with limit := r.limitOf d.text d.limit } },
        [.limitsApplied r.size (r.hitCount s.table.nameList.names) r.declaresUnlimited]⟩) ∧
    (s.table.grouped = false →
      r.apply s.table = ⟨.error .notGrouped, []⟩ ∧
        ∀ x, x = .apply ∨ x = .applyCopy →
          (({ s with registry := r }).step x).value.1 = .applied (.error .notGrouped) ∧
            (({ s with registry := r }).step x).value.2.table = s.table) := by
  intro s
  have hs : s.Sound := sound_after_start count xs
  have hspells : ∀ d ∈ s.table.descriptors.toList, d.encoding.Spells d.text := by
    intro d hd
    obtain ⟨id, hid⟩ := List.mem_iff_getElem?.mp hd
    exact hs.registered.spells (by rwa [Array.getElem?_toList] at hid)
  refine ⟨fun hg => ?_, fun hg => ?_⟩
  · have hrestamp : s.table.descriptors.map r.restamp =
        s.table.descriptors.map fun d => { d with limit := r.limitOf d.text d.limit } := by
      apply Array.map_congr_left
      intro d hd
      exact hr.restamp_eq (hspells d (Array.mem_toList_iff.mpr hd))
    rw [Reach.Registry.apply_of_grouped hg, r.stamp_eq (hs.numbered hg), hrestamp,
      hr.reachCount_eq hspells]
    rfl
  · have happly := Reach.Registry.apply_of_not_grouped (r := r) hg
    refine ⟨happly, ?_⟩
    rintro x (rfl | rfl)
    · simp only [step, applyRules, happly]
      exact ⟨rfl, rfl⟩
    · simp only [step, applyRules, happly]
      exact ⟨rfl, rfl⟩

/-- The rule for all names of a core is overruled for one of them by a later rule with the same
marker. -/
theorem limits_of_two_rules :
    let s := (start 0).after ([.internAll ["Ss", "hSbb", "O"]] ++ .group :: [])
    let r :=
      ((start 0).after
        [.push (.limit 255) ["S"], .push (.define "LENGTH-LIMIT-2") ["hS*b"]]).registry
    (r.apply s.table).events = [.limitsApplied 2 3 true] ∧
      r.limitOf "Ss" 0 = 255 ∧ r.limitOf "hSbb" 0 = 2 ∧ r.limitOf "O" 0 = 0 := by
  intro s r
  have hnames : s.table.nameList.names = ["Ss", "hSbb", "O"] :=
    (congrArg NameList.names ((sound_start 0).nameList_after _ (by decide +kernel))).trans
      (by decide +kernel)
  refine ⟨?_, by decide +kernel⟩
  rw [(limits_after_apply 0 _ r (declared_after_start 0 _)).1 (numbered_after_group 0 _ []).grouped,
    hnames]
  decide +kernel

end TableSession

end LinkConnectors
