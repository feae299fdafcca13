import LinkConnectors.Proofs.Dictionary.Loading
import LinkConnectors.Proofs.Session.Grouping
import LinkConnectors.Proofs.Session.Matching

/-! Finished dictionaries. What a dictionary has for a name is decided by the names and the rules
that were accepted while it loaded. How they came in, in which order and between which refusals,
does not matter. -/
namespace LinkConnectors

namespace Reach

/-- What a rule does, whichever define it was read from. -/
def Rule.content (rule : Rule) : Nat × List Pattern := (rule.limit, rule.patterns)

/-- Nothing but limits and patterns decides what stamping makes of a descriptor. -/
lemma Registry.restamp_congr {r q : Registry}
    (h : r.rules.map Rule.content = q.rules.map Rule.content) :
    r.restamp = q.restamp := by
  have hlast : ∀ (r : Registry) (d : Descriptor), r.lastLimit? d =
      ((r.rules.map Rule.content).filter fun c =>
        c.2.any fun p => p.reaches d).getLast?.map Prod.fst := by
    intro r d
    rw [List.filter_map, List.getLast?_map, Option.map_map]
    rfl
  have hunlimited : ∀ r : Registry, r.declaresUnlimited =
      (r.rules.map Rule.content).any fun c => c.1 == unlimited := by
    intro r
    rw [List.any_map]
    rfl
  funext d
  rw [restamp, restamp, hlast, hunlimited, h, ← hlast, ← hunlimited]

end Reach

namespace Table

variable {strings others : Interner} {t u : Table} {id : Nat} {d : Descriptor}

/-- As long as a table takes names, a descriptor shows its name and what the name alone decides. -/
lemma Sound.plain_eq_fresh (ht : Sound strings t) (hg : t.grouped = false)
    (hd : t.get? id = some d) :
    d.plain = fresh ⟨0, 0, d.text⟩ d.encoding := by
  obtain ⟨hcoreId, hlimit⟩ := (ht.unnumbered hg).unset hd
  have hhash := ht.registered.hash_eq hd
  rw [Descriptor.plain, fresh, hcoreId, hlimit, hhash]

lemma Sound.mem_coresOf_iff (ht : Sound strings t) {core : String} : core ∈ coresOf t.descriptors ↔
    ∃ name ∈ t.nameList.names, ∃ e, Encoding.ofName name = .ok e ∧ e.core = core := by
  rw [mem_coresOf]
  constructor
  · rintro ⟨id, d, hd, rfl⟩
    exact ⟨d.text, mem_names.mpr ⟨id, d, hd, rfl⟩, d.encoding, ht.registered.encoded hd, rfl⟩
  · rintro ⟨name, hname, e, he, rfl⟩
    obtain ⟨id, d, hd, rfl⟩ := mem_names.mp hname
    rw [ht.registered.encoded hd] at he
    obtain rfl := Except.ok.inj he
    exact ⟨id, d, hd, rfl⟩

/-- Tables of the same names have the same cores. -/
lemma Sound.coresOf_eq (ht : Sound strings t) (hu : Sound others u)
    (h : ∀ name, name ∈ t.nameList.names ↔ name ∈ u.nameList.names) :
    coresOf t.descriptors = coresOf u.descriptors := by
  ext core
  simp only [ht.mem_coresOf_iff, hu.mem_coresOf_iff, h]

lemma Sound.size_eq (ht : Sound strings t) (hu : Sound others u)
    (h : ∀ name, name ∈ t.nameList.names ↔ name ∈ u.nameList.names) : t.size = u.size := by
  have hperm := (List.perm_ext_iff_of_nodup ht.nodup_names hu.nodup_names).mpr h
  rw [← t.length_names, ← u.length_names, hperm.length_eq]

end Table

namespace Dictionary

/-- Whether connectors of two names match, if the dictionary has both. -/
def matching? (d : Dictionary) (m n : String) : Option Bool := do
  (← d.descriptor? m).matches? (← d.descriptor? n)

/-- Dictionaries that cannot be told apart by the names in them. -/
structure Agree (d e : Dictionary) : Prop where
  descriptor : ∀ name, (d.descriptor? name).map Descriptor.plain =
    (e.descriptor? name).map Descriptor.plain
  size : d.table.size = e.table.size
  coreCount : d.table.coreCount = e.table.coreCount
  view : d.table.viewNames? = e.table.viewNames?
  matching : ∀ m n, d.matching? m n = e.matching? m n

/-- Matching does not look at handles. -/
lemma matching?_eq (d : Dictionary) (m n : String) : d.matching? m n =
    ((d.descriptor? m).map Descriptor.plain).bind fun a =>
      ((d.descriptor? n).map Descriptor.plain).bind fun b => a.matches? b := by
  unfold matching?
  cases d.descriptor? m <;> cases d.descriptor? n <;> rfl

end Dictionary

namespace Builder

open Table

variable {b c : Builder}

/-- What a finished dictionary shows for a name it has. -/
def declared (cores : Finset String) (rules : Reach.Registry) (name : String) : Option Descriptor :=
  (Encoding.ofName name).toOption.map fun e => rules.restamp (numbered cores (fresh ⟨0, 0, name⟩ e))

lemma finish_names (b : Builder) :
    b.finish.value.table.nameList.names = b.table.nameList.names := by
  rw [nameList_congr b.sameOrigin_finish]

lemma finish_get? (b : Builder) (id : Nat) : b.finish.value.table.get? id =
    (b.table.get? id).map fun d => b.limits.restamp (numbered (coresOf b.table.descriptors) d) := by
  rw [table_finish, b.limits.stamp_eq (numbered_group b.table)]
  change (b.table.group.value.descriptors.map b.limits.restamp)[id]? = _
  rw [Array.getElem?_map]
  change (b.table.group.value.get? id).map _ = _
  rw [get?_group, Option.map_map]
  rfl

lemma finish_coreCount (b : Builder) :
    b.finish.value.table.coreCount = (coresOf b.table.descriptors).card := by
  rw [table_finish, b.limits.stamp_eq (numbered_group b.table), group_eq]

namespace Loading

/-- A finished dictionary in one piece: it has the accepted names, each with the number of its core,
its limit and what the name itself says. -/
theorem descriptor?_eq (hb : b.Loading) (name : String) :
    (b.finish.value.descriptor? name).map Descriptor.plain =
      if name ∈ b.table.nameList.names then
        declared (coresOf b.table.descriptors) b.limits name
      else none := by
  rw [Dictionary.descriptor?, hb.finish_sound.lookup_eq, finish_names]
  split
  · rename_i hname
    obtain ⟨id, d, hd, rfl⟩ := mem_names.mp hname
    rw [hb.table_sound.idxOf?_names hd, Option.bind_some, finish_get?, hd, declared,
      hb.table_sound.registered.encoded hd]
    -- numbering and stamping look at nothing that `plain` forgets, so the handle can go first
    change some (b.limits.restamp (numbered _ d)).plain = some _
    rw [← restamp_plain, ← numbered_plain, hb.table_sound.plain_eq_fresh hb.ungrouped hd]
  · rename_i hname
    rw [List.idxOf?_eq_none_iff.mpr hname]
    rfl

/-- For a name that it has, a finished dictionary looks up the descriptor of that name. -/
lemma exists_descriptor? (hb : b.Loading) {name : String} (hname : name ∈ b.table.nameList.names) :
    ∃ id d, b.finish.value.table.get? id = some d ∧ d.text = name ∧
      b.finish.value.descriptor? name = some d := by
  rw [← finish_names] at hname
  obtain ⟨id, d, hd, rfl⟩ := mem_names.mp hname
  refine ⟨id, d, hd, rfl, ?_⟩
  rw [Dictionary.descriptor?, hb.finish_sound.lookup_eq, hb.finish_sound.idxOf?_names hd]
  exact hd

lemma isSome_descriptor? (hb : b.Loading) (name : String) :
    (b.finish.value.descriptor? name).isSome = true ↔ name ∈ b.table.nameList.names := by
  constructor
  · intro hsome
    by_contra hname
    have h := hb.descriptor?_eq name
    rw [if_neg hname, Option.map_eq_none_iff] at h
    rw [h] at hsome
    cases hsome
  · intro hname
    obtain ⟨_, d, _, _, hd⟩ := hb.exists_descriptor? hname
    rw [hd]
    rfl

/-- The view by core of a finished dictionary is there, and lists its names. -/
lemma exists_viewNames? (b : Builder) : ∃ view, b.finish.value.table.viewNames? = some view ∧
    ∀ name, name ∈ view ↔ name ∈ b.table.nameList.names := by
  have hview := b.finish.value.table.exists_viewNames?_group
  rwa [(finish_numbered b).group_value, finish_names] at hview

/-- Any two names of a finished dictionary have a verdict, which is that of their octets. -/
lemma matching?_eq (hb : b.Loading) {name other : String} (hname : name ∈ b.table.nameList.names)
    (hother : other ∈ b.table.nameList.names) :
    b.finish.value.matching? name other = some (Matching.namesMatch name other) := by
  obtain ⟨i, d, hi, rfl, hd⟩ := hb.exists_descriptor? hname
  obtain ⟨j, e, hj, rfl, he⟩ := hb.exists_descriptor? hother
  rw [Dictionary.matching?, hd, he]
  exact (finish_numbered b).matches?_eq hb.finish_sound.registered hi hj

/-- The same names and the same rules make the same dictionary. -/
theorem agree (hb : b.Loading) (hc : c.Loading)
    (hnames : ∀ name, name ∈ b.table.nameList.names ↔ name ∈ c.table.nameList.names)
    (hrules : b.limits.rules.map Reach.Rule.content = c.limits.rules.map Reach.Rule.content) :
    b.finish.value.Agree c.finish.value := by
  have hcores := hb.table_sound.coresOf_eq hc.table_sound hnames
  have hfinished : ∀ name, name ∈ b.finish.value.table.nameList.names ↔
      name ∈ c.finish.value.table.nameList.names := by
    intro name
    rw [finish_names, finish_names, hnames]
  have hdescriptor : ∀ name, (b.finish.value.descriptor? name).map Descriptor.plain =
      (c.finish.value.descriptor? name).map Descriptor.plain := by
    intro name
    have hdeclared : declared (coresOf b.table.descriptors) b.limits name =
        declared (coresOf c.table.descriptors) c.limits name := by
      rw [declared, declared, hcores, Reach.Registry.restamp_congr hrules]
    rw [hb.descriptor?_eq, hc.descriptor?_eq, hdeclared]
    simp only [hnames]
  constructor
  · exact hdescriptor
  · exact hb.finish_sound.size_eq hc.finish_sound hfinished
  · rw [finish_coreCount, finish_coreCount, hcores]
  · rw [← (finish_numbered b).group_value, ← (finish_numbered c).group_value]
    exact hb.finish_sound.viewNames?_congr hc.finish_sound hfinished
  · intro m n
    rw [Dictionary.matching?_eq, Dictionary.matching?_eq, hdescriptor, hdescriptor]

end Loading

/-- However two dictionaries are loaded, if the same names and the same rules are accepted, the
rules in the same order, then they have these names and agree on them. The view by core lists the
names, and any two of them have a verdict, so there is something to agree on. What may differ is the
numbers of the descriptors, the slots and the log. -/
theorem finish_of_accepted (m n : Nat) (xs ys : List Step)
    (hnames : ∀ name, name ∈ (ofExpected m).acceptedNames xs ↔
      name ∈ (ofExpected n).acceptedNames ys)
    (hrules : ((ofExpected m).acceptedRules xs).map Reach.Rule.content =
      ((ofExpected n).acceptedRules ys).map Reach.Rule.content) :
    let d := ((ofExpected m).run xs).value.2.finish.value
    let e := ((ofExpected n).run ys).value.2.finish.value
    d.Agree e ∧
      (∀ name, (d.descriptor? name).isSome = true ↔ name ∈ (ofExpected m).acceptedNames xs) ∧
      (∃ view, d.table.viewNames? = some view ∧ ∀ name, name ∈ view ↔
        name ∈ (ofExpected m).acceptedNames xs) ∧
      ∀ name ∈ (ofExpected m).acceptedNames xs, ∀ other ∈ (ofExpected m).acceptedNames xs,
        d.matching? name other = some (Matching.namesMatch name other) := by
  have hb := loading_ofExpected m
  have hc := loading_ofExpected n
  have hloaded : ∀ count xs name, name ∈ ((ofExpected count).run xs).value.2.table.nameList.names ↔
      name ∈ (ofExpected count).acceptedNames xs := by
    intro count xs name
    have hempty : (ofExpected count).table.nameList.names = [] := rfl
    rw [(loading_ofExpected count).mem_names_run, hempty]
    simp
  have hqueued : ∀ count xs, ((ofExpected count).run xs).value.2.limits.rules =
      (ofExpected count).acceptedRules xs := fun count xs => rules_run _ xs
  refine ⟨(hb.run xs).agree (hc.run ys) (fun name => ?_) ?_, fun name => ?_, ?_,
    fun name hname other hother => ?_⟩
  · rw [hloaded, hloaded, hnames]
  · rw [hqueued, hqueued, hrules]
  · rw [(hb.run xs).isSome_descriptor?, hloaded]
  · obtain ⟨view, hview, hmem⟩ := Loading.exists_viewNames? ((ofExpected m).run xs).value.2
    exact ⟨view, hview, fun name => (hmem name).trans (hloaded m xs name)⟩
  · exact (hb.run xs).matching?_eq ((hloaded m xs name).mpr hname) ((hloaded m xs other).mpr hother)

/-- Two names and a rule, once with a refused name at the end, and once as tokens in the other order
with a refused token between them. -/
theorem finish_of_two_orders :
    let b :=
      ((ofExpected 0).run
        [.add "Ss", .add "hS*b", .define "LENGTH-LIMIT-3" ["S"], .add "x"]).value.2
    let c :=
      ((ofExpected 40).run [.token "@hS*b-", .push 3 ["S"], .token "Ss", .token "Ss+"]).value.2
    b.finish.value.Agree c.finish.value ∧ b.finish.value.matching? "Ss" "hS*b" = some true := by
  have hb : (ofExpected 0).acceptedNames
      [.add "Ss", .add "hS*b", .define "LENGTH-LIMIT-3" ["S"], .add "x"] = ["Ss", "hS*b"] := by
    decide +kernel
  have hc : (ofExpected 40).acceptedNames
      [.token "@hS*b-", .push 3 ["S"], .token "Ss", .token "Ss+"] = ["hS*b", "Ss"] := by
    decide +kernel
  have hnames : ∀ name, name ∈ (ofExpected 0).acceptedNames
      [.add "Ss", .add "hS*b", .define "LENGTH-LIMIT-3" ["S"], .add "x"] ↔
        name ∈ (ofExpected 40).acceptedNames
            [.token "@hS*b-", .push 3 ["S"], .token "Ss", .token "Ss+"] := by
    intro name
    rw [hb, hc]
    simp [or_comm]
  obtain ⟨hagree, _, _, hmatching⟩ := finish_of_accepted 0 40 _ _ hnames (by decide +kernel)
  have hverdict := hmatching "Ss" (by rw [hb]; simp) "hS*b" (by rw [hb]; simp)
  exact ⟨hagree, hverdict.trans (by decide +kernel)⟩

end Builder

end LinkConnectors
