import LinkConnectors.Proofs.Reach.Effective
import LinkConnectors.Proofs.Session.Grouping
import LinkConnectors.Proofs.Session.Limits

/-! Registries that are applied one after the other. Stamping itself goes on where it was left. But
each registry that sets no limit of 255 ends by lifting the limits that are still open, and what has
been lifted is open no more. So it matters where a list of rules is cut, if the rules of limit 255
are on one side of the cut and some name is hit by no rule at all. -/
namespace LinkConnectors

namespace Reach.Registry

variable {r r₁ r₂ : Registry} {name : String} {previous : Nat} {rule : Rule}

/-- The rules of one registry, followed by those of another. -/
def append (r₁ r₂ : Registry) : Registry := ⟨r₁.rules ++ r₂.rules⟩

lemma Declared.append (h₁ : r₁.Declared) (h₂ : r₂.Declared) : (r₁.append r₂).Declared :=
  List.forall_mem_append.mpr ⟨h₁, h₂⟩

lemma declaresUnlimited_append (r₁ r₂ : Registry) :
    (r₁.append r₂).declaresUnlimited = (r₁.declaresUnlimited || r₂.declaresUnlimited) :=
  List.any_append

lemma declaresUnlimited_iff : r.declaresUnlimited = true ↔ ∃ rule ∈ r.rules, rule.limit = 255 := by
  simp [declaresUnlimited, unlimited]

section Names

/-- The last rule that hits a name. -/
def lastHit? (r : Registry) (name : String) : Option Rule :=
  (r.rules.filter fun rule => rule.hits name).getLast?

/-- What becomes of a limit that no rule overwrites. -/
def settle (r : Registry) (previous : Nat) : Nat :=
  if previous = 0 ∧ r.declaresUnlimited = false then 255 else previous

lemma limitOf_of_lastHit? (h : r.lastHit? name = some rule) :
    r.limitOf name previous = rule.limit := by
  rw [lastHit?] at h
  rw [limitOf, h]

lemma limitOf_of_no_hit (h : r.lastHit? name = none) :
    r.limitOf name previous = r.settle previous := by
  rw [lastHit?] at h
  rw [limitOf, h, settle]
  simp only [declaresUnlimited_eq_false_iff]

lemma lastHit?_append (r₁ r₂ : Registry) (name : String) :
    (r₁.append r₂).lastHit? name = (r₂.lastHit? name).or (r₁.lastHit? name) := by
  rw [lastHit?, append, List.filter_append, List.getLast?_append]
  rfl

lemma lastHit?_isSome_iff :
    (r.lastHit? name).isSome = true ↔ ∃ rule ∈ r.rules, rule.hits name = true := by
  simp [lastHit?]

lemma Declared.settle_of_lastHit? (hr : r₁.Declared) (h : r₁.lastHit? name = some rule) :
    r₂.settle rule.limit = rule.limit :=
  if_neg fun hzero =>
    (hr rule (List.mem_of_mem_filter (List.mem_of_getLast? h))).limit_ne_zero hzero.1

/-- An open limit that goes through two registries ends as if it went through both at once, unless
just one of them sets 255. -/
lemma settle_settle_iff : r₂.settle (r₁.settle previous) = (r₁.append r₂).settle previous ↔
    r₁.declaresUnlimited = r₂.declaresUnlimited ∨ previous ≠ 0 := by
  unfold settle
  rw [declaresUnlimited_append]
  by_cases hzero : previous = 0
  · cases r₁.declaresUnlimited <;> cases r₂.declaresUnlimited <;> simp [hzero]
  · simp [hzero]

/-- What two registries in sequence make of the limit of a name, and what they make of it together,
is the same if both or none of them set 255, or if the limit was not open, or if some rule hits the
name. -/
theorem Declared.limitOf_append_iff (h₁ : r₁.Declared) :
    r₂.limitOf name (r₁.limitOf name previous) = (r₁.append r₂).limitOf name previous ↔
      r₁.declaresUnlimited = r₂.declaresUnlimited ∨
        (previous = 0 → ∃ rule ∈ (r₁.append r₂).rules, rule.hits name = true) := by
  have happend := lastHit?_append r₁ r₂ name
  rw [← lastHit?_isSome_iff]
  cases hlast₂ : r₂.lastHit? name with
  | some rule =>
    rw [hlast₂, Option.some_or] at happend
    rw [limitOf_of_lastHit? hlast₂, limitOf_of_lastHit? happend, happend]
    exact iff_of_true rfl (.inr fun _ => rfl)
  | none =>
    rw [hlast₂, Option.none_or] at happend
    rw [limitOf_of_no_hit hlast₂]
    cases hlast₁ : r₁.lastHit? name with
    | some rule =>
      rw [hlast₁] at happend
      rw [limitOf_of_lastHit? hlast₁, limitOf_of_lastHit? happend, happend,
        h₁.settle_of_lastHit? hlast₁]
      exact iff_of_true rfl (.inr fun _ => rfl)
    | none =>
      rw [hlast₁] at happend
      rw [limitOf_of_no_hit hlast₁, limitOf_of_no_hit happend, happend, settle_settle_iff]
      simp

lemma limitOf_append_self (r : Registry) (name : String) (previous : Nat) :
    (r.append r).limitOf name previous = r.limitOf name previous := by
  have happend := lastHit?_append r r name
  rw [Option.or_self] at happend
  cases hlast : r.lastHit? name with
  | some rule => rw [limitOf_of_lastHit? hlast, limitOf_of_lastHit? (happend.trans hlast)]
  | none =>
    rw [limitOf_of_no_hit hlast, limitOf_of_no_hit (happend.trans hlast), settle, settle,
      declaresUnlimited_append, Bool.or_self]

end Names

end Reach.Registry

namespace Table

open Reach (Registry)

variable {strings : Interner} {t : Table} {r r₁ r₂ : Registry} {f g : String → Nat → Nat}

/-- The table with new limits. Each of them depends on the name and the limit so far. -/
def relimit (t : Table) (f : String → Nat → Nat) : Table :=
  { t with descriptors := t.descriptors.map fun d => { d with limit := f d.text d.limit } }

lemma relimit_relimit (t : Table) (f g : String → Nat → Nat) :
    (t.relimit f).relimit g = t.relimit fun name previous => g name (f name previous) := by
  simp only [relimit, Array.map_map]
  rfl

lemma relimit_congr (h : ∀ d ∈ t.descriptors, f d.text d.limit = g d.text d.limit) :
    t.relimit f = t.relimit g := by
  have hmap : (t.descriptors.map fun d => { d with limit := f d.text d.limit }) =
      t.descriptors.map fun d => { d with limit := g d.text d.limit } := by
    refine Array.map_congr_left fun d hd => ?_
    rw [h d hd]
  rw [relimit, hmap, relimit]

lemma limits_relimit_eq_iff :
    (t.relimit f).descriptors.map Descriptor.limit =
      (t.relimit g).descriptors.map Descriptor.limit ↔
    ∀ d ∈ t.descriptors, f d.text d.limit = g d.text d.limit := by
  simp only [relimit, Array.map_map]
  exact Array.map_inj_left

lemma Sound.spells_of_mem (ht : Sound strings t) {d : Descriptor} (hd : d ∈ t.descriptors) :
    d.encoding.Spells d.text := by
  obtain ⟨id, hid⟩ := Array.mem_iff_getElem?.mp hd
  exact ht.registered.spells hid

/-- Applying rules gives each descriptor the limit of its name. -/
lemma Sound.apply_eq (ht : Sound strings t) (hg : t.grouped = true) (hr : r.Declared) :
    (r.apply t).value = .ok (t.relimit r.limitOf) := by
  have hrestamp : t.descriptors.map r.restamp =
      t.descriptors.map fun d => { d with limit := r.limitOf d.text d.limit } :=
    Array.map_congr_left fun d hd => hr.restamp_eq (ht.spells_of_mem hd)
  rw [Registry.apply_of_grouped hg, r.stamp_eq (ht.numbered hg), hrestamp]
  rfl

lemma Sound.relimit (ht : Sound strings t) (hg : t.grouped = true) (hr : r.Declared) :
    Sound strings (t.relimit r.limitOf) := by
  have hstamp := ht.stamp r hg
  have happly := ht.apply_eq hg hr
  rw [Registry.apply_of_grouped hg] at happly
  rwa [← Except.ok.inj happly]

lemma Sound.apply_apply (ht : Sound strings t) (hg : t.grouped = true) (h₁ : r₁.Declared)
    (h₂ : r₂.Declared) :
    (r₂.apply (t.relimit r₁.limitOf)).value =
      .ok (t.relimit fun name previous => r₂.limitOf name (r₁.limitOf name previous)) := by
  have hg' : (t.relimit r₁.limitOf).grouped = true := hg
  rw [(ht.relimit hg h₁).apply_eq hg' h₂, relimit_relimit]

/-- Applying two registries is applying their rules at once, as far as the condition on single names
is met by all names. -/
lemma Sound.sequence_iff (ht : Sound strings t) (h₁ : r₁.Declared) (h₂ : r₂.Declared) :
    (t.relimit fun name previous => r₂.limitOf name (r₁.limitOf name previous)).descriptors.map
        Descriptor.limit =
        (t.relimit (r₁.append r₂).limitOf).descriptors.map Descriptor.limit ↔
      r₁.declaresUnlimited = r₂.declaresUnlimited ∨
        ∀ d ∈ t.descriptors, d.limit = 0 → ∃ rule ∈ (r₁.append r₂).rules, rule.Hits d.text := by
  rw [limits_relimit_eq_iff, ← forall_or_left]
  refine forall_congr' fun d => ?_
  rw [← forall_or_left]
  refine forall_congr' fun hd => ?_
  rw [h₁.limitOf_append_iff]
  refine or_congr_right
    (imp_congr_right fun _ => exists_congr fun rule => and_congr_right fun hrule => ?_)
  exact (h₁.append h₂ rule hrule).hits_iff (ht.spells_of_mem hd)

lemma Sound.sequence_eq (h₁ : r₁.Declared) (hsame : r₁.declaresUnlimited = r₂.declaresUnlimited)
    (t : Table) :
    (t.relimit fun name previous => r₂.limitOf name (r₁.limitOf name previous)) =
      t.relimit (r₁.append r₂).limitOf :=
  relimit_congr fun _ _ => h₁.limitOf_append_iff.mpr (.inl hsame)

end Table

namespace TableSession

/-- In every session whose table is grouped, applying two registries one after the other gives the
same limits as applying the rules of both at once, if and only if both or neither of them have a
rule of limit 255, or each name whose limit was 0 is hit by a rule of either. So a registry that is
applied twice has the effect of applying it once, and if it has no rule of limit 255, it can be cut
anywhere. -/
theorem limits_in_sequence (count : Nat) (xs : List Step)
    (hg : ((start count).after xs).table.grouped = true) :
    let t := ((start count).after xs).table
    (∀ r₁ r₂ : Reach.Registry, r₁.Declared → r₂.Declared → ∃ t₁ t₂ u,
      (r₁.apply t).value = .ok t₁ ∧ (r₂.apply t₁).value = .ok t₂ ∧
        ((r₁.append r₂).apply t).value = .ok u ∧
        (t₂.descriptors.map Descriptor.limit = u.descriptors.map Descriptor.limit ↔
          ((∃ rule ∈ r₁.rules, rule.limit = 255) ↔ ∃ rule ∈ r₂.rules, rule.limit = 255) ∨
            ∀ d ∈ t.descriptors, d.limit = 0 → ∃ rule ∈ r₁.rules ++ r₂.rules, rule.Hits d.text)) ∧
    (∀ r : Reach.Registry, r.Declared → ∃ u, (r.apply t).value = .ok u ∧
      (r.apply u).value = .ok u) ∧
    ∀ r : Reach.Registry, r.Declared → (∀ rule ∈ r.rules, rule.limit ≠ 255) → ∀ n, ∃ t₁ u,
      (Reach.Registry.apply ⟨r.rules.take n⟩ t).value = .ok t₁ ∧
        (Reach.Registry.apply ⟨r.rules.drop n⟩ t₁).value = .ok u ∧ (r.apply t).value = .ok u := by
  intro t
  have ht : Table.Sound _ t := sound_after_start count xs
  refine ⟨fun r₁ r₂ h₁ h₂ => ?_, fun r hr => ?_, fun r hr hlow n => ?_⟩
  · refine ⟨_, _, _, ht.apply_eq hg h₁, ht.apply_apply hg h₁ h₂, ht.apply_eq hg (h₁.append h₂), ?_⟩
    rw [ht.sequence_iff h₁ h₂, ← Reach.Registry.declaresUnlimited_iff,
      ← Reach.Registry.declaresUnlimited_iff, ← Bool.eq_iff_iff]
    rfl
  · have htwice := ht.apply_apply hg hr hr
    rw [Table.Sound.sequence_eq hr rfl] at htwice
    refine ⟨_, ht.apply_eq hg hr, htwice.trans (congrArg Except.ok ?_)⟩
    exact Table.relimit_congr fun d _ => r.limitOf_append_self d.text d.limit
  · have h₁ : Reach.Registry.Declared ⟨r.rules.take n⟩ :=
      fun rule hrule => hr rule (List.mem_of_mem_take hrule)
    have h₂ : Reach.Registry.Declared ⟨r.rules.drop n⟩ :=
      fun rule hrule => hr rule (List.mem_of_mem_drop hrule)
    have hlow₁ : Reach.Registry.declaresUnlimited ⟨r.rules.take n⟩ = false :=
      Reach.Registry.declaresUnlimited_eq_false_iff.mpr fun rule hrule =>
        hlow rule (List.mem_of_mem_take hrule)
    have hlow₂ : Reach.Registry.declaresUnlimited ⟨r.rules.drop n⟩ = false :=
      Reach.Registry.declaresUnlimited_eq_false_iff.mpr fun rule hrule =>
        hlow rule (List.mem_of_mem_drop hrule)
    have hwhole : Reach.Registry.append ⟨r.rules.take n⟩ ⟨r.rules.drop n⟩ = r := by
      rw [Reach.Registry.append, List.take_append_drop]
    have happly := ht.apply_apply hg h₁ h₂
    rw [Table.Sound.sequence_eq h₁ (hlow₁.trans hlow₂.symm), hwhole] at happly
    exact ⟨_, _, ht.apply_eq hg h₁, happly, ht.apply_eq hg hr⟩

/-- The first registry leaves `O` open because it sets 255 for other names. The second one lifts it
if it is applied on its own, and not if its rules follow those of the first. -/
theorem limits_of_cut_registry :
    let s := (start 0).after ([.internAll ["Ss", "O"]] ++ .group :: [])
    let r₁ := ((start 0).after [.push (.limit 255) ["S"]]).registry
    let r₂ :=
      ((start 0).after [.push (.define "LENGTH-LIMIT-3") ["S*b"], .push (.limit 4) ["Ss"]]).registry
    (∃ t₁ t₂ u, (r₁.apply s.table).value = .ok t₁ ∧ (r₂.apply t₁).value = .ok t₂ ∧
      ((r₁.append r₂).apply s.table).value = .ok u ∧
        t₂.descriptors.map Descriptor.limit ≠ u.descriptors.map Descriptor.limit) ∧
    (∃ u, (r₁.apply s.table).value = .ok u ∧ (r₁.apply u).value = .ok u) ∧
    ∃ t₁ u, (Reach.Registry.apply ⟨r₂.rules.take 1⟩ s.table).value = .ok t₁ ∧
      (Reach.Registry.apply ⟨r₂.rules.drop 1⟩ t₁).value = .ok u ∧
        (r₂.apply s.table).value = .ok u := by
  intro s r₁ r₂
  have h₁ : r₁.Declared := declared_after_start 0 _
  have h₂ : r₂.Declared := declared_after_start 0 _
  obtain ⟨hpairs, htwice, hcut⟩ :=
    limits_in_sequence 0 _ (numbered_after_group 0 [.internAll ["Ss", "O"]] []).grouped
  refine ⟨?_, htwice r₁ h₁, hcut r₂ h₂ (by decide +kernel) 1⟩
  obtain ⟨t₁, t₂, u, happly₁, happly₂, happly, hiff⟩ := hpairs r₁ r₂ h₁ h₂
  refine ⟨t₁, t₂, u, happly₁, happly₂, happly, fun heq => ?_⟩
  have hbefore :
      (((start 0).after [.internAll ["Ss", "O"]]).table.get? 1).map (fun d => (d.text, d.limit)) =
      some ("O", 0) := by decide +kernel
  obtain ⟨e, he, hopen⟩ := Option.map_eq_some_iff.mp hbefore
  obtain ⟨htext, hlimit⟩ := Prod.mk.inj hopen
  -- grouping writes core numbers alone
  have hd := Table.get?_group ((start 0).after [.internAll ["Ss", "O"]]).table 1
  rw [he] at hd
  have hmissed : ∀ rule ∈ (r₁.append r₂).rules, rule.hits "O" = false := by decide +kernel
  have hspells :=
    (Table.Sound.group (sound_after_start 0 [.internAll ["Ss", "O"]])).registered.spells hd
  obtain hsame | hhit := hiff.mp heq
  · exact absurd hsame (by decide +kernel)
  · obtain ⟨rule, hrule, hhits⟩ := hhit _ (Array.mem_of_getElem? hd) hlimit
    have htrue := ((h₁.append h₂ rule hrule).hits_iff hspells).mpr hhits
    have hfalse := hmissed rule hrule
    rw [← htext] at hfalse
    exact Bool.false_ne_true (hfalse.symm.trans htrue)

end TableSession

end LinkConnectors
