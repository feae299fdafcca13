import LinkConnectors.Proofs.Table.CoreRange
import LinkConnectors.Proofs.Table.Frame
import Mathlib.Data.List.Induction

/-! Stamping as a scan. The rules reach descriptors through the stretches of their patterns' cores,
one after the other, and write over each other. What comes out is what a scan over all descriptors
finds, with the last rule for each. -/
namespace LinkConnectors.Reach

open Table

/-- Whether a pattern stamps a descriptor. -/
def Pattern.reaches (p : Pattern) (d : Descriptor) : Bool := p.core == d.core && p.covers d

def Rule.reaches (rule : Rule) (d : Descriptor) : Bool := rule.patterns.any fun p => p.reaches d

namespace Registry

/-- How many times the rules stamp one of the descriptors. -/
def reachCount (r : Registry) (ds : List Descriptor) : Nat :=
  (r.rules.map fun rule => (rule.patterns.map fun p => ds.countP p.reaches).sum).sum

/-- The limit from the last rule that stamps a descriptor. -/
def lastLimit? (r : Registry) (d : Descriptor) : Option Nat :=
  (r.rules.filter fun rule => rule.reaches d).getLast?.map Rule.limit

/-- What stamping makes of a descriptor. -/
def restamp (r : Registry) (d : Descriptor) : Descriptor :=
  let marked := { d with limit := (r.lastLimit? d).getD d.limit }
  if r.declaresUnlimited then marked else lift marked

section Loop

variable {limit : Nat} {p : Pattern}

/-- A descriptor that a pattern covers gets the limit. -/
def mark (limit : Nat) (covered : Descriptor → Bool) (d : Descriptor) : Descriptor :=
  if covered d then { d with limit := limit } else d

@[simp] lemma covers_mark (q : Pattern) (limit : Nat) (covered : Descriptor → Bool)
    (d : Descriptor) :
    q.covers (mark limit covered d) = q.covers d := by
  unfold mark
  split <;> rfl

@[simp] lemma reaches_mark (q : Pattern) (limit : Nat) (covered : Descriptor → Bool)
    (d : Descriptor) :
    q.reaches (mark limit covered d) = q.reaches d := by
  unfold mark
  split <;> rfl

@[simp] lemma sortKey_mark (limit : Nat) (covered : Descriptor → Bool) (d : Descriptor) :
    (mark limit covered d).sortKey = d.sortKey := by
  unfold mark
  split <;> rfl

/-- A pattern does not look at limits, so marking twice is marking once. -/
lemma mark_mark (limit : Nat) (p : Pattern) (d : Descriptor) :
    mark limit p.covers (mark limit p.covers d) = mark limit p.covers d := by
  rw [mark, covers_mark]
  unfold mark
  by_cases hcovers : p.covers d <;> simp [hcovers]

namespace Stamping

lemma stamp_descriptors (s : Stamping) (limit : Nat) (p : Pattern) (id : Nat) :
    (s.stamp limit p id).descriptors = s.descriptors.modify id (mark limit p.covers) := by
  unfold stamp
  apply Array.ext_getElem?
  intro i
  rw [Array.getElem?_modify]
  cases hd : s.descriptors[id]? with
  | none =>
    by_cases hi : id = i
    · subst hi
      simp [hd]
    · simp [hi]
  | some d =>
    obtain ⟨hlt, _⟩ := Array.getElem?_eq_some_iff.mp hd
    dsimp only
    by_cases hi : id = i
    · subst hi
      rw [if_pos rfl, hd, Option.map_some, mark]
      by_cases hcovers : p.covers d
      · rw [if_pos hcovers, if_pos hcovers]
        exact Array.getElem?_setIfInBounds_self_of_lt hlt
      · rw [if_neg hcovers, if_neg hcovers, hd]
    · by_cases hcovers : p.covers d <;> simp [hcovers, hi]

lemma stamp_stamped (s : Stamping) (limit : Nat) (p : Pattern) (id : Nat) :
    (s.stamp limit p id).stamped =
      s.stamped + if s.descriptors[id]?.any p.covers then 1 else 0 := by
  unfold stamp
  cases hd : s.descriptors[id]? with
  | none => simp
  | some d => by_cases hcovers : p.covers d <;> simp [hcovers]

lemma getElem?_foldl_stamp (ids : List Nat) (s : Stamping) (id : Nat) :
    (ids.foldl (stamp limit p) s).descriptors[id]? =
      if id ∈ ids then s.descriptors[id]?.map (mark limit p.covers) else s.descriptors[id]? := by
  induction ids generalizing s with
  | nil => simp
  | cons i ids ih =>
    rw [List.foldl_cons, ih, stamp_descriptors, Array.getElem?_modify]
    by_cases hi : i = id
    · subst hi
      by_cases hmem : i ∈ ids <;> simp [hmem, Function.comp_def, mark_mark]
    · have hi' : id ≠ i := fun h => hi h.symm
      simp [hi, hi']

lemma stamped_foldl_stamp (ids : List Nat) (s : Stamping) :
    (ids.foldl (stamp limit p) s).stamped =
      s.stamped + ids.countP fun id => s.descriptors[id]?.any p.covers := by
  induction ids generalizing s with
  | nil => simp
  | cons i ids ih =>
    have hsame : ∀ id : Nat, (s.stamp limit p i).descriptors[id]?.any p.covers =
        s.descriptors[id]?.any p.covers := by
      intro id
      rw [stamp_descriptors, Array.getElem?_modify]
      by_cases hi : i = id
      · subst hi
        cases hd : s.descriptors[i]? <;> simp
      · rw [if_neg hi]
    rw [List.foldl_cons, ih, stamp_stamped, List.countP_cons]
    simp only [hsame]
    omega

end Stamping

/-- Counting over the numbers of the descriptors, in any order, is counting over the descriptors. -/
lemma countP_sortedIds (q : Descriptor → Bool) (ds : Array Descriptor) :
    (sortedIds ds).countP (fun id => ds[id]?.any q) = ds.toList.countP q := by
  have hrange : (List.range ds.size).map (fun id => ds[id]?) = ds.toList.map some := by
    apply List.ext_getElem?
    intro i
    obtain h | h := Nat.lt_or_ge i ds.size
    · simp [h]
    · simp [h]
  calc (sortedIds ds).countP (fun id => ds[id]?.any q)
      = (List.range ds.size).countP (fun id => ds[id]?.any q) := (sortedIds_perm ds).countP_eq _
    _ = ((List.range ds.size).map fun id => ds[id]?).countP (Option.any q) := by
        rw [List.countP_map]
        rfl
    _ = ds.toList.countP q := by
        rw [hrange, List.countP_map]
        rfl

variable {t : Table} {s : Stamping}

/-- Limits do not move a descriptor in the view, so the stretches are those of the table that was
given. -/
lemma coreRange_of_sortKey (ht : t.Numbered)
    (hs : s.descriptors.map Descriptor.sortKey = t.descriptors.map Descriptor.sortKey)
    (core : String) :
    t.coreRange core =
      (sortedIds s.descriptors).filter fun id =>
        s.descriptors[id]?.any fun d => core == d.core := by
  rw [ht.coreRange_eq, sortedIds_congr hs]
  apply List.filter_congr
  intro id hid
  obtain ⟨d, hd⟩ := mem_sortedIds_iff_exists.mp hid
  have hkey := congrArg (fun keys => keys[id]?) hs
  simp only [Array.getElem?_map, hd, Option.map_some] at hkey
  obtain ⟨e, he, heq⟩ := Option.map_eq_some_iff.mp hkey
  have hcore : e.core = d.core := congrArg (fun key => (ofLex key).1) heq
  rw [coreAt_of_getElem? hd, he, Option.any_some, hcore]
  exact BEq.comm

theorem stampPattern_eq (ht : t.Numbered)
    (hs : s.descriptors.map Descriptor.sortKey = t.descriptors.map Descriptor.sortKey) (limit : Nat)
    (p : Pattern) :
    s.stampPattern t.coreRange limit p = ⟨s.descriptors.map (mark limit p.reaches),
      s.stamped + s.descriptors.toList.countP p.reaches⟩ := by
  have hreaches : ∀ id : Nat, (s.descriptors[id]?.any p.covers &&
      s.descriptors[id]?.any fun d => p.core == d.core) = s.descriptors[id]?.any p.reaches := by
    intro id
    cases s.descriptors[id]? with
    | none => rfl
    | some d => exact Bool.and_comm _ _
  have hstamped : (s.stampPattern t.coreRange limit p).stamped =
      s.stamped + s.descriptors.toList.countP p.reaches := by
    rw [Stamping.stampPattern, coreRange_of_sortKey ht hs, Stamping.stamped_foldl_stamp,
      List.countP_filter, ← countP_sortedIds]
    simp only [hreaches]
  have hdescriptors : (s.stampPattern t.coreRange limit p).descriptors =
      s.descriptors.map (mark limit p.reaches) := by
    apply Array.ext_getElem?
    intro id
    rw [Stamping.stampPattern, coreRange_of_sortKey ht hs, Stamping.getElem?_foldl_stamp,
      Array.getElem?_map]
    cases hd : s.descriptors[id]? with
    | none => simp
    | some d =>
      have hmem : id ∈ sortedIds s.descriptors := mem_sortedIds_iff_exists.mpr ⟨d, hd⟩
      by_cases hcore : p.core = d.core <;> simp [hmem, hd, hcore, mark, Pattern.reaches]
  rw [← hstamped, ← hdescriptors]

lemma map_sortKey_mark (limit : Nat) (covered : Descriptor → Bool) (ds : Array Descriptor) :
    (ds.map (mark limit covered)).map Descriptor.sortKey = ds.map Descriptor.sortKey := by
  rw [Array.map_map]
  congr 1
  funext d
  exact sortKey_mark limit covered d

lemma countP_map_mark (q : Pattern) (limit : Nat) (covered : Descriptor → Bool)
    (ds : Array Descriptor) :
    (ds.map (mark limit covered)).toList.countP q.reaches = ds.toList.countP q.reaches := by
  rw [Array.toList_map, List.countP_map]
  congr 1
  funext d
  exact reaches_mark q limit covered d

/-- The patterns of a rule mark as one. -/
lemma foldl_stampPattern (ht : t.Numbered)
    (hs : s.descriptors.map Descriptor.sortKey = t.descriptors.map Descriptor.sortKey) (limit : Nat)
    (ps : List Pattern) :
    ps.foldl (Stamping.stampPattern t.coreRange limit) s =
      ⟨s.descriptors.map (mark limit fun d => ps.any fun p => p.reaches d),
        s.stamped + (ps.map fun p => s.descriptors.toList.countP p.reaches).sum⟩ := by
  induction ps generalizing s with
  | nil =>
    have hmark : (mark limit fun d => ([] : List Pattern).any fun p => p.reaches d) = id := rfl
    rw [hmark, Array.map_id]
    rfl
  | cons p ps ih =>
    rw [List.foldl_cons, stampPattern_eq ht hs, ih ((map_sortKey_mark _ _ _).trans hs),
      List.map_cons, List.sum_cons]
    simp only [countP_map_mark, Nat.add_assoc, Array.map_map]
    congr 2
    funext d
    rw [Function.comp_apply, mark]
    simp only [reaches_mark]
    unfold mark
    by_cases hp : p.reaches d <;> by_cases hps : (ps.any fun q => q.reaches d) <;> simp [hp, hps]

lemma stampRule_eq (ht : t.Numbered)
    (hs : s.descriptors.map Descriptor.sortKey = t.descriptors.map Descriptor.sortKey)
    (rule : Rule) :
    s.stampRule t.coreRange rule = ⟨s.descriptors.map (mark rule.limit rule.reaches),
      s.stamped + (rule.patterns.map fun p => s.descriptors.toList.countP p.reaches).sum⟩ :=
  foldl_stampPattern ht hs rule.limit rule.patterns

/-- What all rules make of a descriptor, in their order. -/
lemma foldl_mark (r : Registry) (d : Descriptor) :
    r.rules.foldl (fun d rule => mark rule.limit rule.reaches d) d =
      { d with limit := (r.lastLimit? d).getD d.limit } := by
  obtain ⟨rules⟩ := r
  induction rules using List.reverseRecOn with
  | nil => rfl
  | append_singleton rules rule ih =>
    dsimp only at ih
    rw [List.foldl_append, List.foldl_cons, List.foldl_nil, ih]
    have hreaches : rule.reaches { d with limit := (lastLimit? ⟨rules⟩ d).getD d.limit } =
        rule.reaches d := rfl
    rw [mark, hreaches]
    by_cases hrule : rule.reaches d <;> simp [lastLimit?, hrule]

theorem foldl_stampRule (ht : t.Numbered)
    (hs : s.descriptors.map Descriptor.sortKey = t.descriptors.map Descriptor.sortKey)
    (rules : List Rule) :
    rules.foldl (Stamping.stampRule t.coreRange) s =
      ⟨s.descriptors.map fun d => rules.foldl (fun d rule => mark rule.limit rule.reaches d) d,
        s.stamped + reachCount ⟨rules⟩ s.descriptors.toList⟩ := by
  induction rules generalizing s with
  | nil => simp [reachCount]
  | cons rule rules ih =>
    rw [List.foldl_cons, stampRule_eq ht hs, ih ((map_sortKey_mark _ _ _).trans hs)]
    simp only [reachCount, List.map_cons, List.sum_cons, countP_map_mark, Nat.add_assoc,
      Array.map_map]
    rfl

end Loop

/-- Stamping in one piece: every descriptor gets its limit, and every pair of a pattern and a
descriptor that it reaches is counted. -/
theorem stamp_eq (r : Registry) {t : Table} (ht : t.Numbered) :
    r.stamp t = ⟨{ t with descriptors := t.descriptors.map r.restamp },
      [.limitsApplied r.size (r.reachCount t.descriptors.toList) r.declaresUnlimited]⟩ := by
  have hrestamp : r.restamp = fun d =>
      if r.declaresUnlimited then r.rules.foldl (fun d rule => mark rule.limit rule.reaches d) d
      else lift (r.rules.foldl (fun d rule => mark rule.limit rule.reaches d) d) := by
    funext d
    rw [foldl_mark]
    rfl
  unfold stamp
  simp only [foldl_stampRule (s := ⟨t.descriptors, 0⟩) ht rfl, hrestamp, Nat.zero_add]
  cases r.declaresUnlimited with
  | true => rfl
  | false =>
    simp only [Bool.false_eq_true, if_false, Array.map_map]
    rfl

section Apply

variable {r : Registry} {t : Table}

lemma apply_of_not_grouped (hg : t.grouped = false) : r.apply t = ⟨.error .notGrouped, []⟩ := by
  rw [apply, if_neg (by simp [hg])]
  rfl

end Apply

end Registry

end LinkConnectors.Reach
