import LinkConnectors.Proofs.Encoding.Grammar
import LinkConnectors.Proofs.Reach.Hits
import LinkConnectors.Reach.Effective
import Mathlib.Data.List.Induction

/-! The limit in one run, from the rules to the run options. Rules declare a limit for a name or
leave it to the run, and the run cuts down what was declared if it is told to. -/
namespace LinkConnectors

section Suffixes

variable {e f : Encoding} {pattern name : String}

/-- Written suffixes agree at each position that both have, where a wildcard agrees with
everything. -/
def Suffix.Agree (s t : String) : Prop := ∀ (n : Nat) (c d : Char),
  s.toList[n]? = some c → t.toList[n]? = some d → c = '*' ∨ d = '*' ∨ c = d

/-- The check on packed suffixes is the one on written suffixes. -/
lemma Encoding.Spells.compatible_iff (he : e.Spells pattern) (hf : f.Spells name) :
    e.packed.compatible f.packed = true ↔ Suffix.Agree e.suffix f.suffix := by
  have hstar : ∀ c : Char, c.toNat < 128 → (Text.octet c = Text.star ↔ c = '*') := fun c hc =>
    Text.octet_inj (d := '*') hc (by decide)
  have hagree : ∀ c ∈ e.suffix.toList, ∀ d ∈ f.suffix.toList,
      ((Text.octet c = Text.star ∨ Text.octet d = Text.star ∨ Text.octet c = Text.octet d) ↔
        (c = '*' ∨ d = '*' ∨ c = d)) := by
    intro c hc d hd
    have hc := he.isAscii_suffix c hc
    have hd := hf.isAscii_suffix d hd
    rw [hstar c hc, hstar d hd, Text.octet_inj hc hd]
  rw [he.packed_eq, hf.packed_eq,
    Suffix.compatible_pack he.suffix_letter hf.suffix_letter he.suffix_length
    hf.suffix_length, Matching.suffixesAgree_iff]
  constructor
  · intro h n c d hc hd
    refine (hagree c (List.mem_of_getElem? hc) d (List.mem_of_getElem? hd)).mp (h n _ _ ?_ ?_)
    · rw [List.getElem?_map, hc, Option.map_some]
    · rw [List.getElem?_map, hd, Option.map_some]
  · intro h n a b ha hb
    rw [List.getElem?_map, Option.map_eq_some_iff] at ha hb
    obtain ⟨c, hc, rfl⟩ := ha
    obtain ⟨d, hd, rfl⟩ := hb
    exact (hagree c (List.mem_of_getElem? hc) d (List.mem_of_getElem? hd)).mpr (h n c d hc hd)

end Suffixes

namespace Reach

section Rules

variable {name : String} {rule : Rule} {rules : List Rule} {base : Option Nat} {r : Registry}
  {e : Encoding}

/-- One of the rule's patterns has the core of the name, a suffix that agrees with that of the name,
and no marker or the marker of the name. -/
def Rule.Hits (rule : Rule) (name : String) : Prop :=
  ∃ p ∈ rule.patterns, ∃ e f, Encoding.ofName p.text = .ok e ∧ Encoding.ofName name = .ok f ∧
    e.core = f.core ∧ Suffix.Agree e.suffix f.suffix ∧ (e.role = .unmarked ∨ e.role = f.role)

/-- What rules declare for a name: the limit of the last rule that hits it. If none does, the limit
is left to the run, or there is none at all if no rule of limit 255 tells which names have none. -/
inductive Declares (rules : List Rule) (name : String) : Option Nat → Prop
  | hit {before after : List Rule} {rule : Rule} (hrules : rules = before ++ rule :: after)
      (hhits : rule.Hits name)
      (hlast : ∀ later ∈ after, ¬ later.Hits name) : Declares rules name (some rule.limit)
  | left (hnone : ∀ rule ∈ rules, ¬ rule.Hits name) (hsome : ∃ rule ∈ rules, rule.limit = 255) :
      Declares rules name none
  | unlimited (hnone : ∀ rule ∈ rules, ¬ rule.Hits name) (hall : ∀ rule ∈ rules, rule.limit ≠ 255) :
      Declares rules name (some 255)

/-- Hits are found by comparing names as they are written. -/
lemma Rule.Declared.hits_iff (hrule : rule.Declared) (he : e.Spells name) :
    rule.hits name = true ↔ rule.Hits name := by
  have hpattern : ∀ p ∈ rule.patterns, Reach.hits p.text name = true ↔
      ∃ q f, Encoding.ofName p.text = .ok q ∧ Encoding.ofName name = .ok f ∧ q.core = f.core ∧
        Suffix.Agree q.suffix f.suffix ∧ (q.role = .unmarked ∨ q.role = f.role) := by
    intro p hp
    have hspells := hrule.spells hp
    rw [hspells.hits_eq he, Bool.and_eq_true, Bool.and_eq_true, beq_iff_eq,
      hspells.compatible_iff he, Role.admits, Bool.or_eq_true, beq_iff_eq, beq_iff_eq]
    constructor
    · intro h
      exact ⟨_, _, Encoding.ofName_eq_ok_iff.mpr hspells, Encoding.ofName_eq_ok_iff.mpr he, h⟩
    · rintro ⟨q, f, hq, hf, h⟩
      obtain rfl := hspells.eq (Encoding.spells_of_ofName hq)
      obtain rfl := he.eq (Encoding.spells_of_ofName hf)
      exact h
  rw [Rule.hits, List.any_eq_true]
  exact exists_congr fun p => and_congr_right (hpattern p)

/-- A rule that does not hit a name and sets no 255 changes nothing for it. -/
lemma Declares.append (h : Declares rules name base) (hhits : ¬ rule.Hits name)
    (hlimit : rule.limit ≠ 255) :
    Declares (rules ++ [rule]) name base := by
  have hnot : ∀ {others : List Rule}, (∀ other ∈ others, ¬ other.Hits name) →
      ∀ other ∈ others ++ [rule], ¬ other.Hits name := by
    intro others hothers
    exact List.forall_mem_append.mpr ⟨hothers, List.forall_mem_singleton.mpr hhits⟩
  cases h with
  | @hit before after last hrules hhit hlast =>
    have hsplit : rules ++ [rule] = before ++ last :: (after ++ [rule]) := by
      rw [hrules, List.append_assoc, List.cons_append]
    exact .hit hsplit hhit (hnot hlast)
  | left hnone hsome =>
    obtain ⟨other, hother, h255⟩ := hsome
    exact .left (hnot hnone) ⟨other, List.mem_append_left _ hother, h255⟩
  | unlimited hnone hall =>
    exact .unlimited (hnot hnone)
      (List.forall_mem_append.mpr ⟨hall, List.forall_mem_singleton.mpr hlimit⟩)

/-- Of the rules that hit a name, there is a last one. -/
lemma exists_last_hit (h : ∃ rule ∈ rules, rule.Hits name) : ∃ before rule after,
    rules = before ++ rule :: after ∧ rule.Hits name ∧ ∀ later ∈ after, ¬ later.Hits name := by
  induction rules using List.reverseRecOn with
  | nil => simp at h
  | append_singleton rules last ih =>
    by_cases hlast : last.Hits name
    · exact ⟨rules, last, [], rfl, hlast, by simp⟩
    · obtain ⟨rule, hrule, hhit⟩ := h
      have hrule : rule ∈ rules := by
        refine (List.mem_append.mp hrule).resolve_right fun hmem => hlast ?_
        rwa [← List.mem_singleton.mp hmem]
      obtain ⟨before, rule, after, rfl, hhit, hafter⟩ := ih ⟨rule, hrule, hhit⟩
      refine ⟨before, rule, after ++ [last], ?_, hhit, ?_⟩
      · rw [List.append_assoc, List.cons_append]
      · exact List.forall_mem_append.mpr ⟨hafter, List.forall_mem_singleton.mpr hlast⟩

/-- Rules declare something for every name. -/
lemma exists_declares (rules : List Rule) (name : String) : ∃ base, Declares rules name base := by
  by_cases hhit : ∃ rule ∈ rules, rule.Hits name
  · obtain ⟨before, rule, after, hrules, hhit, hlast⟩ := exists_last_hit hhit
    exact ⟨_, .hit hrules hhit hlast⟩
  · push Not at hhit
    by_cases h255 : ∃ rule ∈ rules, rule.limit = 255
    · exact ⟨_, .left hhit h255⟩
    · push Not at h255
      exact ⟨_, .unlimited hhit h255⟩

/-- What is declared is what stamping writes, with 0 for what is left to the run. -/
lemma Registry.Declared.limitOf_eq (hr : r.Declared) (he : e.Spells name)
    (h : Declares r.rules name base) :
    r.limitOf name 0 = base.getD 0 ∧ base ≠ some 0 := by
  have hhits : ∀ rule ∈ r.rules, (rule.hits name = true ↔ rule.Hits name) := fun rule hrule =>
    (hr rule hrule).hits_iff he
  have hnone : (∀ rule ∈ r.rules, ¬ rule.Hits name) →
      (r.rules.filter fun rule => rule.hits name).getLast? = none := by
    intro hnot
    rw [List.getLast?_eq_none_iff, List.filter_eq_nil_iff]
    exact fun rule hrule hhit => hnot rule hrule ((hhits rule hrule).mp hhit)
  unfold limitOf
  cases h with
  | @hit before after last hrules hhit hlast =>
    have hmem : last ∈ r.rules := by
      rw [hrules]
      exact List.mem_append_right _ List.mem_cons_self
    have hafter : (after.filter fun rule => rule.hits name) = [] := by
      refine List.filter_eq_nil_iff.mpr fun rule hrule hhit =>
        hlast rule hrule ((hhits rule ?_).mp hhit)
      rw [hrules]
      exact List.mem_append_right _ (List.mem_cons_of_mem _ hrule)
    have hgetLast : (r.rules.filter fun rule => rule.hits name).getLast? = some last := by
      have hcons : ((last :: after).filter fun rule => rule.hits name) = [last] := by
        rw [List.filter_cons, if_pos ((hhits last hmem).mpr hhit), hafter]
      rw [hrules, List.filter_append, hcons, List.getLast?_concat]
    rw [hgetLast]
    exact ⟨rfl, fun hzero => (hr last hmem).limit_ne_zero (Option.some.inj hzero)⟩
  | left hnot hsome =>
    rw [hnone hnot]
    obtain ⟨rule, hrule, h255⟩ := hsome
    refine ⟨if_neg fun h => h.2 rule hrule h255, ?_⟩
    simp
  | unlimited hnot hall =>
    rw [hnone hnot]
    refine ⟨if_pos ⟨rfl, hall⟩, ?_⟩
    simp

end Rules

section Options

variable {o p : RunOptions} {base : Option Nat} {d : Descriptor}

/-- What a run makes of what was declared. -/
def clip (o : RunOptions) : Option Nat → Nat
  | none => o.shortLength
  | some limit => if o.allShort = true then min limit o.shortLength else limit

lemma effectiveLimit_eq_clip (hlimit : d.limit = base.getD 0) (hbase : base ≠ some 0) :
    effectiveLimit d (some o) = clip o base := by
  rw [effectiveLimit, hlimit]
  cases base with
  | none => exact if_pos (.inl rfl)
  | some limit =>
    have hpos : limit ≠ 0 := fun h => hbase (congrArg some h)
    dsimp only [Option.getD_some, clip]
    cases o.allShort with
    | false => simp [hpos]
    | true =>
      simp only [hpos, false_or, true_and, if_true]
      split <;> omega

lemma clip_pos (hbase : base ≠ some 0) (hshort : 1 ≤ o.shortLength) : 0 < clip o base := by
  cases base with
  | none => exact hshort
  | some limit =>
    have hpos : limit ≠ 0 := fun h => hbase (congrArg some h)
    rw [clip]
    split <;> omega

lemma clip_le (hall : o.allShort = true) : clip o base ≤ o.shortLength := by
  cases base with
  | none => exact Nat.le_refl _
  | some limit =>
    rw [clip, if_pos hall]
    exact Nat.min_le_right _ _

lemma clip_mono (hall : o.allShort = p.allShort) (hshort : o.shortLength ≤ p.shortLength) :
    clip o base ≤ clip p base := by
  cases base with
  | none => exact hshort
  | some limit =>
    rw [clip, clip, hall]
    split <;> omega

lemma clip_allShort_le (n : Nat) : clip ⟨n, true⟩ base ≤ clip ⟨n, false⟩ base := by
  cases base with
  | none => exact Nat.le_refl _
  | some limit => exact Nat.min_le_left _ _

end Options

end Reach

end LinkConnectors
