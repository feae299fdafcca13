import LinkConnectors.Proofs.Dictionary.Declared
import LinkConnectors.Proofs.Reach.Effective
import LinkConnectors.Proofs.Session.Limits

/-! The reach of connectors from the rules a dictionary loads to the options of a run. What the
rules declare for a name is all that a run gets to know of them. -/
namespace LinkConnectors.Builder

open Reach (Declares effectiveLimit clip)

variable {b : Builder} {name : String} {desc : Descriptor} {base : Option Nat}

section Accepted

lemma eq_ok_of_toOption {ε α : Type} {r : Except ε α} {a : α} (h : r.toOption = some a) :
    r = .ok a := by
  cases r with
  | error e => cases h
  | ok x => exact congrArg Except.ok (Option.some.inj h)

/-- The rules that are accepted while a dictionary loads were all made. -/
lemma declared_of_mem_acceptedRules {xs : List Step} {rule : Reach.Rule}
    (h : rule ∈ b.acceptedRules xs) :
    rule.Declared := by
  obtain ⟨x, _, hrule⟩ := List.mem_filterMap.mp h
  cases x with
  | define name patterns => exact ⟨.define name, patterns, eq_ok_of_toOption hrule⟩
  | push limit patterns => exact ⟨.limit limit, patterns, eq_ok_of_toOption hrule⟩
  | _ => cases hrule

lemma rules_ofExpected (count : Nat) (xs : List Step) :
    ((ofExpected count).run xs).value.2.limits.rules = (ofExpected count).acceptedRules xs :=
  rules_run _ xs

lemma declared_ofExpected (count : Nat) (xs : List Step) :
    ((ofExpected count).run xs).value.2.limits.Declared := by
  intro rule hrule
  rw [rules_ofExpected] at hrule
  exact declared_of_mem_acceptedRules hrule

lemma isSome_descriptor?_ofExpected (count : Nat) (xs : List Step) (name : String) :
    (((ofExpected count).run xs).value.2.finish.value.descriptor? name).isSome = true ↔
      name ∈ (ofExpected count).acceptedNames xs := by
  have hb := loading_ofExpected count
  have hempty : (ofExpected count).table.nameList.names = [] := rfl
  rw [(hb.run xs).isSome_descriptor?, hb.mem_names_run, hempty]
  simp

end Accepted

/-- A descriptor of a finished dictionary carries the limit that the rules give its name. -/
lemma Loading.limit_eq (hb : b.Loading) (hrules : b.limits.Declared)
    (hdesc : b.finish.value.descriptor? name = some desc) :
    ∃ e : Encoding, e.Spells name ∧ desc.limit = b.limits.limitOf name 0 := by
  have hname : name ∈ b.table.nameList.names :=
    (hb.isSome_descriptor? name).mp (Option.isSome_of_eq_some hdesc)
  have hplain := hb.descriptor?_eq name
  rw [if_pos hname, hdesc, declared] at hplain
  obtain ⟨e, he, hplain⟩ := Option.map_eq_some_iff.mp hplain.symm
  have hspells := Encoding.spells_of_ofName (eq_ok_of_toOption he)
  refine ⟨e, hspells, ?_⟩
  -- a name comes in with limit 0, so the rules decide alone
  rw [hrules.restamp_eq hspells] at hplain
  exact (congrArg Descriptor.limit hplain).symm

/-- In every run, a connector of a finished dictionary has the limit that the rules declare for its
name, cut down as the run options say. -/
lemma Loading.effectiveLimit_eq (hb : b.Loading) (hrules : b.limits.Declared)
    (hdesc : b.finish.value.descriptor? name = some desc)
    (hbase : Declares b.limits.rules name base) (o : RunOptions) :
    base ≠ some 0 ∧ effectiveLimit desc (some o) = clip o base := by
  obtain ⟨e, he, hlimit⟩ := hb.limit_eq hrules hdesc
  obtain ⟨hdeclared, hpos⟩ := hrules.limitOf_eq he hbase
  exact ⟨hpos, Reach.effectiveLimit_eq_clip (hlimit.trans hdeclared) hpos⟩

/-- The reach of every connector of every finished dictionary. Without options it has no limit. With
options it is what the rules declare for the name, cut down by the options. It is never 0 as long as
the short length is not, it grows with the short length, and it shrinks if all connectors are to be
short. One more rule of a limit below 255 changes it only for names that the rule hits. -/
theorem reach_after_finish (count : Nat) (xs : List Step) :
    let d := ((ofExpected count).run xs).value.2.finish.value
    let rules := (ofExpected count).acceptedRules xs
    (∀ name, (d.descriptor? name).isSome = true ↔ name ∈ (ofExpected count).acceptedNames xs) ∧
    ∀ name desc, d.descriptor? name = some desc →
      effectiveLimit desc none = 255 ∧
      (∃ base, Declares rules name base) ∧
      (∀ base, Declares rules name base → ∀ o, effectiveLimit desc (some o) = clip o base) ∧
      (∀ o : RunOptions, 1 ≤ o.shortLength →
        0 < effectiveLimit desc (some o) ∧
        (o.allShort = true → effectiveLimit desc (some o) ≤ o.shortLength) ∧
        (∀ n, o.shortLength ≤ n →
          effectiveLimit desc (some o) ≤ effectiveLimit desc (some { o with shortLength := n })) ∧
        effectiveLimit desc (some { o with allShort := true }) ≤
          effectiveLimit desc (some { o with allShort := false })) ∧
      ∀ (more : Nat) (ys : List Step) (rule : Reach.Rule) (other : Descriptor),
        (ofExpected more).acceptedRules ys = rules ++ [rule] → rule.limit < 255 → ¬ rule.Hits name →
        ((ofExpected more).run ys).value.2.finish.value.descriptor? name = some other →
        ∀ o, effectiveLimit other o = effectiveLimit desc o := by
  intro d rules
  refine ⟨isSome_descriptor?_ofExpected count xs, fun name desc hdesc => ?_⟩
  have heffective : ∀ base, Declares rules name base → ∀ o,
      base ≠ some 0 ∧ effectiveLimit desc (some o) = clip o base := by
    intro base hbase
    refine ((loading_ofExpected count).run xs).effectiveLimit_eq
      (declared_ofExpected count xs) hdesc ?_
    rwa [rules_ofExpected]
  obtain ⟨base, hbase⟩ := Reach.exists_declares rules name
  have hclip := heffective base hbase
  refine ⟨rfl, ⟨base, hbase⟩, fun base hbase o => (heffective base hbase o).2,
    fun o hshort => ?_, ?_⟩
  · rw [(hclip o).2, (hclip _).2, (hclip _).2]
    refine ⟨Reach.clip_pos (hclip o).1 hshort, Reach.clip_le, fun n hn => ?_,
      Reach.clip_allShort_le _⟩
    rw [(hclip _).2]
    exact Reach.clip_mono rfl hn
  · intro more ys rule other hrules hlimit hhits hother o
    cases o with
    | none => rfl
    | some o =>
      have happend : Declares ((ofExpected more).run ys).value.2.limits.rules name base := by
        rw [rules_ofExpected, hrules]
        exact hbase.append hhits (Nat.ne_of_lt hlimit)
      have hafter :=
        ((loading_ofExpected more).run ys).effectiveLimit_eq
          (declared_ofExpected more ys) hother happend o
      exact hafter.2.trans (hclip o).2.symm

/-- No rule hits the name, and one of the rules sets 255, so the run decides. A rule for another
suffix changes nothing. -/
theorem reach_of_open_name :
    let xs : List Step := [.add "Ss", .push 255 ["O"], .define "LENGTH-LIMIT-3" ["hS"]]
    ∃ desc other, ((ofExpected 0).run xs).value.2.finish.value.descriptor? "Ss" = some desc ∧
      ((ofExpected 9).run (xs ++ [.push 2 ["Sb"]])).value.2.finish.value.descriptor? "Ss" =
        some other ∧
      effectiveLimit desc (some ⟨7, false⟩) = 7 ∧ 0 < effectiveLimit desc (some ⟨7, true⟩) ∧
      ∀ o, effectiveLimit other o = effectiveLimit desc o := by
  intro xs
  let rule : Reach.Rule := ⟨none, 2, [⟨"Sb", ⟨.unmarked, "S", "b", Suffix.pack ['b']⟩⟩]⟩
  have hrules : (ofExpected 9).acceptedRules (xs ++ [.push 2 ["Sb"]]) =
      (ofExpected 0).acceptedRules xs ++ [rule] := by
    decide +kernel
  obtain ⟨hnames, hlimits⟩ := reach_after_finish 0 xs
  obtain ⟨desc, hdesc⟩ := Option.isSome_iff_exists.mp ((hnames "Ss").mpr (by decide +kernel))
  obtain ⟨other, hother⟩ := Option.isSome_iff_exists.mp
    ((isSome_descriptor?_ofExpected 9 (xs ++ [.push 2 ["Sb"]]) "Ss").mpr (by decide +kernel))
  have hname : ∃ e : Encoding, e.Spells "Ss" :=
    ⟨⟨.unmarked, "S", "s", Suffix.pack ['s']⟩, Encoding.ofName_eq_ok_iff.mp (by decide +kernel)⟩
  obtain ⟨e, he⟩ := hname
  have hhits : ∀ rule ∈ (ofExpected 9).acceptedRules (xs ++ [.push 2 ["Sb"]]),
      ¬ rule.Hits "Ss" := by
    intro rule hrule hhit
    have hnone : ∀ rule ∈ (ofExpected 9).acceptedRules (xs ++ [.push 2 ["Sb"]]),
        rule.hits "Ss" = false := by
      decide +kernel
    rw [← (declared_of_mem_acceptedRules hrule).hits_iff he, hnone rule hrule] at hhit
    cases hhit
  rw [hrules] at hhits
  obtain ⟨hbefore, hrule⟩ := List.forall_mem_append.mp hhits
  have hbase : Declares ((ofExpected 0).acceptedRules xs) "Ss" none :=
    .left hbefore (by decide +kernel)
  obtain ⟨_, _, hclip, hoptions, happend⟩ := hlimits "Ss" desc hdesc
  refine ⟨desc, other, hdesc, hother, hclip none hbase ⟨7, false⟩,
    (hoptions ⟨7, true⟩ (by decide)).1, ?_⟩
  exact happend 9 _ rule other hrules (by decide) (hrule rule List.mem_cons_self) hother

end LinkConnectors.Builder
