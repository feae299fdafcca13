import LinkConnectors.Event
import Mathlib.Data.List.Chain
import Mathlib.Data.List.Infix

/-! What a log tells of a table. Descriptors and slots come in one by one, and each growth stands
right behind the descriptor that there was no room for. -/
namespace LinkConnectors

namespace Event

/-- Whether an event tells that a descriptor or slots have come in. -/
def tells : Event → Bool
  | creating _ | growing .. => true
  | _ => false

def createdName? : Event → Option String
  | creating name => some name
  | _ => none

/-- The number of slots before and after. -/
def growth? : Event → Option (Nat × Nat)
  | growing fewer more => some (fewer, more)
  | _ => none

end Event

/-- The names of the descriptors that a log tells of. -/
def createdNames (log : List Event) : List String := log.filterMap Event.createdName?

def growths (log : List Event) : List (Nat × Nat) := log.filterMap Event.growth?

/-- The number of slots that a log ends with, if there are `first` of them to begin with. -/
def slotsTold (first : Nat) (log : List Event) : Nat :=
  ((growths log).getLast?.map Prod.snd).getD first

variable {first slots fewer more : Nat} {log before es : List Event} {names : List String}
  {name : String} {e : Event}

section Readings

lemma createdName?_of_not_tells (he : e.tells = false) : e.createdName? = none := by
  cases e <;> first | rfl | cases he

lemma growth?_of_not_tells (he : e.tells = false) : e.growth? = none := by
  cases e <;> first | rfl | cases he

lemma createdNames_append (log es : List Event) :
    createdNames (log ++ es) = createdNames log ++ createdNames es :=
  List.filterMap_append

lemma growths_append (log es : List Event) : growths (log ++ es) = growths log ++ growths es :=
  List.filterMap_append

lemma createdNames_aside (he : e.tells = false) : createdNames (log ++ [e]) = createdNames log := by
  have hnone : createdNames [e] = [] := List.filterMap_cons_none (createdName?_of_not_tells he)
  rw [createdNames_append, hnone, List.append_nil]

lemma growths_aside (he : e.tells = false) : growths (log ++ [e]) = growths log := by
  have hnone : growths [e] = [] := List.filterMap_cons_none (growth?_of_not_tells he)
  rw [growths_append, hnone, List.append_nil]

lemma growths_creating (log : List Event) (name : String) :
    growths (log ++ [.creating name]) = growths log := by
  rw [growths_append]
  exact List.append_nil _

lemma growths_crowded (log : List Event) (name : String) (fewer more : Nat) :
    growths (log ++ [.creating name, .growing fewer more]) = growths log ++ [(fewer, more)] :=
  growths_append log _

lemma concat_two (log : List Event) (e f : Event) : log ++ [e, f] = log ++ [e] ++ [f] :=
  List.append_cons log e [f]

/-- The last event of a log that does not end with the given one is not in a beginning that does. -/
lemma concat_prefix_of_ne {f : Event} (hne : f ≠ e) (h : before ++ [f] <+: log ++ [e]) :
    before ++ [f] <+: log := by
  obtain heq | h := List.prefix_concat_iff.mp h
  · exact absurd (List.append_inj_right' heq rfl) (by simpa using hne)
  · exact h

end Readings

/-- The log of a table that was given `first` slots, with the names that the table has in the end
and the number of its slots. -/
inductive History (first : Nat) : List Event → List String → Nat → Prop
  | start : History first [] [] first
  | aside {log : List Event} {names : List String} {slots : Nat} {e : Event}
      (h : History first log names slots)
      (he : e.tells = false) : History first (log ++ [e]) names slots
  | roomy {log : List Event} {names : List String} {slots : Nat} (name : String)
      (h : History first log names slots)
      (hroomy : 8 * (names.length + 1) ≤ 3 * slots) :
      History first (log ++ [.creating name]) (names ++ [name]) slots
  | crowded {log : List Event} {names : List String} {slots : Nat} (name : String)
      (h : History first log names slots)
      (hfits : 8 * names.length ≤ 3 * slots) (hcrowded : 3 * slots < 8 * (names.length + 1)) :
      History first (log ++ [.creating name, .growing slots (2 * slots)]) (names ++ [name])
        (2 * slots)

namespace History

lemma asides (h : History first log names slots) (hes : ∀ e ∈ es, e.tells = false) :
    History first (log ++ es) names slots := by
  induction es generalizing log with
  | nil => rwa [List.append_nil]
  | cons e es ih =>
    rw [List.append_cons]
    exact ih (h.aside (hes e List.mem_cons_self)) fun f hf => hes f (List.mem_cons_of_mem e hf)

/-- The names are told in their order. -/
theorem createdNames_eq (h : History first log names slots) : createdNames log = names := by
  induction h with
  | start => rfl
  | aside h he ih => rw [createdNames_aside he, ih]
  | roomy name h _ ih | crowded name h _ _ ih =>
    rw [createdNames_append, ih]
    rfl

/-- The last growth tells how many slots there are. -/
theorem slotsTold_eq (h : History first log names slots) : slotsTold first log = slots := by
  induction h with
  | start => rfl
  | aside h he ih => rwa [slotsTold, growths_aside he]
  | roomy name h _ ih => rwa [slotsTold, growths_creating]
  | crowded name h _ _ ih =>
    rw [slotsTold, growths_crowded, List.getLast?_concat]
    rfl

theorem doubled (h : History first log names slots) : ∀ p ∈ growths log, p.2 = 2 * p.1 := by
  induction h with
  | start => exact fun p hp => absurd hp List.not_mem_nil
  | aside h he ih => rwa [growths_aside he]
  | roomy name h _ ih => rwa [growths_creating]
  | crowded name h _ _ ih =>
    intro p hp
    rw [growths_crowded, List.mem_append, List.mem_singleton] at hp
    obtain hp | rfl := hp
    · exact ih p hp
    · rfl

/-- A growth starts from what the growth before it led to. -/
theorem linked (h : History first log names slots) :
    (growths log).IsChain fun p q => p.2 = q.1 := by
  induction h with
  | start => exact .nil
  | aside h he ih => rwa [growths_aside he]
  | roomy name h _ ih => rwa [growths_creating]
  | crowded name h _ _ ih =>
    rw [growths_crowded, List.isChain_append]
    refine ⟨ih, .singleton _, fun p hp q hq => ?_⟩
    have hslots := h.slotsTold_eq
    rw [slotsTold, Option.mem_def.mp hp] at hslots
    cases hq
    exact hslots

/-- The first growth starts from the slots that there were to begin with. -/
theorem begins (h : History first log names slots) : ∀ p ∈ (growths log).head?, p.1 = first := by
  induction h with
  | start => exact fun p hp => absurd hp (Option.not_mem_none p)
  | aside h he ih => rwa [growths_aside he]
  | roomy name h _ ih => rwa [growths_creating]
  | @crowded log names slots name h _ _ ih =>
    intro p hp
    rw [growths_crowded] at hp
    cases hlog : growths log with
    | nil =>
      have hslots := h.slotsTold_eq
      rw [slotsTold, hlog] at hslots
      rw [hlog] at hp
      cases hp
      exact hslots.symm
    | cons q qs =>
      rw [hlog] at hp ih
      exact ih p hp

/-- A growth stands right behind the name that there was no room for. -/
theorem grows (h : History first log names slots) (hlog : before ++ [.growing fewer more] <+: log) :
    ∃ earlier name, before = earlier ++ [.creating name] ∧
      8 * (createdNames earlier).length ≤ 3 * fewer ∧
      3 * fewer < 8 * ((createdNames earlier).length + 1) := by
  induction h with
  | start =>
    exact absurd (List.prefix_nil.mp hlog)
      (List.append_ne_nil_of_right_ne_nil _ (List.cons_ne_nil _ _))
  | aside h he ih =>
    refine ih (concat_prefix_of_ne ?_ hlog)
    rintro rfl
    cases he
  | roomy name h _ ih => exact ih (concat_prefix_of_ne Event.noConfusion hlog)
  | @crowded log names slots name h hfits hcrowded ih =>
    rw [concat_two] at hlog
    obtain heq | hlog := List.prefix_concat_iff.mp hlog
    · obtain ⟨rfl, hgrowing⟩ := List.append_inj' heq rfl
      cases hgrowing
      rw [← h.createdNames_eq] at hfits hcrowded
      exact ⟨log, name, rfl, hfits, hcrowded⟩
    · exact ih (concat_prefix_of_ne Event.noConfusion hlog)

/-- A name that there is no room for makes the slots grow before anything else is told. -/
theorem grows_of_crowded (h : History first log names slots)
    (hlog : before ++ [.creating name] <+: log)
    (hcrowded : 3 * slotsTold first before < 8 * ((createdNames before).length + 1)) :
    before ++ [.creating name, .growing (slotsTold first before) (2 * slotsTold first before)] <+:
      log := by
  induction h with
  | start =>
    exact absurd (List.prefix_nil.mp hlog)
      (List.append_ne_nil_of_right_ne_nil _ (List.cons_ne_nil _ _))
  | aside h he ih =>
    refine (ih (concat_prefix_of_ne ?_ hlog)).trans (List.prefix_append _ _)
    rintro rfl
    cases he
  | roomy _ h hroomy ih =>
    obtain heq | hlog := List.prefix_concat_iff.mp hlog
    · obtain ⟨rfl, -⟩ := List.append_inj' heq rfl
      rw [h.slotsTold_eq, h.createdNames_eq] at hcrowded
      omega
    · exact (ih hlog).trans (List.prefix_append _ _)
  | crowded _ h _ _ ih =>
    rw [concat_two] at hlog
    obtain heq | hlog := List.prefix_concat_iff.mp (concat_prefix_of_ne Event.noConfusion hlog)
    · obtain ⟨rfl, hcreating⟩ := List.append_inj' heq rfl
      cases hcreating
      rw [h.slotsTold_eq]
    · exact (ih hlog).trans (List.prefix_append _ _)

end History

end LinkConnectors
