import LinkConnectors.Proofs.Interner
import LinkConnectors.Session.Strings
import Mathlib.Data.Finset.Card

/-! Handles of two interners that are reset now and then. A handle comes from the interner that its
side had at the time, and two handles are the same exactly when they come from one interner for one
text. Interners that were given up keep being told apart from those that came after them. -/
namespace LinkConnectors

namespace Interner

lemma size_add (i : Interner) (s : String) :
    (i.add s).2.size = if (i.get? s).isSome then i.size else i.size + 1 := by
  cases hs : i.get? s with
  | some h =>
    rw [add_of_get? hs]
    rfl
  | none =>
    have hmem : s ∉ i.numbers := by
      rw [Std.TreeMap.mem_iff_isSome_getElem?, get?_eq_none_iff.mp hs]
      simp
    rw [add_of_get?_eq_none hs]
    simp [size, Std.TreeMap.size_insert, hmem]

lemma isSome_get?_add (i : Interner) (s t : String) :
    ((i.add s).2.get? t).isSome = true ↔ t = s ∨ (i.get? t).isSome = true := by
  by_cases h : s = t
  · subst h
    simp [get?_add_self]
  · rw [get?_add_of_ne i h]
    simp [Ne.symm h]

lemma Owns.owner_eq {i : Interner} {h : Handle} (hh : i.Owns h) : h.owner = i.owner := by
  obtain ⟨n, _, heq⟩ := Option.map_eq_some_iff.mp hh
  rw [← heq]

/-- The same interner later on. -/
structure Later (i j : Interner) : Prop where
  owner : j.owner = i.owner
  canonical : i.Canonical → j.Canonical
  owns : ∀ {h : Handle}, i.Owns h → j.Owns h

lemma later_refl (i : Interner) : i.Later i := ⟨rfl, id, id⟩

lemma later_add (i : Interner) (s : String) : i.Later (i.add s).2 :=
  ⟨i.add_owner s, fun hi => hi.add s, fun hh => hh.add s⟩

end Interner

namespace StringSession

/-- Where a handle comes from: a side, how often that side had been reset by then, and the text that
was asked for. -/
@[ext]
structure Origin where
  side : Side
  resets : Nat
  text : String
  deriving DecidableEq, Repr

/-- The side and the text of a step that asks for a handle. -/
def Step.asks? : Step → Option (Side × String)
  | .add side text | .get side text => some (side, text)
  | _ => none

/-- The text that a step adds to a side. -/
def Step.addsTo? (side : Side) : Step → Option String
  | .add other text => if other = side then some text else none
  | _ => none

def resets (side : Side) (xs : List Step) : Nat := xs.count (.reset side)

/-- The texts that were added to a side since it was last reset, the latest first. -/
def added (side : Side) (xs : List Step) : List String :=
  (xs.reverse.takeWhile (· != .reset side)).filterMap (Step.addsTo? side)

def after (s : StringSession) (xs : List Step) : StringSession := (s.run xs).2

/-- One of the steps of a new session asked for a handle and got this one. -/
def Obtained (xs : List Step) (o : Origin) (h : Handle) : Prop :=
  ∃ before x, before ++ [x] <+: xs ∧ x.asks? = some (o.side, o.text) ∧
    o.resets = resets o.side before ∧
    ((after {} before).step x).1 = .handle (some h)

variable {s : StringSession} {xs : List Step} {x : Step} {o p : Origin} {a b h : Handle}
  {side : Side} {text : String}

section Run

lemma after_append (s : StringSession) (xs ys : List Step) :
    s.after (xs ++ ys) = (s.after xs).after ys := by
  induction xs generalizing s with
  | nil => rfl
  | cons x xs ih => exact ih (s.step x).2

lemma after_concat (s : StringSession) (xs : List Step) (x : Step) :
    s.after (xs ++ [x]) = ((s.after xs).step x).2 :=
  after_append s xs [x]

lemma resets_concat (side : Side) (xs : List Step) (x : Step) :
    resets side (xs ++ [x]) = resets side xs + if x = .reset side then 1 else 0 := by
  rw [resets, List.count_append, List.count_singleton]
  simp [resets]

lemma added_concat (side : Side) (xs : List Step) (x : Step) : added side (xs ++ [x]) =
    if x = .reset side then [] else (x.addsTo? side).toList ++ added side xs := by
  rw [added, List.reverse_append, List.reverse_singleton, List.singleton_append,
    List.takeWhile_cons]
  by_cases hx : x = .reset side
  · simp [hx]
  · simp only [bne_iff_ne, ne_eq, hx, not_false_eq_true, if_true, if_false, List.filterMap_cons]
    cases x.addsTo? side <;> rfl

lemma Obtained.append (ho : Obtained xs o h) (ys : List Step) : Obtained (xs ++ ys) o h := by
  obtain ⟨before, x, hprefix, hrest⟩ := ho
  exact ⟨before, x, hprefix.trans (List.prefix_append xs ys), hrest⟩

/-- A handle was obtained before the last step, or by it. -/
lemma Obtained.cases_concat (ho : Obtained (xs ++ [x]) o h) : Obtained xs o h ∨
    (x.asks? = some (o.side, o.text) ∧ o.resets = resets o.side xs ∧
      ((after {} xs).step x).1 = .handle (some h)) := by
  obtain ⟨before, y, hprefix, hasks, hresets, hanswer⟩ := ho
  obtain heq | hprefix := List.prefix_concat_iff.mp hprefix
  · obtain ⟨rfl, hy⟩ := List.append_inj' heq rfl
    obtain rfl := List.singleton_inj.mp hy
    exact .inr ⟨hasks, hresets, hanswer⟩
  · exact .inl ⟨before, y, hprefix, hasks, hresets, hanswer⟩

end Run

section Step

lemma step_get (s : StringSession) (side : Side) (text : String) :
    (s.step (.get side text)).1 = .handle ((s.interners.get side).get? text) ∧
      (s.step (.get side text)).2.interners = s.interners := by
  unfold step
  cases hget : (s.interners.get side).get? text <;> simp [hget]

/-- What a step makes of the interner of a side. -/
lemma interner_step (s : StringSession) (x : Step) (side : Side) : (s.step x).2.interners.get side =
    if x = .reset side then { owner := s.owners }
    else match x.addsTo? side with
      | some text => ((s.interners.get side).add text).2
      | none => s.interners.get side := by
  cases x with
  | add other text =>
    by_cases h : other = side
    · subst h
      simp [step, Step.addsTo?]
    · simp [step, Step.addsTo?, h, Both.get_set_of_ne]
  | get other text => simp [(s.step_get other text).2, Step.addsTo?]
  | reset other =>
    by_cases h : other = side
    · subst h
      simp [step]
    · simp [step, Step.addsTo?, h, Both.get_set_of_ne]
  | _ => simp [step, Step.addsTo?]

/-- A handle that is given out belongs to the interner that was asked, and is kept. -/
lemma step_handle (hasks : x.asks? = some (side, text))
    (hanswer : (s.step x).1 = .handle (some h)) :
    h.text = text ∧ ((s.step x).2.interners.get side).Owns h ∧
      (s.step x).2.handles = s.handles.push h := by
  cases x with
  | add other t =>
    obtain ⟨rfl, rfl⟩ := Prod.mk.inj (Option.some.inj hasks)
    obtain rfl : ((s.interners.get other).add t).1 = h :=
      Option.some.inj (Answer.handle.inj hanswer)
    rw [interner_step]
    simp [step, Step.addsTo?, Interner.owns_add]
  | get other t =>
    obtain ⟨rfl, rfl⟩ := Prod.mk.inj (Option.some.inj hasks)
    have hget : (s.interners.get other).get? t = some h :=
      Answer.handle.inj ((s.step_get other t).1.symm.trans hanswer)
    have htext : h.text = t := by
      obtain ⟨n, _, heq⟩ := Option.map_eq_some_iff.mp hget
      rw [← heq]
    refine ⟨htext, ?_, ?_⟩
    · rw [(s.step_get other t).2, Interner.Owns, htext, hget]
    · simp [step, hget]
  | _ => cases hasks

/-- Handles that are kept stay where they are. -/
lemma handles_step (s : StringSession) (x : Step) {k : Nat} (hk : s.handles[k]? = some h) :
    (s.step x).2.handles[k]? = some h := by
  have hpush : ∀ g : Handle, (s.handles.push g)[k]? = some h := by
    intro g
    have hlt := (Array.getElem?_eq_some_iff.mp hk).1
    rw [Array.getElem?_push, if_neg (Nat.ne_of_lt hlt), hk]
  cases x with
  | add other t => exact hpush _
  | get other t =>
    unfold step
    cases hget : (s.interners.get other).get? t with
    | none => simpa [hget] using hk
    | some g => simpa [hget] using hpush g
  | _ => exact hk

lemma handles_after (s : StringSession) (xs : List Step) {k : Nat} (hk : s.handles[k]? = some h) :
    (s.after xs).handles[k]? = some h := by
  induction xs generalizing s with
  | nil => exact hk
  | cons x xs ih => exact ih (s.step x).2 (s.handles_step x hk)

end Step

section Added

/-- What an interner finds are the texts that were added to its side. -/
theorem isSome_get?_iff (xs : List Step) (side : Side) (text : String) :
    (((after {} xs).interners.get side).get? text).isSome = true ↔ text ∈ added side xs := by
  induction xs using List.reverseRecOn with
  | nil => cases side <;> simp [after, run, added, Both.get, Interner.get?]
  | append_singleton xs x ih =>
    rw [after_concat, interner_step, added_concat]
    by_cases hx : x = .reset side
    · simp [hx, Interner.get?]
    · rw [if_neg hx, if_neg hx, List.mem_append, ← ih]
      cases x.addsTo? side with
      | none => simp
      | some t => simp [Interner.isSome_get?_add]

/-- An interner counts the distinct texts that were added to its side. -/
theorem size_eq_card (xs : List Step) (side : Side) :
    ((after {} xs).interners.get side).size = (added side xs).toFinset.card := by
  induction xs using List.reverseRecOn with
  | nil => cases side <;> rfl
  | append_singleton xs x ih =>
    rw [after_concat, interner_step, added_concat]
    by_cases hx : x = .reset side
    · rw [if_pos hx, if_pos hx]
      rfl
    · rw [if_neg hx, if_neg hx]
      cases x.addsTo? side with
      | none => exact ih
      | some t =>
        have hmem := isSome_get?_iff xs side t
        change _ = (t :: added side xs).toFinset.card
        rw [List.toFinset_cons, Finset.card_insert_eq_ite, ← ih, Interner.size_add]
        simp only [List.mem_toFinset, hmem]

end Added

section Accounted

/-- All interners that there have been, by side and by how often that side had been reset. -/
structure Accounted (xs : List Step) (all : Side → Nat → Interner) : Prop where
  current : ∀ side, all side (resets side xs) = (after {} xs).interners.get side
  canonical : ∀ side, ∀ n ≤ resets side xs, (all side n).Canonical
  owner_lt : ∀ side, ∀ n ≤ resets side xs, (all side n).owner < (after {} xs).owners
  distinct : ∀ side other, ∀ m ≤ resets side xs, ∀ n ≤ resets other xs,
    (all side m).owner = (all other n).owner → side = other ∧ m = n
  owned : ∀ {o h}, Obtained xs o h → o.resets ≤ resets o.side xs ∧ (all o.side o.resets).Owns h ∧
    h.text = o.text

lemma accounted_nil : Accounted [] fun side _ => ({} : StringSession).interners.get side where
  current _ := rfl
  canonical side _ _ := by cases side <;> exact Interner.canonical_empty _
  owner_lt side _ _ := by cases side <;> decide
  distinct side other m hm n hn howner := by
    have hzero : m = 0 ∧ n = 0 := ⟨Nat.le_zero.mp hm, Nat.le_zero.mp hn⟩
    refine ⟨?_, hzero.1.trans hzero.2.symm⟩
    cases side <;> cases other <;> first | rfl | cases howner
  owned ho := by
    obtain ⟨before, x, hprefix, _⟩ := ho
    simp at hprefix

/-- The interners after one more step. -/
def withCurrent (all : Side → Nat → Interner) (xs : List Step) (side : Side) (n : Nat) : Interner :=
  if n = resets side xs then (after {} xs).interners.get side else all side n

variable {all : Side → Nat → Interner}

/-- An interner has been there before, or the step has just made it. -/
lemma Accounted.withCurrent_cases (hall : Accounted xs all) {n : Nat}
    (hn : n ≤ resets side (xs ++ [x])) :
    (n ≤ resets side xs ∧ (all side n).Later (withCurrent all (xs ++ [x]) side n)) ∨
    (n = resets side xs + 1 ∧ x = .reset side ∧ withCurrent all (xs ++ [x]) side n =
      { owner := (after {} xs).owners }) := by
  unfold withCurrent
  rw [resets_concat] at hn ⊢
  rw [after_concat, interner_step]
  by_cases hx : x = .reset side
  · rw [if_pos hx, if_pos hx] at *
    by_cases hlast : n = resets side xs + 1
    · exact .inr ⟨hlast, hx, if_pos hlast⟩
    · rw [if_neg hlast]
      exact .inl ⟨by omega, Interner.later_refl _⟩
  · rw [if_neg hx, Nat.add_zero] at hn
    rw [if_neg hx, if_neg hx, Nat.add_zero]
    refine .inl ⟨hn, ?_⟩
    by_cases hlast : n = resets side xs
    · rw [if_pos hlast, hlast, hall.current]
      cases x.addsTo? side with
      | none => exact Interner.later_refl _
      | some t => exact Interner.later_add _ t
    · rw [if_neg hlast]
      exact Interner.later_refl _

lemma owners_step (s : StringSession) (x : Step) : s.owners ≤ (s.step x).2.owners := by
  cases x with
  | get other t =>
    unfold step
    cases hget : (s.interners.get other).get? t <;> simp [hget]
  | reset other => exact Nat.le_succ s.owners
  | _ => exact Nat.le_refl s.owners

theorem Accounted.concat (hall : Accounted xs all) (x : Step) :
    Accounted (xs ++ [x]) (withCurrent all (xs ++ [x])) where
  current side := if_pos rfl
  canonical side n hn := by
    obtain ⟨hold, hlater⟩ | ⟨_, _, hnew⟩ := hall.withCurrent_cases hn
    · exact hlater.canonical (hall.canonical side n hold)
    · rw [hnew]
      exact Interner.canonical_empty _
  owner_lt side n hn := by
    rw [after_concat]
    obtain ⟨hold, hlater⟩ | ⟨_, hx, hnew⟩ := hall.withCurrent_cases hn
    · rw [hlater.owner]
      exact Nat.lt_of_lt_of_le (hall.owner_lt side n hold) (owners_step _ x)
    · rw [hnew, hx]
      exact Nat.lt_succ_self _
  distinct side other m hm n hn howner := by
    obtain ⟨hmold, hmlater⟩ | ⟨hmlast, hmx, hmnew⟩ := hall.withCurrent_cases hm
    · rw [hmlater.owner] at howner
      obtain ⟨hnold, hnlater⟩ | ⟨_, _, hnnew⟩ := hall.withCurrent_cases hn
      · rw [hnlater.owner] at howner
        exact hall.distinct side other m hmold n hnold howner
      · rw [hnnew] at howner
        exact absurd howner (Nat.ne_of_lt (hall.owner_lt side m hmold))
    · rw [hmnew] at howner
      obtain ⟨hnold, hnlater⟩ | ⟨hnlast, hnx, _⟩ := hall.withCurrent_cases hn
      · rw [hnlater.owner] at howner
        exact absurd howner.symm (Nat.ne_of_lt (hall.owner_lt other n hnold))
      · obtain rfl : side = other := Step.reset.inj (hmx.symm.trans hnx)
        exact ⟨rfl, hmlast.trans hnlast.symm⟩
  owned {o h} ho := by
    obtain ho | ⟨hasks, hresets, hanswer⟩ := ho.cases_concat
    · obtain ⟨hle, howns, htext⟩ := hall.owned ho
      have hle' : o.resets ≤ resets o.side (xs ++ [x]) := by
        rw [resets_concat]
        omega
      obtain ⟨_, hlater⟩ | ⟨hlast, _⟩ := hall.withCurrent_cases hle'
      · exact ⟨hle', hlater.owns howns, htext⟩
      · omega
    · obtain ⟨htext, howns, _⟩ := step_handle hasks hanswer
      have hx : x ≠ .reset o.side := by
        rintro rfl
        cases hasks
      have hcurrent : o.resets = resets o.side (xs ++ [x]) := by
        rw [resets_concat, if_neg hx, hresets, Nat.add_zero]
      refine ⟨hcurrent.le, ?_, htext⟩
      rw [withCurrent, if_pos hcurrent, after_concat]
      exact howns

theorem exists_accounted (xs : List Step) : ∃ all, Accounted xs all := by
  induction xs using List.reverseRecOn with
  | nil => exact ⟨_, accounted_nil⟩
  | append_singleton xs x ih =>
    obtain ⟨all, hall⟩ := ih
    exact ⟨_, hall.concat x⟩

/-- Handles are the same exactly when they come from one interner for one text. -/
theorem Accounted.same_iff (hall : Accounted xs all) (ha : Obtained xs o a) (hb : Obtained xs p b) :
    a.same b = true ↔ o = p := by
  obtain ⟨hole, haowns, hatext⟩ := hall.owned ha
  obtain ⟨hple, hbowns, hbtext⟩ := hall.owned hb
  have hcanonical := hall.canonical o.side o.resets hole
  constructor
  · intro hsame
    have howner : a.owner = b.owner := beq_iff_eq.mp (Bool.and_eq_true_iff.mp hsame).1
    rw [haowns.owner_eq, hbowns.owner_eq] at howner
    obtain ⟨hside, hresets⟩ := hall.distinct o.side p.side o.resets hole p.resets hple howner
    rw [← hside, ← hresets] at hbowns
    rw [hcanonical.same_eq_sameText haowns hbowns] at hsame
    have htext : a.text = b.text := beq_iff_eq.mp hsame
    rw [hatext, hbtext] at htext
    exact Origin.ext hside hresets htext
  · rintro rfl
    rw [hcanonical.same_eq_sameText haowns hbowns]
    exact beq_iff_eq.mpr (hatext.trans hbtext.symm)

end Accounted

/-- A handle is kept, and stays as it was when it was obtained. -/
theorem Obtained.kept (ho : Obtained xs o h) :
    ∃ k : Nat, ∀ ys, ((after {} xs).after ys).handles[k]? = some h := by
  obtain ⟨before, x, ⟨later, rfl⟩, hasks, _, hanswer⟩ := ho
  obtain ⟨_, _, hhandles⟩ := step_handle hasks hanswer
  refine ⟨(after {} before).handles.size, fun ys => ?_⟩
  rw [after_append, after_concat]
  apply handles_after
  apply handles_after
  rw [hhandles]
  exact Array.getElem?_push_size

/-- Handles are canonical. In every session with two interners, handles are the same exactly when
they come from one interner, with no reset between, for one text. They are equal exactly when their
texts are. A text is found exactly when it was added since the last reset, and then its handle is
the one that all others of that interner for that text are. An interner counts the distinct texts
added to it. Handles stay as they were when they were obtained. -/
theorem handles_canonical (xs : List Step) :
    let s := after {} xs
    (∀ {o p a b}, Obtained xs o a → Obtained xs p b →
      (a.same b = true ↔ o = p) ∧ (a.sameText b = true ↔ o.text = p.text)) ∧
    (∀ side text,
      (∃ h, (s.step (.add side text)).1 = .handle (some h)) ∧
      ((∃ h, (s.step (.get side text)).1 = .handle (some h)) ↔ text ∈ added side xs) ∧
      (∀ h a, (s.step (.get side text)).1 = .handle (some h) →
        Obtained xs ⟨side, resets side xs, text⟩ a →
        h.same a = true) ∧
      (s.step (.get side text)).2.interners = s.interners) ∧
    (∀ side, (s.step (.size side)).1 = .size (added side xs).toFinset.card) ∧
    ∀ {o a}, Obtained xs o a → a.text = o.text ∧ ∃ k : Nat, ∀ ys,
      (s.after ys).handles[k]? = some a := by
  intro s
  obtain ⟨all, hall⟩ := exists_accounted xs
  refine ⟨fun {o p a b} ha hb => ⟨hall.same_iff ha hb, ?_⟩, fun side text => ?_, fun side => ?_,
    fun {o a} ha => ?_⟩
  · rw [Handle.sameText, beq_iff_eq, (hall.owned ha).2.2, (hall.owned hb).2.2]
  · obtain ⟨hanswer, hinterners⟩ := s.step_get side text
    refine ⟨⟨_, rfl⟩, ?_, fun h a hget ha => ?_, hinterners⟩
    · simp only [hanswer, Answer.handle.injEq]
      rw [← isSome_get?_iff, Option.isSome_iff_exists]
    · obtain ⟨all', hall'⟩ := exists_accounted (xs ++ [.get side text])
      have hh : Obtained (xs ++ [.get side text]) ⟨side, resets side xs, text⟩ h :=
        ⟨xs, .get side text, List.prefix_rfl, rfl, rfl, hget⟩
      exact (hall'.same_iff hh (ha.append _)).mpr rfl
  · exact congrArg Answer.size (size_eq_card xs side)
  · exact ⟨(hall.owned ha).2.2, ha.kept⟩

/-- One text before and after a reset gives two handles, and asking for it again gives the second
one. -/
theorem handles_around_reset :
    let xs : List Step := [.add .first "Ss", .reset .first, .add .first "Ss", .get .first "Ss"]
    ∃ a b : Handle, Obtained xs ⟨.first, 0, "Ss"⟩ a ∧ Obtained xs ⟨.first, 1, "Ss"⟩ b ∧
      a.same b = false ∧
      a.sameText b = true ∧ ∀ h, ((after {} xs).step (.get .first "Ss")).1 = .handle (some h) →
        h.same b = true := by
  intro xs
  obtain ⟨hsame, hget, _⟩ := handles_canonical xs
  have ha : Obtained xs ⟨.first, 0, "Ss"⟩ ⟨0, 0, "Ss"⟩ :=
    ⟨[], .add .first "Ss", ⟨_, rfl⟩, rfl, rfl, by decide +kernel⟩
  have hb : Obtained xs ⟨.first, 1, "Ss"⟩ ⟨2, 0, "Ss"⟩ :=
    ⟨[.add .first "Ss", .reset .first], .add .first "Ss", ⟨_, rfl⟩, rfl, rfl, by decide +kernel⟩
  have hneq : ¬ (⟨0, 0, "Ss"⟩ : Handle).same ⟨2, 0, "Ss"⟩ = true := fun h =>
    absurd ((hsame ha hb).1.mp h) (by decide)
  exact ⟨_, _, ha, hb, Bool.eq_false_iff.mpr hneq, (hsame ha hb).2.mpr rfl,
    fun h hh => (hget .first "Ss").2.2.1 h _ hh hb⟩

end StringSession

end LinkConnectors
