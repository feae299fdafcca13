import LinkConnectors.Matching
import Mathlib.Tactic.Common

/-! Comparing names as they are written. Two bodies agree if their cores are equal and their
suffixes agree at every position that both have. -/
namespace LinkConnectors.Matching

open Text

theorem suffixesAgree_iff {s t : List UInt8} : suffixesAgree s t = true ↔
    ∀ (n : Nat) (a b : UInt8), s[n]? = some a → t[n]? = some b → a = star ∨ b = star ∨ a = b := by
  induction s generalizing t with
  | nil => simp [suffixesAgree]
  | cons a s ih =>
    cases t with
    | nil => simp [suffixesAgree]
    | cons b t =>
      rw [suffixesAgree, Bool.and_eq_true, ih]
      constructor
      · rintro ⟨hhead, htail⟩ n x y hx hy
        cases n with
        | zero =>
          simp only [List.getElem?_cons_zero, Option.some.injEq] at hx hy
          subst hx hy
          simpa [or_assoc] using hhead
        | succ n => exact htail n x y hx hy
      · intro h
        refine ⟨?_, fun n x y hx hy => h (n + 1) x y hx hy⟩
        have hhead := h 0 a b rfl rfl
        simpa [or_assoc] using hhead

variable {c d s t : List UInt8}

/-- Capital letters never agree with other octets. -/
lemma bodiesAgree_nil_left {a : UInt8} (ha : isUpperByte a = true)
    (hs : ∀ b ∈ s.head?, isUpperByte b = false) :
    bodiesAgree s (a :: t) = false := by
  cases s with
  | nil => simp [bodiesAgree, ha]
  | cons b s =>
    have hne : b ≠ a := by
      rintro rfl
      rw [hs b rfl] at ha
      cases ha
    simp [bodiesAgree, ha, hne]

lemma bodiesAgree_suffixes (hs : ∀ b ∈ s.head?, isUpperByte b = false)
    (ht : ∀ b ∈ t.head?, isUpperByte b = false) : bodiesAgree s t = suffixesAgree s t := by
  cases s with
  | nil =>
    cases t with
    | nil => rfl
    | cons b t => simp [bodiesAgree, suffixesAgree, ht b rfl]
  | cons a s =>
    cases t with
    | nil => simp [bodiesAgree, suffixesAgree, hs a rfl]
    | cons b t => simp [bodiesAgree, hs a rfl, ht b rfl]

/-- Where capital letters end on both sides, the cores have been compared and the suffixes are left.
Capital letters further on are none of the core. -/
theorem bodiesAgree_append (hc : ∀ b ∈ c, isUpperByte b = true) (hd : ∀ b ∈ d, isUpperByte b = true)
    (hs : ∀ b ∈ s.head?, isUpperByte b = false) (ht : ∀ b ∈ t.head?, isUpperByte b = false) :
    bodiesAgree (c ++ s) (d ++ t) = (c == d && suffixesAgree s t) := by
  induction c generalizing d with
  | nil =>
    cases d with
    | nil => simpa using bodiesAgree_suffixes hs ht
    | cons b d =>
      rw [List.nil_append, List.cons_append, bodiesAgree_nil_left (hd b (by simp)) hs]
      rfl
  | cons a c ih =>
    cases d with
    | nil =>
      rw [List.nil_append, List.cons_append, bodiesAgree_comm,
        bodiesAgree_nil_left (hc a (by simp)) ht]
      rfl
    | cons b d =>
      have htail := ih (d := d) (fun x hx => hc x (by simp [hx])) (fun x hx => hd x (by simp [hx]))
      rw [List.cons_append, List.cons_append, bodiesAgree, hc a (by simp), Bool.true_or, if_pos rfl,
        htail, ← Bool.and_assoc]
      rfl

section Octets

/-- What is left of a name without a small letter at its front. -/
def withoutMarker (bs : List UInt8) : List UInt8 := if bs.head?.any isLowerByte then bs.tail else bs

/-- The capital letters at the front, behind a marker. -/
def capitals (bs : List UInt8) : List UInt8 := (withoutMarker bs).takeWhile isUpperByte

/-- Everything behind these capital letters. -/
def behindCapitals (bs : List UInt8) : List UInt8 := (withoutMarker bs).dropWhile isUpperByte

/-- Both names begin with the same small letter. -/
def SameMarker (s t : List UInt8) : Prop :=
  ∃ b, isLowerByte b = true ∧ s.head? = some b ∧ t.head? = some b

lemma splitMarker_eq (bs : List UInt8) :
    splitMarker bs = (bs.head?.filter isLowerByte, withoutMarker bs) := by
  cases bs with
  | nil => rfl
  | cons b bs => cases h : isLowerByte b <;> simp [splitMarker, withoutMarker, Option.filter, h]

lemma sameMarker_iff : SameMarker s t ↔
    ((s.head?.filter isLowerByte).isSome && s.head?.filter isLowerByte ==
      t.head?.filter isLowerByte) = true := by
  rw [Bool.and_eq_true, beq_iff_eq]
  constructor
  · rintro ⟨b, hb, hs, ht⟩
    simp [hs, ht, hb]
  · rintro ⟨hsome, heq⟩
    obtain ⟨b, hb⟩ := Option.isSome_iff_exists.mp hsome
    obtain ⟨hs, hlower⟩ := Option.filter_eq_some_iff.mp hb
    rw [hb, eq_comm, Option.filter_eq_some_iff] at heq
    exact ⟨b, hlower, hs, heq.1⟩

lemma bodiesAgree_eq (s t : List UInt8) : bodiesAgree s t =
    (s.takeWhile isUpperByte == t.takeWhile isUpperByte &&
      suffixesAgree (s.dropWhile isUpperByte) (t.dropWhile isUpperByte)) := by
  have hcore : ∀ bs : List UInt8, ∀ b ∈ bs.takeWhile isUpperByte, isUpperByte b = true :=
    fun bs b hb => List.all_eq_true.mp List.all_takeWhile b hb
  have hrest : ∀ bs : List UInt8, ∀ b ∈ (bs.dropWhile isUpperByte).head?,
      isUpperByte b = false := by
    intro bs b hb
    have hnot := List.head?_dropWhile_not isUpperByte bs
    rwa [Option.mem_def.mp hb] at hnot
  have happend := bodiesAgree_append (hcore s) (hcore t) (hrest s) (hrest t)
  rwa [List.takeWhile_append_dropWhile, List.takeWhile_append_dropWhile] at happend

theorem bytesMatch_iff : bytesMatch s t = true ↔
    ¬ SameMarker s t ∧ capitals s = capitals t ∧ suffixesAgree (behindCapitals s)
      (behindCapitals t) = true := by
  unfold bytesMatch
  rw [splitMarker_eq, splitMarker_eq, Bool.and_eq_true, Bool.not_eq_true', sameMarker_iff,
    Bool.not_eq_true, bodiesAgree_eq, Bool.and_eq_true, beq_iff_eq]
  rfl

/-- Octets agree with themselves. -/
lemma suffixesAgree_self (s : List UInt8) : suffixesAgree s s = true := by
  rw [suffixesAgree_iff]
  intro n a b ha hb
  exact .inr (.inr (Option.some.inj (ha.symm.trans hb)))

lemma bytesMatch_comm (s t : List UInt8) : bytesMatch s t = bytesMatch t s := by
  have hmarker : SameMarker s t ↔ SameMarker t s := by
    unfold SameMarker
    simp only [and_comm]
  apply Bool.eq_iff_iff.mpr
  rw [bytesMatch_iff, bytesMatch_iff, hmarker, eq_comm, suffixesAgree_comm]

lemma bytesMatch_self : bytesMatch s s = true ↔ ∀ b ∈ s.head?, isLowerByte b = false := by
  rw [bytesMatch_iff, and_iff_left ⟨rfl, suffixesAgree_self _⟩]
  simp [SameMarker, Option.mem_def, imp_not_comm]

end Octets

section Lockstep

/-- The comparison of bodies turn by turn, both sides read from the front. In a turn where either
side shows a capital letter the front octets are compared and taken off, and there is no result if
one of them is to be taken off a side that has none. -/
def lockstep? (s t : List UInt8) : Option Bool :=
  if s.head?.any isUpperByte || t.head?.any isUpperByte then
    if s.head? = t.head? then
      match s, t with
      | _ :: s, _ :: t => lockstep? s t
      | _, _ => none
    else some false
  else some (suffixesAgree s t)

/-- An octet is taken off both sides only where both have one. -/
theorem lockstep?_eq (s t : List UInt8) : lockstep? s t = some (bodiesAgree s t) := by
  induction s generalizing t with
  | nil =>
    cases t with
    | nil => rfl
    | cons b t => cases h : isUpperByte b <;> simp [lockstep?, bodiesAgree, suffixesAgree, h]
  | cons a s ih =>
    cases t with
    | nil => cases h : isUpperByte a <;> simp [lockstep?, bodiesAgree, suffixesAgree, h]
    | cons b t =>
      rw [lockstep?, bodiesAgree]
      by_cases hupper : (isUpperByte a || isUpperByte b) = true
      · by_cases hab : a = b <;> simp_all
      · simp_all

/-- The whole comparison turn by turn. -/
def lockstepMatch? (s t : List UInt8) : Option Bool :=
  let (m, s) := splitMarker s
  let (n, t) := splitMarker t
  if m.isSome && m == n then some false else lockstep? s t

lemma lockstepMatch?_eq (s t : List UInt8) : lockstepMatch? s t = some (bytesMatch s t) := by
  unfold lockstepMatch? bytesMatch
  dsimp only
  rw [lockstep?_eq]
  cases h : (splitMarker s).1.isSome && (splitMarker s).1 == (splitMarker t).1 <;> simp

end Lockstep

/-- Any two strings can be compared, and the comparison comes to an end without reading past one.
They match if they do not begin with the same small letter, have the same capital letters behind it,
and agree behind these wherever both have an octet. So it does not matter which string comes first,
and a string matches itself if it does not begin with a small letter. -/
theorem namesMatch_by_octets (s t : String) :
    lockstepMatch? (bytes s) (bytes t) = some (namesMatch s t) ∧
      (namesMatch s t = true ↔
        (¬ ∃ b, isLowerByte b = true ∧ (bytes s).head? = some b ∧ (bytes t).head? = some b) ∧
        capitals (bytes s) = capitals (bytes t) ∧
        ∀ (n : Nat) (a b : UInt8), (behindCapitals (bytes s))[n]? = some a →
          (behindCapitals (bytes t))[n]? = some b → a = star ∨ b = star ∨ a = b) ∧
      namesMatch t s = namesMatch s t ∧
      (namesMatch s s = true ↔ ∀ b ∈ (bytes s).head?, isLowerByte b = false) := by
  refine ⟨lockstepMatch?_eq _ _, ?_, bytesMatch_comm _ _, bytesMatch_self⟩
  rw [← suffixesAgree_iff]
  exact bytesMatch_iff

end LinkConnectors.Matching
