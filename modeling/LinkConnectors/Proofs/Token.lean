import LinkConnectors.Token
import Mathlib.Data.List.Basic

/-! Writing and reading tokens. What is read is what was written, unless the name is empty or begins
with a mark that the token itself lacks, and nothing but written tokens is read. -/
namespace LinkConnectors

lemma Direction.getLast?_bind_ofMark? {cs : List Char} {d : Direction} :
    cs.getLast?.bind ofMark? = some d ↔ ∃ name, cs = name ++ [d.mark] := by
  simp only [Option.bind_eq_some_iff, ofMark?_eq_some_iff, exists_eq_right,
    List.getLast?_eq_some_iff]

namespace Token

/-- What is left of a text when one mark of a multiple connector is taken off its front. -/
def withoutMulti (text : String) : List Char :=
  (text.toList.dropPrefix? [multiMark]).getD text.toList

/-- A sign for a side stands at the end. -/
def EndsInMark (cs : List Char) : Prop := ['+'] <:+ cs ∨ ['-'] <:+ cs

variable {text : String} {k : Token} {multi : Bool} {cs rest : List Char}

section Split

lemma splitMulti_marked (cs : List Char) : splitMulti (multiMark :: cs) = (true, cs) := by
  rw [splitMulti, if_pos rfl]

lemma splitMulti_unmarked (h : ¬ [multiMark] <+: cs) : splitMulti cs = (false, cs) := by
  cases cs with
  | nil => rfl
  | cons c cs =>
    refine if_neg fun hc => h ?_
    rw [hc]
    exact List.prefix_append _ _

/-- A list is split into a mark and what follows it, or it has no mark in front. -/
theorem splitMulti_eq_iff : splitMulti cs = (multi, rest) ↔
    cs = (if multi then [multiMark] else []) ++ rest ∧ (multi = true ∨ ¬ [multiMark] <+: rest) := by
  by_cases h : [multiMark] <+: cs
  · obtain ⟨tail, rfl⟩ := h
    rw [List.singleton_append, splitMulti_marked]
    cases multi with
    | true => simp
    | false =>
      simp only [Prod.mk.injEq, Bool.true_eq_false, false_and, Bool.false_eq_true, if_false,
        false_or, false_iff]
      rintro ⟨rfl, hrest⟩
      exact hrest (List.prefix_append _ _)
  · rw [splitMulti_unmarked h]
    cases multi with
    | true =>
      simp only [Prod.mk.injEq, Bool.false_eq_true, false_and, if_true, true_or, and_true,
        false_iff]
      rintro rfl
      exact h (List.prefix_append _ _)
    | false =>
      simp only [Prod.mk.injEq, true_and, Bool.false_eq_true, if_false, List.nil_append, false_or]
      exact ⟨fun heq => ⟨heq, heq ▸ h⟩, And.left⟩

lemma withoutMulti_eq (text : String) : withoutMulti text = (splitMulti text.toList).2 := by
  unfold withoutMulti
  by_cases h : [multiMark] <+: text.toList
  · obtain ⟨tail, htail⟩ := h
    rw [← htail, List.singleton_append, splitMulti_marked]
    simp [List.dropPrefix?]
  · rw [splitMulti_unmarked h]
    cases hdrop : text.toList.dropPrefix? [multiMark] with
    | none => rfl
    | some tail =>
      obtain ⟨marks, hcut, hmarks⟩ := List.dropPrefix?_eq_some_iff.mp hdrop
      rw [eq_of_beq hmarks] at hcut
      exact absurd ⟨tail, hcut.symm⟩ h

lemma endsInMark_iff : EndsInMark cs ↔ ∃ name, ∃ d : Direction, cs = name ++ [d.mark] := by
  constructor
  · rintro (⟨name, h⟩ | ⟨name, h⟩)
    · exact ⟨name, .right, h.symm⟩
    · exact ⟨name, .left, h.symm⟩
  · rintro ⟨name, d, rfl⟩
    cases d with
    | left => exact .inr (List.suffix_append _ _)
    | right => exact .inl (List.suffix_append _ _)

end Split

section Read

lemma toList_toText (k : Token) : k.toText.toList =
    (if k.multi then [multiMark] else []) ++ (k.name.toList ++ [k.direction.mark]) := by
  rw [toText, String.toList_ofList, List.append_assoc]

/-- The three ways reading a text can end, by what is left behind the first mark. -/
lemma ofText_cases (text : String) :
    (¬ EndsInMark (withoutMulti text) ∧ ofText text = .error (.missingDirection text)) ∨
    (∃ d : Direction, withoutMulti text = [d.mark] ∧ ofText text = .error (.emptyName text)) ∨
    ∃ k : Token, k.name ≠ "" ∧ splitMulti text.toList =
      (k.multi, k.name.toList ++ [k.direction.mark]) ∧
      ofText text = .ok k := by
  rw [withoutMulti_eq, endsInMark_iff]
  unfold ofText
  obtain ⟨multi, rest⟩ := splitMulti text.toList
  dsimp only
  cases hmark : rest.getLast?.bind Direction.ofMark? with
  | none =>
    refine .inl ⟨?_, rfl⟩
    rintro ⟨name, d, rfl⟩
    rw [Direction.getLast?_bind_ofMark?.mpr ⟨name, rfl⟩] at hmark
    cases hmark
  | some d =>
    obtain ⟨name, rfl⟩ := Direction.getLast?_bind_ofMark?.mp hmark
    dsimp only
    rw [List.dropLast_concat]
    by_cases hname : name = []
    · subst hname
      exact .inr (.inl ⟨d, rfl, if_pos rfl⟩)
    · refine .inr (.inr ⟨⟨String.ofList name, d, multi⟩, ?_, ?_, if_neg hname⟩)
      · simpa using hname
      · rw [String.toList_ofList]

theorem ofText_eq_ok_iff : ofText text = .ok k ↔
    k.name ≠ "" ∧ splitMulti text.toList = (k.multi, k.name.toList ++ [k.direction.mark]) := by
  constructor
  · intro h
    obtain ⟨_, herr⟩ | ⟨_, _, herr⟩ | ⟨j, hname, hsplit, hok⟩ := ofText_cases text
    · cases herr.symm.trans h
    · cases herr.symm.trans h
    · obtain rfl := Except.ok.inj (hok.symm.trans h)
      exact ⟨hname, hsplit⟩
  · rintro ⟨hname, hsplit⟩
    unfold ofText
    rw [hsplit]
    dsimp only
    rw [Direction.getLast?_bind_ofMark?.mpr ⟨_, rfl⟩, List.dropLast_concat]
    dsimp only
    rw [if_neg (by simpa using hname), String.ofList_toList]

/-- What is read is written as it was. -/
theorem toText_of_ofText (h : ofText text = .ok k) : k.toText = text := by
  obtain ⟨_, hsplit⟩ := ofText_eq_ok_iff.mp h
  apply String.toList_inj.mp
  rw [toList_toText, ← (splitMulti_eq_iff.mp hsplit).1]

lemma prefix_concat_mark (name : List Char) (d : Direction) :
    [multiMark] <+: name ++ [d.mark] ↔ [multiMark] <+: name := by
  cases name with
  | nil => cases d <;> decide
  | cons c cs => simp [List.cons_prefix_cons]

/-- What is written is read as it was, but for two kinds of names. -/
theorem ofText_toText_iff : ofText k.toText = .ok k ↔
    k.name ≠ "" ∧ (k.multi = true ∨ ¬ [multiMark] <+: k.name.toList) := by
  rw [ofText_eq_ok_iff, splitMulti_eq_iff, toList_toText, prefix_concat_mark, and_iff_right rfl]

/-- The texts in which nothing stands between the marks. -/
lemma withoutMulti_eq_mark_iff : (∃ d : Direction, withoutMulti text = [d.mark]) ↔
    text ∈ ["+", "-", "@+", "@-"] := by
  constructor
  · rintro ⟨d, hrest⟩
    rw [withoutMulti_eq] at hrest
    rcases hsplit : splitMulti text.toList with ⟨multi, rest⟩
    rw [hsplit] at hrest
    obtain rfl : rest = [d.mark] := hrest
    have htext := congrArg String.ofList (splitMulti_eq_iff.mp hsplit).1
    rw [String.ofList_toList] at htext
    rw [htext]
    cases multi <;> cases d <;> decide
  · intro h
    simp only [List.mem_cons, List.not_mem_nil, or_false] at h
    obtain rfl | rfl | rfl | rfl := h
    · exact ⟨.right, by decide⟩
    · exact ⟨.left, by decide⟩
    · exact ⟨.right, by decide⟩
    · exact ⟨.left, by decide⟩

/-- A text is refused because nothing stands between its marks, or because it does not end in a
sign. -/
theorem ofText_eq_error_iff {e : TokenError} : ofText text = .error e ↔
    (text ∈ ["+", "-", "@+", "@-"] ∧ e = .emptyName text) ∨
      (¬ EndsInMark (withoutMulti text) ∧ e = .missingDirection text) := by
  rw [← withoutMulti_eq_mark_iff]
  obtain ⟨hnot, heq⟩ | ⟨d, hrest, heq⟩ | ⟨k, hname, hsplit, heq⟩ := ofText_cases text
  · have hnone : ¬ ∃ d : Direction, withoutMulti text = [d.mark] :=
      fun ⟨d, hrest⟩ => hnot (endsInMark_iff.mpr ⟨[], d, hrest⟩)
    rw [heq, Except.error.injEq, iff_false_intro hnone, false_and, false_or,
      and_iff_right hnot, eq_comm]
  · have hends : EndsInMark (withoutMulti text) := endsInMark_iff.mpr ⟨[], d, hrest⟩
    rw [heq, Except.error.injEq, and_iff_right ⟨d, hrest⟩, iff_false_intro (not_not_intro hends),
      false_and, or_false, eq_comm]
  · have hrest : withoutMulti text = k.name.toList ++ [k.direction.mark] := by
      rw [withoutMulti_eq, hsplit]
    have hends : EndsInMark (withoutMulti text) := endsInMark_iff.mpr ⟨_, _, hrest⟩
    have hnone : ¬ ∃ d : Direction, withoutMulti text = [d.mark] := by
      rintro ⟨d, hd⟩
      rw [hrest, ← List.nil_append [d.mark]] at hd
      obtain ⟨hempty, _⟩ := List.append_inj' hd rfl
      exact hname (String.toList_eq_nil_iff.mp hempty)
    rw [heq, iff_false_intro hnone, iff_false_intro (not_not_intro hends), false_and, false_and,
      or_false]
    exact ⟨nofun, False.elim⟩

end Read

end Token

end LinkConnectors
