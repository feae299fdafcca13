import LinkConnectors.Proofs.Attempt
import LinkConnectors.Proofs.Text.Numeral
import LinkConnectors.Reach.Rule
import Mathlib.Data.String.Basic

/-! The defines that length-limit rules are read from. The name of a define carries the limit, and
its patterns say who receives it. A define that is no good is refused for its name before any of its
patterns is read. -/
namespace LinkConnectors.Reach

section Names

/-- A define of this name carries a number. A plus sign may stand in front of the digits. -/
def Carries (name : String) (n : Nat) : Prop :=
  ∃ sign digits : String, name = "LENGTH-LIMIT-" ++ sign ++ digits ∧ (sign = "" ∨ sign = "+") ∧
    Text.Denotes digits.toList n

/-- A define of this name sets a limit. -/
def Sets (name : String) (limit : Nat) : Prop :=
  name = "UNLIMITED-CONNECTORS" ∧ limit = 255 ∨ Carries name limit ∧ 1 ≤ limit ∧ limit ≤ 254

variable {name other : String} {cs : List Char} {n : Nat} {e : EncodeError}

lemma Sets.le (h : Sets name n) : 1 ≤ n ∧ n ≤ 255 := by
  obtain ⟨_, rfl⟩ | ⟨_, hpos, hle⟩ := h
  · decide
  · exact ⟨hpos, Nat.le_succ_of_le hle⟩

lemma not_carries_unlimited : ¬ Carries "UNLIMITED-CONNECTORS" n := by
  rintro ⟨sign, digits, hname, _⟩
  have hhead := congrArg (fun s : String => s.toList.head?) hname
  rw [String.append_assoc] at hhead
  simp at hhead

namespace Rule

lemma readCount_eq_some_iff : readCount cs = some n ↔
    n < 2 ^ 32 ∧ ∃ sign digits : List Char, cs = sign ++ digits ∧ (sign = [] ∨ sign = ['+']) ∧
      Text.Denotes digits n := by
  have hplus : ¬ Text.IsDecimal '+' := by simp [Text.isDecimal_iff]
  unfold readCount
  rw [Option.filter_eq_some_iff, decide_eq_true_eq, and_comm, Text.readDigits_eq_some_iff]
  refine and_congr Iff.rfl ?_
  constructor
  · intro h
    split at h
    · exact ⟨['+'], _, rfl, .inr rfl, h⟩
    · exact ⟨[], _, rfl, .inl rfl, h⟩
  · rintro ⟨sign, digits, rfl, rfl | rfl, h⟩
    · split
      · rename_i ds hds
        exact absurd (h.decimal '+' (by rw [List.nil_append] at hds; simp [hds])) hplus
      · exact h
    · exact h

/-- What is read behind the beginning of a name. -/
lemma bind_readCount_eq_some_iff :
    ("LENGTH-LIMIT-".toList.isPrefixOf? name.toList).bind readCount = some n ↔
    n < 2 ^ 32 ∧ Carries name n := by
  simp only [Option.bind_eq_some_iff, List.isPrefixOf?_eq_some_iff_append_eq, readCount_eq_some_iff]
  constructor
  · rintro ⟨_, hname, hlt, sign, digits, rfl, hsign, hdigits⟩
    refine ⟨hlt, String.ofList sign, String.ofList digits, ?_, ?_, ?_⟩
    · rw [← String.toList_inj, ← hname]
      simp
    · exact hsign.imp (congrArg String.ofList) (congrArg String.ofList)
    · rwa [String.toList_ofList]
  · rintro ⟨hlt, sign, digits, rfl, hsign, hdigits⟩
    refine ⟨sign.toList ++ digits.toList, by simp, hlt, _, _, rfl, ?_, hdigits⟩
    exact hsign.imp (congrArg String.toList) (congrArg String.toList)

lemma bind_readCount_eq_none_iff :
    ("LENGTH-LIMIT-".toList.isPrefixOf? name.toList).bind readCount = none ↔
    ∀ n, Carries name n → 2 ^ 32 ≤ n := by
  rw [Option.eq_none_iff_forall_not_mem]
  simp only [Option.mem_def, bind_readCount_eq_some_iff, not_and', Nat.not_lt]

lemma limitOfDefine_of_ne (hne : name ≠ "UNLIMITED-CONNECTORS") : limitOfDefine name =
    match ("LENGTH-LIMIT-".toList.isPrefixOf? name.toList).bind readCount with
    | none => .error (.unknownDefine name)
    | some n => if 1 ≤ n ∧ n ≤ 254 then .ok n else .error (.outOfRange n) := if_neg hne

/-- A name that carries a number of 32 bits is judged by the number. -/
lemma limitOfDefine_of_carries (hname : Carries name n) (hlt : n < 2 ^ 32) : limitOfDefine name =
    if 1 ≤ n ∧ n ≤ 254 then .ok n else .error (.outOfRange n) := by
  have hne : name ≠ "UNLIMITED-CONNECTORS" := by
    rintro rfl
    exact not_carries_unlimited hname
  rw [limitOfDefine_of_ne hne, bind_readCount_eq_some_iff.mpr ⟨hlt, hname⟩]

lemma limitOfDefine_of_sets (h : Sets name n) : limitOfDefine name = .ok n := by
  obtain ⟨rfl, rfl⟩ | ⟨hname, hrange⟩ := h
  · exact if_pos rfl
  · rw [limitOfDefine_of_carries hname (hrange.2.trans_lt (by decide)), if_pos hrange]

lemma limitOfDefine_of_range (hname : Carries name n) (hrange : n = 0 ∨ 255 ≤ n ∧ n < 2 ^ 32) :
    limitOfDefine name = .error (.outOfRange n) := by
  have hlt : n < 2 ^ 32 := by
    obtain rfl | ⟨_, hlt⟩ := hrange
    · decide
    · exact hlt
  have hout : ¬ (1 ≤ n ∧ n ≤ 254) := by omega
  rw [limitOfDefine_of_carries hname hlt, if_neg hout]

lemma limitOfDefine_of_unknown (hne : name ≠ "UNLIMITED-CONNECTORS")
    (hname : ∀ n, Carries name n → 2 ^ 32 ≤ n) :
    limitOfDefine name = .error (.unknownDefine name) := by
  rw [limitOfDefine_of_ne hne, bind_readCount_eq_none_iff.mpr hname]

/-- A name sets a limit, carries a number out of range, or is unknown. -/
lemma limitOfDefine_cases (name : String) : (∃ n, Sets name n ∧ limitOfDefine name = .ok n) ∨
    (∃ n, (Carries name n ∧ (n = 0 ∨ 255 ≤ n ∧ n < 2 ^ 32)) ∧
      limitOfDefine name = .error (.outOfRange n)) ∨
    (name ≠ "UNLIMITED-CONNECTORS" ∧ ∀ n, Carries name n → 2 ^ 32 ≤ n) ∧
      limitOfDefine name = .error (.unknownDefine name) := by
  by_cases hname : name = "UNLIMITED-CONNECTORS"
  · have hsets : Sets name 255 := .inl ⟨hname, rfl⟩
    exact .inl ⟨255, hsets, limitOfDefine_of_sets hsets⟩
  by_cases hcarries : ∃ n, Carries name n ∧ n < 2 ^ 32
  · obtain ⟨n, hn, hlt⟩ := hcarries
    by_cases hrange : 1 ≤ n ∧ n ≤ 254
    · have hsets : Sets name n := .inr ⟨hn, hrange⟩
      exact .inl ⟨n, hsets, limitOfDefine_of_sets hsets⟩
    · have hout : n = 0 ∨ 255 ≤ n ∧ n < 2 ^ 32 := by omega
      exact .inr (.inl ⟨n, ⟨hn, hout⟩, limitOfDefine_of_range hn hout⟩)
  · have hunknown : ∀ n, Carries name n → 2 ^ 32 ≤ n :=
      fun n hn => Nat.le_of_not_lt fun hlt => hcarries ⟨n, hn, hlt⟩
    exact .inr (.inr ⟨⟨hname, hunknown⟩, limitOfDefine_of_unknown hname hunknown⟩)

theorem limitOfDefine_eq_ok_iff : limitOfDefine name = .ok n ↔ Sets name n := by
  refine ⟨fun h => ?_, limitOfDefine_of_sets⟩
  obtain ⟨m, hm, heq⟩ | ⟨m, hm, heq⟩ | ⟨hm, heq⟩ :=
    limitOfDefine_cases name <;> cases heq.symm.trans h
  exact hm

theorem limitOfDefine_eq_outOfRange_iff : limitOfDefine name = .error (.outOfRange n) ↔
    Carries name n ∧ (n = 0 ∨ 255 ≤ n ∧ n < 2 ^ 32) := by
  refine ⟨fun h => ?_, fun h => limitOfDefine_of_range h.1 h.2⟩
  obtain ⟨m, hm, heq⟩ | ⟨m, hm, heq⟩ | ⟨hm, heq⟩ :=
    limitOfDefine_cases name <;> cases heq.symm.trans h
  exact hm

theorem limitOfDefine_eq_unknownDefine_iff : limitOfDefine name = .error (.unknownDefine other) ↔
    other = name ∧ name ≠ "UNLIMITED-CONNECTORS" ∧ ∀ n, Carries name n → 2 ^ 32 ≤ n := by
  constructor
  · intro h
    obtain ⟨m, hm, heq⟩ | ⟨m, hm, heq⟩ | ⟨hm, heq⟩ :=
      limitOfDefine_cases name <;> cases heq.symm.trans h
    exact ⟨rfl, hm⟩
  · rintro ⟨rfl, hne, hname⟩
    exact limitOfDefine_of_unknown hne hname

/-- No name is refused for a pattern. -/
lemma limitOfDefine_ne_pattern : limitOfDefine name ≠ .error (.pattern e) := by
  intro h
  obtain ⟨m, hm, heq⟩ | ⟨m, hm, heq⟩ | ⟨hm, heq⟩ :=
    limitOfDefine_cases name <;> cases heq.symm.trans h

end Rule

end Names

section Patterns

variable {text : String} {texts : List String} {p : Pattern} {ps : List Pattern} {err : LimitError}
  {e : EncodeError}

namespace Pattern

lemma ofText_eq_ok_iff :
    ofText text = .ok p ↔ Encoding.ofName p.text = .ok p.encoding ∧ p.text = text := by
  unfold ofText
  cases htext : Encoding.ofName text with
  | error e =>
    refine ⟨nofun, ?_⟩
    rintro ⟨hp, rfl⟩
    rw [htext] at hp
    cases hp
  | ok e =>
    constructor
    · intro h
      obtain rfl := Except.ok.inj h
      exact ⟨htext, rfl⟩
    · rintro ⟨hp, rfl⟩
      rw [htext] at hp
      obtain rfl := Except.ok.inj hp
      rfl

lemma ofText_eq_error_iff :
    ofText text = .error err ↔ ∃ e, Encoding.ofName text = .error e ∧ err = .pattern e := by
  unfold ofText
  cases Encoding.ofName text with
  | error e => simp [eq_comm]
  | ok e => simp

lemma exists_ofText_iff : (∃ p, ofText text = .ok p) ↔ ∃ e, Encoding.ofName text = .ok e := by
  simp only [ofText_eq_ok_iff]
  constructor
  · rintro ⟨p, hp, rfl⟩
    exact ⟨_, hp⟩
  · rintro ⟨e, he⟩
    exact ⟨⟨text, e⟩, he, rfl⟩

/-- The patterns keep their texts and their order. -/
lemma mapM_ofText_eq_ok_iff : texts.mapM ofText = .ok ps ↔
    ps.map Pattern.text = texts ∧ ∀ p ∈ ps, Encoding.ofName p.text = .ok p.encoding := by
  simp only [Attempt.mapM_eq_ok_iff, ofText_eq_ok_iff, List.forall₂_and_left]
  rw [and_comm, ← List.forall₂_eq_eq_eq, List.forall₂_map_left_iff]

end Pattern

/-- The first text that is no connector name gives the error. -/
lemma mapM_ofText_eq_error_iff : texts.mapM Pattern.ofText = .error err ↔ ∃ e, err = .pattern e ∧
    ∃ before text after, texts = before ++ text :: after ∧
      (∀ t ∈ before, ∃ f, Encoding.ofName t = .ok f) ∧
      Encoding.ofName text = .error e := by
  simp only [Attempt.mapM_eq_error_iff, Pattern.exists_ofText_iff, Pattern.ofText_eq_error_iff]
  constructor
  · rintro ⟨before, text, after, hsplit, hbefore, e, he, rfl⟩
    exact ⟨e, rfl, before, text, after, hsplit, hbefore, he⟩
  · rintro ⟨e, rfl, before, text, after, hsplit, hbefore, he⟩
    exact ⟨before, text, after, hsplit, hbefore, e, he, rfl⟩

end Patterns

section Rules

namespace Rule

variable {name : String} {texts : List String} {rule : Rule} {n : Nat} {err : LimitError}
  {e : EncodeError}

lemma ofLimit_eq (hpos : 1 ≤ n) (hle : n ≤ 255) :
    ofLimit n texts = texts.mapM Pattern.ofText >>= fun ps => .ok ⟨none, n, ps⟩ :=
  if_neg (by unfold unlimited; omega)

/-- First the name is read, then the patterns. The limits that names set are all in range. -/
lemma ofDefine_eq (name : String) (texts : List String) : ofDefine name texts =
    limitOfDefine name >>= fun n => texts.mapM Pattern.ofText >>= fun ps =>
      .ok ⟨some name, n, ps⟩ := by
  cases hname : limitOfDefine name with
  | error err =>
    rw [ofDefine, hname]
    rfl
  | ok n =>
    obtain ⟨hpos, hle⟩ := (limitOfDefine_eq_ok_iff.mp hname).le
    rw [ofDefine, hname]
    change (ofLimit n texts >>= fun rule => .ok { rule with define := some name }) =
      texts.mapM Pattern.ofText >>= _
    rw [ofLimit_eq hpos hle]
    cases texts.mapM Pattern.ofText with
    | error err | ok ps => rfl

lemma ofDefine_eq_ok_iff :
    ofDefine name texts = .ok rule ↔ rule.define = some name ∧ Sets name rule.limit ∧
    rule.patterns.map Pattern.text = texts ∧ ∀ p ∈ rule.patterns,
      Encoding.ofName p.text = .ok p.encoding := by
  simp only [ofDefine_eq, Attempt.bind_eq_ok_iff, limitOfDefine_eq_ok_iff,
    Pattern.mapM_ofText_eq_ok_iff]
  constructor
  · rintro ⟨n, hn, ps, hps, h⟩
    obtain rfl := Except.ok.inj h
    exact ⟨rfl, hn, hps⟩
  · obtain ⟨define, limit, patterns⟩ := rule
    rintro ⟨rfl, hlimit, hpatterns⟩
    exact ⟨limit, hlimit, patterns, hpatterns, rfl⟩

lemma ofDefine_eq_error_iff : ofDefine name texts = .error err ↔
    limitOfDefine name = .error err ∨ (∃ n, Sets name n) ∧
      texts.mapM Pattern.ofText = .error err := by
  simp only [ofDefine_eq, Attempt.bind_eq_error_iff, limitOfDefine_eq_ok_iff, reduceCtorEq,
    and_false, exists_false, or_false, exists_and_right]

lemma exists_ofDefine_eq_ok_iff : (∃ rule, ofDefine name texts = .ok rule) ↔
    (∃ n, Sets name n) ∧ ∀ text ∈ texts, ∃ e, Encoding.ofName text = .ok e := by
  simp only [← Pattern.exists_ofText_iff, ← Attempt.exists_mapM_eq_ok_iff, ofDefine_eq,
    Attempt.bind_eq_ok_iff, limitOfDefine_eq_ok_iff]
  constructor
  · rintro ⟨rule, n, hn, ps, hps, _⟩
    exact ⟨⟨n, hn⟩, ps, hps⟩
  · rintro ⟨⟨n, hn⟩, ps, hps⟩
    exact ⟨_, n, hn, ps, hps, rfl⟩

/-- What comes of a define. If the name sets a limit and all patterns are connector names then it is
a rule with this limit that has the name and the patterns of the define. If the name carries any
other number of 32 bits this number is out of range, and if it carries none it is unknown, whatever
the patterns are. Otherwise the first pattern that is no connector name is to blame. -/
theorem outcomes_of_define (name : String) (texts : List String) :
    (∀ rule, ofDefine name texts = .ok rule ↔ rule.define = some name ∧ Sets name rule.limit ∧
      rule.patterns.map Pattern.text = texts ∧ ∀ p ∈ rule.patterns,
        Encoding.ofName p.text = .ok p.encoding) ∧
    ((∃ rule, ofDefine name texts = .ok rule) ↔
      (∃ n, Sets name n) ∧ ∀ text ∈ texts, ∃ e, Encoding.ofName text = .ok e) ∧
    (∀ n, ofDefine name texts = .error (.outOfRange n) ↔
      Carries name n ∧ (n = 0 ∨ 255 ≤ n ∧ n < 2 ^ 32)) ∧
    (∀ other, ofDefine name texts = .error (.unknownDefine other) ↔
      other = name ∧ name ≠ "UNLIMITED-CONNECTORS" ∧ ∀ n, Carries name n → 2 ^ 32 ≤ n) ∧
    ∀ e, ofDefine name texts = .error (.pattern e) ↔ (∃ n, Sets name n) ∧
      ∃ before text after, texts = before ++ text :: after ∧
        (∀ t ∈ before, ∃ f, Encoding.ofName t = .ok f) ∧
        Encoding.ofName text = .error e := by
  refine ⟨fun rule => ofDefine_eq_ok_iff, exists_ofDefine_eq_ok_iff, fun n => ?_, fun other => ?_,
    fun e => ?_⟩
  · simp [ofDefine_eq_error_iff, mapM_ofText_eq_error_iff, limitOfDefine_eq_outOfRange_iff]
  · simp [ofDefine_eq_error_iff, mapM_ofText_eq_error_iff, limitOfDefine_eq_unknownDefine_iff]
  · simp [ofDefine_eq_error_iff, mapM_ofText_eq_error_iff, limitOfDefine_ne_pattern]

example : ofDefine "LENGTH-LIMIT-+0255" ["Ss", "s"] = .error (.outOfRange 255) := by decide +kernel
example : ofDefine "LENGTH-LIMIT-+" [] = .error (.unknownDefine "LENGTH-LIMIT-+") := by
  decide +kernel

end Rule

end Rules

end LinkConnectors.Reach
