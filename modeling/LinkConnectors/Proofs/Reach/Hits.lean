import LinkConnectors.Proofs.NamesMatch
import LinkConnectors.Proofs.Reach.Defines
import LinkConnectors.Session.Table
import Mathlib.Algebra.GroupWithZero.Nat

/-! Patterns and names as they are written. A pattern hits a name if the two match once the marker
is taken off the pattern, and if the name has that marker too. For accepted names this is the check
on packed descriptors. -/
namespace LinkConnectors

namespace Reach

/-- The small letter in front of a name. -/
def marker? (name : String) : Option Char := name.toList.head?.filter Char.isLower

/-- The name without the small letter in front. -/
def unmarked (name : String) : String :=
  if (marker? name).isSome then String.ofList name.toList.tail else name

def hits (pattern name : String) : Bool :=
  Matching.namesMatch (unmarked pattern) name &&
    (marker? pattern == none || marker? pattern == marker? name)

def Rule.hits (rule : Rule) (name : String) : Bool :=
  rule.patterns.any fun p => Reach.hits p.text name

namespace Registry

/-- The limit of a name after the rules: that of the last rule that hits it. A name that no rule
hits keeps its limit, but where that was left open and no rule sets 255, it gets 255. -/
def limitOf (r : Registry) (name : String) (previous : Nat) : Nat :=
  match (r.rules.filter fun rule => rule.hits name).getLast? with
  | some rule => rule.limit
  | none => if previous = 0 ∧ ∀ rule ∈ r.rules, rule.limit ≠ 255 then 255 else previous

/-- How many triples there are of a rule, one of its patterns and a name that the pattern hits. -/
def hitCount (r : Registry) (names : List String) : Nat :=
  (r.rules.map fun rule => (rule.patterns.map fun p => names.countP (Reach.hits p.text)).sum).sum

end Registry

end Reach

namespace Encoding.Spells

variable {e f : Encoding} {pattern name : String}

lemma marker?_eq (h : e.Spells name) : Reach.marker? name = e.role.marker.head? := by
  rw [Reach.marker?, h.name_eq]
  cases hrole : e.role with
  | head | dependent => rfl
  | unmarked =>
    obtain ⟨c, cs, hcore, hupper⟩ := h.exists_capital
    simp [Role.marker, hcore, isLower_of_isUpper hupper]

/-- Without its marker an accepted name is accepted. -/
lemma unmarked (h : e.Spells name) : Spells { e with role := .unmarked } (Reach.unmarked name) where
  name_eq := by
    rw [Reach.unmarked, h.marker?_eq]
    cases hrole : e.role with
    | head | dependent => simp [Role.marker, h.name_eq, hrole]
    | unmarked => simp [Role.marker, h.name_eq, hrole]
  core_ne := h.core_ne
  core_upper := h.core_upper
  core_length := h.core_length
  suffix_letter := h.suffix_letter
  suffix_length := h.suffix_length
  packed_eq := h.packed_eq

lemma marker?_beq (he : e.Spells pattern) (hf : f.Spells name) :
    (Reach.marker? pattern == none || Reach.marker? pattern == Reach.marker? name) =
      e.role.admits f.role := by
  rw [he.marker?_eq, hf.marker?_eq]
  cases e.role <;> cases f.role <;> rfl

/-- A pattern hits a name if the cores are equal, the suffixes compatible, and the role admitted. -/
theorem hits_eq (he : e.Spells pattern) (hf : f.Spells name) : Reach.hits pattern name =
    (e.core == f.core && (e.packed.compatible f.packed && e.role.admits f.role)) := by
  rw [Reach.hits, he.unmarked.namesMatch_eq hf, he.marker?_beq hf]
  simp [Role.excludes, Bool.and_assoc]

end Encoding.Spells

namespace Reach

/-- Whether a rule is one that can be had: it was made from a head and some patterns. -/
def Rule.Declared (rule : Rule) : Prop := ∃ (head : RuleHead) (patterns : List String),
  head.rule patterns = .ok rule

def Registry.Declared (r : Registry) : Prop := ∀ rule ∈ r.rules, rule.Declared

namespace Rule

variable {rule : Rule}

lemma of_ofLimit {limit : Nat} {texts : List String} (h : ofLimit limit texts = .ok rule) :
    rule.limit ≠ 0 ∧ ∀ p ∈ rule.patterns, Encoding.ofName p.text = .ok p.encoding := by
  unfold ofLimit at h
  split at h
  · cases h
  · rename_i hrange
    obtain ⟨ps, hps, h⟩ := Attempt.bind_eq_ok_iff.mp h
    obtain rfl := Except.ok.inj h
    exact ⟨fun hzero => hrange (.inl hzero), (Pattern.mapM_ofText_eq_ok_iff.mp hps).2⟩

lemma of_ofDefine {name : String} {texts : List String} (h : ofDefine name texts = .ok rule) :
    rule.limit ≠ 0 ∧ ∀ p ∈ rule.patterns, Encoding.ofName p.text = .ok p.encoding := by
  obtain ⟨_, hsets, _, hpatterns⟩ := ofDefine_eq_ok_iff.mp h
  exact ⟨Nat.ne_of_gt hsets.le.1, hpatterns⟩

/-- A rule never leaves the choice to the run, and its patterns are connector names. -/
theorem Declared.limit_ne_zero (h : rule.Declared) : rule.limit ≠ 0 := by
  obtain ⟨head, texts, hrule⟩ := h
  cases head with
  | define name => exact (of_ofDefine hrule).1
  | limit n => exact (of_ofLimit hrule).1

theorem Declared.spells (h : rule.Declared) {p : Pattern} (hp : p ∈ rule.patterns) :
    p.encoding.Spells p.text := by
  obtain ⟨head, texts, hrule⟩ := h
  cases head with
  | define name => exact Encoding.spells_of_ofName ((of_ofDefine hrule).2 p hp)
  | limit n => exact Encoding.spells_of_ofName ((of_ofLimit hrule).2 p hp)

end Rule

end Reach

end LinkConnectors
