import LinkConnectors.Reach.Rule
import LinkConnectors.Table.CoreRange

/-! The length-limit rules of one dictionary in order of declaration, and stamping them onto the
descriptors of a grouped table. A later rule overwrites an earlier one. -/
namespace LinkConnectors.Reach

structure Registry where
  rules : List Rule := []
  deriving DecidableEq, Repr

namespace Registry

def size (r : Registry) : Nat := r.rules.length

def push (r : Registry) (rule : Rule) : Registry := ⟨r.rules ++ [rule]⟩

/-- Whether the dictionary names its unlimited connectors itself. -/
def declaresUnlimited (r : Registry) : Bool := r.rules.any fun rule => rule.limit == unlimited

/-- Descriptors on the way through the rules, and how often one of them was stamped. -/
structure Stamping where
  descriptors : Array Descriptor
  stamped : Nat := 0

namespace Stamping

def stamp (limit : Nat) (p : Pattern) (s : Stamping) (id : Nat) : Stamping :=
  match s.descriptors[id]? with
  | none => s
  | some d =>
    if p.covers d then
      ⟨s.descriptors.setIfInBounds id { d with limit := limit }, s.stamped + 1⟩
    else s

def stampPattern (range : String → List Nat) (limit : Nat) (s : Stamping) (p : Pattern) :
    Stamping :=
  (range p.core).foldl (stamp limit p) s

def stampRule (range : String → List Nat) (s : Stamping) (rule : Rule) : Stamping :=
  rule.patterns.foldl (stampPattern range rule.limit) s

end Stamping

/-- What a dictionary without unlimited connectors does to a descriptor that no rule has reached. -/
def lift (d : Descriptor) : Descriptor :=
  if d.limit = 0 then { d with limit := unlimited } else d

/-- Stamps the rules onto a grouped table. The view by core is the same before and after, so it can
be read from the table that was given. -/
def stamp (r : Registry) (t : Table) : Logged Table := do
  let s := r.rules.foldl (Stamping.stampRule t.coreRange) ⟨t.descriptors, 0⟩
  let lifted := if r.declaresUnlimited then s.descriptors else s.descriptors.map lift
  Logged.log (.limitsApplied r.size s.stamped r.declaresUnlimited)
  return { t with descriptors := lifted }

def apply (r : Registry) (t : Table) : Logged (Except TableError Table) :=
  if t.grouped then do return .ok (← r.stamp t) else pure (.error .notGrouped)

theorem apply_of_grouped {r : Registry} {t : Table} (hg : t.grouped = true) :
    r.apply t = ⟨.ok (r.stamp t).value, (r.stamp t).events⟩ := by
  rw [apply, if_pos hg]
  exact Logged.bind_pure_eq _ _

end Registry

end LinkConnectors.Reach
