import LinkConnectors.Matching
import LinkConnectors.Session.Load

/-! All pairs of a list of names under the three forms of the match predicate. -/
namespace LinkConnectors

structure MatchMatrix where
  names : List (List Bool)
  descriptors : List (List (Option Bool))
  suffixes : List (List Bool)
  deriving DecidableEq, Repr

namespace MatchMatrix

def pairs {α β : Type} (f : α → α → β) (xs : List α) : List (List β) :=
  xs.map fun x => xs.map fun y => f x y

/-- Adds all names to a builder and stops at the first that is refused. -/
def addAll (b : Builder) : List String → Except LoadError (List Nat × Builder)
  | [] => .ok ([], b)
  | name :: names => do
    let (r, b) := (b.add name).value
    let id ← r
    let (ids, b) ← addAll b names
    return (id :: ids, b)

def ofNames (names : List String) : Except LoadError MatchMatrix := do
  let (ids, b) ← addAll (Builder.ofExpected names.length) names
  let table := b.finish.value.table
  let ds := ids.filterMap table.get?
  return {
    names := pairs Matching.namesMatch names
    descriptors := pairs Descriptor.matches? ds
    suffixes := pairs Descriptor.suffixMatches ds }

end MatchMatrix

end LinkConnectors
