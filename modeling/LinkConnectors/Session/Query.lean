import LinkConnectors.Table.Slots

/-! Questions about a table that change nothing. -/
namespace LinkConnectors.Table

/-- The counts of a table. -/
structure Summary where
  size : Nat
  coreCount : Nat
  capacity : Nat
  grouped : Bool
  deriving DecidableEq, Repr

def summary (t : Table) : Summary := ⟨t.size, t.coreCount, t.capacity, t.grouped⟩

inductive Query where
  | summary
  | lookup (name : String)
  | get (id : Nat)
  | toList
  | sorted
  | matching (a b : Nat)
  | suffixMatching (a b : Nat)
  deriving DecidableEq, Repr

inductive Reply where
  | summary (s : Summary)
  | id (n : Option Nat)
  | descriptor (d : Option Descriptor)
  | listing (ds : List (Nat × Descriptor))
  | sorted (ds : Option (List (Nat × Descriptor)))
  /-- There is no verdict on a number outside the table, and none on cores without numbers. -/
  | verdict (b : Option Bool)
  deriving DecidableEq, Repr

def matching? (t : Table) (a b : Nat) : Option Bool := do (← t.get? a).matches? (← t.get? b)

def suffixMatching? (t : Table) (a b : Nat) : Option Bool := do
  return (← t.get? a).suffixMatches (← t.get? b)

def reply (t : Table) : Query → Reply
  | .summary => .summary t.summary
  | .lookup name => .id (t.lookup name)
  | .get id => .descriptor (t.get? id)
  | .toList => .listing t.toList
  | .sorted => .sorted t.sorted?
  | .matching a b => .verdict (t.matching? a b)
  | .suffixMatching a b => .verdict (t.suffixMatching? a b)

end LinkConnectors.Table
