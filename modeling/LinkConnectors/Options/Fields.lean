import LinkConnectors.Options.Basic

/-! Run options from structured data: a record with the fields by name, or a sequence with their
values in order. -/
namespace LinkConnectors.Options

/-- The value of a field. Numbers that are not whole are among the other values. -/
inductive Datum where
  | whole (n : Int)
  | flag (b : Bool)
  | other
  deriving DecidableEq, Repr

namespace Datum

def shortLength? : Datum → Option Setting
  | whole n => if 0 ≤ n ∧ n ≤ maxShortLength then some (.shortLength n.toNat) else none
  | _ => none

def allShort? : Datum → Option Setting
  | flag b => some (.allShort b)
  | _ => none

end Datum

def fieldSetting? (field : String × Datum) : Option Setting :=
  if field.1 = shortLengthName then field.2.shortLength?
  else if field.1 = allShortName then field.2.allShort?
  else none

/-- Fields may be missing, but there are no others. -/
def ofRecord? (fields : List (String × Datum)) : Option RunOptions := do
  return (← Draft.ofSettings (← fields.mapM fieldSetting?)).toOptions

/-- Elements may be missing at the end, but there are no more than two. -/
def sequenceSettings? : List Datum → Option (List Setting)
  | [] => some []
  | [n] => do return [← n.shortLength?]
  | [n, b] => do return [← n.shortLength?, ← b.allShort?]
  | _ => none

def ofSequence? (items : List Datum) : Option RunOptions := do
  return (← Draft.ofSettings (← sequenceSettings? items)).toOptions

end LinkConnectors.Options
