import LinkConnectors.Descriptor

/-! The table of connector descriptors. Descriptors stand in order of creation, and their position
is their number. The slots of a hash table lead from a name to a number. Once the table has been
grouped, the view by core lists the numbers by core and name. -/
namespace LinkConnectors

inductive TableError where
  | encode (error : EncodeError)
  | frozen (name : String)
  | notGrouped
  | full (count : Nat)
  /-- Two descriptors with one name met while the slots grew. -/
  | slotTaken (slot : Nat) (existing moving : String)
  /-- A handle of another interner was given for a name that the table holds. -/
  | foreignHandle (name : String)
  /-- A walk over the slots met neither the name nor an empty slot. -/
  | slotsExhausted
  /-- A slot holds the number of no descriptor. -/
  | missing (id : Nat)
  deriving DecidableEq, Repr

namespace TableError

def message : TableError → String
  | encode e => e.message
  | frozen name => s!"descriptor table is frozen; cannot intern {Text.quote name}"
  | notGrouped => "descriptor table has not been grouped by core yet"
  | full count => s!"descriptor table is full ({count} descriptors)"
  | slotTaken slot existing moving =>
    s!"descriptor table grow: slot {slot} already taken by {Text.quote existing} while moving " ++
      Text.quote moving
  | foreignHandle name => s!"connector {Text.quote name} interned from a foreign string set"
  | slotsExhausted => "descriptor table has no empty slot"
  | missing id => s!"descriptor table has no descriptor {id}"

end TableError

structure Table where
  /-- Empty until the first name is interned. -/
  slots : Array (Option Nat) := #[]
  descriptors : Array Descriptor := #[]
  byCore : Array Nat := #[]
  /-- How many names the slots are to be sized for. -/
  expected : Nat := 0
  coreCount : Nat := 0
  grouped : Bool := false
  deriving Repr

namespace Table

def ofExpected (count : Nat) : Table := { expected := count }

def size (t : Table) : Nat := t.descriptors.size

def isEmpty (t : Table) : Bool := t.size == 0

/-- The number of slots. -/
def capacity (t : Table) : Nat := t.slots.size

def get? (t : Table) (id : Nat) : Option Descriptor := t.descriptors[id]?

/-- All descriptors with their numbers, in order of creation. -/
def toList (t : Table) : List (Nat × Descriptor) :=
  t.descriptors.toList.mapIdx fun id d => (id, d)

/-- The view by core. There is none before the table has been grouped. -/
def sorted? (t : Table) : Option (List (Nat × Descriptor)) :=
  if t.grouped then
    some (t.byCore.toList.filterMap fun id => (t.get? id).map fun d => (id, d))
  else none

end Table

end LinkConnectors
