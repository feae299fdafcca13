import LinkConnectors.Reach.Registry
import LinkConnectors.Table.Intern
import LinkConnectors.Token

/-! The connectors of a dictionary. While the dictionary loads, a builder collects names and rules.
When it is finished, the table is grouped, the rules are stamped, and nothing changes any more. -/
namespace LinkConnectors

inductive LoadError where
  | table (error : TableError)
  | limit (error : Reach.LimitError)
  | token (error : TokenError)
  deriving DecidableEq, Repr

def LoadError.message : LoadError → String
  | .table e => e.message
  | .limit e => e.message
  | .token e => e.message

/-- A token whose name has been interned. -/
structure Resolved where
  id : Nat
  direction : Direction
  multi : Bool
  deriving DecidableEq, Repr

/-- A loaded dictionary: a grouped table with its limits. -/
structure Dictionary where
  table : Table

structure Builder where
  strings : Interner := {}
  table : Table := {}
  limits : Reach.Registry := {}

namespace Builder

def ofExpected (count : Nat) : Builder := { table := Table.ofExpected count }

/-- Interns a connector name. A name that the table refuses is a string of the interner all the
same. -/
def add (b : Builder) (name : String) : Logged (Except LoadError Nat × Builder) := do
  let (h, strings) := b.strings.add name
  let (r, table) ← b.table.intern h
  return (r.mapError .table, { b with strings := strings, table := table })

/-- Interns the name of a token. A text that is no token leaves the builder alone. -/
def addToken (b : Builder) (text : String) : Logged (Except LoadError Resolved × Builder) :=
  match Token.ofText text with
  | .error e => pure (.error (.token e), b)
  | .ok t => do
    let (r, b) ← b.add t.name
    return (r.map fun id => ⟨id, t.direction, t.multi⟩, b)

def pushRule (b : Builder) (rule : Reach.Rule) : Builder :=
  { b with limits := b.limits.push rule }

/-- Queues the rule of a define. -/
def define (b : Builder) (name : String) (patterns : List String) :
    Except LoadError Unit × Builder :=
  match Reach.Rule.ofDefine name patterns with
  | .error e => (.error (.limit e), b)
  | .ok rule => (.ok (), b.pushRule rule)

/-- Groups the table and applies the rules, which a table that is not grouped would refuse. -/
def tryFinish (b : Builder) : Logged (Except LoadError Dictionary) := do
  match ← b.limits.apply (← b.table.group) with
  | .error e => return .error (.table e)
  | .ok table =>
    Logged.log (.dictionaryReady table.size table.coreCount b.strings.size)
    return .ok ⟨table⟩

/-- The rules find a table that has just been grouped. -/
theorem tryFinish_eq_stamp (b : Builder) : b.tryFinish = (do
    let table ← b.limits.stamp (← b.table.group)
    Logged.log (.dictionaryReady table.size table.coreCount b.strings.size)
    return .ok ⟨table⟩) := by
  have happly := Reach.Registry.apply_of_grouped (r := b.limits) (t := b.table.group.value) rfl
  change Logged.mk (b.limits.apply b.table.group.value >>= _).value
    (b.table.group.events ++ (b.limits.apply b.table.group.value >>= _).events) = _
  rw [happly]
  rfl

theorem tryFinish_ne_error (b : Builder) (e : LoadError) : b.tryFinish.value ≠ .error e := by
  rw [tryFinish_eq_stamp]
  intro h
  cases h

/-- The dictionary that finishing gives, which never fails. -/
def finish (b : Builder) : Logged Dictionary :=
  match h : b.tryFinish.value with
  | .ok d => ⟨d, b.tryFinish.events⟩
  | .error e => absurd h (b.tryFinish_ne_error e)

theorem tryFinish_eq (b : Builder) : b.tryFinish = ⟨.ok b.finish.value, b.finish.events⟩ := by
  unfold finish
  split
  · rename_i h
    rw [← h]
  · rename_i h
    exact absurd h (b.tryFinish_ne_error _)

theorem table_finish (b : Builder) :
    b.finish.value.table = (b.limits.stamp b.table.group.value).value := by
  have h := congrArg Logged.value (b.tryFinish_eq.symm.trans b.tryFinish_eq_stamp)
  exact congrArg Dictionary.table (Except.ok.inj h)

theorem events_finish (b : Builder) : b.finish.events =
    b.table.group.events ++ (b.limits.stamp b.table.group.value).events ++
      [.dictionaryReady b.finish.value.table.size b.finish.value.table.coreCount
        b.strings.size] := by
  have h := congrArg Logged.events (b.tryFinish_eq.symm.trans b.tryFinish_eq_stamp)
  rw [table_finish, List.append_assoc]
  exact h

end Builder

namespace Dictionary

def descriptor? (d : Dictionary) (name : String) : Option Descriptor :=
  (d.table.lookup name).bind d.table.get?

/-- The descriptors of several names, if the dictionary has all of them. -/
def descriptors? (d : Dictionary) (names : List String) : Option (List Descriptor) :=
  names.mapM d.descriptor?

end Dictionary

end LinkConnectors
