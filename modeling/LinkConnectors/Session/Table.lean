import LinkConnectors.Reach.Registry
import LinkConnectors.Session.Query
import LinkConnectors.Table.Intern

/-! Work on one table, with the interner that its names go through and a registry of rules. -/
namespace LinkConnectors

/-- What a rule is made of: the name of a define, or the limit itself. -/
inductive RuleHead where
  | define (name : String)
  | limit (n : Nat)
  deriving DecidableEq, Repr

def RuleHead.rule (head : RuleHead) (patterns : List String) : Except Reach.LimitError Reach.Rule :=
  match head with
  | .define name => Reach.Rule.ofDefine name patterns
  | .limit n => Reach.Rule.ofLimit n patterns

structure TableSession where
  strings : Interner := {}
  table : Table := {}
  registry : Reach.Registry := {}

namespace TableSession

inductive Step where
  | expect (count : Nat)
  | intern (name : String)
  | internAll (names : List String)
  | group
  | push (head : RuleHead) (patterns : List String)
  | registry
  /-- Applies the rules and forgets them, whether that succeeds or not. -/
  | apply
  /-- Applies the rules and keeps them. -/
  | applyCopy
  | query (q : Table.Query)
  deriving DecidableEq, Repr

inductive Answer where
  | done
  | interned (r : Except TableError Nat)
  | internedAll (rs : List (Except TableError Nat))
  | pushed (r : Except Reach.LimitError Reach.Rule)
  | registry (r : Reach.Registry)
  | applied (r : Except TableError Unit)
  | reply (r : Table.Reply)

/-- A name goes through the interner first, so it is a string of it even if the table refuses it. -/
def intern (s : TableSession) (name : String) : Logged (Except TableError Nat × TableSession) := do
  let (h, strings) := s.strings.add name
  let (r, table) ← s.table.intern h
  return (r, { s with strings := strings, table := table })

def internAll (s : TableSession) :
    List String → Logged (List (Except TableError Nat) × TableSession)
  | [] => pure ([], s)
  | name :: names => do
    let (r, s) ← s.intern name
    let (rs, s) ← s.internAll names
    return (r :: rs, s)

/-- Applies the rules and leaves the registry `kept` behind. -/
def applyRules (s : TableSession) (kept : Reach.Registry) :
    Logged (Except TableError Unit × TableSession) := do
  match ← s.registry.apply s.table with
  | .ok table => return (.ok (), { s with table := table, registry := kept })
  | .error e => return (.error e, { s with registry := kept })

def step (s : TableSession) : Step → Logged (Answer × TableSession)
  | .expect count => do return (.done, { s with table := ← s.table.expect count })
  | .intern name => do
    let (r, s) ← s.intern name
    return (.interned r, s)
  | .internAll names => do
    let (rs, s) ← s.internAll names
    return (.internedAll rs, s)
  | .group => do return (.done, { s with table := ← s.table.group })
  | .push head patterns =>
    let r := head.rule patterns
    match r with
    | .ok rule => pure (.pushed r, { s with registry := s.registry.push rule })
    | .error _ => pure (.pushed r, s)
  | .registry => pure (.registry s.registry, s)
  | .apply => do
    let (r, s) ← s.applyRules {}
    return (.applied r, s)
  | .applyCopy => do
    let (r, s) ← s.applyRules s.registry
    return (.applied r, s)
  | .query q => pure (.reply (s.table.reply q), s)

/-- Each step's answer, events and outcome, in order. -/
def run (s : TableSession) : List Step → List (Logged (Answer × TableSession))
  | [] => []
  | x :: xs => s.step x :: run (s.step x).value.2 xs

end TableSession

end LinkConnectors
