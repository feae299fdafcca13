import LinkConnectors.Dictionary
import LinkConnectors.Session.Arena
import LinkConnectors.Session.Query
import LinkConnectors.Session.Strings

/-! Parsing with a finished dictionary: two arenas side by side, and connectors named by the names
in the dictionary. -/
namespace LinkConnectors

structure ParseSession where
  dictionary : Dictionary
  arenas : Both Arena := ⟨{}, {}⟩

namespace ParseSession

inductive Action where
  | query (q : Table.Query)
  | descriptor (name : String)
  | matchNames (a b : String)
  | limit (name : String) (o : Option RunOptions)
  | pairHash (tableSize : Nat) (k : Hash.LinkKey)
  | new (name : String) (o : Option RunOptions)
  | newChain (names : List String) (o : Option RunOptions)
  | arena (s : Arena.Step)
  deriving DecidableEq, Repr

/-- A step is taken at one of the two arenas, also when it asks about the dictionary alone. -/
structure Step where
  side : Side := .first
  action : Action
  deriving DecidableEq, Repr

inductive Answer where
  | reply (r : Table.Reply)
  | descriptor (d : Option Descriptor)
  | verdict (b : Option Bool)
  | limit (n : Nat)
  | slot (n : Option Nat)
  | arena (a : Arena.Answer)
  /-- The dictionary lacks one of the names, and nothing was done. -/
  | unknownName
  deriving DecidableEq, Repr

def stepArena (s : ParseSession) (side : Side) (x : Arena.Step) : Logged (Answer × ParseSession) :=
  do
  let (a, arena) ← (s.arenas.get side).step x
  return (.arena a, { s with arenas := s.arenas.set side arena })

def step (s : ParseSession) (x : Step) : Logged (Answer × ParseSession) :=
  match x.action with
  | .query q => pure (.reply (s.dictionary.table.reply q), s)
  | .descriptor name => pure (.descriptor (s.dictionary.descriptor? name), s)
  | .matchNames a b =>
    match s.dictionary.descriptor? a, s.dictionary.descriptor? b with
    | some a, some b => pure (.verdict (a.matches? b), s)
    | _, _ => pure (.unknownName, s)
  | .limit name o =>
    match s.dictionary.descriptor? name with
    | some d => pure (.limit (Reach.effectiveLimit d o), s)
    | none => pure (.unknownName, s)
  | .pairHash tableSize k => pure (.slot (Hash.pair? tableSize k), s)
  | .new name o =>
    match s.dictionary.descriptor? name with
    | some d => s.stepArena x.side (.new d o)
    | none => pure (.unknownName, s)
  | .newChain names o =>
    match s.dictionary.descriptors? names with
    | some ds => s.stepArena x.side (.newChain ds o)
    | none => pure (.unknownName, s)
  | .arena y => s.stepArena x.side y

def run (s : ParseSession) : List Step → List (Logged (Answer × ParseSession))
  | [] => []
  | x :: xs => s.step x :: run (s.step x).value.2 xs

end ParseSession

end LinkConnectors
