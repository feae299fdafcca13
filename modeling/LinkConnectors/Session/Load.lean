import LinkConnectors.Dictionary
import LinkConnectors.Session.Table

/-! Loading a dictionary step by step. -/
namespace LinkConnectors.Builder

inductive Step where
  | add (name : String)
  | token (text : String)
  | define (name : String) (patterns : List String)
  | push (limit : Nat) (patterns : List String)
  | query (q : Table.Query)
  deriving DecidableEq, Repr

inductive Answer where
  | added (r : Except LoadError Nat)
  | resolved (r : Except LoadError Resolved)
  | queued (r : Except LoadError Unit)
  | reply (r : Table.Reply)

/-- Builds a rule and queues it. -/
def pushLimit (b : Builder) (limit : Nat) (patterns : List String) :
    Except LoadError Unit × Builder :=
  match Reach.Rule.ofLimit limit patterns with
  | .error e => (.error (.limit e), b)
  | .ok rule => (.ok (), b.pushRule rule)

def step (b : Builder) : Step → Logged (Answer × Builder)
  | .add name => do
    let (r, b) ← b.add name
    return (.added r, b)
  | .token text => do
    let (r, b) ← b.addToken text
    return (.resolved r, b)
  | .define name patterns =>
    let (r, b) := b.define name patterns
    pure (.queued r, b)
  | .push limit patterns =>
    let (r, b) := b.pushLimit limit patterns
    pure (.queued r, b)
  | .query q => pure (.reply (b.table.reply q), b)

def run (b : Builder) : List Step → Logged (List Answer × Builder)
  | [] => pure ([], b)
  | x :: xs => do
    let (a, b) ← b.step x
    let (as, b) ← b.run xs
    return (a :: as, b)

end LinkConnectors.Builder
