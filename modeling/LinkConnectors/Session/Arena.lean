import LinkConnectors.Arena

/-! Work on one arena. -/
namespace LinkConnectors.Arena

inductive Step where
  | new (d : Descriptor) (o : Option RunOptions)
  | newChain (ds : List Descriptor) (o : Option RunOptions)
  | get (id : Nat)
  | change (id : Nat) (u : Connector.Change)
  | setNext (id : Nat) (next : Option Nat)
  | chain (head : Option Nat) (count : Nat)
  | release (head : Option Nat)
  | clear
  | matching (a b : Nat)
  deriving DecidableEq, Repr

inductive Answer where
  | id (n : Nat)
  | head (n : Option Nat)
  | connector (id : Nat) (c : Option Connector)
  | linked (b : Bool)
  | chain (cs : List (Nat × Connector))
  | freed (n : Nat)
  | done
  /-- There is no verdict on a dead number. -/
  | verdict (b : Option Bool)
  deriving DecidableEq, Repr

def matching? (a : Arena) (m n : Nat) : Option Bool := do (← a.get? m).matches? (← a.get? n)

def step (a : Arena) : Step → Logged (Answer × Arena)
  | .new d o =>
    let (id, a) := a.new d o
    pure (.id id, a)
  | .newChain ds o =>
    let (head, a) := a.newChain ds o
    pure (.head head, a)
  | .get id => pure (.connector id (a.get? id), a)
  | .change id u =>
    let a := a.modify id fun c => c.change u
    pure (.connector id (a.get? id), a)
  | .setNext id next =>
    pure (.linked (a.get? id).isSome, a.modify id fun c => { c with next := next })
  | .chain head count => pure (.chain (a.chain count head), a)
  | .release head => do
    let (n, a) ← a.release head
    return (.freed n, a)
  | .clear => pure (.done, a.clear)
  | .matching m n => pure (.verdict (a.matching? m n), a)

def run (a : Arena) : List Step → List (Logged (Answer × Arena))
  | [] => []
  | x :: xs => a.step x :: run (a.step x).value.2 xs

end LinkConnectors.Arena
