import LinkConnectors.Text.Quoted

/-! Connector tokens as they stand in dictionary expressions: an optional mark for a connector that
may link more than once, a connector name, and a sign for the side on which it links. -/
namespace LinkConnectors

inductive Direction where
  | left
  | right
  deriving DecidableEq, Repr

namespace Direction

def mark : Direction → Char
  | left => '-'
  | right => '+'

def ofMark? : Char → Option Direction
  | '-' => some left
  | '+' => some right
  | _ => none

theorem ofMark?_eq_some_iff {c : Char} {d : Direction} : ofMark? c = some d ↔ c = d.mark := by
  unfold ofMark?
  split
  · cases d <;> simp [mark]
  · cases d <;> simp [mark]
  · cases d <;> simp_all [mark]

end Direction

inductive TokenError where
  | missingDirection (token : String)
  | emptyName (token : String)
  deriving DecidableEq, Repr

def TokenError.message : TokenError → String
  | .missingDirection token => s!"connector token {Text.quote token} has no direction mark"
  | .emptyName token => s!"connector token {Text.quote token} has an empty name"

structure Token where
  name : String
  direction : Direction
  multi : Bool
  deriving DecidableEq, Repr

namespace Token

def multiMark : Char := '@'

/-- The written form of a token. -/
def toText (t : Token) : String :=
  String.ofList ((if t.multi then [multiMark] else []) ++ t.name.toList ++ [t.direction.mark])

/-- At most one mark is taken off the front. -/
def splitMulti : List Char → Bool × List Char
  | [] => (false, [])
  | c :: cs => if c = multiMark then (true, cs) else (false, c :: cs)

/-- Splits a token into its parts. Whether the name is a connector name is left open. -/
def ofText (text : String) : Except TokenError Token :=
  let (multi, rest) := splitMulti text.toList
  match rest.getLast?.bind Direction.ofMark? with
  | none => .error (.missingDirection text)
  | some direction =>
    if rest.dropLast = [] then .error (.emptyName text)
    else .ok ⟨String.ofList rest.dropLast, direction, multi⟩

end Token

end LinkConnectors
