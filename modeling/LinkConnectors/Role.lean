/-! The part a connector takes in a link, written as an optional lower-case letter in front of its
name. -/
namespace LinkConnectors

inductive Role where
  | unmarked
  | head
  | dependent
  deriving DecidableEq, Repr

namespace Role

def ofMarker? : Char → Option Role
  | 'h' => some head
  | 'd' => some dependent
  | _ => none

def marker : Role → List Char
  | unmarked => []
  | head => ['h']
  | dependent => ['d']

theorem ofMarker?_eq_some_iff {c : Char} {r : Role} : ofMarker? c = some r ↔ r.marker = [c] := by
  unfold ofMarker?
  split
  · cases r <;> simp [marker]
  · cases r <;> simp [marker]
  · cases r <;> simp_all [marker, eq_comm]

/-- Two heads, or two dependents, never link. -/
def excludes (a b : Role) : Bool := a != unmarked && a == b

theorem excludes_comm (a b : Role) : a.excludes b = b.excludes a := by
  cases a <;> cases b <;> rfl

/-- A pattern without a marker admits every role. -/
def admits (pattern r : Role) : Bool := pattern == unmarked || pattern == r

end Role

end LinkConnectors
