import LinkConnectors.Interner

/-! Work with two interners side by side, keeping every handle that either of them gives out. -/
namespace LinkConnectors

inductive Side where
  | first
  | second
  deriving DecidableEq, Repr

/-- Two values, one for each side. -/
structure Both (α : Type) where
  first : α
  second : α
  deriving Repr

namespace Both

variable {α : Type}

def get (b : Both α) : Side → α
  | .first => b.first
  | .second => b.second

def set (b : Both α) (side : Side) (a : α) : Both α :=
  match side with
  | .first => { b with first := a }
  | .second => { b with second := a }

@[simp] theorem get_set_self (b : Both α) (side : Side) (a : α) : (b.set side a).get side = a := by
  cases side <;> rfl

theorem get_set_of_ne (b : Both α) {s t : Side} (h : s ≠ t) (a : α) :
    (b.set s a).get t = b.get t := by
  cases s <;> cases t <;> first | rfl | exact absurd rfl h

end Both

structure StringSession where
  interners : Both Interner := ⟨{ owner := 0 }, { owner := 1 }⟩
  /-- How many interners there have been. -/
  owners : Nat := 2
  handles : Array Handle := #[]

namespace StringSession

inductive Step where
  | add (side : Side) (s : String)
  | get (side : Side) (s : String)
  | show (a : Nat)
  | same (a b : Nat)
  | sameText (a b : Nat)
  | size (side : Side)
  | reset (side : Side)
  deriving DecidableEq, Repr

inductive Answer where
  | handle (h : Option Handle)
  | truth (b : Option Bool)
  | size (n : Nat)
  | done
  deriving DecidableEq, Repr

/-- A relation of two of the handles kept. -/
def compare (s : StringSession) (r : Handle → Handle → Bool) (a b : Nat) : Option Bool := do
  return r (← s.handles[a]?) (← s.handles[b]?)

def step (s : StringSession) : Step → Answer × StringSession
  | .add side text =>
    let (h, interner) := (s.interners.get side).add text
    (.handle (some h),
      { s with interners := s.interners.set side interner, handles := s.handles.push h })
  | .get side text =>
    match (s.interners.get side).get? text with
    | some h => (.handle (some h), { s with handles := s.handles.push h })
    | none => (.handle none, s)
  | .show a => (.handle s.handles[a]?, s)
  | .same a b => (.truth (s.compare Handle.same a b), s)
  | .sameText a b => (.truth (s.compare Handle.sameText a b), s)
  | .size side => (.size (s.interners.get side).size, s)
  | .reset side =>
    (.done, { s with
      interners := s.interners.set side { owner := s.owners }, owners := s.owners + 1 })

def run (s : StringSession) : List Step → List Answer × StringSession
  | [] => ([], s)
  | x :: xs =>
    let (a, s) := s.step x
    let (as, s) := s.run xs
    (a :: as, s)

end StringSession

end LinkConnectors
