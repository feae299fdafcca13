import LinkConnectors.Connector
import LinkConnectors.Event

/-! The store of one parse's connectors. They live in numbered slots and are linked into chains by
these numbers. A freed slot is used again, the one freed last before the others, so a number may
outlive its connector, and a link may lead to a dead or to a reused slot. -/
namespace LinkConnectors

structure Arena where
  slots : Array (Option Connector) := #[]
  /-- The freed slots, the one freed last in front. -/
  free : List Nat := []
  deriving Repr

namespace Arena

def get? (a : Arena) (id : Nat) : Option Connector := a.slots[id]?.join

/-- The number of live connectors. -/
def size (a : Arena) : Nat := a.slots.countP Option.isSome

def isEmpty (a : Arena) : Bool := a.size == 0

/-- Puts a connector into the slot freed last, or into a fresh one. Numbers of connectors have 32
bits, so fewer than `2 ^ 32` slots are assumed: with more of them, two would go by one number. -/
def insert (a : Arena) (c : Connector) : Nat × Arena :=
  match a.free with
  | id :: rest => (id, ⟨a.slots.setIfInBounds id (some c), rest⟩)
  | [] => (a.slots.size, ⟨a.slots.push (some c), []⟩)

def remove? (a : Arena) (id : Nat) : Option (Connector × Arena) :=
  (a.get? id).map fun c => (c, ⟨a.slots.setIfInBounds id none, id :: a.free⟩)

theorem size_remove? {a b : Arena} {id : Nat} {c : Connector} (h : a.remove? id = some (c, b)) :
    b.size + 1 = a.size := by
  obtain ⟨d, hd, he⟩ := Option.map_eq_some_iff.1 h
  obtain ⟨rfl, rfl⟩ := Prod.mk.inj he
  have hs : a.slots[id]? = some (some d) := Option.join_eq_some_iff.1 hd
  obtain ⟨hlt, hs⟩ := Array.getElem?_eq_some_iff.1 hs
  have hp : 0 < a.slots.countP Option.isSome :=
    Array.countP_pos_iff.2 ⟨some d, hs ▸ Array.getElem_mem hlt, rfl⟩
  simp only [size, Array.setIfInBounds, hlt, dite_true, Array.countP_set, hs]
  simp only [Option.isSome_some, Option.isSome_none, if_true]
  simp
  omega

/-- A connector that is linked to nothing. Its number is that of its slot, which has 32 bits as long
as there are fewer than `2 ^ 32` slots. -/
def new (a : Arena) (d : Descriptor) (o : Option RunOptions) : Nat × Arena :=
  a.insert (.ofDescriptor d o)

/-- Adds connectors in front of a chain, the last one first, each linked to the one added before
it. -/
def linkBefore (o : Option RunOptions) (ds : List Descriptor) (start : Option Nat × Arena) :
    Option Nat × Arena :=
  ds.foldr (fun d s =>
    let r := s.2.insert { Connector.ofDescriptor d o with next := s.1 }
    (some r.1, r.2)) start

/-- One connector for each descriptor, linked in order. Slots are taken from the last to the
first. -/
def newChain (a : Arena) (ds : List Descriptor) (o : Option RunOptions) : Option Nat × Arena :=
  linkBefore o ds (none, a)

/-- Writes to a live connector. A dead number changes nothing. -/
def modify (a : Arena) (id : Nat) (f : Connector → Connector) : Arena :=
  match a.get? id with
  | some c => { a with slots := a.slots.setIfInBounds id (some (f c)) }
  | none => a

/-- At most `count` connectors of the chain from `head` on. It ends at a dead number, and may go
round in a circle. -/
def chain (a : Arena) : Nat → Option Nat → List (Nat × Connector)
  | 0, _ => []
  | _, none => []
  | count + 1, some id =>
    match a.get? id with
    | none => []
    | some c => (id, c) :: chain a count c.next

/-- Frees a chain from its head on and counts its connectors. A dead number ends the chain and is
logged, so a circle ends where it began, at the connector freed first. -/
def release (a : Arena) (head : Option Nat) : Logged (Nat × Arena) :=
  match head with
  | none => pure (0, a)
  | some id =>
    match h : a.remove? id with
    | none => do
      Logged.log (.chainAlreadyReleased id)
      return (0, a)
    | some (c, b) =>
      have : b.size < a.size := by have := size_remove? h; omega
      do
        let (count, rest) ← b.release c.next
        return (count + 1, rest)
termination_by a.size

@[simp] theorem release_none (a : Arena) : a.release none = ⟨(0, a), []⟩ := by
  rw [release]
  rfl

theorem release_of_remove?_eq_none {a : Arena} {id : Nat} (h : a.remove? id = none) :
    a.release (some id) = ⟨(0, a), [.chainAlreadyReleased id]⟩ := by
  rw [release]
  split
  · rfl
  · simp_all

theorem release_of_remove?_eq_some {a b : Arena} {id : Nat} {c : Connector}
    (h : a.remove? id = some (c, b)) :
    a.release (some id) =
      ⟨((b.release c.next).value.1 + 1, (b.release c.next).value.2),
        (b.release c.next).events⟩ := by
  rw [release]
  split
  · simp_all
  · rename_i h'
    obtain ⟨rfl, rfl⟩ := Prod.mk.inj (Option.some.inj (h.symm.trans h'))
    change Logged.mk _ (_ ++ []) = _
    rw [List.append_nil]
    rfl

/-- An arena in which numbers start again from zero. -/
def clear (_ : Arena) : Arena := {}

end Arena

end LinkConnectors
