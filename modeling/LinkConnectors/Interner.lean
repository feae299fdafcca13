import Std.Data.TreeMap
import LinkConnectors.Text.Bytes

/-! Canonical strings. An interner numbers the distinct strings given to it. A handle carries that
number and the interner it came from, so handles of one interner are told apart without reading
their text. -/
namespace LinkConnectors

structure Handle where
  owner : Nat
  number : Nat
  text : String
  deriving DecidableEq, Repr

namespace Handle

/-- Identity: the same string of the same interner. -/
def same (a b : Handle) : Bool := a.owner == b.owner && a.number == b.number

/-- Equality of the texts, whichever interners they came from. -/
def sameText (a b : Handle) : Bool := a.text == b.text

end Handle

structure Interner where
  owner : Nat := 0
  numbers : Std.TreeMap String Nat := ∅

namespace Interner

def size (i : Interner) : Nat := i.numbers.size

def get? (i : Interner) (s : String) : Option Handle :=
  i.numbers[s]?.map fun n => ⟨i.owner, n, s⟩

/-- The handle of `s`, which is numbered on first use. -/
def add (i : Interner) (s : String) : Handle × Interner :=
  match i.get? s with
  | some h => (h, i)
  | none => (⟨i.owner, i.size, s⟩, { i with numbers := i.numbers.insert s i.size })

@[simp] theorem add_owner (i : Interner) (s : String) : (i.add s).2.owner = i.owner := by
  unfold add
  split <;> rfl

@[simp] theorem add_text (i : Interner) (s : String) : (i.add s).1.text = s := by
  unfold add
  split
  · rename_i h hs
    obtain ⟨n, _, rfl⟩ := Option.map_eq_some_iff.1 hs
    rfl
  · rfl

theorem get?_add_self (i : Interner) (s : String) : (i.add s).2.get? s = some (i.add s).1 := by
  unfold add
  split
  · assumption
  · simp [get?]

theorem get?_add_of_ne (i : Interner) {s t : String} (h : s ≠ t) :
    (i.add s).2.get? t = i.get? t := by
  unfold add
  split
  · rfl
  · simp [get?, Std.TreeMap.getElem?_insert, h]

end Interner

end LinkConnectors
