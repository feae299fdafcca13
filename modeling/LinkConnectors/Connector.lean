import LinkConnectors.Reach.Effective

/-! Connectors of one parse: occurrences of a dictionary's connectors, each with a reach of its
own. -/
namespace LinkConnectors

/-- One occurrence of a connector in a parse. -/
structure Connector where
  descriptor : Descriptor
  limit : Nat
  nearestWord : Nat := 0
  multi : Bool := false
  /-- The word-occurrence set that the connector comes from, held elsewhere. -/
  wordSet : Option Nat := none
  next : Option Nat := none
  deriving DecidableEq, Repr

namespace Connector

def ofDescriptor (d : Descriptor) (o : Option RunOptions) : Connector :=
  { descriptor := d, limit := Reach.effectiveLimit d o }

/-- Matching of connectors is matching of their descriptors. -/
def matches? (a b : Connector) : Option Bool := a.descriptor.matches? b.descriptor

/-- Fields to be written. A field that is absent keeps its value, and new options recompute the
limit. -/
structure Change where
  multi : Option Bool := none
  nearestWord : Option Nat := none
  wordSet : Option (Option Nat) := none
  options : Option (Option RunOptions) := none
  deriving DecidableEq, Repr

def change (c : Connector) (u : Change) : Connector :=
  { c with
    multi := u.multi.getD c.multi
    nearestWord := u.nearestWord.getD c.nearestWord
    wordSet := u.wordSet.getD c.wordSet
    limit := match u.options with
      | some o => Reach.effectiveLimit c.descriptor o
      | none => c.limit }

end Connector

end LinkConnectors
