import LinkConnectors.Descriptor
import LinkConnectors.Options.Basic
import LinkConnectors.Reach.Rule

/-! The reach limit that a connector has in one parsing run. -/
namespace LinkConnectors.Reach

def effectiveLimit (d : Descriptor) : Option RunOptions → Nat
  | none => unlimited
  | some o =>
    if d.limit = 0 ∨ (o.allShort = true ∧ o.shortLength < d.limit) then o.shortLength else d.limit

end LinkConnectors.Reach
