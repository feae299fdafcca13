/-! Options of one parsing run that bear on the reach of connectors, and the settings they are
written as. -/
namespace LinkConnectors

structure RunOptions where
  /-- The limit of a connector whose descriptor leaves the choice to the run. -/
  shortLength : Nat := 16
  /-- Cuts every limit down to the short length. -/
  allShort : Bool := false
  deriving DecidableEq, Repr

namespace Options

def maxShortLength : Nat := 255

def shortLengthName : String := "short_length"

def allShortName : String := "all_short"

inductive Setting where
  | shortLength (n : Nat)
  | allShort (b : Bool)
  deriving DecidableEq, Repr

/-- The settings met so far. -/
structure Draft where
  shortLength : Option Nat := none
  allShort : Option Bool := none
  deriving DecidableEq, Repr

namespace Draft

/-- Every setting may be made once. -/
def set (d : Draft) : Setting → Option Draft
  | .shortLength n => if d.shortLength.isSome then none else some { d with shortLength := some n }
  | .allShort b => if d.allShort.isSome then none else some { d with allShort := some b }

def ofSettings (settings : List Setting) : Option Draft := settings.foldlM set {}

/-- Settings that were not made take the defaults. -/
def toOptions (d : Draft) : RunOptions where
  shortLength := d.shortLength.getD ({} : RunOptions).shortLength
  allShort := d.allShort.getD ({} : RunOptions).allShort

end Draft

end Options

end LinkConnectors
