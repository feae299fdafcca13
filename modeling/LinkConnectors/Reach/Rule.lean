import LinkConnectors.Descriptor
import LinkConnectors.Text.Numeral

/-! Length-limit rules: a limit and the patterns of the connectors that receive it. A dictionary
writes a rule as a define whose name carries the limit. -/
namespace LinkConnectors

namespace Reach

/-- The longest sentence, and with it the largest limit. -/
def maxSentence : Nat := 254

def unlimited : Nat := 255

def unlimitedDefine : String := "UNLIMITED-CONNECTORS"

/-- How a define that carries a number begins. -/
def limitedDefine : String := "LENGTH-LIMIT-"

inductive LimitError where
  | pattern (error : EncodeError)
  | unknownDefine (name : String)
  | outOfRange (limit : Nat)
  deriving DecidableEq, Repr

def LimitError.message : LimitError → String
  | .pattern e => "length-limit pattern: " ++ e.message
  | .unknownDefine name => s!"{Text.quote name} is not a length-limit define"
  | .outOfRange limit => s!"length limit {limit} out of range 1..={maxSentence}"

/-- A connector name that stands for all connectors with its core, a compatible suffix and, if the
pattern carries a marker, the same marker. -/
structure Pattern where
  text : String
  encoding : Encoding
  deriving DecidableEq, Repr

namespace Pattern

def ofText (text : String) : Except LimitError Pattern :=
  match Encoding.ofName text with
  | .ok e => .ok ⟨text, e⟩
  | .error e => .error (.pattern e)

def core (p : Pattern) : String := p.encoding.core

/-- Whether a descriptor with the pattern's core falls under the pattern. -/
def covers (p : Pattern) (d : Descriptor) : Bool :=
  p.encoding.packed.compatible d.suffix && p.encoding.role.admits d.role

end Pattern

structure Rule where
  /-- The define that the rule was read from, if any. -/
  define : Option String
  limit : Nat
  patterns : List Pattern
  deriving DecidableEq, Repr

namespace Rule

/-- The first pattern that is no connector name is the error. -/
def ofLimit (limit : Nat) (patterns : List String) : Except LimitError Rule :=
  if limit = 0 ∨ unlimited < limit then .error (.outOfRange limit)
  else do return ⟨none, limit, ← patterns.mapM Pattern.ofText⟩

/-- A number of 32 bits, with or without a plus sign in front. -/
def readCount (cs : List Char) : Option Nat :=
  let digits := match cs with
    | '+' :: ds => ds
    | ds => ds
  (Text.readDigits 10 digits).filter (· < UInt32.size)

/-- The limit that the name of a define stands for. -/
def limitOfDefine (name : String) : Except LimitError Nat :=
  if name = unlimitedDefine then .ok unlimited
  else
    match limitedDefine.toList.isPrefixOf? name.toList |>.bind readCount with
    | none => .error (.unknownDefine name)
    | some n => if 1 ≤ n ∧ n ≤ maxSentence then .ok n else .error (.outOfRange n)

def ofDefine (name : String) (patterns : List String) : Except LimitError Rule := do
  let rule ← ofLimit (← limitOfDefine name) patterns
  return { rule with define := some name }

end Rule

end Reach

end LinkConnectors
