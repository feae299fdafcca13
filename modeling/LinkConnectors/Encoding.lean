import LinkConnectors.Hash
import LinkConnectors.Role
import LinkConnectors.Suffix
import LinkConnectors.Text.Quoted

/-! The structure of a connector name: an optional role marker, a core of capital letters, and a
suffix of small letters and wildcards. `Encoding.ofName` reads a name or says what is wrong with
it. -/
namespace LinkConnectors

inductive EncodeError where
  | empty
  /-- The name starts with a small letter that marks no role. -/
  | invalidMarker (name : String) (marker : Char)
  | emptyCore (name : String)
  | coreTooLong (name : String)
  | suffixTooLong (name : String) (length : Nat)
  /-- What follows the core is neither a small letter nor a wildcard. -/
  | invalidChar (name : String) (char : Char) (position : Nat)
  deriving DecidableEq, Repr

structure Encoding where
  role : Role
  core : String
  suffix : String
  packed : Suffix
  deriving DecidableEq, Repr

namespace Encoding

def maxCore : Nat := 255

def coreStart (e : Encoding) : Nat := e.role.marker.length

def coreLength (e : Encoding) : Nat := Text.byteCount e.core

def coreHash (e : Encoding) : UInt32 := Hash.ofName e.core

/-- Reads what follows the role marker. Everything before the first foreign character is ASCII, so
its octet position is the number of characters before it. -/
def ofBody (name : String) (role : Role) (body : List Char) : Except EncodeError Encoding :=
  let core := body.takeWhile Char.isUpper
  let suffix := body.dropWhile Char.isUpper
  if core = [] then .error (.emptyCore name)
  else if maxCore < core.length then .error (.coreTooLong name)
  else match suffix.dropWhile Suffix.isLetter with
    | c :: _ => .error (.invalidChar name c
        (role.marker.length + core.length + (suffix.takeWhile Suffix.isLetter).length))
    | [] =>
      if Suffix.maxLetters < suffix.length then .error (.suffixTooLong name suffix.length)
      else .ok ⟨role, String.ofList core, String.ofList suffix, Suffix.pack suffix⟩

def ofName (name : String) : Except EncodeError Encoding :=
  match name.toList with
  | [] => .error .empty
  | c :: cs =>
    if c.isLower then
      match Role.ofMarker? c with
      | some role => ofBody name role cs
      | none => .error (.invalidMarker name c)
    else ofBody name .unmarked (c :: cs)

end Encoding

namespace EncodeError

def message : EncodeError → String
  | empty => "empty connector string"
  | invalidMarker name marker =>
    s!"connector {Text.quote name}: invalid head/dependent marker {Text.quoteChar marker}"
  | emptyCore name => s!"connector {Text.quote name}: missing uppercase part"
  | coreTooLong name =>
    s!"connector {Text.quote name}: uppercase part longer than {Encoding.maxCore} bytes"
  | suffixTooLong name length =>
    s!"connector {Text.quote name}: lowercase part has {length} letters " ++
      s!"(at most {Suffix.maxLetters})"
  | invalidChar name char position =>
    s!"connector {Text.quote name}: invalid character {Text.quoteChar char} at byte {position}"

end EncodeError

end LinkConnectors
