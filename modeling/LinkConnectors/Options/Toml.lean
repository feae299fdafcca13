import LinkConnectors.Options.Basic
import LinkConnectors.Text.Numeral

/-! Reading run options from a TOML document. The only entries are `short_length` with an integer
and `all_short` with a truth value, so each line is blank, a comment, or one such entry. -/
namespace LinkConnectors.Options

inductive OptionsError where
  /-- The text is no TOML document, or one with other entries than the options. -/
  | malformed
  | shortLength (value : Nat)
  deriving DecidableEq, Repr

def OptionsError.message : OptionsError → String
  | .malformed => "TOML parse error"
  | .shortLength value => s!"{shortLengthName} {value} out of range 1..={maxShortLength}"

namespace Toml

def isBlank (c : Char) : Bool := c == ' ' || c == '\t'

def skipBlanks (cs : List Char) : List Char := cs.dropWhile isBlank

/-- Characters that neither comments nor keys may hold. -/
def isControl (c : Char) : Bool := (c.toNat < 0x20 && c != '\t') || c.toNat == 0x7f

/-- Blanks, and then perhaps a comment. -/
def isRestOfLine (cs : List Char) : Bool :=
  match skipBlanks cs with
  | [] => true
  | c :: rest => c == '#' && rest.all fun x => !isControl x

/-- The lines of a text. A line ends with a line feed, in front of which a carriage return may
stand. -/
def lines : List Char → List (List Char)
  | [] => [[]]
  | '\r' :: '\n' :: cs => [] :: lines cs
  | '\n' :: cs => [] :: lines cs
  | c :: cs =>
    match lines cs with
    | [] => [[c]]
    | l :: ls => (c :: l) :: ls

def scalar (digits : List Char) : Option Char := do
  let n ← Text.readDigits 16 digits
  if n.isValidChar then some (Char.ofNat n) else none

def shortEscape : Char → Option Char
  | 'b' => some '\x08'
  | 't' => some '\t'
  | 'n' => some '\n'
  | 'f' => some '\x0c'
  | 'r' => some '\r'
  | 'e' => some '\x1b'
  | '"' => some '"'
  | '\\' => some '\\'
  | _ => none

/-- A key up to its closing double quote, and what follows the quote. -/
def readBasic : List Char → Option (List Char × List Char)
  | [] => none
  | '"' :: rest => some ([], rest)
  | '\\' :: 'x' :: a :: b :: cs => do
    let c ← scalar [a, b]
    let (key, rest) ← readBasic cs
    return (c :: key, rest)
  | '\\' :: 'u' :: a :: b :: c :: d :: cs => do
    let c ← scalar [a, b, c, d]
    let (key, rest) ← readBasic cs
    return (c :: key, rest)
  | '\\' :: 'U' :: a :: b :: c :: d :: e :: f :: g :: h :: cs => do
    let c ← scalar [a, b, c, d, e, f, g, h]
    let (key, rest) ← readBasic cs
    return (c :: key, rest)
  | '\\' :: e :: cs => do
    let c ← shortEscape e
    let (key, rest) ← readBasic cs
    return (c :: key, rest)
  | c :: cs =>
    if isControl c || c == '\\' then none
    else do
      let (key, rest) ← readBasic cs
      return (c :: key, rest)

/-- A key up to its closing single quote, and what follows the quote. -/
def readLiteral : List Char → Option (List Char × List Char)
  | [] => none
  | c :: cs =>
    if c == '\'' then some ([], cs)
    else if isControl c then none
    else do
      let (key, rest) ← readLiteral cs
      return (c :: key, rest)

def isBareKeyChar (c : Char) : Bool := c.isAlphanum || c == '_' || c == '-'

def readBare (cs : List Char) : Option (List Char × List Char) :=
  let key := cs.takeWhile isBareKeyChar
  if key = [] then none else some (key, cs.dropWhile isBareKeyChar)

/-- A key in any of its three notations, and the text behind it. -/
def readKey (cs : List Char) : Option (List Char × List Char) :=
  match cs with
  | '"' :: rest => readBasic rest
  | '\'' :: rest => readLiteral rest
  | cs => readBare cs

/-- Digits after the first one. A single underscore may stand between two digits. -/
def readGrouped (base : Nat) : Nat → List Char → Option Nat
  | high, [] => some high
  | high, '_' :: c :: cs => do readGrouped base (base * high + (← Text.digitBelow base c)) cs
  | high, c :: cs => do readGrouped base (base * high + (← Text.digitBelow base c)) cs

def readNatural (base : Nat) : List Char → Option Nat
  | [] => none
  | c :: cs => do readGrouped base (← Text.digitBelow base c) cs

/-- A decimal numeral has no leading zero. -/
def readDecimal : List Char → Option Nat
  | ['0'] => some 0
  | '0' :: _ => none
  | cs => readNatural 10 cs

/-- An integer. Only decimal ones may carry a sign. -/
def readInteger : List Char → Option Int
  | '0' :: 'x' :: cs => (readNatural 16 cs).map Int.ofNat
  | '0' :: 'o' :: cs => (readNatural 8 cs).map Int.ofNat
  | '0' :: 'b' :: cs => (readNatural 2 cs).map Int.ofNat
  | '+' :: cs => (readDecimal cs).map Int.ofNat
  | '-' :: cs => (readDecimal cs).map fun n => -Int.ofNat n
  | cs => (readDecimal cs).map Int.ofNat

/-- Counts have 32 bits. -/
def readCount (cs : List Char) : Option Nat := do
  let n ← readInteger cs
  if 0 ≤ n ∧ n < UInt32.size then some n.toNat else none

def readFlag (cs : List Char) : Option Bool :=
  if cs = "true".toList then some true
  else if cs = "false".toList then some false
  else none

def isValueChar (c : Char) : Bool := !isBlank c && c != '#'

def readSetting (key value : List Char) : Option Setting :=
  if key = shortLengthName.toList then (readCount value).map .shortLength
  else if key = allShortName.toList then (readFlag value).map .allShort
  else none

/-- A key, an equals sign and a value, and nothing more on the line than a comment. -/
def readEntry (cs : List Char) : Option Setting := do
  let (key, rest) ← readKey cs
  match skipBlanks rest with
  | '=' :: rest =>
    let rest := skipBlanks rest
    if isRestOfLine (rest.dropWhile isValueChar) then readSetting key (rest.takeWhile isValueChar)
    else none
  | _ => none

/-- The setting on one line, if there is one. -/
def readLine (cs : List Char) : Option (Option Setting) :=
  if isRestOfLine cs then some none else (readEntry (skipBlanks cs)).map some

/-- A byte order mark in front of the document says nothing. -/
def skipOrderMark : List Char → List Char
  | [] => []
  | c :: cs => if c.toNat = 0xfeff then cs else c :: cs

def readDraft (cs : List Char) : Option Draft := do
  let entries ← (lines (skipOrderMark cs)).mapM readLine
  Draft.ofSettings (entries.filterMap id)

end Toml

/-- The range of the short length is looked at when the whole document has been read. -/
def ofToml (text : String) : Except OptionsError RunOptions :=
  match Toml.readDraft text.toList with
  | none => .error .malformed
  | some d =>
    let o := d.toOptions
    if 1 ≤ o.shortLength ∧ o.shortLength ≤ maxShortLength then .ok o
    else .error (.shortLength o.shortLength)

end LinkConnectors.Options
