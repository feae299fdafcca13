import LinkConnectors.Text.Hex
import LinkConnectors.Text.Invisible

/-! Quoted text in messages: the text between two quotes, with the quote, the backslash and every
invisible character written as an escape. -/
namespace LinkConnectors.Text

/-- One character inside quotes. Only the quote in use is escaped, the other kind stands for
itself. -/
def escapeChar (quote : Char) (c : Char) : List Char :=
  if c = quote ∨ c = '\\' then ['\\', c]
  else if c = '\t' then ['\\', 't']
  else if c = '\r' then ['\\', 'r']
  else if c = '\n' then ['\\', 'n']
  else if c = '\x00' then ['\\', '0']
  else if isInvisible c then ['\\', 'u', '\x7b'] ++ (hex c.toNat).toList ++ ['\x7d']
  else [c]

def quoteChars (quote : Char) (cs : List Char) : String :=
  String.ofList (quote :: cs.flatMap (escapeChar quote) ++ [quote])

def quote (s : String) : String := quoteChars '"' s.toList

def quoteChar (c : Char) : String := quoteChars '\'' [c]

example : quote "a\"b'\x01" = "\"a\\\"b'\\u\x7b1\x7d\"" := by decide +kernel
example : quoteChar '\'' = "'\\''" := by decide +kernel
example : quoteChar '"' = "'\"'" := by decide +kernel

end LinkConnectors.Text
