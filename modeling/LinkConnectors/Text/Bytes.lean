/-! A string as its sequence of UTF-8 octets, and the ASCII classes that connector names are built
from. Lengths, hashes and raw comparison all count octets. -/
namespace LinkConnectors.Text

def bytes (s : String) : List UInt8 := s.toList.flatMap String.utf8EncodeChar

@[simp] theorem bytes_empty : bytes "" = [] := rfl

@[simp] theorem bytes_append (s t : String) : bytes (s ++ t) = bytes s ++ bytes t := by
  simp [bytes]

/-- The number of octets, which is more than the number of characters outside ASCII. -/
def byteCount (s : String) : Nat := (bytes s).length

@[simp] theorem byteCount_append (s t : String) :
    byteCount (s ++ t) = byteCount s + byteCount t := by
  simp [byteCount]

def isUpperByte (b : UInt8) : Bool := 65 ≤ b && b ≤ 90

def isLowerByte (b : UInt8) : Bool := 97 ≤ b && b ≤ 122

/-- The octet of the wildcard letter. -/
def star : UInt8 := 42

end LinkConnectors.Text
