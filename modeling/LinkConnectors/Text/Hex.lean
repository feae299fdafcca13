/-! Hexadecimal numerals: lower case, without leading zeros. -/
namespace LinkConnectors.Text

def hex (n : Nat) : String := String.ofList (Nat.toDigits 16 n)

/-- A machine word with the mark 0x in front. -/
def hexWord (w : UInt64) : String := "0x" ++ hex w.toNat

example : hexWord 0 = "0x0" := rfl
example : hexWord 0x3ff1 = "0x3ff1" := by decide

end LinkConnectors.Text
