/-! Reading numerals: a non-empty run of digits in some base, most significant digit first. -/
namespace LinkConnectors.Text

def digitValue (c : Char) : Option Nat :=
  if '0' ≤ c ∧ c ≤ '9' then some (c.toNat - 48)
  else if 'a' ≤ c ∧ c ≤ 'f' then some (c.toNat - 87)
  else if 'A' ≤ c ∧ c ≤ 'F' then some (c.toNat - 55)
  else none

/-- The value of `c` as a digit below `base`. -/
def digitBelow (base : Nat) (c : Char) : Option Nat :=
  (digitValue c).filter (· < base)

/-- Continues a numeral whose digits so far have the value `high`. -/
def readDigitsFrom (base : Nat) : Nat → List Char → Option Nat
  | high, [] => some high
  | high, c :: cs => do readDigitsFrom base (base * high + (← digitBelow base c)) cs

def readDigits (base : Nat) : List Char → Option Nat
  | [] => none
  | cs => readDigitsFrom base 0 cs

example : readDigits 10 "00042".toList = some 42 := by decide +kernel
example : readDigits 16 "fF".toList = some 255 := by decide +kernel
example : readDigits 8 "8".toList = none := by decide +kernel

end LinkConnectors.Text
