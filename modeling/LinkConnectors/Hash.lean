import LinkConnectors.Text.Bytes

/-! The hash functions of the connector table and of the parse chart. All of them work on 32-bit
words and wrap around. -/
namespace LinkConnectors.Hash

def jenkinsStep (h : UInt32) (b : UInt8) : UInt32 :=
  let h := h + b.toUInt32
  let h := h + (h <<< 10)
  h ^^^ (h >>> 6)

def jenkinsFinish (h : UInt32) : UInt32 :=
  let h := h + (h <<< 3)
  let h := h ^^^ (h >>> 11)
  h + (h <<< 15)

/-- Jenkins one-at-a-time hash. It places names in the table and identifies cores. -/
def jenkins (bs : List UInt8) : UInt32 := jenkinsFinish (bs.foldl jenkinsStep 0)

def djb2Step (h : UInt32) (b : UInt8) : UInt32 := (h <<< 5) + h + b.toUInt32

def djb2 (bs : List UInt8) : UInt32 := bs.foldl djb2Step 5381

def ofName (s : String) : UInt32 := jenkins (Text.bytes s)

/-- What a link candidate is identified by: the two words, the two connectors and the cost. -/
structure LinkKey where
  leftWord : UInt32
  rightWord : UInt32
  leftConnector : Nat
  rightConnector : Nat
  cost : UInt32
  deriving DecidableEq, Repr

def pairStep (h v : UInt32) : UInt32 := v + (h <<< 6) + (h <<< 16) - h

/-- The chart hash before it is cut to a table size. Connector numbers count modulo 2 ^ 32. -/
def pairWord (k : LinkKey) : UInt32 :=
  [k.leftWord, k.rightWord, UInt32.ofNat k.leftConnector, UInt32.ofNat k.rightConnector].foldl
    pairStep k.cost

def isPowerOfTwo (n : Nat) : Bool := n == 1 <<< n.log2

/-- The slot of a link candidate in a chart of `tableSize` slots, which has to be a power of two. -/
def pair? (tableSize : Nat) (k : LinkKey) : Option Nat :=
  if isPowerOfTwo tableSize then some ((pairWord k).toNat % tableSize) else none

example : jenkins [] = 0 := by decide
example : isPowerOfTwo 0 = false := by decide

end LinkConnectors.Hash
