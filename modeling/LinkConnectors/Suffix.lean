/-! Suffixes of connector names packed into two machine words, one slot of seven bits for each
position. The letter word holds the codes, the mask word marks the positions that carry a letter.
Wildcards and positions past the end are clear in both words, so a suffix is compatible with each
longer one it begins. -/
namespace LinkConnectors

structure Suffix where
  letters : UInt64
  mask : UInt64
  deriving DecidableEq, Repr

namespace Suffix

def slotBits : Nat := 7

/-- All bits of the first slot. -/
def slotMask : UInt64 := 127

/-- The number of whole slots in a word. -/
def maxLetters : Nat := 64 / slotBits

/-- The wildcard agrees with every letter. -/
def wildcard : Char := '*'

def isLetter (c : Char) : Bool := c == wildcard || c.isLower

def shift (slot : Nat) : UInt64 := UInt64.ofNat (slotBits * slot)

def clear : Suffix := ⟨0, 0⟩

/-- Writes one letter into a slot that is still clear. -/
def put (slot : Nat) (c : Char) (s : Suffix) : Suffix :=
  if c = wildcard then s
  else ⟨s.letters ||| ((UInt64.ofNat c.toNat &&& slotMask) <<< shift slot),
    s.mask ||| (slotMask <<< shift slot)⟩

def packFrom (slot : Nat) : List Char → Suffix
  | [] => clear
  | c :: cs => put slot c (packFrom (slot + 1) cs)

def pack (cs : List Char) : Suffix := packFrom 0 cs

/-- No position carries different letters on the two sides. -/
def compatible (a b : Suffix) : Bool := (a.letters ^^^ b.letters) &&& a.mask &&& b.mask == 0

theorem compatible_comm (a b : Suffix) : a.compatible b = b.compatible a := by
  have h : (a.letters ^^^ b.letters) &&& a.mask &&& b.mask =
      (b.letters ^^^ a.letters) &&& b.mask &&& a.mask := by
    rw [UInt64.xor_comm a.letters, UInt64.and_assoc, UInt64.and_comm a.mask, ← UInt64.and_assoc]
  simp [compatible, h]

example : pack "s".toList = ⟨0x73, 0x7f⟩ := by decide +kernel
example : pack "*b".toList = ⟨0x3100, 0x3f80⟩ := by decide +kernel

end Suffix

end LinkConnectors
