import LinkConnectors.Text.Bytes

/-! The match predicate on written names. Names are compared octet by octet, and any two strings can
be compared, also those that are no connector names. -/
namespace LinkConnectors.Matching

/-- Splits off a small letter at the front. -/
def splitMarker : List UInt8 → Option UInt8 × List UInt8
  | [] => (none, [])
  | b :: bs => if Text.isLowerByte b then (some b, bs) else (none, b :: bs)

/-- Agreement at every position that both sides have. -/
def suffixesAgree : List UInt8 → List UInt8 → Bool
  | a :: s, b :: t => (a == Text.star || b == Text.star || a == b) && suffixesAgree s t
  | _, _ => true

/-- As long as either side shows a capital letter, both have to show the same one. -/
def bodiesAgree : List UInt8 → List UInt8 → Bool
  | a :: s, b :: t =>
    if Text.isUpperByte a || Text.isUpperByte b then a == b && bodiesAgree s t
    else suffixesAgree (a :: s) (b :: t)
  | a :: _, [] => !Text.isUpperByte a
  | [], b :: _ => !Text.isUpperByte b
  | [], [] => true

def bytesMatch (s t : List UInt8) : Bool :=
  let (m, s) := splitMarker s
  let (n, t) := splitMarker t
  !(m.isSome && m == n) && bodiesAgree s t

/-- Whether two connectors with these names may form a link. -/
def namesMatch (s t : String) : Bool := bytesMatch (Text.bytes s) (Text.bytes t)

theorem suffixesAgree_comm (s t : List UInt8) : suffixesAgree s t = suffixesAgree t s := by
  induction s generalizing t with
  | nil => cases t <;> rfl
  | cons a s ih =>
    cases t with
    | nil => rfl
    | cons b t =>
      simp only [suffixesAgree, ih t, BEq.comm (a := a) (b := b)]
      cases a == Text.star <;> cases b == Text.star <;> rfl

theorem bodiesAgree_comm (s t : List UInt8) : bodiesAgree s t = bodiesAgree t s := by
  induction s generalizing t with
  | nil => cases t <;> rfl
  | cons a s ih =>
    cases t with
    | nil => rfl
    | cons b t =>
      simp only [bodiesAgree, ih t, BEq.comm (a := a) (b := b), suffixesAgree_comm (a :: s),
        Bool.or_comm (Text.isUpperByte a)]

example : namesMatch "Ss" "S" = true := by decide +kernel
example : namesMatch "hS" "hS" = false := by decide +kernel
example : namesMatch "S" "SI" = false := by decide +kernel

end LinkConnectors.Matching
