import LinkConnectors.Table.Basic

/-! Finding a name among the slots. A walk starts at the slot that the hash of the name selects and
goes round the slots until it meets the name or an empty slot. -/
namespace LinkConnectors.Table

/-- What a walk thinks of the descriptor in a slot. -/
inductive Verdict where
  | here
  | elsewhere
  | foreign
  deriving DecidableEq, Repr

/-- Where a walk ends. -/
inductive Landing where
  | held (slot id : Nat)
  | vacant (slot : Nat)
  | foreign (id : Nat)
  | nowhere
  deriving DecidableEq, Repr

/-- Looks at no more than `steps` slots, from slot `i` on and going round at the end. -/
def walk (slots : Array (Option Nat)) (judge : Nat → Verdict) : Nat → Nat → Landing
  | 0, _ => .nowhere
  | steps + 1, i =>
    match slots[i]? with
    | none => .nowhere
    | some none => .vacant i
    | some (some id) =>
      match judge id with
      | .here => .held i id
      | .foreign => .foreign id
      | .elsewhere => walk slots judge steps ((i + 1) % slots.size)

/-- The slot where the walk for a hash starts. -/
def home (slots : Array (Option Nat)) (hash : UInt32) : Nat := hash.toNat % slots.size

def walkFromHome (slots : Array (Option Nat)) (judge : Nat → Verdict) (hash : UInt32) : Landing :=
  walk slots judge slots.size (home slots hash)

/-- Handles are compared by identity. One interner never gives out two handles for one text, so a
different handle with the same text comes from another one. -/
def judgeHandle (descriptors : Array Descriptor) (h : Handle) (id : Nat) : Verdict :=
  match descriptors[id]? with
  | none => .elsewhere
  | some d =>
    if d.name.same h then .here
    else if d.name.sameText h then .foreign
    else .elsewhere

def judgeText (descriptors : Array Descriptor) (s : String) (id : Nat) : Verdict :=
  match descriptors[id]? with
  | none => .elsewhere
  | some d => if d.text == s then .here else .elsewhere

/-- The slot that holds a handle, or the empty slot where it belongs. -/
def probe (slots : Array (Option Nat)) (descriptors : Array Descriptor) (h : Handle)
    (hash : UInt32) : Landing :=
  walkFromHome slots (judgeHandle descriptors h) hash

/-- The number of the descriptor with this name. -/
def lookup (t : Table) (name : String) : Option Nat :=
  match walkFromHome t.slots (judgeText t.descriptors name) (Hash.ofName name) with
  | .held _ id => some id
  | _ => none

end LinkConnectors.Table
