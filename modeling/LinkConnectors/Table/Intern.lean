import LinkConnectors.Event
import LinkConnectors.Table.Slots

/-! Interning names into the table. The slots are allocated on first use, always a power of two in
number, and doubled as soon as more than three eighths of them are taken. -/
namespace LinkConnectors.Table

def minSlots : Nat := 16

def growFactor : Nat := 2

/-- Numbers of descriptors have 32 bits, and the last one is kept free. -/
def maxDescriptors : Nat := UInt32.size - 1

/-- The least power of two that is at least `n`. -/
def ceilPowerOfTwo (n : Nat) : Nat := if n ≤ 1 then 1 else 1 <<< ((n - 1).log2 + 1)

theorem le_ceilPowerOfTwo (n : Nat) : n ≤ ceilPowerOfTwo n := by
  unfold ceilPowerOfTwo
  split
  · assumption
  · have := Nat.lt_log2_self (n := n - 1)
    rw [Nat.one_shiftLeft]
    omega

def slotsFor (expected : Nat) : Nat := ceilPowerOfTwo (max expected minSlots)

/-- Sizes the slots for `count` names. Once they are allocated, the hint comes too late. -/
def expect (t : Table) (count : Nat) : Logged Table :=
  if t.slots.isEmpty then pure { t with expected := count }
  else do
    Logged.log (.hintIgnored count t.capacity)
    return t

/-- The slots for a table that has none. -/
def allocate (t : Table) : Logged Table := do
  let count := slotsFor t.expected
  if minSlots < t.expected ∧ count ≠ t.expected then
    Logged.log (.hintRounded t.expected count)
  return { t with slots := Array.replicate count none }

/-- Enters a descriptor into slots that do not hold its name yet. -/
def place (descriptors : Array Descriptor) (slots : Array (Option Nat)) (id : Nat) :
    Except TableError (Array (Option Nat)) :=
  match descriptors[id]? with
  | none => .error (.missing id)
  | some d =>
    match probe slots descriptors d.name d.hash with
    | .vacant i => .ok (slots.setIfInBounds i (some id))
    | .held i other =>
      .error (.slotTaken i ((descriptors[other]?.map Descriptor.text).getD "") d.text)
    | .foreign _ => .error (.foreignHandle d.text)
    | .nowhere => .error .slotsExhausted

/-- The same descriptors over other slots, entered in the order of the old ones. -/
def rehash (t : Table) (count : Nat) : Except TableError Table := do
  let slots ← (t.slots.toList.filterMap id).foldlM (place t.descriptors)
    (Array.replicate count none)
  return { t with slots := slots }

/-- Two descriptors that meet while the slots grow are an error of the table itself, and are logged
as one. -/
def logCollision : Except TableError Table → Logged Unit
  | .error (.slotTaken slot _ moving) => Logged.log (.collision slot moving)
  | _ => pure ()

def grow (t : Table) : Logged (Except TableError Table) := do
  let count := t.capacity * growFactor
  Logged.log (.growing t.capacity count)
  let r := t.rehash count
  logCollision r
  return r

def isCrowded (t : Table) : Bool := 3 * t.capacity < 8 * t.size

/-- Appends a descriptor and enters it into an empty slot. -/
def append (t : Table) (slot : Nat) (h : Handle) (hash : UInt32) (e : Encoding) : Table :=
  { t with
    descriptors := t.descriptors.push { name := h, hash := hash, encoding := e }
    slots := t.slots.setIfInBounds slot (some t.size) }

/-- Appends a descriptor and makes room for the next one. -/
def create (t : Table) (slot : Nat) (h : Handle) (hash : UInt32) (e : Encoding) :
    Logged (Except TableError Nat × Table) := do
  Logged.log (.creating h.text)
  let bigger := t.append slot h hash e
  if bigger.isCrowded then
    match ← bigger.grow with
    | .ok grown => return (.ok t.size, grown)
    | .error err => return (.error err, bigger)
  else return (.ok t.size, bigger)

/-- Interns into a table that has slots. -/
def internIntoSlots (t : Table) (h : Handle) : Logged (Except TableError Nat × Table) :=
  let hash := Hash.ofName h.text
  match probe t.slots t.descriptors h hash with
  | .held _ id => pure (.ok id, t)
  | .foreign _ => pure (.error (.foreignHandle h.text), t)
  | .nowhere => pure (.error .slotsExhausted, t)
  | .vacant slot =>
    if t.grouped then pure (.error (.frozen h.text), t)
    else match Encoding.ofName h.text with
      | .error e => pure (.error (.encode e), t)
      | .ok e =>
        if t.size < maxDescriptors then t.create slot h hash e
        else pure (.error (.full t.size), t)

/-- The number of the descriptor for a handle, which is created on first use. A grouped table keeps
answering for the names it has, and takes no new ones. -/
def intern (t : Table) (h : Handle) : Logged (Except TableError Nat × Table) :=
  if t.slots.isEmpty then
    if t.grouped then pure (.error (.frozen h.text), t)
    else do (← t.allocate).internIntoSlots h
  else t.internIntoSlots h

example : slotsFor 0 = 16 ∧ slotsFor 16 = 16 ∧ slotsFor 17 = 32 ∧ slotsFor 1000 = 1024 := by
  decide +kernel

end LinkConnectors.Table
