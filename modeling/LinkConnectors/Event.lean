/-! What loading a dictionary and using its connectors writes into the log. -/
namespace LinkConnectors

inductive Level where
  | trace
  | debug
  | warn
  | error
  deriving DecidableEq, Repr

inductive Event where
  | creating (name : String)
  | growing (fromSlots toSlots : Nat)
  | collision (slot : Nat) (connector : String)
  | grouped (connectors cores : Nat)
  | limitsApplied (rules stamped : Nat) (unlimitedFound : Bool)
  | dictionaryReady (connectors cores strings : Nat)
  | hintIgnored (count slots : Nat)
  | hintRounded (hint slots : Nat)
  | chainAlreadyReleased (connector : Nat)
  deriving DecidableEq, Repr

namespace Event

def level : Event → Level
  | creating .. => .trace
  | growing .. | grouped .. | limitsApplied .. | dictionaryReady .. => .debug
  | hintIgnored .. | hintRounded .. | chainAlreadyReleased .. => .warn
  | collision .. => .error

def message : Event → String
  | creating .. => "creating connector descriptor"
  | growing .. => "growing descriptor table"
  | collision .. => "descriptor table grow: internal error"
  | grouped .. => "grouped connector descriptors by core"
  | limitsApplied .. => "applied connector length limits"
  | dictionaryReady .. => "connector dictionary ready"
  | hintIgnored .. => "descriptor table already allocated; size hint ignored"
  | hintRounded .. => "descriptor table size hint rounded up to a power of two"
  | chainAlreadyReleased .. => "connector chain already released"

end Event

/-- A result together with the events logged on the way to it, oldest first. -/
structure Logged (α : Type) where
  value : α
  events : List Event
  deriving Repr

namespace Logged

instance : Monad Logged where
  pure a := ⟨a, []⟩
  bind x f := ⟨(f x.value).value, x.events ++ (f x.value).events⟩

def log (e : Event) : Logged Unit := ⟨(), [e]⟩

variable {α β : Type}

@[simp] theorem pure_value (a : α) : (pure a : Logged α).value = a := rfl
@[simp] theorem pure_events (a : α) : (pure a : Logged α).events = [] := rfl
@[simp] theorem bind_value (x : Logged α) (f : α → Logged β) :
    (x >>= f).value = (f x.value).value := rfl
@[simp] theorem bind_events (x : Logged α) (f : α → Logged β) :
    (x >>= f).events = x.events ++ (f x.value).events := rfl
theorem bind_pure_eq (x : Logged α) (f : α → β) :
    (x >>= fun a => pure (f a)) = ⟨f x.value, x.events⟩ :=
  congrArg (Logged.mk _) (List.append_nil _)
@[simp] theorem log_value (e : Event) : (log e).value = () := rfl
@[simp] theorem log_events (e : Event) : (log e).events = [e] := rfl

end Logged

end LinkConnectors
