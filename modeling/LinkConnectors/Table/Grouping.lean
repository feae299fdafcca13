import LinkConnectors.Event
import LinkConnectors.Table.Basic

/-! Grouping the table by core. The descriptors are sorted by core and name, and every core is
numbered by its place among the distinct cores. After that the table takes no new names. -/
namespace LinkConnectors.Table

/-- Numbers the members of a list: the number goes up by one wherever the text changes. -/
def numberRuns (n : Nat) : List String → List Nat
  | [] => []
  | [_] => [n]
  | a :: b :: rest => n :: numberRuns (if a = b then n else n + 1) (b :: rest)

/-- The number of distinct texts in a list where equal ones stand together. -/
def runCount (xs : List String) : Nat :=
  match (numberRuns 0 xs).getLast? with
  | some n => n + 1
  | none => 0

def coreAt (descriptors : Array Descriptor) (id : Nat) : String :=
  (descriptors[id]?.map Descriptor.core).getD ""

def sortsBeforeAt (descriptors : Array Descriptor) (i j : Nat) : Bool :=
  match descriptors[i]?, descriptors[j]? with
  | some a, some b => a.sortsBefore b
  | _, _ => true

def sortedIds (descriptors : Array Descriptor) : List Nat :=
  (List.range descriptors.size).mergeSort (sortsBeforeAt descriptors)

def setCoreId (descriptors : Array Descriptor) (p : Nat × Nat) : Array Descriptor :=
  descriptors.modify p.1 fun d => { d with coreId := some p.2 }

def group (t : Table) : Logged Table := do
  let ids := sortedIds t.descriptors
  let cores := ids.map (coreAt t.descriptors)
  let count := runCount cores
  Logged.log (.grouped t.size count)
  return { t with
    descriptors := (ids.zip (numberRuns 0 cores)).foldl setCoreId t.descriptors
    byCore := ids.toArray
    coreCount := count
    grouped := true }

example : numberRuns 0 ["A", "A", "B", "D", "D"] = [0, 0, 1, 2, 2] := by decide
example : runCount [] = 0 ∧ runCount ["A", "A", "B"] = 2 := by decide

end LinkConnectors.Table
