import LinkConnectors.Table.Grouping

/-! The stretch of the view by core that holds one core, found by two binary searches. -/
namespace LinkConnectors.Table

/-- The first position of the interval from `lo` to `hi` where `p` fails, if `p` holds on a first
part of it and nowhere after. -/
def boundary (p : Nat → Bool) (lo hi : Nat) : Nat :=
  if lo < hi then
    if p ((lo + hi) / 2) then boundary p ((lo + hi) / 2 + 1) hi
    else boundary p lo ((lo + hi) / 2)
  else lo
termination_by hi - lo

theorem boundary_bounds (p : Nat → Bool) {lo hi : Nat} (h : lo ≤ hi) :
    lo ≤ boundary p lo hi ∧ boundary p lo hi ≤ hi := by
  fun_induction boundary p lo hi with
  | case1 lo hi hlt hp ih => have := ih (by omega); omega
  | case2 lo hi hlt hp ih => have := ih (by omega); omega
  | case3 lo hi hlt => omega

def coreOfRank (t : Table) (rank : Nat) : String :=
  coreAt t.descriptors (t.byCore[rank]?.getD 0)

/-- Where the stretch of a core begins and where it ends. -/
def coreBounds (t : Table) (core : String) : Nat × Nat :=
  (boundary (fun rank => t.coreOfRank rank < core) 0 t.byCore.size,
    boundary (fun rank => t.coreOfRank rank ≤ core) 0 t.byCore.size)

/-- The numbers of the descriptors with this core, in the order of the view by core. -/
def coreRange (t : Table) (core : String) : List Nat :=
  (t.byCore.extract (t.coreBounds core).1 (t.coreBounds core).2).toList

end LinkConnectors.Table
