import LinkConnectors.Proofs.Arena.Reuse

/-! Chains that are made and released again, and chains that are released and made again. The first
leaves no trace that any later work on the arena could find. The second puts the new chain where the
end of the old one was. -/
namespace LinkConnectors.Arena

open Links

/-- The arena that the steps lead to. -/
def after (a : Arena) (xs : List Step) : Arena := xs.foldl (fun a x => (a.step x).value.2) a

/-- What is seen of a run: the answer to each step, what is logged, and how many connectors there
are then. -/
def reports (a : Arena) (xs : List Step) : List (Answer × List Event × Nat) :=
  (a.run xs).map fun r => (r.value.1, r.events, r.value.2.size)

variable {a b : Arena}

lemma step_release (a : Arena) (head : Option Nat) : a.step (.release head) =
    ⟨(.freed (a.release head).value.1, (a.release head).value.2), (a.release head).events⟩ :=
  Logged.bind_pure_eq _ _

/-- Arenas that cannot be told apart give the same answer to every step, and cannot be told apart
after it. -/
theorem Alike.step (h : Alike a b) (x : Step) :
    (a.step x).value.1 = (b.step x).value.1 ∧ (a.step x).events = (b.step x).events ∧
      Alike (a.step x).value.2 (b.step x).value.2 := by
  cases x with
  | new d o =>
    obtain ⟨hid, hnext⟩ := h.insert (.ofDescriptor d o)
    exact ⟨congrArg Answer.id hid, rfl, hnext⟩
  | newChain ds o =>
    obtain ⟨hhead, hnext⟩ := h.newChain ds o
    exact ⟨congrArg Answer.head hhead, rfl, hnext⟩
  | get id => exact ⟨congrArg (Answer.connector id) (h.get? id), rfl, h⟩
  | change id u =>
    have hnext := h.modify id fun c => c.change u
    exact ⟨congrArg (Answer.connector id) (hnext.get? id), rfl, hnext⟩
  | setNext id next =>
    have hlinked : (a.get? id).isSome = (b.get? id).isSome := by rw [h.get?]
    exact ⟨congrArg Answer.linked hlinked, rfl, h.modify id fun c => { c with next := next }⟩
  | chain head count => exact ⟨congrArg Answer.chain (h.chain count head), rfl, h⟩
  | release head =>
    obtain ⟨hcount, hevents, hnext⟩ := h.release head
    rw [step_release, step_release]
    exact ⟨congrArg Answer.freed hcount, hevents, hnext⟩
  | clear => exact ⟨rfl, rfl, tidy_empty.alike⟩
  | matching m n =>
    have hverdict : a.matching? m n = b.matching? m n := by
      rw [matching?, matching?, h.get?, h.get?]
    exact ⟨congrArg Answer.verdict hverdict, rfl, h⟩

/-- Nothing that is done later tells them apart. -/
theorem Alike.reports (h : Alike a b) (xs : List Step) : a.reports xs = b.reports xs := by
  induction xs generalizing a b with
  | nil => rfl
  | cons x xs ih =>
    obtain ⟨hanswer, hevents, hnext⟩ := h.step x
    have hfirst : ((a.step x).value.1, (a.step x).events, (a.step x).value.2.size) =
        ((b.step x).value.1, (b.step x).events, (b.step x).value.2.size) := by
      rw [hanswer, hevents, hnext.size]
    exact congrArg₂ List.cons hfirst (ih hnext)

theorem Tidy.after (ha : a.Tidy) (xs : List Step) : (a.after xs).Tidy := by
  induction xs generalizing a with
  | nil => exact ha
  | cons x xs ih => exact ih (ha.alike.step x).2.2.left

/-- In every arena that steps can lead to, whatever its free slots and links, a chain that is made
and released leaves no trace. If a chain ends at a connector without a successor, it is released as
a whole, and a new chain that is no longer takes over the numbers of its last connectors in their
order. -/
theorem chain_undone (xs : List Step) :
    let a := Arena.after {} xs
    (∀ (ds : List Descriptor) (o : Option RunOptions),
      let made := a.newChain ds o
      let released := made.2.release made.1
      released.value.1 = ds.length ∧ released.events = [] ∧
        ∀ ys, released.value.2.reports ys = a.reports ys) ∧
    ∀ (head : Option Nat) (count : Nat) (ds : List Descriptor) (o : Option RunOptions),
      let cs := a.chain count head
      cs.getLast?.elim head (fun p => p.2.next) = none → ds.length ≤ cs.length →
        let released := a.release head
        let made := released.value.2.newChain ds o
        released.value.1 = cs.length ∧ released.events = [] ∧
          ∀ n, made.2.readLinks n made.1 =
            (((cs.map Prod.fst).drop (cs.length - ds.length)).zip ds).take n := by
  intro a
  have ha : a.Tidy := tidy_empty.after xs
  refine ⟨fun ds o => ?_, ?_⟩
  · obtain ⟨b, hb, halike⟩ := ha.release_newChain ds o
    dsimp only
    rw [hb]
    exact ⟨rfl, rfl, halike.reports⟩
  · intro head count ds o cs hend hds
    obtain ⟨hlinked, hhead⟩ := linked_readLinks hend
    have hlength : (a.readLinks count head).length = cs.length := List.length_map _
    have hids : (a.readLinks count head).ids = cs.map Prod.fst := by
      rw [readLinks, ids, List.map_map]
      rfl
    rw [← hlength] at hds
    obtain ⟨b, hb, m, hm, hmade, hmds, hmids⟩ := hlinked.newChain_release ha hds o
    rw [hhead, hlength] at hb
    dsimp only
    rw [hb]
    refine ⟨rfl, rfl, fun n => ?_⟩
    have hzip : m = m.ids.zip ds := by
      rw [← hmds, ids, List.zip_map']
      exact (List.map_id m).symm
    rw [hm, hmade.readLinks_eq, ← hlength, ← hids, ← hmids, ← hzip]

/-- A chain of three shares its last two connectors with another one. When it is released, a chain
of two takes their places. -/
theorem chain_of_two_in_old_places :
    let d : Descriptor := ⟨⟨0, 0, "O"⟩, Hash.ofName "O", ⟨.unmarked, "O", "", .clear⟩, none, 0⟩
    let a := Arena.after {} [.newChain [d, d, d] none, .new d none, .setNext 3 (some 1)]
    let made := (a.release (some 2)).value.2.newChain [d, d] none
    made.2.readLinks 5 made.1 = [(1, d), (0, d)] := by
  intro d a made
  have hchain : (a.chain 9 (some 2)).map Prod.fst = [2, 1, 0] := by decide +kernel
  have hlength : (a.chain 9 (some 2)).length = 3 := by
    rw [← List.length_map (f := Prod.fst), hchain]; rfl
  have hundone := chain_undone [.newChain [d, d, d] none, .new d none, .setNext 3 (some 1)]
  have hplaces := (hundone.2 (some 2) 9 [d, d] none (by decide +kernel) (by decide +kernel)).2.2 5
  rw [hchain, hlength] at hplaces
  exact hplaces

end LinkConnectors.Arena
