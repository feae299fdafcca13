import LinkConnectors.Proofs.Arena.Visits
import LinkConnectors.Proofs.Session.Undo

/-! Releasing in any session on an arena, however its connectors have been linked. -/
namespace LinkConnectors.Arena

/-- In every arena that steps can lead to, whatever its links are, releasing frees the connectors
that a walk from the head comes by, also if that walk never ends. The connectors that are counted
are the first ones of the walk. They were live, no two of them are the same, and no others come up
later. They are dead afterwards, each is listed once among the free slots, and all other connectors
are as they were. Releasing the same head again frees nothing. Fewer than `2 ^ 32` slots are
assumed, so that numbers and slots are the same. -/
theorem release_frees_visited (xs : List Step) (head : Option Nat) :
    let a := Arena.after {} xs
    let count := (a.release head).value.1
    let b := (a.release head).value.2
    let ids := (a.chain count head).map Prod.fst
    ids.length = count ∧ ids.Nodup ∧ (∀ id, id ∈ ids ↔ ∃ n, id ∈ (a.chain n head).map Prod.fst) ∧
      (∀ id ∈ ids, (a.get? id).isSome = true ∧ b.get? id = none) ∧
      (∀ id, id ∉ ids → b.get? id = a.get? id) ∧
      b.free = ids.reverse ++ a.free ∧ b.free.Nodup ∧ b.slots.size = a.slots.size ∧
      b.size + count = a.size ∧
      b.release head = ⟨(0, b), head.toList.map .chainAlreadyReleased⟩ := by
  intro a count b ids
  have ha : a.Tidy := tidy_empty.after xs
  have hb : b.Tidy := (ha.alike.release head).2.2.left
  have hswept : Swept a head count b := a.swept_release head
  refine ⟨hswept.length, hswept.nodup, hswept.mem_iff, fun id hid => ⟨?_, ?_⟩, fun id hid => ?_,
    hswept.free, hb.nodup,
    hswept.slots, hswept.size, hswept.release_again⟩
  · obtain ⟨c, hc⟩ := ((hswept.mem_iff id).mp hid).live
    rw [hc, Option.isSome_some]
  · exact (hswept.get? id).trans (if_pos hid)
  · exact (hswept.get? id).trans (if_neg hid)

/-- From the third connector a walk goes down to the first and the second, and then round these two
without end. All three are freed, the fourth is kept, and there is nothing left to be released at
the third. -/
theorem release_of_round_chain :
    let d : Descriptor := ⟨⟨0, 0, "O"⟩, Hash.ofName "O", ⟨.unmarked, "O", "", .clear⟩, none, 0⟩
    let a := Arena.after {} [.newChain [d, d, d] none, .new d none, .setNext 0 (some 1)]
    let b := (a.release (some 2)).value.2
    (a.release (some 2)).value.1 = 3 ∧ (∀ id < 3, b.get? id = none) ∧ b.get? 3 = a.get? 3 ∧
      b.release (some 2) = ⟨(0, b), [.chainAlreadyReleased 2]⟩ := by
  intro d a b
  have hcount : (a.release (some 2)).value.1 = 3 := by decide +kernel
  have hids : (a.chain (a.release (some 2)).value.1 (some 2)).map Prod.fst = [2, 1, 0] := by
    decide +kernel
  obtain ⟨_, _, _, hfreed, hkept, _, _, _, _, hagain⟩ :=
    release_frees_visited [.newChain [d, d, d] none, .new d none, .setNext 0 (some 1)] (some 2)
  refine ⟨hcount, fun id hid => (hfreed id ?_).2, hkept 3 ?_, hagain⟩
  · rw [hids]
    simp only [List.mem_cons, List.not_mem_nil, or_false]
    omega
  · rw [hids]
    decide

end LinkConnectors.Arena
