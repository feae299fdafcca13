import LinkConnectors.Proofs.Arena.Chains

/-! The order in which slots come back. A chain takes its slots from the last connector to the first
and gives them back from the first to the last, so making a chain and releasing it leaves the order
of the slots as it was. Two arenas that hold the same connectors and give out their slots in the
same order cannot be told apart, whatever their slots and free lists look like. -/
namespace LinkConnectors.Arena

open Links

variable {a b : Arena} {l : Links} {id : Nat} {c : Connector}

section Linked

lemma Linked.of_append {before after : Links} (h : a.Linked (before ++ after)) :
    a.Linked after := by
  induction before with
  | nil => exact h
  | cons p before ih => exact ih h.2

/-- A chain that ends does not go round. -/
theorem Linked.nodup (h : a.Linked l) : l.ids.Nodup := by
  induction l with
  | nil => exact List.nodup_nil
  | cons p rest ih =>
    refine List.nodup_cons.mpr ⟨fun hmem => ?_, ih h.2⟩
    obtain ⟨q, hq, hid⟩ := List.mem_map.mp hmem
    obtain ⟨before, after, rfl⟩ := List.append_of_mem hq
    -- from the same number on there would be two chains of different lengths
    have hlong := h.readLinks_eq (before.length + after.length + 2)
    have hshort := h.2.of_append.readLinks_eq (before.length + after.length + 2)
    rw [headId_cons, hid, ← headId_cons p (before ++ q :: after), hlong] at hshort
    have hlength := congrArg List.length hshort
    simp only [List.length_take, List.length_cons, List.length_append] at hlength
    omega

/-- What is read of a chain up to its last connector, which leads nowhere, is linked. -/
lemma linked_readLinks {count : Nat} {head : Option Nat}
    (hend : (a.chain count head).getLast?.elim head (fun p => p.2.next) = none) :
    a.Linked (a.readLinks count head) ∧ (a.readLinks count head).headId = head := by
  unfold readLinks
  induction count generalizing head with
  | zero => exact ⟨trivial, hend.symm⟩
  | succ count ih =>
    cases head with
    | none => exact ⟨trivial, rfl⟩
    | some id =>
      rw [chain] at hend ⊢
      cases hc : a.get? id with
      | none =>
        rw [hc] at hend
        cases hend
      | some c =>
        rw [hc] at hend
        dsimp only at hend ⊢
        have hrest : (a.chain count c.next).getLast?.elim c.next (fun p => p.2.next) = none := by
          rw [List.getLast?_cons] at hend
          cases hlast : (a.chain count c.next).getLast? with
          | none => rwa [hlast] at hend
          | some p => rwa [hlast] at hend
        obtain ⟨hlinked, hhead⟩ := ih hrest
        exact ⟨⟨⟨c, hc, rfl, hhead.symm⟩, hlinked⟩, rfl⟩

/-- The slots of a released chain come back from its last connector to its first. -/
theorem Linked.free_release (h : a.Linked l) :
    (a.release l.headId).value.2.free = l.ids.reverse ++ a.free ∧
      (a.release l.headId).value.2.slots.size = a.slots.size := by
  have hnodup := h.nodup
  induction l generalizing a with
  | nil =>
    rw [headId, List.head?_nil, Option.map_none, release_none]
    exact ⟨rfl, rfl⟩
  | cons p rest ih =>
    obtain ⟨⟨c, hc, _, hnext⟩, hrest⟩ := h
    rw [ids_cons, List.nodup_cons] at hnodup
    have hothers : ∀ id ∈ ids rest, (a.freed p.1).get? id = a.get? id := fun id hid =>
      get?_freed_of_ne fun heq => hnodup.1 (heq ▸ hid)
    obtain ⟨hfree, hslots⟩ := ih (hrest.congr_get? hothers) hnodup.2
    rw [headId_cons, release_of_remove?_eq_some (remove?_of_get? hc), hnext]
    dsimp only
    rw [hfree, hslots, ids_cons, List.reverse_cons, List.append_assoc]
    exact ⟨rfl, Array.size_setIfInBounds⟩

end Linked

/-- The same connectors in the same slots, and the same order in which slots are given out. -/
structure Alike (a b : Arena) : Prop where
  left : a.Tidy
  right : b.Tidy
  get? : ∀ id, a.get? id = b.get? id
  supply : ∀ n, a.supply n = b.supply n
  size : a.size = b.size

lemma Tidy.alike (ha : a.Tidy) : Alike a a := ⟨ha, ha, fun _ => rfl, fun _ => rfl, rfl⟩

namespace Alike

lemma insert (h : Alike a b) (c : Connector) :
    (a.insert c).1 = (b.insert c).1 ∧ Alike (a.insert c).2 (b.insert c).2 := by
  have hfst : (a.insert c).1 = (b.insert c).1 := by
    rw [insert_fst, insert_fst, h.supply]
  refine ⟨hfst, h.left.insert c, h.right.insert c, fun id => ?_, fun n => ?_, ?_⟩
  · by_cases hid : id = (a.insert c).1
    · rw [hid, h.left.get?_insert_self, hfst, h.right.get?_insert_self]
    · rw [h.left.get?_insert_of_ne hid, h.right.get?_insert_of_ne (hfst ▸ hid), h.get?]
  · rw [supply_insert, supply_insert, h.supply]
  · rw [h.left.size_insert, h.right.size_insert, h.size]

lemma newChain (h : Alike a b) (ds : List Descriptor) (o : Option RunOptions) :
    (a.newChain ds o).1 = (b.newChain ds o).1 ∧ Alike (a.newChain ds o).2 (b.newChain ds o).2 := by
  unfold Arena.newChain
  induction ds with
  | nil => exact ⟨rfl, h⟩
  | cons d ds ih =>
    obtain ⟨hhead, hrest⟩ := ih
    let c := { Connector.ofDescriptor d o with next := (linkBefore o ds (none, a)).1 }
    obtain ⟨hfst, hnext⟩ := hrest.insert c
    change some ((linkBefore o ds (none, a)).2.insert c).1 = _ ∧
      Alike ((linkBefore o ds (none, a)).2.insert c).2 _
    rw [hfst]
    simp only [c, hhead] at hnext ⊢
    exact ⟨rfl, hnext⟩

lemma modify (h : Alike a b) (id : Nat) (f : Connector → Connector) :
    Alike (a.modify id f) (b.modify id f) where
  left := h.left.modify id f
  right := h.right.modify id f
  get? other := by rw [get?_modify, get?_modify, h.get?]
  supply n := by rw [supply_modify, supply_modify, h.supply]
  size := by rw [size_modify, size_modify, h.size]

lemma freed (h : Alike a b) (hc : a.get? id = some c) : Alike (a.freed id) (b.freed id) where
  left := h.left.freed hc
  right := h.right.freed (h.get? id ▸ hc)
  get? other := by
    by_cases hid : other = id
    · rw [hid, get?_freed_self, get?_freed_self]
    · rw [get?_freed_of_ne hid, get?_freed_of_ne hid, h.get?]
  supply n := by rw [supply_freed, supply_freed, h.supply]
  size := by
    have ha := size_remove? (remove?_of_get? hc)
    have hb := size_remove? (remove?_of_get? (h.get? id ▸ hc))
    have := h.size
    omega

/-- Releasing walks along the same links and frees the same slots in the same order. -/
theorem release (h : Alike a b) (head : Option Nat) :
    (a.release head).value.1 = (b.release head).value.1 ∧
      (a.release head).events = (b.release head).events ∧
      Alike (a.release head).value.2 (b.release head).value.2 := by
  induction a, head using Arena.release.induct generalizing b with
  | case1 a =>
    rw [release_none, release_none]
    exact ⟨rfl, rfl, h⟩
  | case2 a id hnone =>
    have hb : b.remove? id = none := by rwa [remove?_eq_none_iff, ← h.get?, ← remove?_eq_none_iff]
    rw [release_of_remove?_eq_none hnone, release_of_remove?_eq_none hb]
    exact ⟨rfl, rfl, h⟩
  | case3 a id c rest hsome _ ih =>
    obtain ⟨hc, rfl⟩ := remove?_eq_some_iff.mp hsome
    obtain ⟨hcount, hevents, hrest⟩ := ih (h.freed hc)
    rw [release_of_remove?_eq_some hsome,
      release_of_remove?_eq_some (remove?_of_get? (h.get? id ▸ hc))]
    exact ⟨congrArg (· + 1) hcount, hevents, hrest⟩

lemma chain (h : Alike a b) (count : Nat) (head : Option Nat) :
    a.chain count head = b.chain count head := by
  induction count generalizing head with
  | zero => rfl
  | succ count ih =>
    cases head with
    | none => rfl
    | some id =>
      rw [Arena.chain, Arena.chain, h.get?]
      cases b.get? id with
      | none => rfl
      | some c =>
        dsimp only
        rw [ih]

end Alike

/-- Making a chain and releasing it leaves an arena that cannot be told from the one before. -/
theorem Tidy.release_newChain (ha : a.Tidy) (ds : List Descriptor) (o : Option RunOptions) :
    ∃ b, (a.newChain ds o).2.release (a.newChain ds o).1 = ⟨(ds.length, b), []⟩ ∧ Alike b a := by
  obtain ⟨l, hds, hhead, hbuilt, hids, hsupply⟩ := ha.built_newChain ds o
  have hlength : l.length = ds.length := by rw [← hds, List.length_map]
  obtain ⟨b, hb, hreleased⟩ := hbuilt.linked.release_eq hbuilt.tidy hbuilt.nodup
  obtain ⟨hfree, hslots⟩ := hbuilt.linked.free_release
  rw [hb] at hfree hslots
  refine ⟨b, by rw [hhead, hb, hlength], hreleased.tidy, ha, fun id => ?_, fun n => ?_, ?_⟩
  · by_cases hid : id ∈ l.ids
    · have hvacant := hreleased.tidy.vacant id (by rw [hfree]; simp [hid])
      rw [get?_of_slot hvacant, hbuilt.dead id hid]
    · rw [hreleased.kept id hid, hbuilt.kept id hid]
  · -- the first slots are those of the chain, in the order in which it had taken them
    rw [supply_of_free hfree hslots, hids, List.reverse_reverse, hsupply]
    by_cases hn : n < ds.length
    · simp [hn]
    · have hsum : ds.length + (n - ds.length) = n := by omega
      simp [hn, hsum]
  · have := hreleased.size
    have := hbuilt.size
    omega

/-- A new chain that is no longer than the one released before takes the places of its last
connectors. -/
theorem Linked.newChain_release (h : a.Linked l) (ha : a.Tidy) {ds : List Descriptor}
    (hds : ds.length ≤ l.length) (o : Option RunOptions) :
    ∃ b, a.release l.headId = ⟨(l.length, b), []⟩ ∧ ∃ m : Links,
      (b.newChain ds o).1 = m.headId ∧ (b.newChain ds o).2.Linked m ∧ m.map Prod.snd = ds ∧
        m.ids = l.ids.drop (l.length - ds.length) := by
  obtain ⟨b, hb, hreleased⟩ := h.release_eq ha h.nodup
  obtain ⟨hfree, hslots⟩ := h.free_release
  rw [hb] at hfree hslots
  obtain ⟨m, hm, hhead, hbuilt, hids, _⟩ := hreleased.tidy.built_newChain ds o
  refine ⟨b, hb, m, hhead, hbuilt.linked, hm, ?_⟩
  have htaken : (List.range ds.length).map b.supply = l.ids.reverse.take ds.length := by
    apply List.ext_getElem?
    intro n
    by_cases hn : n < ds.length
    · have hlt : n < l.ids.reverse.length := by
        rw [List.length_reverse, length_ids]
        omega
      simp [hn, supply_of_free hfree hslots, List.getElem?_eq_getElem hlt]
    · rw [List.getElem?_eq_none (by rw [List.length_map, List.length_range]; omega),
        List.getElem?_eq_none (Nat.le_trans (List.length_take_le _ _) (by omega))]
  rw [hids, htaken, List.take_reverse, List.reverse_reverse, length_ids]

end LinkConnectors.Arena
