import LinkConnectors.Proofs.Arena.Slots
import LinkConnectors.Session.Arena
import Mathlib.Data.List.Nodup

/-! Chains that are held. Slots of released chains come back inside new ones, but as long as links
are left alone and only the heads of chains are released, every chain that was made and not yet
released is as it was made. -/
namespace LinkConnectors.Arena

/-- The numbers of a chain with their descriptors, in order. -/
abbrev Links := List (Nat × Descriptor)

namespace Links

def ids (l : Links) : List Nat := l.map Prod.fst

def headId (l : Links) : Option Nat := l.head?.map Prod.fst

@[simp] lemma ids_nil : ids [] = [] := rfl
@[simp] lemma ids_cons (p : Nat × Descriptor) (l : Links) : ids (p :: l) = p.1 :: ids l := rfl
@[simp] lemma length_ids (l : Links) : l.ids.length = l.length := List.length_map _
@[simp] lemma headId_cons (p : Nat × Descriptor) (l : Links) : headId (p :: l) = some p.1 := rfl

end Links

open Links

/-- What is read off a chain, at most `count` connectors of it. -/
def readLinks (a : Arena) (count : Nat) (head : Option Nat) : Links :=
  (a.chain count head).map fun p => (p.1, p.2.descriptor)

/-- Each connector leads to the next one, and the last one nowhere. -/
def Linked (a : Arena) : Links → Prop
  | [] => True
  | (id, d) :: rest =>
    (∃ c, a.get? id = some c ∧ c.descriptor = d ∧ c.next = headId rest) ∧ Linked a rest

variable {a b : Arena} {l : Links} {id : Nat} {c : Connector}

section Linked

lemma Linked.live (h : a.Linked l) (hid : id ∈ l.ids) : ∃ c, a.get? id = some c := by
  induction l with
  | nil => cases hid
  | cons p rest ih =>
    obtain ⟨⟨c, hc, _⟩, hrest⟩ := h
    obtain rfl | hid := List.mem_cons.mp hid
    · exact ⟨c, hc⟩
    · exact ih hrest hid

/-- Nothing but descriptors and links matters. -/
lemma Linked.congr (h : a.Linked l) (hsame : ∀ id ∈ l.ids, ∀ c, a.get? id = some c →
    ∃ e, b.get? id = some e ∧ e.descriptor = c.descriptor ∧ e.next = c.next) : b.Linked l := by
  induction l with
  | nil => trivial
  | cons p rest ih =>
    obtain ⟨⟨c, hc, hd, hnext⟩, hrest⟩ := h
    obtain ⟨e, he, hed, henext⟩ := hsame p.1 (by simp) c hc
    exact ⟨⟨e, he, hed.trans hd, henext.trans hnext⟩,
      ih hrest fun id hid => hsame id (List.mem_cons_of_mem p.1 hid)⟩

lemma Linked.congr_get? (h : a.Linked l) (hsame : ∀ id ∈ l.ids, b.get? id = a.get? id) :
    b.Linked l :=
  h.congr fun id hid c hc => ⟨c, (hsame id hid).trans hc, rfl, rfl⟩

/-- A chain reads as it is linked, and ends where it ends. -/
theorem Linked.readLinks_eq (h : a.Linked l) (count : Nat) :
    a.readLinks count l.headId = l.take count := by
  induction l generalizing count with
  | nil => cases count <;> rfl
  | cons p rest ih =>
    obtain ⟨⟨c, hc, hd, hnext⟩, hrest⟩ := h
    cases count with
    | zero => rfl
    | succ count =>
      have htail := ih hrest count
      rw [readLinks] at htail ⊢
      rw [headId_cons, chain, hc]
      dsimp only
      rw [List.map_cons, hnext, htail, hd, List.take_succ_cons]

lemma Linked.chain_congr (h : a.Linked l) (hsame : ∀ id ∈ l.ids, b.get? id = a.get? id)
    (count : Nat) :
    b.chain count l.headId = a.chain count l.headId := by
  induction l generalizing count with
  | nil => cases count <;> rfl
  | cons p rest ih =>
    obtain ⟨⟨c, hc, _, hnext⟩, hrest⟩ := h
    cases count with
    | zero => rfl
    | succ count =>
      have htail := ih hrest (fun id hid => hsame id (List.mem_cons_of_mem p.1 hid)) count
      have hb := (hsame p.1 (by simp)).trans hc
      rw [headId_cons, chain, chain, hb, hc]
      dsimp only
      rw [hnext, htail]

end Linked

section Build

/-- What it takes to have made a chain: its numbers were not live before, and everything else is as
it was. -/
structure Built (a : Arena) (l : Links) (b : Arena) : Prop where
  tidy : b.Tidy
  linked : b.Linked l
  nodup : l.ids.Nodup
  dead : ∀ id ∈ l.ids, a.get? id = none
  kept : ∀ id, id ∉ l.ids → b.get? id = a.get? id
  size : b.size = a.size + l.length

lemma Tidy.built_nil (ha : a.Tidy) : Built a [] a :=
  ⟨ha, trivial, List.nodup_nil, by simp, fun _ _ => rfl, rfl⟩

/-- One more connector in front. -/
lemma Built.cons (hb : Built a l b) (hnext : c.next = l.headId) :
    Built a (((b.insert c).1, c.descriptor) :: l) (b.insert c).2 := by
  have hdead := hb.tidy.get?_insert_fst c
  have hnew : (b.insert c).1 ∉ l.ids := by
    intro hmem
    obtain ⟨e, he⟩ := hb.linked.live hmem
    rw [hdead] at he
    cases he
  have hothers : ∀ id ∈ l.ids, (b.insert c).2.get? id = b.get? id := by
    intro id hid
    exact hb.tidy.get?_insert_of_ne fun h => hnew (h ▸ hid)
  constructor
  · exact hb.tidy.insert c
  · exact ⟨⟨c, hb.tidy.get?_insert_self c, rfl, hnext⟩, hb.linked.congr_get? hothers⟩
  · exact List.nodup_cons.mpr ⟨hnew, hb.nodup⟩
  · intro id hid
    obtain rfl | hid := List.mem_cons.mp hid
    · rw [← hb.kept _ hnew, hdead]
    · exact hb.dead id hid
  · intro id hid
    rw [ids_cons, List.mem_cons, not_or] at hid
    rw [hb.tidy.get?_insert_of_ne hid.1, hb.kept id hid.2]
  · rw [hb.tidy.size_insert, hb.size, List.length_cons, Nat.add_assoc]

theorem Tidy.built_new (ha : a.Tidy) (d : Descriptor) (o : Option RunOptions) :
    Built a [((a.new d o).1, d)] (a.new d o).2 :=
  ha.built_nil.cons (c := .ofDescriptor d o) rfl

/-- The descriptors are linked in the order in which they are given, although the slots are taken
from the last one on. -/
theorem Tidy.built_newChain (ha : a.Tidy) (ds : List Descriptor) (o : Option RunOptions) :
    ∃ l : Links, l.map Prod.snd = ds ∧ (a.newChain ds o).1 = l.headId ∧
      Built a l (a.newChain ds o).2 ∧
      l.ids = ((List.range ds.length).map a.supply).reverse ∧
      ∀ n, (a.newChain ds o).2.supply n = a.supply (ds.length + n) := by
  unfold newChain
  induction ds with
  | nil =>
    exact ⟨[], rfl, rfl, ha.built_nil, rfl, fun n => by rw [List.length_nil, Nat.zero_add]; rfl⟩
  | cons d ds ih =>
    obtain ⟨l, hds, hhead, hbuilt, hids, hsupply⟩ := ih
    let c := { Connector.ofDescriptor d o with next := (linkBefore o ds (none, a)).1 }
    have hcons := hbuilt.cons (c := c) hhead
    refine ⟨_, by rw [List.map_cons, hds]; rfl, rfl, hcons, ?_, fun n => ?_⟩
    · rw [ids_cons, hids, insert_fst, hsupply, List.length_cons, List.range_succ, List.map_append,
        List.reverse_append]
      rfl
    · change ((linkBefore o ds (none, a)).2.insert c).2.supply n = _
      rw [supply_insert, hsupply, List.length_cons, Nat.add_right_comm, Nat.add_assoc]

end Build

section Release

/-- What it takes to have released a chain. -/
structure Released (a : Arena) (l : Links) (b : Arena) : Prop where
  tidy : b.Tidy
  kept : ∀ id, id ∉ l.ids → b.get? id = a.get? id
  size : b.size + l.length = a.size

/-- A chain is released as a whole, and nothing else is. -/
theorem Linked.release_eq (h : a.Linked l) (ha : a.Tidy) (hnodup : l.ids.Nodup) :
    ∃ b, a.release l.headId = ⟨(l.length, b), []⟩ ∧ Released a l b := by
  induction l generalizing a with
  | nil => exact ⟨a, a.release_none, ha, fun _ _ => rfl, rfl⟩
  | cons p rest ih =>
    obtain ⟨⟨c, hc, _, hnext⟩, hrest⟩ := h
    rw [ids_cons, List.nodup_cons] at hnodup
    have hremove := remove?_of_get? hc
    have hothers : ∀ id ∈ ids rest, (a.freed p.1).get? id = a.get? id := fun id hid =>
      get?_freed_of_ne fun heq => hnodup.1 (heq ▸ hid)
    obtain ⟨b, hb, hreleased⟩ := ih (hrest.congr_get? hothers) (ha.freed hc) hnodup.2
    refine ⟨b, ?_, hreleased.tidy, fun id hid => ?_, ?_⟩
    · rw [headId_cons, release_of_remove?_eq_some hremove, hnext, hb]
      rfl
    · rw [ids_cons, List.mem_cons, not_or] at hid
      rw [hreleased.kept id hid.2, get?_freed_of_ne hid.1]
    · have hsize := size_remove? hremove
      have := hreleased.size
      rw [List.length_cons]
      omega

end Release

end LinkConnectors.Arena
