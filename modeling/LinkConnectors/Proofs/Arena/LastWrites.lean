import LinkConnectors.Proofs.Arena.Chains
import LinkConnectors.Proofs.Arena.Visits

/-! What stands in a slot. A step fills a slot anew, or writes to the connector in it, or does
neither. So the connector that is found in a slot is the one that was put there, with what was
written to it last. -/
namespace LinkConnectors.Arena

open Links

/-- What a slot is filled with. -/
structure Allocation where
  descriptor : Descriptor
  options : Option RunOptions
  next : Option Nat
  deriving DecidableEq, Repr

/-- The connector in a slot that has just been filled. -/
def Allocation.connector (al : Allocation) : Connector :=
  { Connector.ofDescriptor al.descriptor al.options with next := al.next }

/-- What a slot is filled with when a chain is made: the descriptor at its place, and a link to the
place that follows. -/
def Links.filling? (o : Option RunOptions) (id : Nat) : Links → Option Allocation
  | [] => none
  | p :: rest => if p.1 = id then some ⟨p.2, o, headId rest⟩ else filling? o id rest

/-- What a step fills a slot with. The slots of a chain are the ones on the walk along it. -/
def allocation? (a : Arena) (id : Nat) : Step → Option Allocation
  | .new d o => filling? o id [((a.new d o).1, d)]
  | .newChain ds o =>
    let r := a.newChain ds o
    filling? o id ((r.2.walked ds.length r.1).zip ds)
  | _ => none

namespace Step

/-- The fields that a step writes to a connector. -/
def change? (id : Nat) : Step → Option Connector.Change
  | .change slot u => if slot = id then some u else none
  | _ => none

def multi? (id : Nat) (x : Step) : Option Bool := (x.change? id).bind Connector.Change.multi

def nearestWord? (id : Nat) (x : Step) : Option Nat :=
  (x.change? id).bind Connector.Change.nearestWord

def wordSet? (id : Nat) (x : Step) : Option (Option Nat) :=
  (x.change? id).bind Connector.Change.wordSet

/-- The options under which a step computes the limit of a connector once more. -/
def options? (id : Nat) (x : Step) : Option (Option RunOptions) :=
  (x.change? id).bind Connector.Change.options

/-- The link that a step writes to a connector. -/
def next? (id : Nat) : Step → Option (Option Nat)
  | .setNext slot next => if slot = id then some next else none
  | _ => none

end Step

section Writes

variable {α β : Type} {f : Step → Option α} {x : Step} {since : List Step} {id : Nat}
  {c : Connector}

/-- The value that is written last, or the initial one if none is written. -/
def lastWritten (f : Step → Option α) (since : List Step) (initial : α) : α :=
  (since.filterMap f).getLast?.getD initial

@[simp] lemma lastWritten_nil (initial : α) : lastWritten f [] initial = initial := rfl

lemma lastWritten_cons (initial : α) :
    lastWritten f (x :: since) initial = lastWritten f since ((f x).getD initial) := by
  unfold lastWritten
  cases hx : f x with
  | none => rw [List.filterMap_cons_none hx, Option.getD_none]
  | some v =>
    rw [List.filterMap_cons_some hx, List.getLast?_cons, Option.getD_some, Option.getD_some]

/-- It is all one whether a function is applied to all values or to the last one. -/
lemma lastWritten_map (g : α → β) (initial : α) :
    lastWritten (fun x => (f x).map g) since (g initial) = g (lastWritten f since initial) := by
  induction since generalizing initial with
  | nil => rfl
  | cons x since ih => rw [lastWritten_cons, lastWritten_cons, Option.getD_map, ih]

/-- What steps make of a connector, each field by what is written to it last. -/
def overwritten (c : Connector) (id : Nat) (since : List Step) : Connector where
  descriptor := c.descriptor
  limit :=
    lastWritten (fun x => (x.options? id).map (Reach.effectiveLimit c.descriptor)) since c.limit
  nearestWord := lastWritten (Step.nearestWord? id) since c.nearestWord
  multi := lastWritten (Step.multi? id) since c.multi
  wordSet := lastWritten (Step.wordSet? id) since c.wordSet
  next := lastWritten (Step.next? id) since c.next

lemma overwritten_nil (c : Connector) (id : Nat) : overwritten c id [] = c := rfl

lemma overwritten_cons (c : Connector) (id : Nat) (x : Step) (since : List Step) :
    overwritten c id (x :: since) = overwritten (overwritten c id [x]) id since := by
  simp only [overwritten, lastWritten_cons, lastWritten_nil]

/-- A step that writes nothing to a connector leaves it alone. -/
lemma overwritten_of_silent (hchange : x.change? id = none) (hnext : x.next? id = none) :
    overwritten c id [x] = c := by
  simp only [overwritten, lastWritten_cons, lastWritten_nil, Step.options?, Step.nearestWord?,
    Step.multi?, Step.wordSet?, hchange, hnext, Option.bind_none, Option.map_none, Option.getD_none]

lemma overwritten_change (c : Connector) (id : Nat) (u : Connector.Change) :
    overwritten c id [.change id u] = c.change u := by
  have hchange : (Step.change id u).change? id = some u := if_pos rfl
  simp only [overwritten, lastWritten_cons, lastWritten_nil, Step.options?, Step.nearestWord?,
    Step.multi?, Step.wordSet?, hchange, Option.bind_some, Connector.change]
  cases u.options <;> rfl

lemma overwritten_setNext (c : Connector) (id : Nat) (next : Option Nat) :
    overwritten c id [.setNext id next] = { c with next := next } := by
  have hnext : (Step.setNext id next).next? id = some next := if_pos rfl
  simp only [overwritten, lastWritten_cons, lastWritten_nil, hnext, Option.getD_some]
  rfl

/-- The limit is the one under the options that were given last, be it when the slot was filled or
later. -/
lemma limit_overwritten (al : Allocation) (id : Nat) (since : List Step) :
    (overwritten al.connector id since).limit =
    Reach.effectiveLimit al.descriptor (lastWritten (Step.options? id) since al.options) :=
  lastWritten_map (Reach.effectiveLimit al.descriptor) al.options

end Writes

variable {a b : Arena} {l : Links} {o : Option RunOptions} {id : Nat} {c : Connector}

section Filling

lemma Links.zip_ids (l : Links) : l.ids.zip (l.map Prod.snd) = l := by
  rw [ids, List.zip_map']
  exact List.map_id l

lemma Linked.walked_eq (h : a.Linked l) : a.walked l.length l.headId = l.ids := by
  have hread := h.readLinks_eq l.length
  rw [List.take_length] at hread
  have hids := congrArg ids hread
  rw [readLinks, ids, List.map_map] at hids
  exact hids

lemma Links.filling?_of_not_mem (h : id ∉ l.ids) : l.filling? o id = none := by
  induction l with
  | nil => rfl
  | cons p rest ih =>
    rw [ids_cons, List.mem_cons, not_or] at h
    rw [filling?, if_neg (Ne.symm h.1), ih h.2]

/-- In a chain that is linked, a connector has the descriptor and the link of its place. -/
lemma Linked.filling?_eq (h : b.Linked l) (hid : id ∈ l.ids) (hc : b.get? id = some c) :
    l.filling? o id = some ⟨c.descriptor, o, c.next⟩ := by
  induction l with
  | nil => cases hid
  | cons p rest ih =>
    obtain ⟨⟨e, he, hd, hnext⟩, hrest⟩ := h
    by_cases hp : p.1 = id
    · rw [hp] at he
      obtain rfl := Option.some.inj (he.symm.trans hc)
      rw [filling?, if_pos hp, hd, hnext]
    · rw [ids_cons, List.mem_cons] at hid
      rw [filling?, if_neg hp]
      exact ih hrest (hid.resolve_left (Ne.symm hp))

/-- Connectors that were not there before are as they were made, up to their links. -/
def Fresh (o : Option RunOptions) (a b : Arena) : Prop :=
  ∀ id c, a.get? id = none → b.get? id = some c →
    c = { Connector.ofDescriptor c.descriptor o with next := c.next }

lemma fresh_self (o : Option RunOptions) (a : Arena) : Fresh o a a := by
  intro id c hdead hc
  rw [hdead] at hc
  cases hc

lemma Fresh.insert (h : Fresh o a b) (hb : b.Tidy) (d : Descriptor) (next : Option Nat) :
    Fresh o a (b.insert { Connector.ofDescriptor d o with next := next }).2 := by
  intro id c hdead hc
  by_cases hid : id = (b.insert { Connector.ofDescriptor d o with next := next }).1
  · rw [hid, hb.get?_insert_self] at hc
    obtain rfl := Option.some.inj hc
    rfl
  · rw [hb.get?_insert_of_ne hid] at hc
    exact h id c hdead hc

lemma Tidy.fresh_newChain (ha : a.Tidy) (ds : List Descriptor) (o : Option RunOptions) :
    Fresh o a (a.newChain ds o).2 := by
  induction ds with
  | nil => exact fresh_self o a
  | cons d ds ih =>
    obtain ⟨_, _, _, hbuilt, _⟩ := ha.built_newChain ds o
    exact ih.insert hbuilt.tidy d (a.newChain ds o).1

lemma Tidy.fresh_new (ha : a.Tidy) (d : Descriptor) (o : Option RunOptions) :
    Fresh o a (a.new d o).2 :=
  (fresh_self o a).insert ha d none

/-- The connectors of some descriptors stand in these slots as they are made, each linked to the
next. -/
structure Filled (o : Option RunOptions) (b : Arena) (ids : List Nat) (ds : List Descriptor) :
    Prop where
  length_eq : ids.length = ds.length
  nodup : ids.Nodup
  get? : ∀ {i id : Nat} {d : Descriptor}, ids[i]? = some id → ds[i]? = some d →
    b.get? id = some { Connector.ofDescriptor d o with next := ids[i + 1]? }

/-- In a chain that is linked, a link leads to the number that follows. -/
lemma Linked.exists_getElem? (h : b.Linked l) {i : Nat} {p : Nat × Descriptor}
    (hp : l[i]? = some p) :
    ∃ c, b.get? p.1 = some c ∧ c.descriptor = p.2 ∧ c.next = l.ids[i + 1]? := by
  induction l generalizing i with
  | nil => cases hp
  | cons q rest ih =>
    obtain ⟨⟨c, hc, hd, hnext⟩, hrest⟩ := h
    cases i with
    | zero =>
      obtain rfl := Option.some.inj hp
      refine ⟨c, hc, hd, hnext.trans ?_⟩
      cases rest <;> rfl
    | succ i => exact ih hrest hp

/-- A chain that has just been made is live from end to end. -/
lemma Built.filled (hb : Built a l b) (hfresh : Fresh o a b) :
    Filled o b l.ids (l.map Prod.snd) where
  length_eq := by rw [length_ids, List.length_map]
  nodup := hb.nodup
  get? {i id d} hid hd := by
    rw [ids, List.getElem?_map, Option.map_eq_some_iff] at hid
    obtain ⟨p, hp, rfl⟩ := hid
    rw [List.getElem?_map, hp, Option.map_some, Option.some.injEq] at hd
    obtain ⟨c, hc, hdescriptor, hnext⟩ := hb.linked.exists_getElem? hp
    have hdead := hb.dead p.1 (List.mem_map_of_mem (List.mem_of_getElem? hp))
    rw [hc, hfresh p.1 c hdead hc, hdescriptor, hnext, hd]

/-- A new connector is live, and so is a new chain, in slots that start at the number given out for
it. -/
lemma Tidy.filled_new (ha : a.Tidy) (d : Descriptor) (o : Option RunOptions) :
    Filled o (a.new d o).2 [(a.new d o).1] [d] := (ha.built_new d o).filled (ha.fresh_new d o)

lemma Tidy.filled_newChain (ha : a.Tidy) (ds : List Descriptor) (o : Option RunOptions) :
    ∃ ids, (a.newChain ds o).1 = ids.head? ∧ Filled o (a.newChain ds o).2 ids ds := by
  obtain ⟨l, rfl, hhead, hbuilt, _⟩ := ha.built_newChain ds o
  exact ⟨l.ids, hhead.trans List.head?_map.symm, hbuilt.filled (ha.fresh_newChain _ o)⟩

/-- A slot has been filled by making a chain, or it is as it was. -/
lemma Built.get?_cases (hb : Built a l b) (hfresh : Fresh o a b) (hc : b.get? id = some c) :
    (∃ al, l.filling? o id = some al ∧ c = al.connector) ∨
      (l.filling? o id = none ∧ a.get? id = some c) := by
  by_cases hid : id ∈ l.ids
  · exact .inl ⟨_, hb.linked.filling?_eq hid hc, hfresh id c (hb.dead id hid) hc⟩
  · rw [hb.kept id hid] at hc
    exact .inr ⟨filling?_of_not_mem hid, hc⟩

end Filling

lemma get?_modify_cases {slot : Nat} {f : Connector → Connector}
    (hc : (a.modify slot f).get? id = some c) :
    (slot = id ∧ ∃ c₀, a.get? id = some c₀ ∧ c = f c₀) ∨ (slot ≠ id ∧ a.get? id = some c) := by
  rw [get?_modify] at hc
  by_cases hslot : slot = id
  · rw [if_pos hslot] at hc
    obtain ⟨c₀, hc₀, heq⟩ := Option.map_eq_some_iff.mp hc
    exact .inl ⟨hslot, c₀, hc₀, heq.symm⟩
  · rw [if_neg hslot] at hc
    exact .inr ⟨hslot, hc⟩

/-- What is found in a slot after a step was put there by the step, or it was there and the step has
written to it. -/
theorem Tidy.step_cases (ha : a.Tidy) (x : Step) (hc : (a.step x).value.2.get? id = some c) :
    (∃ al, a.allocation? id x = some al ∧ c = al.connector) ∨
      (a.allocation? id x = none ∧ ∃ c₀, a.get? id = some c₀ ∧ c = overwritten c₀ id [x]) := by
  -- what the steps have in common that fill no slot
  have hkept : a.allocation? id x = none → a.get? id = some c → overwritten c id [x] = c →
      a.allocation? id x = none ∧ ∃ c₀, a.get? id = some c₀ ∧ c = overwritten c₀ id [x] :=
    fun hnone hc hsame => ⟨hnone, c, hc, hsame.symm⟩
  cases x with
  | new d o =>
    obtain hfilled | ⟨hnone, hc⟩ := (ha.built_new d o).get?_cases (ha.fresh_new d o) hc
    · exact .inl hfilled
    · exact .inr (hkept hnone hc (overwritten_of_silent rfl rfl))
  | newChain ds o =>
    obtain ⟨l, hds, hhead, hbuilt, _⟩ := ha.built_newChain ds o
    have hlength : ds.length = l.length := by rw [← hds, List.length_map]
    have hallocation : a.allocation? id (.newChain ds o) = l.filling? o id := by
      change filling? o id (((a.newChain ds o).2.walked ds.length (a.newChain ds o).1).zip ds) = _
      rw [hhead, hlength, hbuilt.linked.walked_eq, ← hds, zip_ids]
    obtain hfilled | ⟨hnone, hc⟩ := hbuilt.get?_cases (ha.fresh_newChain ds o) hc
    · rw [hallocation]
      exact .inl hfilled
    · exact .inr (hkept (hallocation.trans hnone) hc (overwritten_of_silent rfl rfl))
  | change slot u =>
    obtain ⟨rfl, c₀, hc₀, heq⟩ | ⟨hslot, hc⟩ := get?_modify_cases hc
    · exact .inr ⟨rfl, c₀, hc₀, heq.trans (overwritten_change c₀ slot u).symm⟩
    · exact .inr (hkept rfl hc (overwritten_of_silent (if_neg hslot) rfl))
  | setNext slot next =>
    obtain ⟨rfl, c₀, hc₀, heq⟩ | ⟨hslot, hc⟩ := get?_modify_cases hc
    · exact .inr ⟨rfl, c₀, hc₀, heq.trans (overwritten_setNext c₀ slot next).symm⟩
    · exact .inr (hkept rfl hc (overwritten_of_silent rfl (if_neg hslot)))
  | release head =>
    have hswept := a.swept_release head
    change (a.release head).value.2.get? id = some c at hc
    rw [hswept.get?] at hc
    split at hc
    · cases hc
    · exact .inr (hkept rfl hc (overwritten_of_silent rfl rfl))
  | clear => cases hc
  | get slot | chain head count | matching m n =>
    exact .inr (hkept rfl hc (overwritten_of_silent rfl rfl))

end LinkConnectors.Arena
