import LinkConnectors.Proofs.Arena.Slots

/-! Releasing along links that lead anywhere. Chains may share their ends, go round in circles or
run into slots that are dead or used again. Releasing frees what a walk along the links comes by,
and comes to an end even where the walk does not, since it takes away the connectors on its way. -/
namespace LinkConnectors.Arena

variable {a b : Arena} {head : Option Nat} {id other : Nat} {c : Connector}

/-- The numbers of the first `count` connectors of a chain, in the order of the walk. -/
def walked (a : Arena) (count : Nat) (head : Option Nat) : List Nat :=
  (a.chain count head).map Prod.fst

/-- A walk along the links comes by this number at some time. -/
def Visits (a : Arena) (head : Option Nat) (id : Nat) : Prop := ∃ count, id ∈ a.walked count head

section Walk

@[simp] lemma walked_zero (a : Arena) (head : Option Nat) : a.walked 0 head = [] := rfl

@[simp] lemma walked_none (a : Arena) (count : Nat) : a.walked count none = [] := by
  cases count <;> rfl

lemma walked_of_dead (h : a.get? id = none) (count : Nat) : a.walked count (some id) = [] := by
  cases count with
  | zero => rfl
  | succ count =>
    rw [walked, chain, h]
    rfl

lemma walked_succ (hc : a.get? id = some c) (count : Nat) :
    a.walked (count + 1) (some id) = id :: a.walked count c.next := by
  rw [walked, chain, hc]
  rfl

lemma length_walked_le (a : Arena) (count : Nat) (head : Option Nat) :
    (a.walked count head).length ≤ count := by
  induction count generalizing head with
  | zero => exact Nat.le_refl 0
  | succ count ih =>
    cases head with
    | none => exact Nat.zero_le _
    | some id =>
      cases hc : a.get? id with
      | none =>
        rw [walked_of_dead hc]
        exact Nat.zero_le _
      | some c =>
        rw [walked_succ hc, List.length_cons]
        exact Nat.succ_le_succ (ih c.next)

lemma not_visits_none (a : Arena) (id : Nat) : ¬ a.Visits none id := by
  rintro ⟨count, hid⟩
  rw [walked_none] at hid
  cases hid

lemma not_visits_of_dead (h : a.get? id = none) (other : Nat) : ¬ a.Visits (some id) other := by
  rintro ⟨count, hother⟩
  rw [walked_of_dead h] at hother
  cases hother

lemma visits_self (hc : a.get? id = some c) : a.Visits (some id) id :=
  ⟨1, by rw [walked_succ hc]; exact List.mem_cons_self⟩

lemma Visits.of_next (h : a.Visits c.next other) (hc : a.get? id = some c) :
    a.Visits (some id) other := by
  obtain ⟨count, hother⟩ := h
  exact ⟨count + 1, by rw [walked_succ hc]; exact List.mem_cons_of_mem id hother⟩

/-- A walk comes by live numbers only. -/
theorem Visits.live (h : a.Visits head id) : ∃ c, a.get? id = some c := by
  obtain ⟨count, hid⟩ := h
  induction count generalizing head with
  | zero => cases hid
  | succ count ih =>
    cases head with
    | none => cases hid
    | some other =>
      cases hc : a.get? other with
      | none =>
        rw [walked_of_dead hc] at hid
        cases hid
      | some c =>
        rw [walked_succ hc] at hid
        obtain rfl | hid := List.mem_cons.mp hid
        · exact ⟨c, hc⟩
        · exact ih hid

end Walk

section Freed

/-- What is live here is live there, with the same content. -/
def Within (b a : Arena) : Prop :=
  ∀ (id : Nat) (c : Connector), b.get? id = some c → a.get? id = some c

lemma within_freed (a : Arena) (id : Nat) : Within (a.freed id) a := by
  intro other c hc
  have hne : other ≠ id := by
    rintro rfl
    rw [get?_freed_self] at hc
    cases hc
  rwa [get?_freed_of_ne hne] at hc

/-- With fewer connectors a walk goes the same way, and may end earlier. -/
lemma Within.prefix_walked (h : Within b a) (count : Nat) (head : Option Nat) :
    b.walked count head <+: a.walked count head := by
  induction count generalizing head with
  | zero => exact List.prefix_rfl
  | succ count ih =>
    cases head with
    | none => exact List.prefix_rfl
    | some id =>
      cases hc : b.get? id with
      | none =>
        rw [walked_of_dead hc]
        exact List.nil_prefix
      | some c =>
        rw [walked_succ hc, walked_succ (h id c hc), List.cons_prefix_cons]
        exact ⟨rfl, ih c.next⟩

lemma Within.visits (h : Within b a) (hid : b.Visits head id) : a.Visits head id := by
  obtain ⟨count, hid⟩ := hid
  exact ⟨count, (h.prefix_walked count head).subset hid⟩

/-- Without one connector, a walk ends where that connector was. What came behind it is found by
walking on from there. -/
lemma visits_cases (hc : a.get? id = some c) (h : a.Visits head other) :
    other = id ∨ (a.freed id).Visits head other ∨ (a.freed id).Visits c.next other := by
  obtain ⟨count, hother⟩ := h
  induction count generalizing head with
  | zero => cases hother
  | succ count ih =>
    cases head with
    | none => cases hother
    | some start =>
      cases he : a.get? start with
      | none =>
        rw [walked_of_dead he] at hother
        cases hother
      | some e =>
        rw [walked_succ he] at hother
        by_cases hstart : start = id
        · subst hstart
          obtain rfl := Option.some.inj (hc.symm.trans he)
          obtain heq | hother := List.mem_cons.mp hother
          · exact .inl heq
          · obtain heq | hvisits | hvisits := ih hother
            · exact .inl heq
            · exact .inr (.inr hvisits)
            · exact .inr (.inr hvisits)
        · have hkept : (a.freed id).get? start = some e := (get?_freed_of_ne hstart).trans he
          obtain rfl | hother := List.mem_cons.mp hother
          · exact .inr (.inl (visits_self hkept))
          · obtain heq | hvisits | hvisits := ih hother
            · exact .inl heq
            · exact .inr (.inl (hvisits.of_next hkept))
            · exact .inr (.inr hvisits)

/-- Taking away the connector at the head takes its number from the walk, and nothing else. -/
theorem visits_iff_freed (hc : a.get? id = some c) (other : Nat) :
    a.Visits (some id) other ↔ other = id ∨ (a.freed id).Visits c.next other := by
  constructor
  · intro h
    obtain heq | hvisits | hvisits := visits_cases hc h
    · exact .inl heq
    · exact absurd hvisits (not_visits_of_dead (get?_freed_self a id) other)
    · exact .inr hvisits
  · rintro (rfl | hvisits)
    · exact visits_self hc
    · exact ((within_freed a id).visits hvisits).of_next hc

end Freed

section Release

/-- What it takes to have released everything that a walk comes by: as many connectors of the walk
as were counted, none of them twice, and nothing but these. -/
structure Swept (a : Arena) (head : Option Nat) (count : Nat) (b : Arena) : Prop where
  length : (a.walked count head).length = count
  nodup : (a.walked count head).Nodup
  mem_iff : ∀ id, id ∈ a.walked count head ↔ a.Visits head id
  free : b.free = (a.walked count head).reverse ++ a.free
  slots : b.slots.size = a.slots.size
  get? : ∀ id, b.get? id = if id ∈ a.walked count head then none else a.get? id
  size : b.size + count = a.size

lemma swept_of_not_visits (h : ∀ id, ¬ a.Visits head id) : Swept a head 0 a := by
  refine ⟨rfl, List.nodup_nil, fun id => ?_, rfl, rfl, fun id => rfl, rfl⟩
  rw [walked_zero]
  exact iff_of_false List.not_mem_nil (h id)

/-- The head is freed first, and the rest of the walk is swept without it. -/
lemma Swept.cons {count : Nat} (hc : a.get? id = some c) (h : Swept (a.freed id) c.next count b) :
    Swept a (some id) (count + 1) b := by
  -- the walk that was swept is as long as the walk before can be, so it is all of it
  have hwalked : (a.freed id).walked count c.next = a.walked count c.next := by
    have hprefix := (within_freed a id).prefix_walked count c.next
    refine hprefix.eq_of_length (Nat.le_antisymm hprefix.length_le ?_)
    rw [h.length]
    exact a.length_walked_le count c.next
  have hids : a.walked (count + 1) (some id) = id :: (a.freed id).walked count c.next := by
    rw [walked_succ hc, hwalked]
  have hnew : id ∉ (a.freed id).walked count c.next := by
    intro hmem
    obtain ⟨e, he⟩ := ((h.mem_iff id).mp hmem).live
    rw [get?_freed_self] at he
    cases he
  constructor
  · rw [hids, List.length_cons, h.length]
  · rw [hids, List.nodup_cons]
    exact ⟨hnew, h.nodup⟩
  · intro other
    rw [hids, List.mem_cons, h.mem_iff, visits_iff_freed hc]
  · rw [hids, h.free, List.reverse_cons, List.append_assoc]
    rfl
  · rw [h.slots]
    exact Array.size_setIfInBounds
  · intro other
    rw [hids, h.get?]
    by_cases hother : other = id
    · rw [hother, if_neg hnew, if_pos List.mem_cons_self, get?_freed_self]
    · simp only [List.mem_cons, hother, false_or]
      rw [get?_freed_of_ne hother]
  · have hsize := size_remove? (remove?_of_get? hc)
    have := h.size
    omega

/-- Whatever the links are, releasing sweeps the walk. -/
theorem swept_release (a : Arena) (head : Option Nat) :
    Swept a head (a.release head).value.1 (a.release head).value.2 := by
  induction a, head using Arena.release.induct with
  | case1 a =>
    rw [release_none]
    exact swept_of_not_visits a.not_visits_none
  | case2 a id hnone =>
    rw [release_of_remove?_eq_none hnone]
    exact swept_of_not_visits (not_visits_of_dead (remove?_eq_none_iff.mp hnone))
  | case3 a id c rest hsome _ ih =>
    obtain ⟨hc, rfl⟩ := remove?_eq_some_iff.mp hsome
    rw [release_of_remove?_eq_some hsome]
    exact ih.cons hc

/-- The head of what was released is dead. -/
lemma Swept.head_dead {count : Nat} (h : Swept a (some id) count b) : b.get? id = none := by
  rw [h.get?]
  cases hc : a.get? id with
  | none => exact ite_self none
  | some c => exact if_pos ((h.mem_iff id).mpr (visits_self hc))

/-- Releasing the same head once more finds nothing. -/
lemma Swept.release_again {count : Nat} (h : Swept a head count b) :
    b.release head = ⟨(0, b), head.toList.map .chainAlreadyReleased⟩ := by
  cases head with
  | none => exact b.release_none
  | some id => exact release_of_remove?_eq_none (remove?_eq_none_iff.mpr h.head_dead)

end Release

end LinkConnectors.Arena
