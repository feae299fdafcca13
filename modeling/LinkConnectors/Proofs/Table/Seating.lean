import LinkConnectors.Proofs.Table.Walk
import LinkConnectors.Table.Intern
import Mathlib.Data.Fintype.Card

/-! How numbers sit in the slots. Every number is kept once, and no slot is empty between the slot
that its hash selects and the slot where it sits. Walks find what sits like this, and filling the
slot where a walk meets the first empty one keeps it. -/
namespace LinkConnectors.Table

/-- The first `n` slots from slot `i` on are all taken. -/
def Unbroken (slots : Array (Option Nat)) (i n : Nat) : Prop :=
  ∀ m < n, ∃ id, slots[slotAfter slots i m]? = some (some id)

/-- The number sits in a slot, and no slot is empty on the way there from the slot of the hash. -/
def Seated (slots : Array (Option Nat)) (hash : UInt32) (id : Nat) : Prop :=
  ∃ n < slots.size, slots[slotAfter slots (home slots hash) n]? = some (some id) ∧
    Unbroken slots (home slots hash) n

/-- The slots hold the given numbers and no others. -/
structure Seating (descriptors : Array Descriptor) (slots : Array (Option Nat)) (ids : Nat → Prop) :
    Prop where
  held : ∀ {i id : Nat}, slots[i]? = some (some id) → ids id
  once : ∀ {i j id : Nat}, slots[i]? = some (some id) → slots[j]? = some (some id) → i = j
  seated : ∀ {id : Nat} {d : Descriptor}, ids id → descriptors[id]? = some d →
    Seated slots d.hash id

@[simp] lemma slotAfter_setIfInBounds (slots : Array (Option Nat)) (p : Nat) (a : Option Nat) :
    slotAfter (slots.setIfInBounds p a) = slotAfter slots := by
  funext i n
  simp [slotAfter]

@[simp] lemma home_setIfInBounds (slots : Array (Option Nat)) (p : Nat) (a : Option Nat) :
    home (slots.setIfInBounds p a) = home slots := by
  funext hash
  simp [home]

lemma Passed.unbroken {slots : Array (Option Nat)} {judge : Nat → Verdict} {i n : Nat}
    (h : Passed slots judge i n) : Unbroken slots i n := by
  intro m hm
  obtain ⟨id, hslot, _⟩ := h m hm
  exact ⟨id, hslot⟩

section Fill

variable {slots : Array (Option Nat)} {p id : Nat}

/-- Filling an empty slot leaves every other number where it is. -/
lemma getElem?_fill_of_some {q other : Nat} (hp : slots[p]? = some none)
    (hq : slots[q]? = some (some other)) :
    (slots.setIfInBounds p (some id))[q]? = some (some other) := by
  have hne : p ≠ q := by
    rintro rfl
    rw [hp] at hq
    cases hq
  rw [Array.getElem?_setIfInBounds_ne hne, hq]

lemma getElem?_fill_self (hp : slots[p]? = some none) :
    (slots.setIfInBounds p (some id))[p]? = some (some id) := by
  obtain ⟨hlt, _⟩ := Array.getElem?_eq_some_iff.mp hp
  simp [hlt]

lemma eq_or_of_getElem?_fill {q other : Nat}
    (hq : (slots.setIfInBounds p (some id))[q]? = some (some other)) :
    (q = p ∧ other = id) ∨ slots[q]? = some (some other) := by
  by_cases h : p = q
  · subst h
    rw [Array.getElem?_setIfInBounds_self] at hq
    split at hq
    · left
      exact ⟨rfl, (Option.some.inj (Option.some.inj hq)).symm⟩
    · cases hq
  · right
    rwa [Array.getElem?_setIfInBounds_ne h] at hq

lemma Unbroken.fill {i n : Nat} (hp : slots[p]? = some none) (h : Unbroken slots i n) :
    Unbroken (slots.setIfInBounds p (some id)) i n := by
  intro m hm
  obtain ⟨other, hslot⟩ := h m hm
  refine ⟨other, ?_⟩
  rw [slotAfter_setIfInBounds]
  exact getElem?_fill_of_some hp hslot

lemma Seated.fill {hash : UInt32} {other : Nat} (hp : slots[p]? = some none)
    (h : Seated slots hash other) : Seated (slots.setIfInBounds p (some id)) hash other := by
  obtain ⟨n, hn, hslot, hway⟩ := h
  refine ⟨n, by simpa using hn, ?_, ?_⟩
  · rw [slotAfter_setIfInBounds, home_setIfInBounds]
    exact getElem?_fill_of_some hp hslot
  · rw [home_setIfInBounds]
    exact hway.fill hp

end Fill

namespace Seating

variable {descriptors : Array Descriptor} {slots : Array (Option Nat)} {ids : Nat → Prop}

/-- The first empty slot after the slot of its hash is the place for a new number. -/
theorem fill (hs : Seating descriptors slots ids) {n id : Nat} {d : Descriptor}
    (hn : n < slots.size) (hv : slots[slotAfter slots (home slots d.hash) n]? = some none)
    (hway : Unbroken slots (home slots d.hash) n) (hd : descriptors[id]? = some d)
    (hid : ¬ ids id) :
    Seating descriptors
      (slots.setIfInBounds (slotAfter slots (home slots d.hash) n) (some id))
      (fun j => ids j ∨ j = id) where
  held h := by
    obtain ⟨_, rfl⟩ | h := eq_or_of_getElem?_fill h
    · exact .inr rfl
    · exact .inl (hs.held h)
  once {i j other} hi hj := by
    obtain ⟨hip, heq⟩ | hi' := eq_or_of_getElem?_fill hi
    · obtain ⟨hjp, _⟩ | hj' := eq_or_of_getElem?_fill hj
      · exact hip.trans hjp.symm
      · exact absurd (heq ▸ hs.held hj') hid
    · obtain ⟨_, heq⟩ | hj' := eq_or_of_getElem?_fill hj
      · exact absurd (heq ▸ hs.held hi') hid
      · exact hs.once hi' hj'
  seated {other e} h he := by
    obtain h | rfl := h
    · exact (hs.seated h he).fill hv
    · obtain rfl : d = e := Option.some.inj (hd.symm.trans he)
      refine ⟨n, by simpa using hn, ?_, ?_⟩
      · rw [slotAfter_setIfInBounds, home_setIfInBounds]
        exact getElem?_fill_self hv
      · rw [home_setIfInBounds]
        exact hway.fill hv

/-- With fewer numbers than slots, some slot is empty. -/
theorem exists_vacant (hs : Seating descriptors slots ids) {bound : Nat}
    (hids : ∀ id, ids id → id < bound)
    (hbound : bound < slots.size) : ∃ i : Nat, slots[i]? = some none := by
  by_contra hnone
  push Not at hnone
  have htaken : ∀ i : Fin slots.size, ∃ id : Fin bound, slots[i.val]? = some (some id.val) := by
    intro i
    have hslot : slots[i.val]? = some slots[i] := Array.getElem?_eq_getElem i.isLt
    cases hc : slots[i] with
    | none => exact absurd (hc ▸ hslot) (hnone i)
    | some id =>
      rw [hc] at hslot
      exact ⟨⟨id, hids id (hs.held hslot)⟩, hslot⟩
  choose f hf using htaken
  have hinj : Function.Injective f := by
    intro i j hij
    have hj := hf j
    rw [← hij] at hj
    exact Fin.ext (hs.once (hf i) hj)
  have hcard := Fintype.card_le_of_injective f hinj
  simp only [Fintype.card_fin] at hcard
  omega

end Seating

section Find

variable {descriptors : Array Descriptor} {slots : Array (Option Nat)} {ids : Nat → Prop}

lemma judgeText_of_getElem? {id : Nat} {d : Descriptor} (hd : descriptors[id]? = some d)
    (s : String) :
    judgeText descriptors s id = if d.text = s then .here else .elsewhere := by
  simp [judgeText, hd]

lemma text_of_judgeText_here {id : Nat} {d : Descriptor} {s : String}
    (hd : descriptors[id]? = some d) (h : judgeText descriptors s id = .here) : d.text = s := by
  by_contra hne
  rw [judgeText_of_getElem? hd, if_neg hne] at h
  cases h

lemma judgeText_ne_foreign (descriptors : Array Descriptor) (s : String) (id : Nat) :
    judgeText descriptors s id ≠ .foreign := by
  unfold judgeText
  split
  · simp
  · split <;> simp

/-- A walk for a text ends at a number only if this is the text of its descriptor. -/
lemma Seating.text_of_held (hs : Seating descriptors slots ids)
    (hids : ∀ id, ids id → id < descriptors.size)
    {s : String} {hash : UInt32} {p other : Nat} (hpos : 0 < slots.size)
    (hl : walkFromHome slots (judgeText descriptors s) hash = .held p other) :
    ∃ e, ids other ∧ descriptors[other]? = some e ∧ e.text = s := by
  have hreach := walkFromHome_reached hpos (judgeText descriptors s) hash
  rw [hl] at hreach
  obtain ⟨_, _, _, _, hslot, hjudge⟩ := hreach
  have hid := hs.held hslot
  have he := Array.getElem?_eq_getElem (hids other hid)
  exact ⟨_, hid, he, text_of_judgeText_here he hjudge⟩

lemma walkFromHome_ne_foreign (hpos : 0 < slots.size) (s : String) (hash : UInt32) (other : Nat) :
    walkFromHome slots (judgeText descriptors s) hash ≠ .foreign other := by
  intro hl
  have hreach := walkFromHome_reached hpos (judgeText descriptors s) hash
  rw [hl] at hreach
  obtain ⟨_, _, _, _, hjudge⟩ := hreach
  exact judgeText_ne_foreign _ _ _ hjudge

/-- A walk does not pass the number it looks for. -/
lemma Seating.not_passed (hs : Seating descriptors slots ids) {id n : Nat} {d : Descriptor}
    (hid : ids id) (hd : descriptors[id]? = some d)
    (hn : Passed slots (judgeText descriptors d.text) (home slots d.hash) n)
    (hstop : n = slots.size ∨ slots[slotAfter slots (home slots d.hash) n]? = some none) :
    False := by
  obtain ⟨m, hm, hslot, hway⟩ := hs.seated hid hd
  obtain hlt | hge := Nat.lt_or_ge m n
  · obtain ⟨other, hother, hjudge⟩ := hn m hlt
    rw [hslot] at hother
    obtain rfl : id = other := Option.some.inj (Option.some.inj hother)
    rw [judgeText_of_getElem? hd, if_pos rfl] at hjudge
    cases hjudge
  · obtain rfl | hnone := hstop
    · omega
    · obtain heq | hlt := Nat.eq_or_lt_of_le hge
      · rw [heq, hslot] at hnone
        cases hnone
      · obtain ⟨other, hother⟩ := hway n hlt
        rw [hnone] at hother
        cases hother

/-- A walk for the name of a number that sits in the slots ends there. -/
theorem Seating.walkFromHome_held (hs : Seating descriptors slots ids) (hpos : 0 < slots.size)
    (hdistinct : ∀ {i j : Nat} {a b : Descriptor}, descriptors[i]? = some a →
      descriptors[j]? = some b →
      a.text = b.text → i = j)
    (hids : ∀ id, ids id → id < descriptors.size) {id : Nat} {d : Descriptor}
    (hid : ids id) (hd : descriptors[id]? = some d) :
    ∃ p, walkFromHome slots (judgeText descriptors d.text) d.hash = .held p id := by
  have hreach := walkFromHome_reached hpos (judgeText descriptors d.text) d.hash
  cases hl : walkFromHome slots (judgeText descriptors d.text) d.hash with
  | held p other =>
    obtain ⟨e, _, he, htext⟩ := hs.text_of_held hids hpos hl
    exact ⟨p, by rw [hdistinct he hd htext]⟩
  | vacant p =>
    rw [hl] at hreach
    obtain ⟨n, _, hpassed, rfl, hnone⟩ := hreach
    exact (hs.not_passed hid hd hpassed (.inr hnone)).elim
  | foreign other => exact absurd hl (walkFromHome_ne_foreign hpos _ _ _)
  | nowhere =>
    rw [hl] at hreach
    exact (hs.not_passed hid hd hreach (.inl rfl)).elim

/-- A walk for a name that no number in the slots has ends at an empty slot, where it belongs. -/
theorem Seating.walkFromHome_vacant (hs : Seating descriptors slots ids)
    (hvacant : ∃ i : Nat, slots[i]? = some none) {s : String} (hash : UInt32)
    (hids : ∀ id, ids id → id < descriptors.size)
    (hnew : ∀ (id : Nat) (d : Descriptor), ids id → descriptors[id]? = some d → d.text ≠ s) :
    ∃ n < slots.size, walkFromHome slots (judgeText descriptors s) hash =
        .vacant (slotAfter slots (home slots hash) n) ∧
      slots[slotAfter slots (home slots hash) n]? = some none ∧
      Unbroken slots (home slots hash) n := by
  obtain ⟨i, hi⟩ := hvacant
  obtain ⟨hlt, _⟩ := Array.getElem?_eq_some_iff.mp hi
  have hpos : 0 < slots.size := by omega
  have hreach := walkFromHome_reached hpos (judgeText descriptors s) hash
  cases hl : walkFromHome slots (judgeText descriptors s) hash with
  | held p other =>
    obtain ⟨e, hid, he, htext⟩ := hs.text_of_held hids hpos hl
    exact absurd htext (hnew other e hid he)
  | vacant p =>
    rw [hl] at hreach
    obtain ⟨n, hn, hpassed, rfl, hnone⟩ := hreach
    exact ⟨n, hn, rfl, hnone, hpassed.unbroken⟩
  | foreign other => exact absurd hl (walkFromHome_ne_foreign hpos _ _ _)
  | nowhere =>
    rw [hl] at hreach
    exact absurd hi (Passed.not_vacant (home_lt hpos hash) hreach i)

end Find

end LinkConnectors.Table
