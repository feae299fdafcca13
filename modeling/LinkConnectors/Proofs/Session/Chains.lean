import LinkConnectors.Proofs.Arena.Chains
import Mathlib.Algebra.GroupWithZero.Nat
import Mathlib.Data.List.Pairwise

/-! Sessions on one arena that keep account of their chains. A chain is held from its making until
it is released or the arena is cleared. If only held chains are released, and links are left alone,
then every held chain is whole. -/
namespace LinkConnectors.Arena

open Links

/-- An arena with the chains that are held in it, each as it could be read when it was made. -/
structure Holding where
  arena : Arena := {}
  chains : List Links := []

namespace Holding

/-- Links are not written, and what is released is the head of a held chain. -/
def permits (s : Holding) : Step → Bool
  | .setNext _ _ => false
  | .release head => s.chains.any fun l => l.headId == head
  | _ => true

def step (s : Holding) (x : Step) : Holding :=
  let r := (s.arena.step x).value
  match x, r.1 with
  | .new _ _, .id id => ⟨r.2, r.2.readLinks 1 (some id) :: s.chains⟩
  | .newChain ds _, .head head => ⟨r.2, r.2.readLinks ds.length head :: s.chains⟩
  | .release head, _ => ⟨r.2, s.chains.eraseP fun l => l.headId == head⟩
  | .clear, _ => ⟨r.2, []⟩
  | _, _ => ⟨r.2, s.chains⟩

def after (s : Holding) (xs : List Step) : Holding := xs.foldl step s

/-- Every step is permitted when it is taken. -/
def permitsAll (s : Holding) : List Step → Bool
  | [] => true
  | x :: xs => s.permits x && (s.step x).permitsAll xs

/-- What holds of the chains at every point. -/
structure Intact (s : Holding) : Prop where
  /-- A chain reads as it was made, and ends where it ended. -/
  reads : ∀ l ∈ s.chains, ∀ count, s.arena.readLinks count l.headId = l.take count
  nodup : ∀ l ∈ s.chains, l.ids.Nodup
  disjoint : s.chains.Pairwise fun l m => l.ids.Disjoint m.ids
  size : s.arena.size = (s.chains.map List.length).sum

/-- The invariant: the held chains are linked, share no slots, and take up all slots that are in
use. -/
structure Sound (s : Holding) : Prop where
  tidy : s.arena.Tidy
  linked : ∀ l ∈ s.chains, s.arena.Linked l
  nodup : (s.chains.flatMap ids).Nodup
  size : s.arena.size = (s.chains.flatMap ids).length

variable {s : Holding} {l : Links} {b : Arena}

theorem sound_empty : Sound {} := ⟨tidy_empty, by simp, List.nodup_nil, rfl⟩

namespace Sound

lemma intact (hs : s.Sound) : s.Intact where
  reads l hl := (hs.linked l hl).readLinks_eq
  nodup := (List.nodup_flatMap.mp hs.nodup).1
  disjoint := (List.nodup_flatMap.mp hs.nodup).2
  size := by
    rw [hs.size, List.length_flatMap]
    simp only [length_ids]

/-- No live number is lost to a held chain by making another one. -/
lemma build (hs : s.Sound) (hb : Built s.arena l b) : Sound ⟨b, l :: s.chains⟩ := by
  have hnew : ∀ m ∈ s.chains, ∀ id ∈ m.ids, id ∉ l.ids := by
    intro m hm id hid hmem
    obtain ⟨c, hc⟩ := (hs.linked m hm).live hid
    rw [hb.dead id hmem] at hc
    cases hc
  constructor
  · exact hb.tidy
  · intro m hm
    obtain rfl | hm := List.mem_cons.mp hm
    · exact hb.linked
    · exact (hs.linked m hm).congr_get? fun id hid => hb.kept id (hnew m hm id hid)
  · rw [List.flatMap_cons, List.nodup_append']
    refine ⟨hb.nodup, hs.nodup, fun id hl hchains => ?_⟩
    obtain ⟨m, hm, hid⟩ := List.mem_flatMap.mp hchains
    exact hnew m hm id hid hl
  · change b.size = _
    rw [hb.size, hs.size, List.flatMap_cons, List.length_append, length_ids, Nat.add_comm]

/-- Chains that are not released share no slot with the one that is. -/
lemma release (hs : s.Sound) {before after : List Links} (hchains : s.chains = before ++ l :: after)
    (hb : Released s.arena l b) : Sound ⟨b, before ++ after⟩ := by
  have hnodup := hs.nodup
  have hsize := hs.size
  rw [hchains, List.flatMap_append, List.flatMap_cons] at hnodup hsize
  -- the released chain is taken to the front of all live numbers and cut off there
  have hperm : ((before.flatMap ids) ++ (l.ids ++ after.flatMap ids)).Perm
      (l.ids ++ (before ++ after).flatMap ids) := by
    rw [List.flatMap_append]
    exact List.perm_append_comm_assoc _ _ _
  rw [hperm.nodup_iff, List.nodup_append'] at hnodup
  obtain ⟨_, hrest, hdisjoint⟩ := hnodup
  have hmem : ∀ m ∈ before ++ after, m ∈ s.chains := by
    intro m hm
    rw [hchains]
    exact ((List.sublist_cons_self l after).append_left before).subset hm
  constructor
  · exact hb.tidy
  · intro m hm
    refine (hs.linked m (hmem m hm)).congr_get? fun id hid => hb.kept id fun hl => ?_
    exact hdisjoint hl (List.mem_flatMap.mpr ⟨m, hm, hid⟩)
  · exact hrest
  · have := hb.size
    rw [hperm.length_eq, List.length_append, length_ids] at hsize
    change b.size = ((before ++ after).flatMap ids).length
    omega

/-- Writing to a connector leaves its descriptor and its link alone. -/
lemma change (hs : s.Sound) (id : Nat) (u : Connector.Change) :
    Sound ⟨s.arena.modify id fun c => c.change u, s.chains⟩ := by
  refine ⟨hs.tidy.modify id _, fun m hm => ?_, hs.nodup, ?_⟩
  · refine (hs.linked m hm).congr fun other _ c hc => ?_
    rw [get?_modify]
    by_cases h : id = other
    · rw [if_pos h, hc]
      exact ⟨_, rfl, rfl, rfl⟩
    · rw [if_neg h]
      exact ⟨c, hc, rfl, rfl⟩
  · change (s.arena.modify id _).size = _
    rw [size_modify]
    exact hs.size

lemma step_new (hs : s.Sound) (d : Descriptor) (o : Option RunOptions) :
    s.step (.new d o) = ⟨(s.arena.new d o).2, [((s.arena.new d o).1, d)] :: s.chains⟩ := by
  have hread := (hs.tidy.built_new d o).linked.readLinks_eq 1
  change (⟨(s.arena.new d o).2,
    (s.arena.new d o).2.readLinks 1 (some (s.arena.new d o).1) :: s.chains⟩ :
    Holding) = _
  rw [headId_cons] at hread
  rw [hread]
  rfl

lemma step_newChain (hs : s.Sound) (ds : List Descriptor) (o : Option RunOptions) :
    ∃ l : Links, l.map Prod.snd = ds ∧ (s.arena.newChain ds o).1 = l.headId ∧
      (s.arena.newChain ds o).2.readLinks ds.length (s.arena.newChain ds o).1 = l ∧
      Built s.arena l (s.arena.newChain ds o).2 := by
  obtain ⟨l, hds, hhead, hbuilt, _⟩ := hs.tidy.built_newChain ds o
  refine ⟨l, hds, hhead, ?_, hbuilt⟩
  have hlength : l.length = ds.length := by rw [← hds, List.length_map]
  rw [hhead, hbuilt.linked.readLinks_eq, ← hlength, List.take_length]

theorem step (hs : s.Sound) {x : Step} (hx : s.permits x = true) : (s.step x).Sound := by
  cases x with
  | new d o =>
    rw [hs.step_new]
    exact hs.build (hs.tidy.built_new d o)
  | newChain ds o =>
    obtain ⟨l, _, _, hread, hbuilt⟩ := hs.step_newChain ds o
    change Sound ⟨(s.arena.newChain ds o).2,
      (s.arena.newChain ds o).2.readLinks ds.length (s.arena.newChain ds o).1 :: s.chains⟩
    rw [hread]
    exact hs.build hbuilt
  | change id u => exact hs.change id u
  | setNext id next => cases hx
  | release head =>
    obtain ⟨m, hm, hmhead⟩ := List.any_eq_true.mp hx
    obtain ⟨l, before, after, _, hhead, hchains, herase⟩ :=
      List.exists_of_eraseP (p := fun m => m.headId == head) hm hmhead
    have hl : l ∈ s.chains := by
      rw [hchains]
      exact List.mem_append_right before List.mem_cons_self
    have hlinked := hs.linked l hl
    obtain ⟨b, hb, hreleased⟩ :=
      hlinked.release_eq hs.tidy ((List.nodup_flatMap.mp hs.nodup).1 l hl)
    rw [beq_iff_eq.mp hhead] at hb
    change Sound ⟨(s.arena.release head).value.2, s.chains.eraseP fun l => l.headId == head⟩
    rw [hb, herase]
    exact hs.release hchains hreleased
  | clear => exact sound_empty
  | get id | chain head count | matching m n => exact hs

theorem after (hs : s.Sound) {xs : List Step} (hxs : s.permitsAll xs = true) :
    (s.after xs).Sound := by
  induction xs generalizing s with
  | nil => exact hs
  | cons x xs ih =>
    obtain ⟨hx, hxs⟩ := Bool.and_eq_true_iff.mp hxs
    exact ih (hs.step hx) hxs

end Sound

end Holding

/-- At every point of every session that releases held chains only and leaves links alone, every
held chain is whole, all numbers that are given out were not live, and releasing a chain frees that
chain and no more. -/
theorem held_chains_intact (xs : List Step) (hxs : Holding.permitsAll {} xs = true) :
    let s := Holding.after {} xs
    s.Intact ∧
      (∀ d o, let r := s.arena.new d o
        s.arena.get? r.1 = none ∧ r.2.readLinks 1 (some r.1) = [(r.1, d)]) ∧
      (∀ ds o, let r := s.arena.newChain ds o
        let l := r.2.readLinks ds.length r.1
        l.map Prod.snd = ds ∧ l.headId = r.1 ∧ ∀ id ∈ l.ids, s.arena.get? id = none) ∧
      ∀ l ∈ s.chains, let r := s.arena.release l.headId
        r.value.1 = l.length ∧ r.events = [] ∧
          ∀ m ∈ s.chains, m ≠ l → ∀ count,
            r.value.2.chain count m.headId = s.arena.chain count m.headId := by
  intro s
  have hs : s.Sound := Holding.sound_empty.after hxs
  refine ⟨hs.intact, fun d o => ?_, fun ds o => ?_, fun l hl => ?_⟩
  · have hbuilt := hs.tidy.built_new d o
    exact ⟨hbuilt.dead _ (by simp), hbuilt.linked.readLinks_eq 1⟩
  · obtain ⟨l, hds, hhead, hread, hbuilt⟩ := hs.step_newChain ds o
    dsimp only
    rw [hread]
    exact ⟨hds, hhead.symm, hbuilt.dead⟩
  · obtain ⟨b, hb, hreleased⟩ := (hs.linked l hl).release_eq hs.tidy (hs.intact.nodup l hl)
    rw [hb]
    refine ⟨rfl, rfl, fun m hm hne count => ?_⟩
    have : Std.Symm fun l m : Links => l.ids.Disjoint m.ids := ⟨fun _ _ h _ hm hl => h hl hm⟩
    have hdisjoint := hs.intact.disjoint.forall hl hm hne.symm
    exact (hs.linked m hm).chain_congr
      (fun id hid => hreleased.kept id fun h => hdisjoint h hid) count

/-- The slots of a released chain of two come back in a chain of three, in front of a fresh one. -/
theorem chains_of_reused_slots :
    let d : Descriptor := ⟨⟨0, 0, "O"⟩, Hash.ofName "O", ⟨.unmarked, "O", "", .clear⟩, none, 0⟩
    let s :=
      Holding.after {} [.newChain [d, d] none, .new d none, .release (some 1),
        .newChain [d, d, d] none]
    s.chains.map Links.ids = [[3, 1, 0], [2]] ∧ s.Intact := by
  intro d s
  exact ⟨by decide +kernel, (held_chains_intact _ (by decide +kernel)).1⟩

end LinkConnectors.Arena
