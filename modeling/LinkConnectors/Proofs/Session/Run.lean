import LinkConnectors.Proofs.Table.Sound
import LinkConnectors.Session.Table
import Mathlib.Logic.Relation

/-! Whole sessions. A session begins with an empty table and a size hint, and its table is sound
after any steps in any order. -/
namespace LinkConnectors.TableSession

/-- A new session whose table is to be sized for `count` names. -/
def start (count : Nat) : TableSession := { table := .ofExpected count }

/-- The session that the steps lead to. -/
def after (s : TableSession) (xs : List Step) : TableSession :=
  xs.foldl (fun s x => (s.step x).value.2) s

@[simp] lemma after_nil (s : TableSession) : s.after [] = s := rfl

@[simp] lemma after_cons (s : TableSession) (x : Step) (xs : List Step) :
    s.after (x :: xs) = (s.step x).value.2.after xs := rfl

lemma after_append (s : TableSession) (xs ys : List Step) :
    s.after (xs ++ ys) = (s.after xs).after ys := List.foldl_append

lemma table_after_group (s : TableSession) (xs : List Step) :
    (s.after (xs ++ [.group])).table = (s.after xs).table.group.value := by
  rw [after_append]
  rfl

/-- The moves that the steps of a session are made of. -/
inductive Move (s : TableSession) : TableSession → Prop
  | expect (count : Nat) : Move s { s with table := (s.table.expect count).value }
  | intern (name : String) : Move s (s.intern name).value.2
  | group : Move s { s with table := s.table.group.value }
  | stamp (hg : s.table.grouped = true) : Move s
    { s with table := (s.registry.stamp s.table).value }
  | register (registry : Reach.Registry) : Move s { s with registry := registry }

/-- Any number of moves. -/
def Moves : TableSession → TableSession → Prop := Relation.ReflTransGen Move

variable {s u : TableSession}

section Moves

lemma Move.moves (h : Move s u) : Moves s u := Relation.ReflTransGen.single h

lemma moves_internAll (s : TableSession) (names : List String) :
    Moves s (s.internAll names).value.2 := by
  induction names generalizing s with
  | nil => exact Relation.ReflTransGen.refl
  | cons name names ih =>
    exact Relation.ReflTransGen.head (.intern name) (ih (s.intern name).value.2)

/-- A rule goes into the registry, or nowhere. -/
lemma step_push (s : TableSession) (head : RuleHead) (patterns : List String) :
    ∃ registry, (s.step (.push head patterns)).value.2 = { s with registry := registry } := by
  unfold step
  dsimp only
  split
  · exact ⟨_, rfl⟩
  · exact ⟨_, rfl⟩

/-- Rules are applied to a grouped table, or the table stays as it is. -/
lemma applyRules_eq (s : TableSession) (kept : Reach.Registry) :
    (s.applyRules kept).value.2 = { s with
      table := if s.table.grouped then (s.registry.stamp s.table).value else s.table
      registry := kept } := by
  unfold applyRules Reach.Registry.apply
  split <;> rfl

lemma moves_applyRules (s : TableSession) (kept : Reach.Registry) :
    Moves s (s.applyRules kept).value.2 := by
  rw [applyRules_eq]
  by_cases hg : s.table.grouped = true
  · simp only [if_pos hg]
    exact Relation.ReflTransGen.tail (Move.stamp hg).moves (.register kept)
  · simp only [if_neg hg]
    exact (Move.register kept).moves

theorem moves_step (s : TableSession) (x : Step) : Moves s (s.step x).value.2 := by
  cases x with
  | expect count => exact (Move.expect count).moves
  | intern name => exact (Move.intern name).moves
  | internAll names => exact s.moves_internAll names
  | group => exact Move.group.moves
  | push head patterns =>
    obtain ⟨registry, hpush⟩ := s.step_push head patterns
    rw [hpush]
    exact (Move.register registry).moves
  | registry => exact Relation.ReflTransGen.refl
  | apply => exact s.moves_applyRules {}
  | applyCopy => exact s.moves_applyRules s.registry
  | query q => exact Relation.ReflTransGen.refl

theorem moves_after (s : TableSession) (xs : List Step) : Moves s (s.after xs) := by
  induction xs generalizing s with
  | nil => exact Relation.ReflTransGen.refl
  | cons x xs ih => exact (s.moves_step x).trans (ih (s.step x).value.2)

end Moves

/-- What every session keeps: its table is sound for its interner. -/
def Sound (s : TableSession) : Prop := Table.Sound s.strings s.table

theorem sound_start (count : Nat) : (start count).Sound := Table.sound_ofExpected 0 count

lemma intern_events (s : TableSession) (name : String) :
    (s.intern name).events = (s.table.intern (s.strings.add name).1).events := List.append_nil _

namespace Sound

lemma interning (hs : s.Sound) (name : String) :
    s.table.Interning (s.strings.add name).1 (s.table.intern (s.strings.add name).1) :=
  Table.interning_intern hs.slots (hs.add name).registered (s.strings.owns_add name)

lemma intern (hs : s.Sound) (name : String) : (s.intern name).value.2.Sound :=
  (hs.add name).intern (s.strings.owns_add name)

theorem move (hs : s.Sound) (h : Move s u) : u.Sound := by
  cases h with
  | expect count => exact hs.expect count
  | intern name => exact hs.intern name
  | group => exact Table.Sound.group hs
  | stamp hg => exact hs.stamp s.registry hg
  | register registry => exact hs

theorem moves (hs : s.Sound) (h : Moves s u) : u.Sound := by
  induction h with
  | refl => exact hs
  | tail _ hmove ih => exact ih.move hmove

lemma step (hs : s.Sound) (x : Step) : (s.step x).value.2.Sound := hs.moves (s.moves_step x)

/-- What every move keeps in a sound session is kept by any number of them. -/
theorem kept {P : TableSession → Prop} (hP : ∀ {s u : TableSession}, s.Sound → Move s u → P s → P u)
    (hs : s.Sound) (hp : P s) (h : Moves s u) : P u := by
  induction h with
  | refl => exact hp
  | tail hmoves hmove ih => exact hP (hs.moves hmoves) hmove ih

/-- Stamping leaves alone everything that is not a limit. -/
lemma sameOrigin_stamp (hs : s.Sound) (hg : s.table.grouped = true) :
    Table.SameOrigin s.table (s.registry.stamp s.table).value ∧
      (s.registry.stamp s.table).value.grouped = true :=
  ⟨s.registry.sameOrigin_stamp s.table, (s.registry.numbered_stamp (hs.numbered hg)).grouped⟩

lemma sameOrigin_applyRules (hs : s.Sound) (kept : Reach.Registry) :
    Table.SameOrigin s.table (s.applyRules kept).value.2.table ∧
      (s.applyRules kept).value.2.table.grouped = s.table.grouped := by
  rw [applyRules_eq]
  dsimp only
  split
  · rename_i hg
    obtain ⟨hsame, hgrouped⟩ := hs.sameOrigin_stamp hg
    exact ⟨hsame, hgrouped.trans hg.symm⟩
  · exact ⟨⟨rfl, rfl, rfl⟩, rfl⟩

/-- Once grouped, a table stays grouped. -/
theorem grouped_move (hs : s.Sound) (h : Move s u) (hg : s.table.grouped = true) :
    u.table.grouped = true := by
  cases h with
  | expect count =>
    change (s.table.expect count).value.grouped = true
    unfold Table.expect
    split <;> exact hg
  | intern name => exact (hs.interning name).grouped_eq.trans hg
  | group => rfl
  | stamp hg => exact (hs.sameOrigin_stamp hg).2
  | register registry => exact hg

end Sound

/-- The table of every session is sound. -/
theorem sound_after_start (count : Nat) (xs : List Step) : ((start count).after xs).Sound :=
  (sound_start count).moves (moves_after _ xs)

/-- A session in which the table was grouped has its cores numbered. -/
theorem numbered_after_group (count : Nat) (xs ys : List Step) :
    ((start count).after (xs ++ .group :: ys)).table.Numbered := by
  have hs := (sound_after_start count xs).move .group
  apply (sound_after_start count (xs ++ .group :: ys)).numbered
  rw [after_append]
  exact hs.kept Sound.grouped_move rfl (moves_after _ ys)

end LinkConnectors.TableSession
