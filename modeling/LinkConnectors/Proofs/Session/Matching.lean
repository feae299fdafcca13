import LinkConnectors.Proofs.NamesMatch
import LinkConnectors.Proofs.Session.NameList
import LinkConnectors.Session.Arena

/-! Matching descriptors. In a grouped table the packed descriptors match exactly when their names
do, octet by octet, and so do the connectors of a parse. -/
namespace LinkConnectors

namespace Table

variable {strings : Interner} {t : Table} {i j : Nat} {a b : Descriptor}

/-- Numbers of cores are equal where the cores are, so in a grouped table descriptors match as their
names do. -/
theorem Numbered.matches?_eq (hn : t.Numbered) (hr : Registered strings t.descriptors)
    (ha : t.get? i = some a) (hb : t.get? j = some b) :
    a.matches? b = some (Matching.namesMatch a.text b.text) := by
  have hacore : a.core ∈ coresOf t.descriptors := mem_coresOf.mpr ⟨i, a, ha, rfl⟩
  have hbcore : b.core ∈ coresOf t.descriptors := mem_coresOf.mpr ⟨j, b, hb, rfl⟩
  have hcore : (rankIn (coresOf t.descriptors) a.core == rankIn (coresOf t.descriptors) b.core) =
      (a.encoding.core == b.encoding.core) := by
    apply Bool.eq_iff_iff.mpr
    rw [beq_iff_eq, beq_iff_eq]
    exact rankIn_inj hacore hbcore
  have hnames := (hr.spells ha).namesMatch_eq (hr.spells hb)
  rw [Descriptor.matches?, hn.coreId ha, hn.coreId hb, hnames]
  dsimp only
  rw [hcore]
  rfl

end Table

namespace TableSession

/-- Once the table of a session has been grouped, whatever is done before and after, any two of its
descriptors match exactly when their names match, in either order, and so do all connectors made of
them. -/
theorem matching_after_group (count : Nat) (xs ys : List Step) {i j : Nat} {a b : Descriptor}
    (ha : ((start count).after (xs ++ .group :: ys)).table.get? i = some a)
    (hb : ((start count).after (xs ++ .group :: ys)).table.get? j = some b) :
    a.matches? b = some (Matching.namesMatch a.text b.text) ∧
      b.matches? a = a.matches? b ∧
      ∀ (arena : Arena) (m n : Nat) (c d : Connector), arena.get? m = some c →
        arena.get? n = some d →
        c.descriptor = a → d.descriptor = b →
          arena.matching? m n = some (Matching.namesMatch a.text b.text) ∧
            arena.matching? n m = arena.matching? m n := by
  have hs := sound_after_start count (xs ++ .group :: ys)
  have hmatch := (numbered_after_group count xs ys).matches?_eq hs.registered ha hb
  refine ⟨hmatch, Descriptor.matches?_comm b a, fun arena m n c d hc hd hca hdb => ?_⟩
  have hmn : arena.matching? m n = a.matches? b := by
    rw [Arena.matching?, hc, hd, ← hca, ← hdb]
    rfl
  have hnm : arena.matching? n m = b.matches? a := by
    rw [Arena.matching?, hc, hd, ← hca, ← hdb]
    rfl
  rw [hmn, hnm]
  exact ⟨hmatch, Descriptor.matches?_comm b a⟩

/-- A wildcard matches a letter, and a marker matches no marker. -/
theorem matching_of_two_names :
    let t :=
      ((start 4).after ([.intern "Ss", .intern "hS*b"] ++ .group :: [.intern "S", .apply])).table
    ∃ a b, t.get? 0 = some a ∧ t.get? 1 = some b ∧ a.matches? b = some true := by
  intro t
  have hnames : t.nameList.names = ["Ss", "hS*b"] :=
    (congrArg NameList.names ((sound_start 4).nameList_after _ (by decide +kernel))).trans
      (by decide +kernel)
  have ha : t.nameList.names[0]? = some "Ss" := by rw [hnames]; rfl
  have hb : t.nameList.names[1]? = some "hS*b" := by rw [hnames]; rfl
  obtain ⟨a, ha, hatext⟩ := Table.exists_of_names ha
  obtain ⟨b, hb, hbtext⟩ := Table.exists_of_names hb
  refine ⟨a, b, ha, hb, ?_⟩
  rw [(matching_after_group 4 _ _ ha hb).1, hatext, hbtext]
  decide +kernel

end TableSession

end LinkConnectors
