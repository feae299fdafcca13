import LinkConnectors.Proofs.Attempt
import LinkConnectors.Proofs.Encoding.Partners
import Mathlib.Data.List.Pairwise

/-! What compatibility of suffixes means. Suffixes stand for the words of nine small letters that
have their letters, and any number of them are compatible with each other if they stand for a common
word. Compatibility alone is not transitive: two suffixes may disagree where a third one is open. -/
namespace LinkConnectors

namespace Suffix

/-- A word in which each position of a suffix has a letter. -/
structure FullWord (w : String) : Prop where
  length : w.toList.length = 9
  small : ∀ c ∈ w.toList, 'a' ≤ c ∧ c ≤ 'z'

/-- The letter that some of the suffixes have at this position, and `a` where all of them are
open. -/
def commonLetter (ss : List Suffix) (n : Nat) : Char :=
  ((ss.map fun s => s.letterAt n).find? fun c => c != '*').getD 'a'

def commonWord (ss : List Suffix) : String := String.ofList ((List.range 9).map (commonLetter ss))

variable {ss : List Suffix} {s t u : Suffix} {n : Nat} {w : String}

section Words

lemma FullWord.isLetter (hw : FullWord w) : ∀ c ∈ w.toList, isLetter c = true := fun c hc =>
  Encoding.isLetter_iff_le.mpr (.inr (hw.small c hc))

lemma FullWord.length_le (hw : FullWord w) : w.toList.length ≤ maxLetters := hw.length.le

lemma FullWord.packed (hw : FullWord w) : Packed (pack w.toList) :=
  packed_pack hw.isLetter hw.length_le

lemma FullWord.unpack_pack (hw : FullWord w) : (pack w.toList).unpack 9 = w.toList := by
  rw [← hw.length]
  exact Suffix.unpack_pack hw.isLetter hw.length_le

lemma FullWord.letterAt_ne_star (hw : FullWord w) (hn : n < 9) :
    (pack w.toList).letterAt n ≠ '*' := by
  have hlt : n < w.toList.length := by rwa [hw.length]
  rw [letterAt_pack hw.isLetter hw.length_le, List.getD_eq_getElem _ _ hlt]
  intro hstar
  have hsmall := (hw.small _ (List.getElem_mem hlt)).1
  rw [hstar] at hsmall
  exact absurd hsmall (by decide)

/-- A full word leaves no position open, so it is an instance as soon as the letters agree. -/
lemma Packed.generalizes_word_iff (hs : Packed s) (hw : FullWord w) :
    s.generalizes (pack w.toList) = true ↔
    ((pack w.toList).letters ^^^ s.letters) &&& s.mask = 0 := by
  have hmask : s.mask &&& (pack w.toList).mask = s.mask := by
    rw [← UInt64.toNat_inj, UInt64.toNat_and]
    refine Nat.eq_of_testBit_eq fun i => ?_
    rw [Nat.testBit_and]
    cases hi : s.mask.toNat.testBit i with
    | false => rfl
    | true =>
      obtain ⟨hpos, _⟩ := (hs.testBit_mask_iff i).mp hi
      exact (hw.packed.testBit_mask_iff i).mpr ⟨hpos, hw.letterAt_ne_star hpos⟩
  rw [generalizes, hmask, beq_self_eq_true, Bool.true_and, beq_iff_eq]

/-- Suffixes that generalize the same one do not disagree. -/
lemma Packed.compatible_of_generalizes (hs : Packed s) (ht : Packed t) (hu : Packed u)
    (hsu : s.generalizes u = true) (htu : t.generalizes u = true) : s.compatible t = true := by
  rw [hs.generalizes_iff_letterAt hu] at hsu
  rw [ht.generalizes_iff_letterAt hu] at htu
  rw [hs.compatible_iff_letterAt ht]
  intro n hn
  obtain hopen | heq := hsu n hn
  · exact .inl hopen
  · exact .inr ((htu n hn).imp_right fun heq' => heq.trans heq'.symm)

end Words

section Gluing

/-- The common letter is one that some suffix has, or none of them has any. -/
lemma commonLetter_cases (ss : List Suffix) (n : Nat) :
    (∃ s ∈ ss, s.letterAt n ≠ '*' ∧ commonLetter ss n = s.letterAt n) ∨
      ((∀ s ∈ ss, s.letterAt n = '*') ∧ commonLetter ss n = 'a') := by
  unfold commonLetter
  cases hfind : (ss.map fun s => s.letterAt n).find? fun c => c != '*' with
  | none =>
    refine .inr ⟨fun s hs => ?_, rfl⟩
    simpa using List.find?_eq_none.mp hfind _ (List.mem_map_of_mem hs)
  | some c =>
    obtain ⟨hstar, _⟩ := List.find?_eq_some_iff_append.mp hfind
    obtain ⟨s, hs, rfl⟩ := List.mem_map.mp (List.mem_of_find?_eq_some hfind)
    exact .inl ⟨s, hs, bne_iff_ne.mp hstar, rfl⟩

lemma commonLetter_small (hss : ∀ s ∈ ss, Packed s) (hn : n < 9) :
    'a' ≤ commonLetter ss n ∧ commonLetter ss n ≤ 'z' := by
  obtain ⟨s, hs, hstar, heq⟩ | ⟨_, heq⟩ := commonLetter_cases ss n
  · rw [heq]
    exact (Encoding.isLetter_iff_le.mp ((hss s hs).isLetter_letterAt hn)).resolve_left hstar
  · rw [heq]
    decide

/-- Where a suffix has a letter, the others have no other one, so this letter is the common one. -/
lemma commonLetter_eq (hss : ∀ s ∈ ss, Packed s)
    (hpairs : ∀ s ∈ ss, ∀ t ∈ ss, s.compatible t = true) (hs : s ∈ ss)
    (hn : n < 9) (hstar : s.letterAt n ≠ '*') : commonLetter ss n = s.letterAt n := by
  obtain ⟨t, ht, htstar, heq⟩ | ⟨hopen, _⟩ := commonLetter_cases ss n
  · have hagree := ((hss t ht).compatible_iff_letterAt (hss s hs)).mp (hpairs t ht s hs) n hn
    rw [heq]
    exact (hagree.resolve_left htstar).resolve_left hstar
  · exact absurd (hopen s hs) hstar

lemma fullWord_commonWord (hss : ∀ s ∈ ss, Packed s) : FullWord (commonWord ss) where
  length := by rw [commonWord, String.toList_ofList, List.length_map, List.length_range]
  small c hc := by
    rw [commonWord, String.toList_ofList] at hc
    obtain ⟨n, hn, rfl⟩ := List.mem_map.mp hc
    exact commonLetter_small hss (List.mem_range.mp hn)

lemma letterAt_commonWord (hss : ∀ s ∈ ss, Packed s) (hn : n < 9) :
    (pack (commonWord ss).toList).letterAt n = commonLetter ss n := by
  have hw := fullWord_commonWord hss
  rw [letterAt_pack hw.isLetter hw.length_le, commonWord, String.toList_ofList,
    List.getD_eq_getElem _ _ (by rw [List.length_map, List.length_range]; exact hn),
    List.getElem_map, List.getElem_range]

/-- Suffixes are pairwise compatible if all of them generalize one full word. -/
theorem pairwise_compatible_iff (hss : ∀ s ∈ ss, Packed s) :
    ss.Pairwise (fun s t => s.compatible t = true) ↔
      ∃ w, FullWord w ∧ ∀ s ∈ ss, s.generalizes (pack w.toList) = true := by
  constructor
  · intro hpairs
    have : Std.Symm fun s t : Suffix => s.compatible t = true :=
      ⟨fun s t h => (compatible_comm t s).trans h⟩
    have hall : ∀ s ∈ ss, ∀ t ∈ ss, s.compatible t = true := fun s hs t ht =>
      List.Pairwise.forall_of_forall (fun s hs => (hss s hs).compatible_self) hpairs hs ht
    have hw := fullWord_commonWord hss
    refine ⟨commonWord ss, hw,
      fun s hs => ((hss s hs).generalizes_iff_letterAt hw.packed).mpr fun n hn => ?_⟩
    rw [letterAt_commonWord hss hn, or_iff_not_imp_left]
    exact fun hstar => (commonLetter_eq hss hall hs hn hstar).symm
  · rintro ⟨w, hw, hgeneral⟩
    refine List.pairwise_iff_forall_sublist.mpr fun {s t} hsub => ?_
    have hs := hsub.subset (List.mem_cons_self)
    have ht := hsub.subset (List.mem_cons_of_mem s List.mem_cons_self)
    exact (hss s hs).compatible_of_generalizes (hss t ht) hw.packed (hgeneral s hs) (hgeneral t ht)

end Gluing

end Suffix

namespace Encoding

open Matching (namesMatch)
open Suffix (FullWord Packed)

variable {name other : String} {names : List String} {e f : Encoding} {es : List Encoding}

lemma exists_name_of_mapM (h : names.mapM ofName = .ok es) :
    ∀ e ∈ es, ∃ name, ofName name = .ok e := by
  rw [Attempt.mapM_eq_ok_iff] at h
  induction h with
  | nil => simp
  | cons hname _ ih => exact List.forall_mem_cons.mpr ⟨⟨_, hname⟩, ih⟩

/-- Names with one core whose roles do not exclude each other match if some connector with a full
word generalizes to both. -/
lemma Spells.namesMatch_iff_instance (he : e.Spells name) (hf : f.Spells other)
    (hcore : e.core = f.core)
    (hrole : e.role.excludes f.role = false) (role : Role) : namesMatch name other = true ↔
      ∃ t g, ofName t = .ok g ∧ g.role = role ∧ g.core = e.core ∧ FullWord g.suffix ∧
        e.packed.generalizes g.packed = true ∧ f.packed.generalizes g.packed = true := by
  rw [he.namesMatch_iff hf, and_iff_right hcore, and_iff_left hrole]
  constructor
  · intro hcompatible
    have hboth : ∀ s ∈ [e.packed, f.packed], Packed s :=
      List.forall_mem_cons.mpr ⟨he.packed, List.forall_mem_singleton.mpr hf.packed⟩
    obtain ⟨w, hw, hgeneral⟩ :=
      (Suffix.pairwise_compatible_iff hboth).mp (List.pairwise_pair.mpr hcompatible)
    have hspells := he.recombined role hw.packed
    refine ⟨_, _, ofName_eq_ok_iff.mpr hspells, rfl, rfl, ?_, hgeneral _ (by simp),
      hgeneral _ (by simp)⟩
    rwa [hw.unpack_pack, String.ofList_toList]
  · rintro ⟨t, g, hg, _, _, _, heg, hfg⟩
    exact he.packed.compatible_of_generalizes hf.packed (spells_of_ofName hg).packed heg hfg

/-- The packed suffixes of any list of accepted names are pairwise compatible if and only if there
is a word of nine small letters that agrees, packed, with each of them on all bits of its mask.
Names with the same core whose markers do not exclude each other match if and only if some connector
of that core with nine small letters, with whichever marker, is an instance of both: it agrees with
either on all bits of its mask. -/
theorem compatible_iff_common_instance :
    (∀ (names : List String) (es : List Encoding), names.mapM ofName = .ok es →
      (es.Pairwise (fun e f => e.packed.compatible f.packed = true) ↔
        ∃ w, FullWord w ∧ ∀ e ∈ es,
          ((Suffix.pack w.toList).letters ^^^ e.packed.letters) &&& e.packed.mask = 0)) ∧
    ∀ name other e f, ofName name = .ok e → ofName other = .ok f → e.core = f.core →
      e.role.excludes f.role = false →
      ∀ role, (namesMatch name other = true ↔
        ∃ t g, ofName t = .ok g ∧ g.role = role ∧ g.core = e.core ∧ FullWord g.suffix ∧
          e.packed.generalizes g.packed = true ∧ f.packed.generalizes g.packed = true) := by
  constructor
  · intro names es hnames
    have hpacked : ∀ s ∈ es.map Encoding.packed, Packed s := by
      intro s hs
      obtain ⟨e, he, rfl⟩ := List.mem_map.mp hs
      obtain ⟨name, hname⟩ := exists_name_of_mapM hnames e he
      exact (spells_of_ofName hname).packed
    have hmap : (es.map Encoding.packed).Pairwise (fun s t => s.compatible t = true) ↔
        es.Pairwise fun e f => e.packed.compatible f.packed = true := List.pairwise_map
    rw [← hmap, Suffix.pairwise_compatible_iff hpacked]
    refine exists_congr fun w => and_congr_right fun hw => ?_
    rw [List.forall_mem_map]
    exact forall₂_congr fun e he => (hpacked _ (List.mem_map_of_mem he)).generalizes_word_iff hw
  · intro name other e f he hf hcore hrole role
    exact (spells_of_ofName he).namesMatch_iff_instance (spells_of_ofName hf) hcore hrole role

/-- Three suffixes that are pairwise compatible have a full word in common. `Ss` and `Sp` have none,
although `S` is compatible with both. `hSs` and `dS*b` match, so some connector with the marker `h`
is an instance of both. -/
theorem instances_of_matching_names :
    (∃ es w, ["Ss", "O**x", "hSsa*"].mapM ofName = .ok es ∧ FullWord w ∧
      ∀ e ∈ es, ((Suffix.pack w.toList).letters ^^^ e.packed.letters) &&& e.packed.mask = 0) ∧
    (∃ es, ["Ss", "S", "Sp"].mapM ofName = .ok es ∧ ¬ ∃ w, FullWord w ∧
      ∀ e ∈ es, ((Suffix.pack w.toList).letters ^^^ e.packed.letters) &&& e.packed.mask = 0) ∧
    ∃ t g, ofName t = .ok g ∧ g.role = .head ∧ g.core = "S" ∧ FullWord g.suffix := by
  obtain ⟨hlists, hpairs⟩ := compatible_iff_common_instance
  have hthree : ["Ss", "O**x", "hSsa*"].mapM ofName = .ok [⟨.unmarked, "S", "s", ⟨0x73, 0x7f⟩⟩,
      ⟨.unmarked, "O", "**x", ⟨0x1e0000, 0x1fc000⟩⟩, ⟨.head, "S", "sa*", ⟨0x30f3, 0x3fff⟩⟩] := by
    decide +kernel
  have hsplit : ["Ss", "S", "Sp"].mapM ofName = .ok [⟨.unmarked, "S", "s", ⟨0x73, 0x7f⟩⟩,
      ⟨.unmarked, "S", "", ⟨0, 0⟩⟩, ⟨.unmarked, "S", "p", ⟨0x70, 0x7f⟩⟩] := by decide +kernel
  have hhead : ofName "hSs" = .ok ⟨.head, "S", "s", ⟨0x73, 0x7f⟩⟩ := by decide +kernel
  have hdependent : ofName "dS*b" = .ok ⟨.dependent, "S", "*b", ⟨0x3100, 0x3f80⟩⟩ := by
    decide +kernel
  refine ⟨?_, ⟨_, hsplit, fun h => ?_⟩, ?_⟩
  · obtain ⟨w, hw, hgeneral⟩ := (hlists _ _ hthree).mp (by decide +kernel)
    exact ⟨_, w, hthree, hw, hgeneral⟩
  · exact absurd ((hlists _ _ hsplit).mpr h) (by decide +kernel)
  · obtain ⟨t, g, hg, hrole, hcore, hfull, _⟩ :=
      (hpairs _ _ _ _ hhead hdependent rfl rfl .head).mp (by decide +kernel)
    exact ⟨t, g, hg, hrole, hcore, hfull⟩

end Encoding

end LinkConnectors
