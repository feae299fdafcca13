import LinkConnectors.Proofs.Suffix
import Mathlib.Data.List.DropRight
import Mathlib.Data.List.GetD

/-! Packed suffixes read slot by slot. Packing loses nothing but the wildcards at the end, which
read as the empty slots after them do, and it reaches each pair of words in which every slot is
clear or holds a small letter. -/
namespace LinkConnectors.Suffix

/-- The seven bits of a slot. -/
def slot (w : UInt64) (n : Nat) : Nat := w.toNat / 2 ^ (7 * n) % 2 ^ 7

/-- The character that a slot stands for. -/
def letterAt (s : Suffix) (n : Nat) : Char :=
  if slot s.mask n = 0 then '*' else Char.ofNat (slot s.letters n)

/-- Reads that many slots. -/
def unpack (s : Suffix) (n : Nat) : List Char := (List.range n).map s.letterAt

@[simp] lemma length_unpack (s : Suffix) (n : Nat) : (s.unpack n).length = n := by
  simp [unpack]

/-- The highest bit of both words is clear, and each slot is clear in both or is marked and holds a
small letter. -/
structure Packed (s : Suffix) : Prop where
  letters_top : s.letters.toNat.testBit 63 = false
  mask_top : s.mask.toNat.testBit 63 = false
  slots : ∀ n < 9, (slot s.mask n = 0 ∧ slot s.letters n = 0) ∨
    (slot s.mask n = 127 ∧ 97 ≤ slot s.letters n ∧ slot s.letters n ≤ 122)

variable {cs ds : List Char} {c : Char} {s t : Suffix} {n : Nat}

lemma testBit_slot (w : UInt64) (n r : Nat) :
    (slot w n).testBit r = (decide (r < 7) && w.toNat.testBit (7 * n + r)) := by
  rw [slot, Nat.testBit_mod_two_pow, Nat.testBit_div_two_pow, Nat.add_comm r]

/-- A word is told by its slots and its highest bit. -/
lemma eq_of_slot_eq {v w : UInt64} (htop : v.toNat.testBit 63 = w.toNat.testBit 63)
    (hslots : ∀ n < 9, slot v n = slot w n) : v = w := by
  apply UInt64.toNat_inj.mp
  apply Nat.eq_of_testBit_eq
  intro i
  -- nine slots take up the bits below 63
  obtain hi | rfl | hi := Nat.lt_trichotomy i 63
  · have hbit := congrArg (fun m => m.testBit (i % 7)) (hslots (i / 7) (by omega))
    have hlt : i % 7 < 7 := by omega
    simpa [testBit_slot, hlt, Nat.div_add_mod] using hbit
  · exact htop
  · have hpow : 2 ^ 64 ≤ 2 ^ i := Nat.pow_le_pow_right (by omega) hi
    rw [Nat.testBit_lt_two_pow (Nat.lt_of_lt_of_le v.toNat_lt hpow),
      Nat.testBit_lt_two_pow (Nat.lt_of_lt_of_le w.toNat_lt hpow)]

section Packing

/-- A letter fills its slot of the letter word, and a wildcard leaves it clear like the slots past
the end. -/
lemma slot_letters_pack (hcs : ∀ c ∈ cs, isLetter c = true) (h : cs.length ≤ maxLetters) (n : Nat) :
    slot (pack cs).letters n = if cs.getD n '*' = '*' then 0 else (cs.getD n '*').toNat := by
  apply Nat.eq_of_testBit_eq
  intro r
  rw [testBit_slot, testBit_pack_letters hcs h, List.getD_eq_getElem?_getD]
  obtain hr | hr := Nat.lt_or_ge r 7
  · have hdiv : (7 * n + r) / 7 = n := by omega
    have hmod : (7 * n + r) % 7 = r := by omega
    rw [hdiv, hmod]
    cases cs[n]? with
    | none => simp
    | some c => by_cases hw : c = '*' <;> simp [hw, hr, wildcard]
  · have hpow : 2 ^ 7 ≤ 2 ^ r := Nat.pow_le_pow_right (by omega) hr
    rw [decide_eq_false (Nat.not_lt.mpr hr), Bool.false_and]
    cases hget : cs[n]? with
    | none => simp
    | some c =>
      have hc := toNat_of_isLetter (hcs c (List.mem_of_getElem? hget))
      have hbit := Nat.testBit_lt_two_pow (Nat.lt_of_lt_of_le hc hpow)
      by_cases hw : c = '*' <;> simp [hw, hbit]

/-- All bits of a slot of the mask word are set if a letter stands there. -/
lemma slot_mask_pack (h : cs.length ≤ maxLetters) (n : Nat) :
    slot (pack cs).mask n = if cs.getD n '*' = '*' then 0 else 127 := by
  apply Nat.eq_of_testBit_eq
  intro r
  have hfull : Nat.testBit 127 r = decide (r < 7) := Nat.testBit_two_pow_sub_one 7 r
  rw [testBit_slot, testBit_pack_mask h, List.getD_eq_getElem?_getD]
  obtain hr | hr := Nat.lt_or_ge r 7
  · have hdiv : (7 * n + r) / 7 = n := by omega
    rw [hdiv]
    cases cs[n]? with
    | none => simp
    | some c => by_cases hw : c = '*' <;> simp [hw, hr, hfull, wildcard]
  · rw [decide_eq_false (Nat.not_lt.mpr hr)] at hfull ⊢
    rw [Bool.false_and]
    split
    · rw [Nat.zero_testBit]
    · exact hfull.symm

/-- Each slot reads as the character that was packed there, and as a wildcard past the end. -/
theorem letterAt_pack (hcs : ∀ c ∈ cs, isLetter c = true) (h : cs.length ≤ maxLetters) (n : Nat) :
    (pack cs).letterAt n = cs.getD n '*' := by
  rw [letterAt, slot_mask_pack h, slot_letters_pack hcs h]
  by_cases hw : cs.getD n '*' = '*'
  · rw [if_pos hw, if_pos rfl, hw]
  · rw [if_neg hw, if_neg hw, if_neg (by decide), Char.ofNat_toNat]

/-- Reading as many slots as there are characters gives those back. -/
theorem unpack_pack (hcs : ∀ c ∈ cs, isLetter c = true) (h : cs.length ≤ maxLetters) :
    (pack cs).unpack cs.length = cs := by
  apply List.ext_getElem
  · simp [unpack]
  · intro n _ hn
    simp only [unpack, List.getElem_map, List.getElem_range, letterAt_pack hcs h]
    exact List.getD_eq_getElem cs '*' hn

theorem packed_pack (hcs : ∀ c ∈ cs, isLetter c = true) (h : cs.length ≤ maxLetters) :
    Packed (pack cs) where
  letters_top := by
    have hend : cs[63 / 7]? = none := List.getElem?_eq_none h
    rw [testBit_pack_letters hcs h, hend, Option.any_none]
  mask_top := by
    have hend : cs[63 / 7]? = none := List.getElem?_eq_none h
    rw [testBit_pack_mask h, hend, Option.any_none]
  slots n _ := by
    rw [slot_mask_pack h, slot_letters_pack hcs h]
    by_cases hw : cs.getD n '*' = '*'
    · rw [if_pos hw, if_pos hw]
      exact .inl ⟨rfl, rfl⟩
    · rw [if_neg hw, if_neg hw]
      obtain hlt | hge := Nat.lt_or_ge n cs.length
      · rw [List.getD_eq_getElem cs '*' hlt] at hw ⊢
        have hlower := (isLetter_cases (hcs _ (List.getElem_mem hlt))).resolve_left hw
        exact .inr ⟨rfl, Text.isLower_iff.mp hlower⟩
      · exact absurd (List.getD_eq_default cs '*' hge) hw

end Packing

section Unpacking

lemma Packed.slot_eq (h : Packed s) (hn : n < 9) :
    slot s.mask n = (if s.letterAt n = '*' then 0 else 127) ∧
      slot s.letters n = if s.letterAt n = '*' then 0 else (s.letterAt n).toNat := by
  obtain ⟨hmask, hletters⟩ | ⟨hmask, hlow, hhigh⟩ := h.slots n hn
  · simp [letterAt, hmask, hletters]
  · have hvalid : (slot s.letters n).isValidChar := by
      left
      omega
    have hnat : (Char.ofNat (slot s.letters n)).toNat = slot s.letters n := by
      rw [Char.ofNat, dif_pos hvalid]
      rfl
    have hw : Char.ofNat (slot s.letters n) ≠ '*' := by
      intro hc
      rw [hc] at hnat
      change 42 = _ at hnat
      omega
    simp [letterAt, hmask, hw, hnat]

/-- Packed suffixes that read the same are the same. -/
theorem Packed.eq_of_letterAt (hs : Packed s) (ht : Packed t)
    (h : ∀ n < 9, s.letterAt n = t.letterAt n) : s = t := by
  have hmask : s.mask = t.mask := by
    refine eq_of_slot_eq (hs.mask_top.trans ht.mask_top.symm) fun n hn => ?_
    rw [(hs.slot_eq hn).1, (ht.slot_eq hn).1, h n hn]
  have hletters : s.letters = t.letters := by
    refine eq_of_slot_eq (hs.letters_top.trans ht.letters_top.symm) fun n hn => ?_
    rw [(hs.slot_eq hn).2, (ht.slot_eq hn).2, h n hn]
  exact congrArg₂ Suffix.mk hletters hmask

lemma Packed.isLetter_letterAt (h : Packed s) (hn : n < 9) : isLetter (s.letterAt n) = true := by
  rw [isLetter, Bool.or_eq_true, beq_iff_eq]
  obtain ⟨hmask, _⟩ | ⟨hmask, hlow, hhigh⟩ := h.slots n hn
  · left
    simp [letterAt, hmask, wildcard]
  · right
    have hletter := (h.slot_eq hn).2
    by_cases hw : s.letterAt n = '*'
    · rw [if_pos hw] at hletter
      omega
    · rw [if_neg hw] at hletter
      exact Text.isLower_iff.mpr (by omega)

lemma Packed.isLetter_unpack (h : Packed s) : ∀ c ∈ s.unpack 9, isLetter c = true := by
  intro c hc
  obtain ⟨n, hn, rfl⟩ := List.mem_map.mp hc
  exact h.isLetter_letterAt (List.mem_range.mp hn)

/-- Every such pair of words packs what is read from it. -/
theorem Packed.pack_unpack (h : Packed s) : pack (s.unpack 9) = s := by
  have hlength : (s.unpack 9).length ≤ maxLetters := (length_unpack s 9).le
  refine (packed_pack h.isLetter_unpack hlength).eq_of_letterAt h fun n hn => ?_
  rw [letterAt_pack h.isLetter_unpack hlength]
  simp [unpack, hn]

end Unpacking

section Endings

/-- A text without the wildcards at its end. -/
def strip (cs : List Char) : List Char := cs.rdropWhile (· == '*')

lemma strip_concat (cs : List Char) (c : Char) :
    strip (cs ++ [c]) = if c = '*' then strip cs else cs ++ [c] := by
  rw [strip, List.rdropWhile_concat]
  simp [strip]

/-- Without the wildcards at the end, each position reads as before. -/
lemma getD_strip (cs : List Char) (n : Nat) : (strip cs).getD n '*' = cs.getD n '*' := by
  induction cs using List.reverseRecOn with
  | nil => rfl
  | append_singleton cs c ih =>
    rw [strip_concat]
    split
    · rename_i hc
      rw [ih]
      obtain hlt | hge := Nat.lt_or_ge n cs.length
      · rw [List.getD_append _ _ _ _ hlt]
      · rw [List.getD_append_right _ _ _ _ hge, List.getD_eq_default _ _ hge, hc]
        cases n - cs.length <;> rfl
    · rfl

/-- What is left is no longer than any text that reads the same. -/
lemma length_strip_le (h : ∀ n, cs.getD n '*' = ds.getD n '*') : (strip cs).length ≤ ds.length := by
  by_contra hlong
  have hne : strip cs ≠ [] := by
    intro hnil
    simp [hnil] at hlong
  have hread := (getD_strip cs ((strip cs).length - 1)).trans (h _)
  rw [List.getD_eq_default ds '*' (by omega), List.getD_eq_getElem (strip cs) '*' (by omega),
    ← List.getLast_eq_getElem hne] at hread
  exact List.rdropWhile_last_not _ cs hne (beq_iff_eq.mpr hread)

/-- Texts that read the same at each position are the same without the wildcards at their ends. -/
theorem strip_eq_strip_iff : strip cs = strip ds ↔ ∀ n, cs.getD n '*' = ds.getD n '*' := by
  constructor
  · intro h n
    rw [← getD_strip cs, h, getD_strip]
  · intro h
    have hcs : ∀ n, cs.getD n '*' = (strip ds).getD n '*' :=
      fun n => (h n).trans (getD_strip ds n).symm
    have hds : ∀ n, ds.getD n '*' = (strip cs).getD n '*' :=
      fun n => (h n).symm.trans (getD_strip cs n).symm
    refine List.ext_getElem (Nat.le_antisymm (length_strip_le hcs) (length_strip_le hds)) fun n hn
      hn' => ?_
    have hread := (getD_strip cs n).trans (hcs n)
    rwa [List.getD_eq_getElem _ _ hn, List.getD_eq_getElem _ _ hn'] at hread

/-- Texts pack the same if they differ only in the wildcards at their ends. -/
theorem pack_eq_pack_iff (hcs : ∀ c ∈ cs, isLetter c = true) (hds : ∀ d ∈ ds, isLetter d = true)
    (hclen : cs.length ≤ maxLetters) (hdlen : ds.length ≤ maxLetters) :
    pack cs = pack ds ↔ strip cs = strip ds := by
  rw [strip_eq_strip_iff]
  constructor
  · intro h n
    rw [← letterAt_pack hcs hclen, h, letterAt_pack hds hdlen]
  · intro h
    refine (packed_pack hcs hclen).eq_of_letterAt (packed_pack hds hdlen) fun n _ => ?_
    rw [letterAt_pack hcs hclen, h, letterAt_pack hds hdlen]

end Endings

end LinkConnectors.Suffix
