import LinkConnectors.Text.Bytes
import Mathlib.Data.String.Basic

/-! ASCII texts. Each of their characters is one octet. -/
namespace LinkConnectors.Text

/-- Only characters of one octet. -/
def IsAscii (cs : List Char) : Prop := ∀ c ∈ cs, c.toNat < 128

/-- The octet of an ASCII character. -/
def octet (c : Char) : UInt8 := UInt8.ofNat c.toNat

variable {c d : Char} {cs ds : List Char} {s t : String}

lemma isAscii_cons : IsAscii (c :: cs) ↔ c.toNat < 128 ∧ IsAscii cs := List.forall_mem_cons

lemma isAscii_append : IsAscii (cs ++ ds) ↔ IsAscii cs ∧ IsAscii ds := List.forall_mem_append

lemma toNat_octet (hc : c.toNat < 128) : (octet c).toNat = c.toNat := by
  rw [octet, UInt8.toNat_ofNat']
  omega

lemma octet_inj (hc : c.toNat < 128) (hd : d.toNat < 128) : octet c = octet d ↔ c = d := by
  constructor
  · intro h
    have hnat := congrArg UInt8.toNat h
    rw [toNat_octet hc, toNat_octet hd] at hnat
    exact Char.toNat_inj.mp hnat
  · rintro rfl
    rfl

lemma isUpper_iff : c.isUpper = true ↔ 65 ≤ c.toNat ∧ c.toNat ≤ 90 := by
  change decide (c.val ≥ 'A'.val ∧ c.val ≤ 'Z'.val) = true ↔ _
  rw [decide_eq_true_iff, ge_iff_le, UInt32.le_iff_toNat_le, UInt32.le_iff_toNat_le]
  rfl

lemma isLower_iff : c.isLower = true ↔ 97 ≤ c.toNat ∧ c.toNat ≤ 122 := by
  change (decide (c.val ≥ 'a'.val) && decide (c.val ≤ 'z'.val)) = true ↔ _
  rw [Bool.and_eq_true, decide_eq_true_iff, decide_eq_true_iff, ge_iff_le, UInt32.le_iff_toNat_le,
    UInt32.le_iff_toNat_le]
  rfl

lemma isUpper_iff_le : c.isUpper = true ↔ 'A' ≤ c ∧ c ≤ 'Z' := by
  change decide (c.val ≥ 'A'.val ∧ c.val ≤ 'Z'.val) = true ↔ _
  rw [decide_eq_true_iff]
  exact Iff.rfl

lemma isLower_iff_le : c.isLower = true ↔ 'a' ≤ c ∧ c ≤ 'z' := by
  change (decide (c.val ≥ 'a'.val) && decide (c.val ≤ 'z'.val)) = true ↔ _
  rw [Bool.and_eq_true, decide_eq_true_iff, decide_eq_true_iff]
  exact Iff.rfl

lemma isUpperByte_octet (hc : c.toNat < 128) : isUpperByte (octet c) = c.isUpper := by
  apply Bool.eq_iff_iff.mpr
  rw [isUpper_iff]
  simp [isUpperByte, UInt8.le_iff_toNat_le, toNat_octet hc]

lemma isLowerByte_octet (hc : c.toNat < 128) : isLowerByte (octet c) = c.isLower := by
  apply Bool.eq_iff_iff.mpr
  rw [isLower_iff]
  simp [isLowerByte, UInt8.le_iff_toNat_le, toNat_octet hc]

lemma utf8EncodeChar_of_ascii (hc : c.toNat < 128) : String.utf8EncodeChar c = [octet c] := by
  have hsize : c.utf8Size = 1 := by
    rw [Char.utf8Size_eq_one_iff, UInt32.le_iff_toNat_le]
    exact Nat.le_of_lt_succ hc
  rw [String.utf8EncodeChar_eq_singleton hsize]
  rfl

theorem bytes_of_ascii (hs : IsAscii s.toList) : bytes s = s.toList.map octet := by
  unfold bytes
  generalize s.toList = cs at hs
  induction cs with
  | nil => rfl
  | cons c cs ih =>
    rw [isAscii_cons] at hs
    rw [List.flatMap_cons, utf8EncodeChar_of_ascii hs.1, ih hs.2, List.map_cons,
      List.singleton_append]

lemma byteCount_of_ascii (hs : IsAscii s.toList) : byteCount s = s.toList.length := by
  rw [byteCount, bytes_of_ascii hs, List.length_map]

lemma byteCount_ofList (hcs : IsAscii cs) : byteCount (String.ofList cs) = cs.length := by
  rw [byteCount_of_ascii (by rwa [String.toList_ofList]), String.toList_ofList]

lemma map_octet_inj (hcs : IsAscii cs) (hds : IsAscii ds) :
    cs.map octet = ds.map octet ↔ cs = ds := by
  induction cs generalizing ds with
  | nil => cases ds <;> simp
  | cons c cs ih =>
    cases ds with
    | nil => simp
    | cons d ds =>
      rw [isAscii_cons] at hcs hds
      rw [List.map_cons, List.map_cons, List.cons.injEq, List.cons.injEq, octet_inj hcs.1 hds.1,
        ih hcs.2 hds.2]

end LinkConnectors.Text
