import LinkConnectors.Proofs.Encoding.Grammar
import LinkConnectors.Proofs.Text.Octets

/-! Reading a name octet by octet. The reading counts octets and cuts the name at the positions it
has found. It never cuts inside a character, and it finds what reading character by character
finds. -/
namespace LinkConnectors

/-- The octets of suffix letters. -/
def Suffix.isLetterByte (b : UInt8) : Bool := b == Text.star || Text.isLowerByte b

namespace Encoding

/-- Reads the octets from a position on. Cutting inside a character has no result. -/
def readOctetsFrom (name : String) (role : Role) (start : Nat) :
    Option (Except EncodeError Encoding) :=
  let octets := Text.bytes name
  let core := (octets.drop start).takeWhile Text.isUpperByte
  let stop := start + core.length
  let suffix := octets.drop stop
  if core = [] then some (.error (.emptyCore name))
  else if maxCore < core.length then some (.error (.coreTooLong name))
  else match suffix.findIdx? fun b => !Suffix.isLetterByte b with
    | some bad =>
      (Text.slice? name (stop + bad) octets.length).map fun rest =>
        .error (.invalidChar name (rest.toList.headD '\uFFFD') (stop + bad))
    | none =>
      if Suffix.maxLetters < suffix.length then some (.error (.suffixTooLong name suffix.length))
      else
        (Text.slice? name start stop).bind fun corePart =>
          (Text.slice? name stop octets.length).map fun suffixPart =>
            .ok ⟨role, corePart, suffixPart, Suffix.pack (suffix.map Char.ofUInt8)⟩

/-- Reads a whole name, its marker first. -/
def readOctets (name : String) : Option (Except EncodeError Encoding) :=
  match Text.bytes name with
  | [] => some (.error .empty)
  | b :: _ =>
    if Text.isLowerByte b then
      match Role.ofMarker? (Char.ofUInt8 b) with
      | some role => readOctetsFrom name role 1
      | none => some (.error (.invalidMarker name (Char.ofUInt8 b)))
    else readOctetsFrom name .unmarked 0

section Letters

variable {c : Char} {cs : List Char}

lemma sameClass_isLetter : Text.SameClass Suffix.isLetter Suffix.isLetterByte where
  ascii c hc := Suffix.toNat_of_isLetter hc
  agree c hc := by
    have hstar : (Text.octet c == Text.star) = (c == Suffix.wildcard) := by
      apply Bool.eq_iff_iff.mpr
      rw [beq_iff_eq, beq_iff_eq]
      exact Text.octet_inj (d := Suffix.wildcard) hc (by decide)
    rw [Suffix.isLetterByte, Suffix.isLetter, hstar, Text.isLowerByte_octet hc]
  other b hb := by
    have hstar : b ≠ Text.star := by
      rintro rfl
      exact absurd hb (by decide)
    simp [Suffix.isLetterByte, hstar, Text.isLowerByte_of_ge hb]

lemma ofUInt8_octet (hc : c.toNat < 128) : Char.ofUInt8 (Text.octet c) = c := by
  apply Char.toNat_inj.mp
  exact Text.toNat_octet hc

lemma map_ofUInt8_octet (hcs : Text.IsAscii cs) : (cs.map Text.octet).map Char.ofUInt8 = cs := by
  rw [List.map_map]
  conv_rhs => rw [← List.map_id cs]
  exact List.map_congr_left fun c hc => ofUInt8_octet (hcs c hc)

/-- The first octet outside a class, if there is one, comes after the run of the class. -/
lemma findIdx?_not (q : UInt8 → Bool) (bs : List UInt8) : bs.findIdx? (fun b => !q b) =
    if bs.dropWhile q = [] then none else some (bs.takeWhile q).length := by
  induction bs with
  | nil => rfl
  | cons b bs ih =>
    rw [List.findIdx?_cons]
    cases hb : q b with
    | false => simp [hb]
    | true =>
      simp only [Bool.not_true, Bool.false_eq_true, if_false, ih, List.dropWhile_cons_of_pos hb,
        List.takeWhile_cons_of_pos hb]
      split <;> rfl

end Letters

section Reading

variable {name : String} {role : Role} {body : List Char}

lemma bytes_drop_marker (hname : name.toList = role.marker ++ body) :
    (Text.bytes name).drop role.marker.length = body.flatMap String.utf8EncodeChar := by
  have hmarker : (role.marker.flatMap String.utf8EncodeChar).length = role.marker.length := by
    cases role <;> rfl
  rw [Text.bytes, hname, List.flatMap_append, List.drop_left' hmarker]

lemma bytes_drop_core (hname : name.toList = role.marker ++ body) :
    (Text.bytes name).drop (role.marker.length + (body.takeWhile Char.isUpper).length) =
      (body.dropWhile Char.isUpper).flatMap String.utf8EncodeChar := by
  obtain ⟨htake, hdrop⟩ := Text.sameClass_isUpper.runs body
  have happend :=
    List.takeWhile_append_dropWhile (p := Text.isUpperByte)
      (l := body.flatMap String.utf8EncodeChar)
  rw [htake, hdrop] at happend
  rw [← List.drop_drop, bytes_drop_marker hname, ← happend]
  exact List.drop_left' (List.length_map _)

/-- The text from the first bad character on can be cut off. -/
lemma slice_foreign {core suffix after : List Char} {c : Char}
    (hname : name.toList = role.marker ++ (core ++ suffix))
    (hcore : Text.IsAscii core) (hforeign : suffix.dropWhile Suffix.isLetter = c :: after) :
    Text.slice? name (role.marker.length + core.length + (suffix.takeWhile Suffix.isLetter).length)
      (Text.bytes name).length = some (String.ofList (c :: after)) := by
  have hbefore : Text.IsAscii (suffix.takeWhile Suffix.isLetter) := fun x hx =>
    Suffix.toNat_of_isLetter (List.mem_takeWhile_imp hx)
  have hrest : name.toList = (role.marker ++ core ++ suffix.takeWhile Suffix.isLetter) ++
      c :: after := by
    rw [hname, ← hforeign, List.append_assoc, List.append_assoc, List.takeWhile_append_dropWhile]
  have hslice := Text.slice?_rest hrest
    (Text.isAscii_append.mpr ⟨Text.isAscii_append.mpr ⟨Spells.isAscii_marker role, hcore⟩, hbefore⟩)
  rwa [List.length_append, List.length_append] at hslice

/-- From the marker on, octets are read as characters are. -/
lemma readOctetsFrom_eq (hname : name.toList = role.marker ++ body) :
    readOctetsFrom name role role.marker.length = some (ofBody name role body) := by
  have hempty : ∀ cs : List Char, cs.flatMap String.utf8EncodeChar = [] ↔ cs = [] := by
    intro cs
    cases cs <;> simp
  have hcore : Text.IsAscii (body.takeWhile Char.isUpper) := fun c hc =>
    Text.sameClass_isUpper.ascii c (List.mem_takeWhile_imp hc)
  have hcut :
      name.toList = role.marker ++
        (body.takeWhile Char.isUpper ++ body.dropWhile Char.isUpper) := by
    rw [hname, List.takeWhile_append_dropWhile]
  obtain ⟨htake, _⟩ := Text.sameClass_isUpper.runs body
  obtain ⟨hletters, hrest⟩ := sameClass_isLetter.runs (body.dropWhile Char.isUpper)
  unfold readOctetsFrom ofBody
  simp only [bytes_drop_marker hname, htake, List.length_map, List.map_eq_nil_iff,
    bytes_drop_core hname, findIdx?_not, hletters, hrest, hempty]
  -- both readings now make the same checks on the same divisions, and the cuts are left to compare
  generalize body.takeWhile Char.isUpper = core at *
  generalize body.dropWhile Char.isUpper = suffix at *
  split
  · rfl
  split
  · rfl
  cases hforeign : suffix.dropWhile Suffix.isLetter with
  | cons c after =>
    have hslice := slice_foreign hcut hcore hforeign
    rw [if_neg (List.cons_ne_nil _ _)]
    simp [hslice]
  | nil =>
    have hsuffix : Text.IsAscii suffix := fun x hx =>
      Suffix.toNat_of_isLetter (List.dropWhile_eq_nil_iff.mp hforeign x hx)
    have hcoreSlice := Text.slice?_of_ascii hcut (Spells.isAscii_marker role) hcore
    have hsuffixSlice := Text.slice?_rest (hcut.trans (List.append_assoc ..).symm)
      (Text.isAscii_append.mpr ⟨Spells.isAscii_marker role, hcore⟩)
    rw [List.length_append] at hsuffixSlice
    have hoctets := Text.bytes_of_ascii (s := String.ofList suffix) (by rwa [String.toList_ofList])
    rw [Text.bytes, String.toList_ofList] at hoctets
    rw [if_pos rfl, hcoreSlice, hsuffixSlice, hoctets, List.length_map, map_ofUInt8_octet hsuffix]
    dsimp only
    split <;> rfl

/-- Every name can be read octet by octet, and that gives what reading characters gives. -/
theorem readOctets_eq (name : String) : readOctets name = some (ofName name) := by
  unfold readOctets ofName
  cases hname : name.toList with
  | nil =>
    rw [Text.bytes, hname]
    rfl
  | cons c cs =>
    have hbytes : Text.bytes name = String.utf8EncodeChar c ++
        cs.flatMap String.utf8EncodeChar := by
      rw [Text.bytes, hname, List.flatMap_cons]
    obtain hascii | hother := Nat.lt_or_ge c.toNat 128
    · rw [hbytes, Text.utf8EncodeChar_of_ascii hascii, List.singleton_append]
      dsimp only
      rw [Text.isLowerByte_octet hascii, ofUInt8_octet hascii]
      cases hlower : c.isLower with
      | false =>
        rw [if_neg Bool.false_ne_true, if_neg Bool.false_ne_true]
        have hunmarked : name.toList = Role.unmarked.marker ++ c :: cs := hname
        exact readOctetsFrom_eq hunmarked
      | true =>
        rw [if_pos rfl, if_pos rfl]
        cases hrole : Role.ofMarker? c with
        | none => rfl
        | some role =>
          have hmarker := Role.ofMarker?_eq_some_iff.mp hrole
          have hlength : role.marker.length = 1 := by rw [hmarker]; rfl
          have hbody : name.toList = role.marker ++ cs := by rw [hname, hmarker]; rfl
          have hread := readOctetsFrom_eq hbody
          rwa [hlength] at hread
    · obtain ⟨b, bs, hencode, hb⟩ := Text.exists_utf8EncodeChar hother
      have hlower : c.isLower = false := by
        apply Bool.eq_false_iff.mpr
        intro h
        have := Text.isLower_iff.mp h
        omega
      have hlowerByte := Text.isLowerByte_of_ge hb
      have hunmarked : name.toList = Role.unmarked.marker ++ c :: cs := hname
      rw [hbytes, hencode, List.cons_append]
      simp only [hlower, hlowerByte, Bool.false_eq_true, if_false]
      exact readOctetsFrom_eq hunmarked

end Reading

section Grammar

variable {name : String} {c : Char} {cs : List Char} {position : Nat}

/-- The divisions of a text make it up. -/
lemma divide (cs : List Char) : frontMarker cs ++ capitals cs ++ remainder cs = cs := by
  have hfront : ∃ body, frontMarker cs ++ body = cs := by
    cases cs with
    | nil => exact ⟨[], rfl⟩
    | cons c cs =>
      rw [frontMarker]
      split
      · exact ⟨cs, rfl⟩
      · exact ⟨c :: cs, rfl⟩
  obtain ⟨body, hbody⟩ := hfront
  have hdrop : cs.drop (frontMarker cs).length = body := by
    conv_lhs => rw [← hbody]
    exact List.drop_left' (by rw [hbody])
  rw [List.append_assoc, capitals, remainder, List.takeWhile_append_dropWhile, hdrop, hbody]

/-- The position told with a bad character is the one where that character begins. -/
lemma Fault.get_position (h : Fault name (.invalidChar name c position)) :
    String.Pos.Raw.IsValid name ⟨position⟩ ∧ String.Pos.Raw.get name ⟨position⟩ = c := by
  cases h with
  | @invalidChar _ before after hchar =>
    have hname : name.toList = frontMarker name.toList ++ capitals name.toList ++ before ++
        c :: after := by
      rw [List.append_assoc, ← hchar, divide]
    exact Text.get_position hname

section Parts

variable {e : Encoding}

/-- The core lies where the encoding tells. -/
lemma Spells.slice_core (h : e.Spells name) :
    Text.slice? name e.coreStart (e.coreStart + e.coreLength) = some e.core := by
  have hslice := Text.slice?_of_ascii h.name_eq (isAscii_marker e.role) h.isAscii_core
  rw [String.ofList_toList] at hslice
  rwa [coreStart, coreLength, Text.byteCount_of_ascii h.isAscii_core]

/-- The suffix is all that follows the core. -/
lemma Spells.slice_suffix (h : e.Spells name) :
    Text.slice? name (e.coreStart + e.coreLength) (Text.byteCount name) = some e.suffix := by
  have hname := h.name_eq
  rw [← List.append_assoc] at hname
  have hslice :=
    Text.slice?_rest hname (Text.isAscii_append.mpr ⟨isAscii_marker e.role, h.isAscii_core⟩)
  rw [String.ofList_toList, List.length_append] at hslice
  rwa [coreStart, coreLength, Text.byteCount_of_ascii h.isAscii_core]

end Parts

/-- The names that are accepted are those that the grammar writes, each cut in one way, and its
parts are told. Any other name is refused for its first fault, and a character that is told begins
at the position told. Reading octets and cutting at octet positions never fails and finds the
same. -/
theorem ofName_follows_grammar (name : String) :
    ((∃ e, ofName name = .ok e) ↔ ∃ marker core suffix, Written name marker core suffix) ∧
      (∀ marker core suffix marker' core' suffix', Written name marker core suffix →
        Written name marker' core' suffix' → marker' = marker ∧ core' = core ∧ suffix' = suffix) ∧
      (∀ e marker core suffix, ofName name = .ok e → Written name marker core suffix →
        String.ofList e.role.marker = marker ∧
          Text.slice? name e.coreStart (e.coreStart + e.coreLength) = some core ∧
          Text.slice? name (e.coreStart + e.coreLength) (Text.byteCount name) = some suffix) ∧
      (∀ err, ofName name = .error err ↔
        Fault name err ∧ ∀ other, Fault name other → err.rank ≤ other.rank) ∧
      (∀ c position, ofName name = .error (.invalidChar name c position) →
        String.Pos.Raw.IsValid name ⟨position⟩ ∧ String.Pos.Raw.get name ⟨position⟩ = c) ∧
      readOctets name = some (ofName name) := by
  refine ⟨isOk_ofName_iff, ?_, ?_, fun err => ofName_eq_error_iff, ?_, readOctets_eq name⟩
  · intro marker core suffix marker' core' suffix' h h'
    exact h.unique h'
  · intro e marker core suffix he h
    obtain ⟨hmarker, rfl, rfl⟩ := h.parts_eq (spells_of_ofName he)
    exact ⟨hmarker, (spells_of_ofName he).slice_core, (spells_of_ofName he).slice_suffix⟩
  · intro c position herr
    exact (ofName_eq_error_iff.mp herr).1.get_position

theorem grammar_of_two_names :
    Written "dAB*c" "d" "AB" "*c" ∧
      (∃ e, ofName "dAB*c" = .ok e ∧ String.ofList e.role.marker = "d" ∧
        Text.slice? "dAB*c" e.coreStart (e.coreStart + e.coreLength) = some "AB" ∧
        Text.slice? "dAB*c" (e.coreStart + e.coreLength) (Text.byteCount "dAB*c") = some "*c") ∧
      ofName "hA\u00e9b" = .error (.invalidChar "hA\u00e9b" '\u00e9' 2) ∧
      String.Pos.Raw.get "hA\u00e9b" ⟨2⟩ = '\u00e9' := by
  have hwritten : Written "dAB*c" "d" "AB" "*c" := by
    refine ⟨by decide, by decide, by decide, fun c hc => ?_, by decide, fun c hc => ?_⟩
    · obtain rfl | rfl : c = 'A' ∨ c = 'B' := by simpa using hc
      · decide
      · decide
    · obtain rfl | rfl : c = '*' ∨ c = 'c' := by simpa using hc
      · decide
      · decide
  obtain ⟨haccepted, _, hparts, _⟩ := ofName_follows_grammar "dAB*c"
  obtain ⟨_, _, _, _, hposition, _⟩ := ofName_follows_grammar "hA\u00e9b"
  obtain ⟨e, he⟩ := haccepted.mpr ⟨_, _, _, hwritten⟩
  have herr : ofName "hA\u00e9b" = .error (.invalidChar "hA\u00e9b" '\u00e9' 2) := by decide +kernel
  exact ⟨hwritten, ⟨e, he, hparts e _ _ _ he hwritten⟩, herr, (hposition _ _ herr).2⟩

end Grammar

end Encoding

end LinkConnectors
