import LinkConnectors.Proofs.Encoding

/-! The grammar of connector names. The accepted names are those written as a marker, a core and a
suffix, and they can be cut in one way only. A name that is refused has faults, and the first of
them in a fixed order is reported. -/
namespace LinkConnectors

namespace Encoding

/-- The name is an optional marker, a core of capital letters, and a suffix of small letters and
wildcards. -/
structure Written (name marker core suffix : String) : Prop where
  name_eq : name = marker ++ core ++ suffix
  marker_eq : marker = "" ∨ marker = "h" ∨ marker = "d"
  core_size : 1 ≤ Text.byteCount core ∧ Text.byteCount core ≤ 255
  core_capital : ∀ c ∈ core.toList, 'A' ≤ c ∧ c ≤ 'Z'
  suffix_size : Text.byteCount suffix ≤ 9
  suffix_small : ∀ c ∈ suffix.toList, c = '*' ∨ ('a' ≤ c ∧ c ≤ 'z')

variable {name : String} {e f : Encoding}

section Accepted

variable {marker core suffix : String}

/-- The longest run of capital letters is the core, and the suffix is left. -/
lemma Spells.cut (h : e.Spells name) :
    (e.core.toList ++ e.suffix.toList).takeWhile Char.isUpper = e.core.toList ∧
      (e.core.toList ++ e.suffix.toList).dropWhile Char.isUpper = e.suffix.toList := by
  have hsuffix : e.suffix.toList.takeWhile Char.isUpper = [] := by
    cases hletters : e.suffix.toList with
    | nil => rfl
    | cons c cs =>
      have hc : c ∈ e.suffix.toList := by rw [hletters]; exact List.mem_cons_self
      have hupper := Suffix.isUpper_of_isLetter (h.suffix_letter c hc)
      exact List.takeWhile_cons_of_neg (Bool.eq_false_iff.mp hupper)
  have htake : (e.core.toList ++ e.suffix.toList).takeWhile Char.isUpper = e.core.toList := by
    rw [List.takeWhile_append_of_pos h.core_upper, hsuffix, List.append_nil]
  refine ⟨htake, ?_⟩
  have happend :=
    List.takeWhile_append_dropWhile (p := Char.isUpper) (l := e.core.toList ++ e.suffix.toList)
  rw [htake] at happend
  exact List.append_cancel_left happend

lemma Spells.ofBody_eq (h : e.Spells name) :
    ofBody name e.role (e.core.toList ++ e.suffix.toList) = .ok e := by
  obtain ⟨htake, hdrop⟩ := h.cut
  have hletters : e.suffix.toList.dropWhile Suffix.isLetter = [] :=
    List.dropWhile_eq_nil_iff.mpr h.suffix_letter
  unfold ofBody
  simp only [htake, hdrop, hletters]
  rw [if_neg h.core_ne, if_neg (Nat.not_lt.mpr h.core_length),
    if_neg (Nat.not_lt.mpr h.suffix_length), String.ofList_toList, String.ofList_toList,
    ← h.packed_eq]

/-- A name that is spelled as an encoding tells is read back as that encoding. -/
theorem ofName_eq_ok_iff : ofName name = .ok e ↔ e.Spells name := by
  refine ⟨spells_of_ofName, fun h => ?_⟩
  have hname := h.name_eq
  have hbody := h.ofBody_eq
  unfold ofName
  cases hrole : e.role with
  | head | dependent =>
    rw [hrole] at hname hbody
    rw [hname]
    exact hbody
  | unmarked =>
    obtain ⟨c, cs, hcore, hupper⟩ := h.exists_capital
    have hlower := isLower_of_isUpper hupper
    rw [hrole, hcore] at hname hbody
    rw [hname]
    simp only [Role.marker, List.nil_append, List.cons_append, hlower, Bool.false_eq_true, if_false]
      at hbody ⊢
    exact hbody

lemma Spells.eq (he : e.Spells name) (hf : f.Spells name) : e = f := by
  have he := ofName_eq_ok_iff.mpr he
  rw [ofName_eq_ok_iff.mpr hf] at he
  exact (Except.ok.inj he).symm

lemma Spells.written (h : e.Spells name) :
    Written name (String.ofList e.role.marker) e.core e.suffix where
  name_eq := by
    apply String.toList_inj.mp
    rw [h.name_eq, String.toList_append, String.toList_append, String.toList_ofList,
      List.append_assoc]
  marker_eq := by cases e.role <;> decide
  core_size := by
    rw [Text.byteCount_of_ascii h.isAscii_core]
    exact ⟨List.length_pos_iff.mpr h.core_ne, h.core_length⟩
  core_capital c hc := Text.isUpper_iff_le.mp (h.core_upper c hc)
  suffix_size := by
    rw [Text.byteCount_of_ascii h.isAscii_suffix]
    exact h.suffix_length
  suffix_small c hc :=
    (Suffix.isLetter_cases (h.suffix_letter c hc)).imp_right Text.isLower_iff_le.mp

/-- Whatever is written by the grammar has an encoding, which tells its parts. -/
lemma Written.exists_spells (h : Written name marker core suffix) :
    ∃ e : Encoding, e.Spells name ∧ String.ofList e.role.marker = marker ∧ e.core = core ∧
      e.suffix = suffix := by
  have hrole : ∃ r : Role, String.ofList r.marker = marker := by
    obtain rfl | rfl | rfl := h.marker_eq
    · exact ⟨.unmarked, rfl⟩
    · exact ⟨.head, rfl⟩
    · exact ⟨.dependent, rfl⟩
  obtain ⟨r, rfl⟩ := hrole
  have hupper : ∀ c ∈ core.toList, c.isUpper = true :=
    fun c hc => Text.isUpper_iff_le.mpr (h.core_capital c hc)
  have hletter : ∀ c ∈ suffix.toList, Suffix.isLetter c = true := by
    intro c hc
    rw [Suffix.isLetter, Bool.or_eq_true, beq_iff_eq]
    exact (h.suffix_small c hc).imp_right Text.isLower_iff_le.mpr
  have hcore : Text.byteCount core = core.toList.length := by
    refine Text.byteCount_of_ascii fun c hc => ?_
    have := Text.isUpper_iff.mp (hupper c hc)
    omega
  have hsuffix : Text.byteCount suffix = suffix.toList.length :=
    Text.byteCount_of_ascii fun c hc => Suffix.toNat_of_isLetter (hletter c hc)
  obtain ⟨hpos, hlong⟩ := h.core_size
  refine ⟨⟨r, core, suffix, Suffix.pack suffix.toList⟩, ?_, rfl, rfl, rfl⟩
  constructor
  · rw [h.name_eq, String.toList_append, String.toList_append, String.toList_ofList,
      List.append_assoc]
  · exact List.length_pos_iff.mp (hcore ▸ hpos)
  · exact hupper
  · exact hcore ▸ hlong
  · exact hletter
  · exact hsuffix ▸ h.suffix_size
  · rfl

theorem isOk_ofName_iff :
    (∃ e, ofName name = .ok e) ↔ ∃ marker core suffix, Written name marker core suffix := by
  constructor
  · rintro ⟨e, he⟩
    exact ⟨_, _, _, (spells_of_ofName he).written⟩
  · rintro ⟨marker, core, suffix, h⟩
    obtain ⟨e, he, _⟩ := h.exists_spells
    exact ⟨e, ofName_eq_ok_iff.mpr he⟩

/-- The parts are those that the encoding tells. -/
lemma Written.parts_eq (h : Written name marker core suffix) (he : e.Spells name) :
    String.ofList e.role.marker = marker ∧ e.core = core ∧ e.suffix = suffix := by
  obtain ⟨f, hf, hparts⟩ := h.exists_spells
  rwa [he.eq hf]

/-- There is one way to cut a name. -/
theorem Written.unique {marker' core' suffix' : String} (h : Written name marker core suffix)
    (h' : Written name marker' core' suffix') :
    marker' = marker ∧ core' = core ∧ suffix' = suffix := by
  obtain ⟨e, he, rfl, rfl, rfl⟩ := h.exists_spells
  obtain ⟨hmarker, hcore, hsuffix⟩ := h'.parts_eq he
  exact ⟨hmarker.symm, hcore.symm, hsuffix.symm⟩

end Accepted

section Refused

/-- The letter that stands in front of a text as a marker. -/
def frontMarker : List Char → List Char
  | [] => []
  | c :: _ => if c = 'h' ∨ c = 'd' then [c] else []

/-- The longest run of capital letters after the marker. -/
def capitals (cs : List Char) : List Char :=
  (cs.drop (frontMarker cs).length).takeWhile Char.isUpper

/-- What follows the capital letters. -/
def remainder (cs : List Char) : List Char :=
  (cs.drop (frontMarker cs).length).dropWhile Char.isUpper

/-- What can be wrong with a name, each fault for itself. -/
inductive Fault (name : String) : EncodeError → Prop
  | empty (h : name = "") : Fault name .empty
  | invalidMarker {c : Char} {cs : List Char} (h : name.toList = c :: cs)
      (hsmall : 'a' ≤ c ∧ c ≤ 'z')
      (hmarker : c ≠ 'h' ∧ c ≠ 'd') : Fault name (.invalidMarker name c)
  | emptyCore (h : capitals name.toList = []) : Fault name (.emptyCore name)
  | coreTooLong (h : 255 < Text.byteCount (String.ofList (capitals name.toList))) :
      Fault name (.coreTooLong name)
  /-- The position counts the octets before the first character that is neither a small letter nor a
  wildcard. -/
  | invalidChar {c : Char} {before after : List Char}
      (h : remainder name.toList = before ++ c :: after)
      (hbefore : ∀ x ∈ before, x = '*' ∨ ('a' ≤ x ∧ x ≤ 'z'))
        (hc : ¬ (c = '*' ∨ ('a' ≤ c ∧ c ≤ 'z'))) :
      Fault name (.invalidChar name c
        (Text.byteCount
          (String.ofList (frontMarker name.toList ++ capitals name.toList ++ before))))
  | suffixTooLong (h : 9 < Text.byteCount (String.ofList (remainder name.toList))) :
      Fault name (.suffixTooLong name (Text.byteCount (String.ofList (remainder name.toList))))

end Refused

end Encoding

/-- The order in which faults are looked for. -/
@[simp] def EncodeError.rank : EncodeError → Nat
  | empty => 0
  | invalidMarker .. => 1
  | emptyCore .. => 2
  | coreTooLong .. => 3
  | invalidChar .. => 4
  | suffixTooLong .. => 5

namespace Encoding

/-- No other fault of the name comes earlier in the order. -/
def Fault.First (name : String) (err : EncodeError) : Prop :=
  Fault name err ∧ ∀ other, Fault name other → err.rank ≤ other.rank

section Refused

variable {name : String} {e : Encoding} {err other : EncodeError} {cs before after : List Char}
  {c : Char}

lemma isLetter_iff_le : Suffix.isLetter c = true ↔ c = '*' ∨ ('a' ≤ c ∧ c ≤ 'z') := by
  rw [Suffix.isLetter, Bool.or_eq_true, beq_iff_eq, Text.isLower_iff_le]
  rfl

/-- The first character of a text that is no suffix letter is where the suffix letters end. -/
lemma first_foreign (h : cs = before ++ c :: after)
    (hbefore : ∀ x ∈ before, x = '*' ∨ ('a' ≤ x ∧ x ≤ 'z'))
    (hc : ¬ (c = '*' ∨ ('a' ≤ c ∧ c ≤ 'z'))) :
    cs.takeWhile Suffix.isLetter = before ∧ cs.dropWhile Suffix.isLetter = c :: after := by
  have hall : ∀ x ∈ before, Suffix.isLetter x = true :=
    fun x hx => isLetter_iff_le.mpr (hbefore x hx)
  have hstop : ¬ Suffix.isLetter c = true := fun hletter => hc (isLetter_iff_le.mp hletter)
  rw [h, List.takeWhile_append_of_pos hall, List.dropWhile_append_of_pos hall,
    List.takeWhile_cons_of_neg hstop, List.dropWhile_cons_of_neg hstop, List.append_nil]
  exact ⟨rfl, rfl⟩

lemma isAscii_capitals : Text.IsAscii (capitals cs) := by
  intro c hc
  have := Text.isUpper_iff.mp (List.mem_takeWhile_imp hc)
  omega

lemma isAscii_frontMarker : Text.IsAscii (frontMarker cs) := by
  intro c hc
  unfold frontMarker at hc
  split at hc
  · cases hc
  · split at hc
    · rename_i hmarker
      rw [List.mem_singleton.mp hc]
      obtain rfl | rfl := hmarker <;> decide
    · cases hc

section Rank

lemma Fault.two_le_rank (h : Fault name err) (hname : name.toList = c :: cs)
    (hmarker : c.isLower = true → c = 'h' ∨ c = 'd') : 2 ≤ err.rank := by
  cases h with
  | empty hempty =>
    rw [hempty] at hname
    cases hname
  | invalidMarker hfirst hsmall hother =>
    obtain ⟨rfl, _⟩ := List.cons.inj (hname.symm.trans hfirst)
    exact absurd (hmarker (Text.isLower_iff_le.mpr hsmall)) (by simp [hother])
  | emptyCore | coreTooLong | invalidChar | suffixTooLong => simp

lemma Fault.three_le_rank (h : Fault name err) (hrank : 2 ≤ err.rank)
    (hcore : capitals name.toList ≠ []) :
    3 ≤ err.rank := by
  cases h with
  | empty | invalidMarker => simp at hrank
  | emptyCore hempty => exact absurd hempty hcore
  | coreTooLong | invalidChar | suffixTooLong => simp

lemma Fault.four_le_rank (h : Fault name err) (hrank : 3 ≤ err.rank)
    (hcore : (capitals name.toList).length ≤ 255) : 4 ≤ err.rank := by
  cases h with
  | empty | invalidMarker | emptyCore => simp at hrank
  | coreTooLong hlong =>
    rw [Text.byteCount_ofList isAscii_capitals] at hlong
    omega
  | invalidChar | suffixTooLong => simp

lemma Fault.five_le_rank (h : Fault name err) (hrank : 4 ≤ err.rank)
    (hletters : (remainder name.toList).dropWhile Suffix.isLetter = []) : 5 ≤ err.rank := by
  cases h with
  | empty | invalidMarker | emptyCore | coreTooLong => simp at hrank
  | invalidChar hchar hbefore hc =>
    rw [(first_foreign hchar hbefore hc).2] at hletters
    cases hletters
  | suffixTooLong => simp

end Rank

/-- Two faults of a name at one place in the order are the same. -/
lemma Fault.eq_of_rank_eq (h : Fault name err) (hother : Fault name other)
    (hrank : err.rank = other.rank) :
    err = other := by
  cases h with
  | empty =>
    cases hother with
    | empty => rfl
    | _ => cases hrank
  | invalidMarker hname =>
    cases hother with
    | invalidMarker hname' =>
      obtain ⟨rfl, _⟩ := List.cons.inj (hname.symm.trans hname')
      rfl
    | _ => cases hrank
  | emptyCore =>
    cases hother with
    | emptyCore => rfl
    | _ => cases hrank
  | coreTooLong =>
    cases hother with
    | coreTooLong => rfl
    | _ => cases hrank
  | invalidChar hchar hbefore hc =>
    cases hother with
    | invalidChar hchar' hbefore' hc' =>
      obtain ⟨htake, hdrop⟩ := first_foreign hchar hbefore hc
      obtain ⟨htake', hdrop'⟩ := first_foreign hchar' hbefore' hc'
      obtain ⟨rfl, _⟩ := List.cons.inj (hdrop.symm.trans hdrop')
      rw [← htake, ← htake']
    | _ => cases hrank
  | suffixTooLong =>
    cases hother with
    | suffixTooLong => rfl
    | _ => cases hrank

lemma Fault.First.eq (h : First name err) (hother : First name other) : err = other :=
  h.1.eq_of_rank_eq hother.1 (Nat.le_antisymm (h.2 other hother.1) (hother.2 err h.1))

section Found

/-! What reading finds, as a fault. Characters are counted where faults count octets, and up to the
first bad character that is the same. -/

lemma fault_of_long_core (h : 255 < (capitals name.toList).length) :
    Fault name (.coreTooLong name) := by
  rw [← Text.byteCount_ofList isAscii_capitals] at h
  exact .coreTooLong h

lemma fault_of_foreign (h : (remainder name.toList).dropWhile Suffix.isLetter = c :: after) :
    Fault name
      (.invalidChar name c ((frontMarker name.toList).length + (capitals name.toList).length +
        ((remainder name.toList).takeWhile Suffix.isLetter).length)) := by
  have happend :=
    List.takeWhile_append_dropWhile (p := Suffix.isLetter) (l := remainder name.toList)
  rw [h] at happend
  have hletters : ∀ x ∈ (remainder name.toList).takeWhile Suffix.isLetter,
      Suffix.isLetter x = true :=
    fun x hx => List.mem_takeWhile_imp hx
  have hascii : Text.IsAscii (frontMarker name.toList ++ capitals name.toList ++
      (remainder name.toList).takeWhile Suffix.isLetter) :=
    Text.isAscii_append.mpr ⟨Text.isAscii_append.mpr ⟨isAscii_frontMarker, isAscii_capitals⟩,
      fun x hx => Suffix.toNat_of_isLetter (hletters x hx)⟩
  have hforeign : Suffix.isLetter c ≠ true := by
    have hhead := List.head?_dropWhile_not Suffix.isLetter (remainder name.toList)
    rw [h] at hhead
    simpa using hhead
  have hfault := Fault.invalidChar happend.symm (fun x hx => isLetter_iff_le.mp (hletters x hx))
    (fun hc => hforeign (isLetter_iff_le.mpr hc))
  rwa [Text.byteCount_ofList hascii, List.length_append, List.length_append] at hfault

lemma fault_of_long_suffix (hletters : (remainder name.toList).dropWhile Suffix.isLetter = [])
    (h : 9 < (remainder name.toList).length) :
    Fault name (.suffixTooLong name (remainder name.toList).length) := by
  have hascii : Text.IsAscii (remainder name.toList) := fun x hx =>
    Suffix.toNat_of_isLetter (List.dropWhile_eq_nil_iff.mp hletters x hx)
  rw [← Text.byteCount_ofList hascii] at h ⊢
  exact .suffixTooLong h

end Found

/-- Reading the rest of a name stops at its first fault. -/
lemma first_of_ofBody {role : Role} (hrole : role.marker = frontMarker name.toList)
    (hlate : ∀ other, Fault name other → 2 ≤ other.rank)
    (herr : ofBody name role (name.toList.drop (frontMarker name.toList).length) = .error err) :
    Fault.First name err := by
  have hcapitals : (name.toList.drop (frontMarker name.toList).length).takeWhile Char.isUpper =
      capitals name.toList := rfl
  have hremainder : (name.toList.drop (frontMarker name.toList).length).dropWhile Char.isUpper =
      remainder name.toList := rfl
  unfold ofBody at herr
  simp only [hcapitals, hremainder, hrole] at herr
  -- each check that is passed moves the faults that are left one place back
  split at herr
  · rename_i hcore
    obtain rfl := Except.error.inj herr
    exact ⟨.emptyCore hcore, hlate⟩
  rename_i hcore
  have hlate := fun other hother => Fault.three_le_rank hother (hlate other hother) hcore
  split at herr
  · rename_i hlong
    obtain rfl := Except.error.inj herr
    exact ⟨fault_of_long_core hlong, hlate⟩
  rename_i hlong
  have hlate :=
    fun other hother => Fault.four_le_rank hother (hlate other hother) (Nat.not_lt.mp hlong)
  split at herr
  · rename_i hforeign
    obtain rfl := Except.error.inj herr
    exact ⟨fault_of_foreign hforeign, hlate⟩
  rename_i hletters
  have hlate := fun other hother => Fault.five_le_rank hother (hlate other hother) hletters
  split at herr
  · rename_i hlong
    obtain rfl := Except.error.inj herr
    exact ⟨fault_of_long_suffix hletters hlong, hlate⟩
  · cases herr

lemma marker_letter {role : Role} (h : role.marker = [c]) : c = 'h' ∨ c = 'd' := by
  cases role with
  | unmarked => cases h
  | head => exact .inl (List.singleton_inj.mp h).symm
  | dependent => exact .inr (List.singleton_inj.mp h).symm

/-- A small letter in front that marks no role is the first fault. -/
lemma first_invalidMarker (hname : name.toList = c :: cs) (hlower : c.isLower = true)
    (hrole : Role.ofMarker? c = none) :
    Fault.First name (.invalidMarker name c) := by
  have hmarker : c ≠ 'h' ∧ c ≠ 'd' := by
    constructor <;> rintro rfl <;> cases hrole
  refine ⟨.invalidMarker hname (Text.isLower_iff_le.mp hlower) hmarker, fun other hother => ?_⟩
  cases hother with
  | empty hempty =>
    rw [hempty] at hname
    cases hname
  | _ => simp

/-- A refused name is told its first fault. -/
lemma first_of_ofName (herr : ofName name = .error err) : Fault.First name err := by
  unfold ofName at herr
  split at herr
  · rename_i hname
    obtain rfl := Except.error.inj herr
    exact ⟨.empty (String.toList_inj.mp hname), fun _ _ => Nat.zero_le _⟩
  rename_i c cs hname
  split at herr
  · rename_i hlower
    split at herr
    · rename_i role hrole
      have hmarker := Role.ofMarker?_eq_some_iff.mp hrole
      have hc := marker_letter hmarker
      have hfront : frontMarker name.toList = [c] := by
        rw [hname, frontMarker, if_pos hc]
      refine first_of_ofBody (hmarker.trans hfront.symm) (fun other hother => ?_) ?_
      · exact hother.two_le_rank hname fun _ => hc
      · rwa [hfront, hname]
    · rename_i hrole
      obtain rfl := Except.error.inj herr
      exact first_invalidMarker hname hlower hrole
  · rename_i hlower
    have hc : ¬ (c = 'h' ∨ c = 'd') := by
      rintro (rfl | rfl) <;> exact hlower rfl
    have hfront : frontMarker name.toList = [] := by
      rw [hname, frontMarker, if_neg hc]
    have hmarker : Role.unmarked.marker = frontMarker name.toList := hfront.symm
    refine first_of_ofBody hmarker (fun other hother => ?_) ?_
    · exact hother.two_le_rank hname fun h => absurd h hlower
    · rwa [hfront, hname]

/-- An accepted name is divided into its marker, its core and its suffix. -/
lemma Spells.divided (h : e.Spells name) : frontMarker name.toList = e.role.marker ∧
    capitals name.toList = e.core.toList ∧ remainder name.toList = e.suffix.toList := by
  have hname := h.name_eq
  have hfront : frontMarker name.toList = e.role.marker := by
    rw [hname]
    cases hrole : e.role with
    | head | dependent => rfl
    | unmarked =>
      obtain ⟨c, cs, hcore, hupper⟩ := h.exists_capital
      have hother : ¬ (c = 'h' ∨ c = 'd') := by
        rintro (rfl | rfl) <;> cases hupper
      rw [hcore]
      exact if_neg hother
  have hdrop : name.toList.drop (frontMarker name.toList).length =
      e.core.toList ++ e.suffix.toList := by
    rw [hfront, hname]
    exact List.drop_left
  rw [capitals, remainder, hdrop]
  exact ⟨hfront, h.cut⟩

/-- An accepted name has no fault. -/
lemma Spells.not_fault (h : e.Spells name) (hfault : Fault name err) : False := by
  obtain ⟨_, hcapitals, hremainder⟩ := h.divided
  cases hfault with
  | empty hempty =>
    rw [hempty] at hcapitals
    exact h.core_ne hcapitals.symm
  | @invalidMarker c cs hfirst hsmall hother =>
    have hupper : ¬ c.isUpper = true := by
      intro hupper
      have hlower := isLower_of_isUpper hupper
      rw [Text.isLower_iff_le.mpr hsmall] at hlower
      cases hlower
    have hempty : capitals name.toList = [] := by
      rw [hfirst, capitals, frontMarker, if_neg (by simp [hother])]
      exact List.takeWhile_cons_of_neg hupper
    exact h.core_ne (hcapitals.symm.trans hempty)
  | emptyCore hempty => exact h.core_ne (hcapitals.symm.trans hempty)
  | coreTooLong hlong =>
    rw [hcapitals, Text.byteCount_ofList h.isAscii_core] at hlong
    exact Nat.not_lt.mpr h.core_length hlong
  | invalidChar hchar hbefore hc =>
    have hdrop := (first_foreign hchar hbefore hc).2
    rw [hremainder, List.dropWhile_eq_nil_iff.mpr h.suffix_letter] at hdrop
    cases hdrop
  | suffixTooLong hlong =>
    rw [hremainder, Text.byteCount_ofList h.isAscii_suffix] at hlong
    exact Nat.not_lt.mpr h.suffix_length hlong

/-- A name is refused for its first fault. -/
theorem ofName_eq_error_iff : ofName name = .error err ↔ Fault.First name err := by
  refine ⟨first_of_ofName, fun hfirst => ?_⟩
  cases h : ofName name with
  | ok e => exact ((spells_of_ofName h).not_fault hfirst.1).elim
  | error found => rw [(first_of_ofName h).eq hfirst]

end Refused

end Encoding

end LinkConnectors
