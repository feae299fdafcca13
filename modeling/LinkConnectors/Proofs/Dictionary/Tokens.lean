import LinkConnectors.Proofs.Dictionary.Loading
import LinkConnectors.Proofs.Token

/-! Resolving the tokens of a dictionary. No accepted name has the mark of a multiple connector in
it, so a text is a token of one name at most, and resolving it is adding that name. -/
namespace LinkConnectors

lemma Encoding.Spells.multiMark_notMem {name : String} {e : Encoding} (h : e.Spells name) :
    Token.multiMark ∉ name.toList := by
  rw [h.name_eq, List.mem_append, List.mem_append]
  rintro (hmarker | hcore | hsuffix)
  · revert hmarker
    cases e.role <;> decide
  · exact absurd (h.core_upper _ hcore) (by decide)
  · exact absurd (h.suffix_letter _ hsuffix) (by decide)

namespace Token

/-- The text is this token written out, and the name is a connector name. -/
structure WrittenAs (k : Token) (text : String) : Prop where
  text_eq : k.toText = text
  accepted : ∃ e, Encoding.ofName k.name = .ok e

namespace WrittenAs

variable {k j : Token} {text : String}

lemma ofText_eq (h : k.WrittenAs text) : ofText text = .ok k := by
  obtain ⟨rfl, e, he⟩ := h
  have hspells := Encoding.spells_of_ofName he
  refine ofText_toText_iff.mpr ⟨?_, .inr fun hmark => ?_⟩
  · intro hname
    rw [hname] at he
    cases he
  · exact hspells.multiMark_notMem (hmark.subset (List.mem_singleton_self _))

/-- A text is no more than one token. -/
theorem unique (h : k.WrittenAs text) (hj : j.WrittenAs text) : j = k :=
  Except.ok.inj (hj.ofText_eq.symm.trans h.ofText_eq)

end WrittenAs

end Token

namespace Builder

variable {b : Builder} {text : String} {k : Token}

/-- What adding a name answers while a dictionary loads: the number of the name or the next
number, the error of a full table, or the error of what is no connector name. -/
lemma Loading.add_cases (hb : b.Loading) (name : String) :
    ((∃ e, Encoding.ofName name = .ok e) ∧
      ((∃ id, b.table.lookup name = some id ∧ (b.add name).value.1 = .ok id) ∨
        (b.table.size < Table.maxDescriptors ∧ (b.add name).value.1 = .ok b.table.size) ∨
        (b.table.lookup name = none ∧ Table.maxDescriptors ≤ b.table.size ∧
          (b.add name).value.1 = .error (.table (.full b.table.size))))) ∨
      ∃ err, Encoding.ofName name = .error err ∧
        (b.add name).value.1 = .error (.table (.encode err)) := by
  have hinterning : b.table.Interning (b.strings.add name).1
      (b.table.intern (b.strings.add name).1) := hb.sound.interning name
  have hadd : (b.add name).value.1 =
      (b.table.intern (b.strings.add name).1).value.1.mapError .table := rfl
  have htable := hb.table_sound
  have htext := b.strings.add_text name
  have hlacks : b.table.Lacks (b.strings.add name).1.text → b.table.lookup name = none := by
    intro hnew
    rw [htable.lookup_eq, ← htext, hnew.idxOf?_names]
  rw [hadd]
  generalize b.table.intern (b.strings.add name).1 = r at hinterning
  cases hinterning with
  | @known id d hd hname =>
    have hlookup := htable.lookup_eq d.text
    rw [htable.idxOf?_names hd, hname, htext] at hlookup
    have he := htable.registered.encoded hd
    rw [hname, htext] at he
    exact .inl ⟨⟨_, he⟩, .inl ⟨id, hlookup, rfl⟩⟩
  | frozen hnew hg => exact absurd (hb.ungrouped.symm.trans hg) Bool.false_ne_true
  | malformed hnew hg herr =>
    rw [htext] at herr
    exact .inr ⟨_, herr, rfl⟩
  | full hnew hg he hfull =>
    rw [htext] at he
    exact .inl ⟨⟨_, he⟩, .inr (.inr ⟨hlacks hnew, hfull, rfl⟩)⟩
  | created hnew hg he hroom =>
    rw [htext] at he
    exact .inl ⟨⟨_, he⟩, .inr (.inl ⟨hroom, rfl⟩)⟩

/-- A name is added if it is a connector name, unless it is new and the table is full. -/
lemma Loading.isOk_add (hb : b.Loading) (name : String) : (b.add name).value.1.isOk = true ↔
    (∃ e, Encoding.ofName name = .ok e) ∧
      (b.table.lookup name = none → b.table.size < Table.maxDescriptors) := by
  obtain ⟨haccepted, ⟨id, hlookup, hadd⟩ | ⟨hroom, hadd⟩ | ⟨hlookup, hfull, hadd⟩⟩ |
    ⟨err, herr, hadd⟩ := hb.add_cases name
  · simp [hadd, haccepted, hlookup, Except.isOk, Except.toBool]
  · simp [hadd, haccepted, hroom, Except.isOk, Except.toBool]
  · simp [hadd, hlookup, hfull, Except.isOk, Except.toBool]
  · simp [hadd, herr, Except.isOk, Except.toBool]

/-- A new name finds a full table full, if it is a connector name. -/
lemma Loading.add_of_full (hb : b.Loading) {name : String}
    (haccepted : ∃ e, Encoding.ofName name = .ok e) (hlookup : b.table.lookup name = none)
    (hfull : Table.maxDescriptors ≤ b.table.size) :
    (b.add name).value.1 = .error (.table (.full b.table.size)) := by
  obtain ⟨_, ⟨id, hknown, _⟩ | ⟨hroom, _⟩ | ⟨_, _, hadd⟩⟩ | ⟨err, herr, _⟩ := hb.add_cases name
  · cases hlookup.symm.trans hknown
  · exact absurd hfull (Nat.not_le_of_lt hroom)
  · exact hadd
  · obtain ⟨e, he⟩ := haccepted
    cases he.symm.trans herr

/-- A token is resolved by adding its name. -/
lemma addToken_of_writtenAs (h : k.WrittenAs text) : b.addToken text =
    ⟨((b.add k.name).value.1.map fun id => ⟨id, k.direction, k.multi⟩, (b.add k.name).value.2),
      (b.add k.name).events⟩ := addToken_of_ok h.ofText_eq

/-- Nothing but a written token with a connector name is resolved. -/
theorem Loading.isOk_addToken (hb : b.Loading) (text : String) :
    (b.addToken text).value.1.isOk = true ↔
    ∃ k : Token, k.WrittenAs text ∧
      (b.table.lookup k.name = none → b.table.size < Table.maxDescriptors) := by
  constructor
  · intro hok
    cases htoken : Token.ofText text with
    | error e =>
      rw [addToken_of_error htoken] at hok
      cases hok
    | ok k =>
      rw [addToken_of_ok htoken, isOk_map] at hok
      obtain ⟨haccepted, hroom⟩ := (hb.isOk_add k.name).mp hok
      exact ⟨k, ⟨Token.toText_of_ofText htoken, haccepted⟩, hroom⟩
  · rintro ⟨k, hk, hroom⟩
    rw [addToken_of_writtenAs hk, isOk_map]
    exact (hb.isOk_add k.name).mpr ⟨hk.accepted, hroom⟩

/-- As long as there is a number left, the tokens with connector names are the texts that are
resolved. -/
lemma Loading.isOk_addToken_of_room (hb : b.Loading) (hroom : b.table.size < Table.maxDescriptors)
    (text : String) :
    (b.addToken text).value.1.isOk = true ↔ ∃ k : Token, k.WrittenAs text := by
  rw [hb.isOk_addToken]
  exact exists_congr fun k => and_iff_left fun _ => hroom

/-- Tokens are read as they are written, with the exceptions that are told here, and refused for two
reasons. While a dictionary loads, a text is resolved if it is a token with a connector name, unless
that name is new and the table has no number left. What is refused for the sake of
`Table.maxDescriptors` is refused with `TableError.full`, the error of a table at its capacity, and
as long as there is a number left, the tokens with connector names are the texts that are resolved.
There is one such token at most, and resolving it gives what adding its name gives, and leaves the
same builder. -/
theorem tokens_resolved_by_name :
    (∀ (text : String) (k : Token), Token.ofText text = .ok k → k.toText = text) ∧
    (∀ k : Token, Token.ofText k.toText = .ok k ↔
      k.name ≠ "" ∧ (k.multi = true ∨ ¬ ['@'] <+: k.name.toList)) ∧
    (∀ (text : String) (e : TokenError), Token.ofText text = .error e ↔
      (text ∈ ["+", "-", "@+", "@-"] ∧ e = .emptyName text) ∨
        (¬ Token.EndsInMark (Token.withoutMulti text) ∧ e = .missingDirection text)) ∧
    ∀ (count : Nat) (xs : List Step) (text : String),
      let b := ((ofExpected count).run xs).value.2
      ((b.addToken text).value.1.isOk = true ↔ ∃ k : Token, k.WrittenAs text ∧
        (b.table.lookup k.name = none → b.table.size < Table.maxDescriptors)) ∧
      (b.table.size < Table.maxDescriptors →
        ((b.addToken text).value.1.isOk = true ↔ ∃ k : Token, k.WrittenAs text)) ∧
      ∀ k : Token, k.WrittenAs text →
        (b.table.lookup k.name = none → Table.maxDescriptors ≤ b.table.size →
          (b.addToken text).value.1 = .error (.table (.full b.table.size))) ∧
        (∀ j : Token, j.WrittenAs text → j = k) ∧
        b.addToken text = ⟨((b.add k.name).value.1.map fun id => ⟨id, k.direction, k.multi⟩,
          (b.add k.name).value.2), (b.add k.name).events⟩ := by
  refine ⟨fun text k => Token.toText_of_ofText, fun k => Token.ofText_toText_iff,
    fun text e => Token.ofText_eq_error_iff, fun count xs text => ?_⟩
  intro b
  have hb : b.Loading := (loading_ofExpected count).run xs
  refine ⟨hb.isOk_addToken text, fun hroom => hb.isOk_addToken_of_room hroom text, fun k hk =>
    ⟨fun hlookup hfull => ?_, fun j hj => hk.unique hj, addToken_of_writtenAs hk⟩⟩
  rw [addToken_of_writtenAs hk, hb.add_of_full hk.accepted hlookup hfull]
  rfl

/-- A token whose name came in with another token, and one whose name has the mark in it. -/
theorem tokens_of_one_name :
    let b := ((ofExpected 0).run [.add "MX", .token "Ss*b+"]).value.2
    (b.addToken "@Ss*b-").value.1 = .ok ⟨1, .left, true⟩ ∧
      Token.ofText "@@Ss-" = .ok ⟨"@Ss", .left, true⟩ ∧
      (b.addToken "@@Ss-").value.1.isOk = false := by
  intro b
  obtain ⟨_, hread, _, hresolve⟩ := tokens_resolved_by_name
  have hk : Token.WrittenAs ⟨"Ss*b", .left, true⟩ "@Ss*b-" := ⟨by decide, _, rfl⟩
  obtain ⟨_, _, hadd⟩ := (hresolve 0 [.add "MX", .token "Ss*b+"] "@Ss*b-").2.2 _ hk
  have htoken : Token.ofText "@@Ss-" = .ok ⟨"@Ss", .left, true⟩ :=
    (hread ⟨"@Ss", .left, true⟩).mpr ⟨by decide, .inl rfl⟩
  refine ⟨?_, htoken, by decide +kernel⟩
  rw [hadd]
  decide +kernel

end Builder

end LinkConnectors
