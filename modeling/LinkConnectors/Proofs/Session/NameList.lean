import LinkConnectors.Proofs.Session.Run

/-! The table as a list of names. To its users a table is the list of the names it has taken, in the
order of their first acceptance, and nothing else decides what it answers. -/
namespace LinkConnectors

/-- Names in the order of their acceptance, and whether the list is closed. -/
structure NameList where
  names : List String := []
  grouped : Bool := false
  deriving DecidableEq, Repr

namespace NameList

def intern (l : NameList) (name : String) : Except TableError Nat × NameList :=
  match l.names.idxOf? name with
  | some id => (.ok id, l)
  | none =>
    if l.grouped then (.error (.frozen name), l)
    else match Encoding.ofName name with
      | .error err => (.error (.encode err), l)
      | .ok _ => (.ok l.names.length, { l with names := l.names ++ [name] })

def internAll (l : NameList) (names : List String) : NameList :=
  names.foldl (fun l name => (l.intern name).2) l

/-- What a step of a session does to the list of names. -/
def step (l : NameList) : TableSession.Step → NameList
  | .intern name => (l.intern name).2
  | .internAll names => l.internAll names
  | .group => { l with grouped := true }
  | _ => l

def after (l : NameList) (xs : List TableSession.Step) : NameList := xs.foldl step l

lemma prefix_intern (l : NameList) (name : String) : l.names <+: (l.intern name).2.names := by
  unfold intern
  split
  · exact List.prefix_rfl
  · split
    · exact List.prefix_rfl
    · split
      · exact List.prefix_rfl
      · exact List.prefix_append _ _

lemma prefix_internAll (l : NameList) (names : List String) :
    l.names <+: (l.internAll names).names := by
  induction names generalizing l with
  | nil => exact List.prefix_rfl
  | cons name names ih => exact (l.prefix_intern name).trans (ih _)

lemma prefix_step (l : NameList) (x : TableSession.Step) : l.names <+: (l.step x).names := by
  cases x with
  | intern name => exact l.prefix_intern name
  | internAll names => exact l.prefix_internAll names
  | _ => exact List.prefix_rfl

/-- Names are never removed, and keep their positions. -/
theorem prefix_after (l : NameList) (xs : List TableSession.Step) :
    l.names <+: (l.after xs).names := by
  induction xs generalizing l with
  | nil => exact List.prefix_rfl
  | cons x xs ih => exact (l.prefix_step x).trans (ih _)

end NameList

namespace Table

/-- The list of names that a table stands for. -/
def nameList (t : Table) : NameList := ⟨t.descriptors.toList.map Descriptor.text, t.grouped⟩

variable {strings : Interner} {t u : Table} {h : Handle} {d : Descriptor} {id : Nat}

@[simp] lemma length_names (t : Table) : t.nameList.names.length = t.size := by
  simp [nameList, size]

@[simp] lemma grouped_nameList (t : Table) : t.nameList.grouped = t.grouped := rfl

lemma getElem?_names (t : Table) (id : Nat) :
    t.nameList.names[id]? = (t.get? id).map Descriptor.text := by
  simp [nameList, get?]

lemma exists_of_names {name : String} (h : t.nameList.names[id]? = some name) :
    ∃ d, t.get? id = some d ∧ d.text = name := by
  rwa [getElem?_names, Option.map_eq_some_iff] at h

lemma mem_names {name : String} :
    name ∈ t.nameList.names ↔ ∃ id d, t.get? id = some d ∧ d.text = name := by
  rw [List.mem_iff_getElem?]
  simp [getElem?_names]

lemma Lacks.idxOf?_names {name : String} (h : t.Lacks name) :
    t.nameList.names.idxOf? name = none := by
  rw [List.idxOf?_eq_none_iff, mem_names]
  rintro ⟨id, d, hd, htext⟩
  exact h hd htext

lemma Sound.idxOf?_names (ht : Sound strings t) (hd : t.get? id = some d) :
    t.nameList.names.idxOf? d.text = some id := by
  have hid : t.nameList.names[id]? = some d.text := by rw [getElem?_names, hd, Option.map_some]
  obtain ⟨hlt, hid⟩ := List.getElem?_eq_some_iff.mp hid
  refine List.idxOf?_eq_some_iff.mpr ⟨hlt, hid, fun j hj heq => ?_⟩
  have hj' := List.getElem?_eq_getElem (Nat.lt_trans hj hlt)
  rw [heq] at hj'
  obtain ⟨e, he, htext⟩ := exists_of_names hj'
  exact Nat.ne_of_lt hj (ht.registered.distinct he hd htext)

lemma Sound.nodup_names (ht : Sound strings t) : t.nameList.names.Nodup := by
  rw [List.Nodup, List.pairwise_iff_getElem]
  intro i j hi hj hij heq
  obtain ⟨a, ha, hatext⟩ := exists_of_names (List.getElem?_eq_getElem hi)
  obtain ⟨b, hb, hbtext⟩ := exists_of_names (List.getElem?_eq_getElem hj)
  have htext : a.text = b.text := by rw [hatext, hbtext, heq]
  exact Nat.ne_of_lt hij (ht.registered.distinct ha hb htext)

/-- Looking a name up is looking for its position in the list. -/
theorem Sound.lookup_eq (ht : Sound strings t) (name : String) :
    t.lookup name = t.nameList.names.idxOf? name := by
  by_cases hknown : ∃ id d, t.get? id = some d ∧ d.text = name
  · obtain ⟨id, d, hd, rfl⟩ := hknown
    rw [ht.idxOf?_names hd]
    obtain ⟨p, hwalk⟩ := (laidOut_of_get? ht.slots hd).walkFromHome_of_get? ht.registered hd
    rw [lookup, hwalk]
  · have hnew : t.Lacks name := fun {id d} hd htext => hknown ⟨id, d, hd, htext⟩
    rw [hnew.idxOf?_names]
    obtain ⟨hslots, _⟩ | hlaid := ht.slots
    · rw [lookup, hslots]
      rfl
    · obtain ⟨n, _, hwalk, _⟩ := hlaid.seating.walkFromHome_vacant hlaid.exists_vacant
        (Hash.ofName name) (fun _ hid => hid) (fun _ _ _ hd => hnew hd)
      rw [lookup, hwalk]

lemma nameList_ready (t : Table) : t.ready.value.nameList = t.nameList := by
  obtain ⟨slots, hslots⟩ := t.ready_value
  rw [hslots]
  rfl

lemma nameList_congr (h : SameOrigin t u) :
    u.nameList = { t.nameList with grouped := u.grouped } := by
  have htext : Descriptor.text =
      (fun o : Handle × UInt32 × Encoding => o.1.text) ∘ Descriptor.origin := rfl
  have hmap : ∀ v : Table, v.descriptors.toList.map Descriptor.text =
      (v.descriptors.map Descriptor.origin).toList.map fun o => o.1.text := by
    intro v
    rw [Array.toList_map, List.map_map, ← htext]
  rw [nameList, nameList, hmap u, h.origin, ← hmap t]

variable {r : Logged (Except TableError Nat × Table)}

/-- As long as there are numbers left, interning is interning into the list. -/
theorem Interning.nameList_eq (hr : Interning t h r) (ht : Sound strings t)
    (hroom : t.size < maxDescriptors) :
    (r.value.1, r.value.2.nameList) = t.nameList.intern h.text := by
  unfold NameList.intern
  cases hr with
  | known hd htext => rw [← htext, ht.idxOf?_names hd]
  | frozen hnew hg =>
    rw [hnew.idxOf?_names]
    simp [hg]
  | malformed hnew hg herr =>
    rw [hnew.idxOf?_names]
    simp [hg, herr, nameList_ready]
  | full hnew hg he hfull => omega
  | created hnew hg he hroom hfilled hlaid =>
    rw [hnew.idxOf?_names]
    simp [hg, he, nameList, extend, fresh, Descriptor.text, size]

/-- A table that answers like a list of names. -/
structure Refines (t : Table) (l : NameList) : Prop where
  size : t.size = l.names.length
  grouped : t.grouped = l.grouped
  distinct : l.names.Nodup
  lookup : ∀ name, t.lookup name = l.names.idxOf? name
  text : ∀ id, (t.get? id).map Descriptor.text = l.names[id]?
  fields : ∀ {id : Nat} {d : Descriptor}, t.get? id = some d →
    Encoding.ofName d.text = .ok d.encoding ∧ d.hash = Hash.ofName d.text

theorem Sound.refines (ht : Sound strings t) : t.Refines t.nameList where
  size := t.length_names.symm
  grouped := rfl
  distinct := ht.nodup_names
  lookup := ht.lookup_eq
  text id := (t.getElem?_names id).symm
  fields hd := ⟨ht.registered.encoded hd, ht.registered.hash_eq hd⟩

end Table

namespace TableSession

variable {s : TableSession}

lemma Sound.nameList_intern (hs : s.Sound) (hroom : s.table.size < Table.maxDescriptors)
    (name : String) :
    ((s.intern name).value.1, (s.intern name).value.2.table.nameList) =
      s.table.nameList.intern name := by
  have h := (hs.interning name).nameList_eq hs hroom
  rwa [Interner.add_text] at h

lemma Sound.nameList_internAll (hs : s.Sound) (names : List String)
    (hroom : (s.table.nameList.internAll names).names.length < Table.maxDescriptors) :
    (s.internAll names).value.2.table.nameList = s.table.nameList.internAll names := by
  induction names generalizing s with
  | nil => rfl
  | cons name names ih =>
    have hle := (s.table.nameList.prefix_internAll (name :: names)).length_le
    rw [Table.length_names] at hle
    have hfirst := congrArg Prod.snd (hs.nameList_intern (Nat.lt_of_le_of_lt hle hroom) name)
    dsimp only at hfirst
    change ((s.table.nameList.intern name).2.internAll names).names.length < _ at hroom
    change _ = (s.table.nameList.intern name).2.internAll names
    rw [← hfirst] at hroom ⊢
    exact ih (hs.intern name) hroom

/-- Every step of a session is a step of its list of names. -/
theorem Sound.nameList_step (hs : s.Sound) (x : Step)
    (hroom : (s.table.nameList.step x).names.length < Table.maxDescriptors) :
    (s.step x).value.2.table.nameList = s.table.nameList.step x := by
  have hle := (s.table.nameList.prefix_step x).length_le
  rw [Table.length_names] at hle
  cases x with
  | expect count =>
    change (s.table.expect count).value.nameList = s.table.nameList
    unfold Table.expect
    split <;> rfl
  | intern name => exact congrArg Prod.snd (hs.nameList_intern (Nat.lt_of_le_of_lt hle hroom) name)
  | internAll names => exact hs.nameList_internAll names hroom
  | group => exact Table.nameList_congr (Table.sameOrigin_group s.table)
  | push head patterns =>
    obtain ⟨registry, hpush⟩ := s.step_push head patterns
    rw [hpush]
    rfl
  | registry => rfl
  | apply =>
    obtain ⟨hsame, hg⟩ := hs.sameOrigin_applyRules {}
    exact (Table.nameList_congr hsame).trans (by rw [hg]; rfl)
  | applyCopy =>
    obtain ⟨hsame, hg⟩ := hs.sameOrigin_applyRules s.registry
    exact (Table.nameList_congr hsame).trans (by rw [hg]; rfl)
  | query q => rfl

/-- Every session is a session of its list of names. -/
theorem Sound.nameList_after (hs : s.Sound) (xs : List Step)
    (hroom : (s.table.nameList.after xs).names.length < Table.maxDescriptors) :
    (s.after xs).table.nameList = s.table.nameList.after xs := by
  induction xs generalizing s with
  | nil => rfl
  | cons x xs ih =>
    have hle := ((s.table.nameList.step x).prefix_after xs).length_le
    have hstep := hs.nameList_step x (Nat.lt_of_le_of_lt hle hroom)
    change ((s.table.nameList.step x).after xs).names.length < _ at hroom
    change _ = (s.table.nameList.step x).after xs
    rw [← hstep] at hroom ⊢
    exact ih (hs.step x) hroom

/-- A session answers like a list of distinct names, and refuses a name only because the list is
closed or because it is no connector name. -/
theorem refines_after_start (count : Nat) (xs : List Step)
    (hroom : (NameList.after {} xs).names.length < Table.maxDescriptors) :
    let s := (start count).after xs
    let l := NameList.after {} xs
    s.table.Refines l ∧ ∀ name : String,
      (s.intern name).value.1 = (l.intern name).1 ∧
      (s.intern name).value.2.table.Refines (l.intern name).2 ∧
      ∀ err, (s.intern name).value.1 = .error err →
        err = .frozen name ∨ ∃ e, Encoding.ofName name = .error e ∧ err = .encode e := by
  intro s l
  have hs : s.Sound := sound_after_start count xs
  have hl : s.table.nameList = l := (sound_start count).nameList_after xs hroom
  have hsize : s.table.size < Table.maxDescriptors := by
    rw [← Table.length_names, hl]
    exact hroom
  refine ⟨hl ▸ Table.Sound.refines hs, fun name => ?_⟩
  have hintern := hs.nameList_intern hsize name
  rw [hl] at hintern
  refine ⟨congrArg Prod.fst hintern, ?_, fun err herr => ?_⟩
  · have hnext : (s.intern name).value.2.table.nameList = (l.intern name).2 :=
      congrArg Prod.snd hintern
    exact hnext ▸ Table.Sound.refines (hs.intern name)
  · obtain h | h | ⟨hfull, _⟩ := (hs.interning name).error herr
    · rw [Interner.add_text] at h
      exact .inl h
    · rw [Interner.add_text] at h
      exact .inr h
    · omega

/-- A closed list goes on answering for the names it has. -/
theorem lookup_after_closing :
    ((start 20).after [.intern "Ss", .intern "x", .intern "O", .group]).table.lookup "O" =
      some 1 := by
  rw [(refines_after_start 20 [.intern "Ss", .intern "x", .intern "O", .group]
    (by decide +kernel)).1.lookup]
  decide +kernel

end TableSession

end LinkConnectors
