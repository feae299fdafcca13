import LinkConnectors.Proofs.Reach.Stamping
import LinkConnectors.Proofs.Session.Layout
import LinkConnectors.Proofs.Session.NameList
import LinkConnectors.Session.Query

/-! What a table shows. Users see the descriptors with their names, in order, and the view by core.
They see neither the handles nor the slots, and what they do not see decides nothing of what they do
see. -/
namespace LinkConnectors

namespace Descriptor

/-- The descriptor with the text of its name alone. -/
def plain (d : Descriptor) : Descriptor := { d with name := ⟨0, 0, d.text⟩ }

@[simp] lemma text_plain (d : Descriptor) : d.plain.text = d.text := rfl

end Descriptor

/-- An event as far as it does not tell of slots or of the interner. -/
def Event.plain? : Event → Option Event
  | .growing .. | .hintIgnored .. | .hintRounded .. => none
  | .dictionaryReady connectors cores _ => some (.dictionaryReady connectors cores 0)
  | e => some e

/-- The events that do not tell of slots. -/
def plainEvents (es : List Event) : List Event := es.filterMap Event.plain?

@[simp] lemma plainEvents_append (es fs : List Event) :
    plainEvents (es ++ fs) = plainEvents es ++ plainEvents fs :=
  List.filterMap_append

namespace Table

/-- What a table shows to its users. -/
def plain (t : Table) : Table :=
  { t with slots := #[], descriptors := t.descriptors.map Descriptor.plain, expected := 0 }

def Reply.plain : Reply → Reply
  | .summary s => .summary { s with capacity := 0 }
  | .descriptor d => .descriptor (d.map Descriptor.plain)
  | .listing ds => .listing (ds.map fun p => (p.1, p.2.plain))
  | .sorted ds => .sorted (ds.map fun ds => ds.map fun p => (p.1, p.2.plain))
  | .id n => .id n
  | .verdict b => .verdict b

variable {strings others : Interner} {t u : Table} {h : Handle}

@[simp] lemma descriptors_plain (t : Table) :
    t.plain.descriptors = t.descriptors.map Descriptor.plain := rfl
@[simp] lemma byCore_plain (t : Table) : t.plain.byCore = t.byCore := rfl
@[simp] lemma coreCount_plain (t : Table) : t.plain.coreCount = t.coreCount := rfl
@[simp] lemma grouped_plain (t : Table) : t.plain.grouped = t.grouped := rfl

@[simp] lemma size_plain (t : Table) : t.plain.size = t.size := Array.size_map

@[simp] lemma get?_plain (t : Table) (id : Nat) :
    t.plain.get? id = (t.get? id).map Descriptor.plain :=
  Array.getElem?_map

@[simp] lemma nameList_plain (t : Table) : t.plain.nameList = t.nameList := by
  simp [nameList, Function.comp_def]

lemma map_plain_sortKey (ds : Array Descriptor) :
    (ds.map Descriptor.plain).map Descriptor.sortKey = ds.map Descriptor.sortKey := by
  rw [Array.map_map]
  rfl

section Queries

/-- Without looking names up, a table answers like what it shows. -/
lemma reply_plain (t : Table) {q : Query} (hq : ∀ name, q ≠ .lookup name) :
    (t.reply q).plain = t.plain.reply q := by
  cases q with
  | summary =>
    simp only [reply, Reply.plain, summary, size_plain, coreCount_plain, grouped_plain]
    rfl
  | lookup name => exact absurd rfl (hq name)
  | get id => simp [reply, Reply.plain]
  | toList =>
    have hlist : t.toList.map (fun p => (p.1, p.2.plain)) = t.plain.toList := by
      apply List.ext_getElem?
      intro id
      simp [toList, Function.comp_def]
    rw [reply, Reply.plain, hlist, reply]
  | sorted =>
    have hview : ∀ ids : List Nat,
        (ids.filterMap fun id => (t.get? id).map fun d => (id, d)).map (fun p => (p.1, p.2.plain)) =
          ids.filterMap fun id => (t.plain.get? id).map fun d => (id, d) := by
      intro ids
      rw [List.map_filterMap]
      simp [Function.comp_def]
    rw [reply, Reply.plain, reply, sorted?, sorted?, grouped_plain, byCore_plain]
    split
    · rw [Option.map_some, hview]
    · rfl
  | matching a b =>
    rw [reply, Reply.plain, reply, matching?, matching?, get?_plain, get?_plain]
    cases t.get? a <;> cases t.get? b <;> rfl
  | suffixMatching a b =>
    rw [reply, Reply.plain, reply, suffixMatching?, suffixMatching?, get?_plain, get?_plain]
    cases t.get? a <;> cases t.get? b <;> rfl

/-- Sound tables that show the same answer the same. -/
theorem Sound.reply_congr (ht : Sound strings t) (hu : Sound others u) (h : t.plain = u.plain)
    (q : Query) :
    (t.reply q).plain = (u.reply q).plain := by
  by_cases hq : ∃ name, q = .lookup name
  · obtain ⟨name, rfl⟩ := hq
    have hnames := congrArg nameList h
    rw [nameList_plain, nameList_plain] at hnames
    rw [reply, reply, ht.lookup_eq, hu.lookup_eq, hnames]
  · rw [not_exists] at hq
    rw [t.reply_plain hq, u.reply_plain hq, h]

end Queries

section Interning

/-- Interning a name as far as it shows. -/
def internName (t : Table) (name : String) : Logged (Except TableError Nat × Table) :=
  match t.nameList.names.idxOf? name with
  | some id => pure (.ok id, t)
  | none =>
    if t.grouped then pure (.error (.frozen name), t)
    else match Encoding.ofName name with
      | .error err => pure (.error (.encode err), t)
      | .ok e =>
        if t.size < maxDescriptors then do
          Logged.log (.creating name)
          return (.ok t.size, { t with descriptors := t.descriptors.push (fresh ⟨0, 0, name⟩ e) })
        else pure (.error (.full t.size), t)

/-- A name that is refused leaves nothing that shows. -/
lemma internName_of_error {name : String} {err : TableError}
    (herr : (t.internName name).value.1 = .error err) :
    t.internName name = ⟨(.error err, t), []⟩ := by
  unfold internName at herr ⊢
  split at herr
  · cases herr
  · split at herr
    · rw [if_pos ‹_›]
      obtain rfl := Except.error.inj herr
      rfl
    · rw [if_neg ‹_›]
      split at herr
      · obtain rfl := Except.error.inj herr
        rfl
      · split at herr
        · cases herr
        · rw [if_neg ‹_›]
          obtain rfl := Except.error.inj herr
          rfl

lemma plain_ready (t : Table) : t.ready.value.plain = t.plain := by
  obtain ⟨slots, hslots⟩ := t.ready_value
  rw [hslots]
  rfl

lemma plainEvents_ready (t : Table) : plainEvents t.ready.events = [] := by
  unfold plainEvents
  rw [List.filterMap_eq_nil_iff]
  intro e he
  obtain ⟨hint, slots, rfl⟩ := ready_events he
  rfl

lemma plainEvents_growth (t : Table) : plainEvents t.growth = [] := by
  unfold growth
  split <;> rfl

/-- Whatever slots and handles there are, interning shows as interning of the name. -/
theorem Interning.plain_eq {r : Logged (Except TableError Nat × Table)} (hr : Interning t h r)
    (ht : Sound strings t) :
    (⟨(r.value.1, r.value.2.plain), plainEvents r.events⟩ : Logged
      (Except TableError Nat × Table)) =
      t.plain.internName h.text := by
  unfold internName
  rw [nameList_plain, size_plain, grouped_plain]
  cases hr with
  | known hd htext =>
    rw [← htext, ht.idxOf?_names hd]
    rfl
  | frozen hnew hg =>
    rw [hnew.idxOf?_names]
    dsimp only
    rw [if_pos hg]
    rfl
  | malformed hnew hg herr =>
    rw [hnew.idxOf?_names]
    dsimp only
    rw [if_neg (by simp [hg]), herr, plain_ready, plainEvents_ready]
    rfl
  | full hnew hg he hfull =>
    rw [hnew.idxOf?_names]
    dsimp only
    rw [if_neg (by simp [hg]), he, plain_ready, plainEvents_ready]
    dsimp only
    rw [if_neg (by omega)]
    rfl
  | @created e filled slots hnew hg he hroom hfilled hlaid =>
    -- whether the slots have grown on the way shows neither in the table nor in what is left of the
    -- log
    have hplain : (t.extend (fresh h e) slots).plain = { t.plain with
        descriptors := t.plain.descriptors.push (fresh ⟨0, 0, h.text⟩ e) } := by
      simp [plain, extend]
      rfl
    have hevents :
        plainEvents (t.ready.events ++ .creating h.text :: (t.extend (fresh h e) filled).growth) =
        [.creating h.text] := by
      rw [plainEvents_append, plainEvents_ready, List.nil_append, plainEvents, List.filterMap_cons]
      exact congrArg _ (plainEvents_growth _)
    rw [hnew.idxOf?_names]
    dsimp only
    rw [if_neg (by simp [hg]), he, hplain, hevents]
    dsimp only
    rw [if_pos hroom]
    rfl

end Interning

section Loading

/-- A hint does not show, whether it is taken or not. -/
lemma expect_plain (t : Table) (count : Nat) :
    (t.expect count).value.plain = t.plain ∧ plainEvents (t.expect count).events = [] := by
  unfold expect
  split <;> exact ⟨rfl, rfl⟩

lemma numbered_plain (cores : Finset String) (d : Descriptor) :
    numbered cores d.plain = (numbered cores d).plain := rfl

/-- Grouping looks at cores and names alone. -/
theorem group_plain (t : Table) : t.plain.group = ⟨t.group.value.plain, t.group.events⟩ := by
  have hcores : coresOf t.plain.descriptors = coresOf t.descriptors :=
    coresOf_congr (map_plain_sortKey t.descriptors)
  have hids : sortedIds t.plain.descriptors = sortedIds t.descriptors :=
    sortedIds_congr (map_plain_sortKey t.descriptors)
  rw [group_eq, group_eq, hcores, hids, size_plain]
  simp only [plain, Array.map_map]
  rfl

lemma Numbered.plain (ht : t.Numbered) : t.plain.Numbered where
  grouped := ht.grouped
  byCore := by
    rw [descriptors_plain, sortedIds_congr (map_plain_sortKey t.descriptors)]
    exact ht.byCore
  coreCount := by
    rw [descriptors_plain, coresOf_congr (map_plain_sortKey t.descriptors)]
    exact ht.coreCount
  coreId {id d} hd := by
    rw [descriptors_plain, Array.getElem?_map, Option.map_eq_some_iff] at hd
    obtain ⟨e, he, rfl⟩ := hd
    rw [descriptors_plain, coresOf_congr (map_plain_sortKey t.descriptors)]
    exact ht.coreId (d := e) he

lemma restamp_plain (r : Reach.Registry) (d : Descriptor) :
    r.restamp d.plain = (r.restamp d).plain := by
  have hlast : r.lastLimit? d.plain = r.lastLimit? d := rfl
  have hlimit : d.plain.limit = d.limit := rfl
  unfold Reach.Registry.restamp Reach.Registry.lift
  rw [hlast, hlimit]
  cases r.declaresUnlimited with
  | true => rfl
  | false => by_cases h : (r.lastLimit? d).getD d.limit = 0 <;> simp [h] <;> rfl

lemma reachCount_plain (r : Reach.Registry) (ds : Array Descriptor) :
    r.reachCount (ds.map Descriptor.plain).toList = r.reachCount ds.toList := by
  simp only [Reach.Registry.reachCount, Array.toList_map, List.countP_map]
  rfl

/-- Stamping looks at cores, suffixes and roles alone. -/
theorem Numbered.stamp_plain (ht : t.Numbered) (r : Reach.Registry) :
    r.stamp t.plain = ⟨(r.stamp t).value.plain, (r.stamp t).events⟩ := by
  have hrestamp : r.restamp ∘ Descriptor.plain = Descriptor.plain ∘ r.restamp :=
    funext fun d => restamp_plain r d
  rw [r.stamp_eq ht, r.stamp_eq ht.plain, descriptors_plain, reachCount_plain]
  simp only [Table.plain, Array.map_map, hrestamp]

end Loading

end Table

end LinkConnectors
