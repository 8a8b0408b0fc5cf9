import StyleSheet.Color.Tables
import StyleSheet.Proofs.Keys

namespace StyleSheet.Color

variable {source : Source} {entries : Entries} {name : TableName} {wording : Wording}
  {orders others : Orders} {order : Table.Order} {written table : Table Text} {tables : Tables}
  {entry : Text × Text} {error : TableError}

theorem TableName.table_of_fault? (h : name.fault? entry = some error) : error.table = name := by
  cases name <;>
  · rw [fault?] at h
    split at h
    · cases h
    · cases h
      rfl

theorem mem_lowered (h : entry ∈ lowered order written) :
    ∃ first ∈ written, lowerKey first = entry := by
  obtain ⟨first, hf, he⟩ := List.mem_map.mp (Table.mem_ofEntries h)
  exact ⟨first, (order.perm written).mem_iff.mp hf, he⟩

/-- No two entries have the same key in lower case. -/
def NodupLower (entries : List (Text × Text)) : Prop :=
  (entries.map fun entry => Text.lower entry.1).Nodup

theorem nodup_lowerKey (h : NodupLower written) (order : Table.Order) :
    (((order.arrange written).map lowerKey).map Prod.fst).Nodup := by
  rw [List.map_map]
  exact ((order.perm written).map _).nodup_iff.mpr h

theorem perm_lowered (h : NodupLower written) (order : Table.Order) :
    (lowered order written).Perm (written.map lowerKey) :=
  (Table.perm_ofEntries (nodup_lowerKey h order)).trans ((order.perm written).map lowerKey)

theorem lowered_eq (h : NodupLower written) (order : Table.Order) :
    lowered order written = Table.ofEntries (written.map lowerKey) :=
  Table.ofEntries_eq_of_perm ((order.perm written).map lowerKey) (nodup_lowerKey h order)

theorem lowered_ofEntries {listed : List (Text × Text)} (h : NodupLower listed)
    (order : Table.Order) :
    lowered order (Table.ofEntries listed) = Table.ofEntries (listed.map lowerKey) := by
  have keys : (listed.map Prod.fst).Nodup := by
    apply List.Nodup.of_map Text.lower
    rw [List.map_map]
    exact h
  have same := Table.perm_ofEntries keys
  have apart : NodupLower (Table.ofEntries listed) := (same.map _).nodup_iff.mpr h
  rw [lowered_eq apart]
  apply Table.ofEntries_eq_of_perm (same.map lowerKey)
  rw [List.map_map]
  exact apart

theorem findSome?_eq_of_perm {f : Text × Text → Option TableError} {found shuffled : Table Text}
    (h : found.Perm shuffled)
    (single : ∀ a ∈ found, ∀ b ∈ found, f a ≠ none → f b ≠ none → a = b) :
    found.findSome? f = shuffled.findSome? f := by
  cases hf : found.findSome? f with
  | none =>
    symm
    simpa only [List.findSome?_eq_none_iff, h.mem_iff] using hf
  | some error =>
    obtain ⟨a, ha, he⟩ := List.exists_of_findSome?_eq_some hf
    have some_shuffled : shuffled.findSome? f ≠ none := by
      intro hn
      rw [List.findSome?_eq_none_iff.mp hn a (h.mem_iff.mp ha)] at he
      cases he
    obtain ⟨other, ho⟩ := Option.ne_none_iff_exists'.mp some_shuffled
    obtain ⟨b, hb, hbo⟩ := List.exists_of_findSome?_eq_some ho
    have same := single a ha b (h.mem_iff.mpr hb) (by simp [he]) (by simp [hbo])
    rw [ho, ← he, ← hbo, same]

namespace Entries

/-- The fault that a load of a table meets first. -/
def met (name : TableName) (orders : Orders) (written : Table Text) : Option TableError :=
  ((orders.checking name).arrange (lowered (orders.lowering name) written)).findSome? name.fault?

theorem met_eq_none_iff :
    met name orders written = none ↔
      ∀ entry ∈ lowered (orders.lowering name) written, name.fault? entry = none := by
  simp only [met, List.findSome?_eq_none_iff, ((orders.checking name).perm _).mem_iff]

theorem load_of_met_eq_none (h : entries.read wording = .ok written)
    (hm : met name orders written = none) :
    entries.load name wording orders = .ok (lowered (orders.lowering name) written) := by
  rw [met] at hm
  simp only [load, h, hm]

theorem load_of_met_eq_some (h : entries.read wording = .ok written)
    (hm : met name orders written = some error) :
    entries.load name wording orders = .error error := by
  rw [met] at hm
  simp only [load, h, hm]

theorem load_eq_ok_iff :
    entries.load name wording orders = .ok table ↔
      ∃ written, entries.read wording = .ok written ∧
        table = lowered (orders.lowering name) written ∧
        ∀ entry ∈ table, name.fault? entry = none := by
  cases hr : entries.read wording with
  | error words => simp [load, hr]
  | ok written =>
    cases hm : met name orders written with
    | none =>
      rw [load_of_met_eq_none hr hm]
      constructor
      · rintro ⟨⟩
        exact ⟨written, rfl, rfl, met_eq_none_iff.mp hm⟩
      · rintro ⟨_, ⟨⟩, rfl, -⟩
        rfl
    | some error =>
      rw [load_of_met_eq_some hr hm]
      refine iff_of_false (fun h => by cases h) ?_
      rintro ⟨_, ⟨⟩, rfl, sound⟩
      rw [met_eq_none_iff.mpr sound] at hm
      cases hm

theorem of_load_eq_error (h : entries.load name wording orders = .error error) :
    (∃ words, entries.read wording = .error words ∧ error = .unreadable name words) ∨
      ∃ written, entries.read wording = .ok written ∧
        ∃ entry ∈ lowered (orders.lowering name) written, name.fault? entry = some error := by
  cases hr : entries.read wording with
  | error words =>
    rw [load, hr] at h
    cases h
    exact .inl ⟨words, rfl, rfl⟩
  | ok written =>
    cases hm : met name orders written with
    | none =>
      rw [load_of_met_eq_none hr hm] at h
      cases h
    | some found =>
      rw [load_of_met_eq_some hr hm] at h
      cases h
      obtain ⟨entry, hentry, he⟩ := List.exists_of_findSome?_eq_some hm
      exact .inr ⟨written, rfl, entry, ((orders.checking name).perm _).mem_iff.mp hentry, he⟩

/-- Of several faults any may be the one that is reported. -/
theorem exists_load_eq_error (h : entries.read wording = .ok written)
    (hm : entry ∈ lowered (orders.lowering name) written) (he : name.fault? entry = some error) :
    ∃ others, entries.load name wording others = .error error := by
  refine ⟨{ orders with checking := fun _ => .startingWith entry }, load_of_met_eq_some h ?_⟩
  change (Table.Order.arrange (.startingWith entry) _).findSome? name.fault? = _
  rw [Table.Order.arrange_startingWith hm, List.findSome?_cons, he]

/-- The keys of a table stay apart in lower case, and at most one entry of it is at fault. -/
structure Settled (entries : Entries) (name : TableName) (wording : Wording) : Prop where
  apart : ∀ written, entries.read wording = .ok written → NodupLower written
  single : ∀ written, entries.read wording = .ok written → ∀ a ∈ written, ∀ b ∈ written,
    name.fault? (lowerKey a) ≠ none → name.fault? (lowerKey b) ≠ none → a = b

theorem Settled.met_eq (h : entries.Settled name wording) (hr : entries.read wording = .ok written)
    (orders others : Orders) : met name orders written = met name others written := by
  have apart := h.apart written hr
  rw [met, met, lowered_eq apart (orders.lowering name), ← lowered_eq apart (others.lowering name)]
  apply findSome?_eq_of_perm
  · exact ((orders.checking name).perm _).trans ((others.checking name).perm _).symm
  · intro a ha b hb fa fb
    obtain ⟨first, hfirst, rfl⟩ := mem_lowered (((orders.checking name).perm _).mem_iff.mp ha)
    obtain ⟨second, hsecond, rfl⟩ := mem_lowered (((orders.checking name).perm _).mem_iff.mp hb)
    rw [h.single written hr first hfirst second hsecond fa fb]

theorem Settled.load_eq (h : entries.Settled name wording) (orders others : Orders) :
    entries.load name wording orders = entries.load name wording others := by
  cases hr : entries.read wording with
  | error words => simp only [load, hr]
  | ok written =>
    have apart := h.apart written hr
    have same := h.met_eq hr orders others
    cases hm : met name others written with
    | none =>
      rw [load_of_met_eq_none hr (same.trans hm), load_of_met_eq_none hr hm, lowered_eq apart,
        lowered_eq apart]
    | some error => rw [load_of_met_eq_some hr (same.trans hm), load_of_met_eq_some hr hm]

theorem table_of_load (h : entries.load name wording orders = .error error) :
    error.table = name := by
  rcases of_load_eq_error h with ⟨words, -, rfl⟩ | ⟨written, -, entry, -, he⟩
  · rfl
  · exact TableName.table_of_fault? he

end Entries

namespace Source

theorem load_eq_ok_iff :
    source.load wording orders = .ok tables ↔
      source.names.load .names wording orders = .ok tables.names ∧
        source.shortNames.load .shortNames wording orders = .ok tables.shortNames := by
  obtain ⟨names, shortNames⟩ := tables
  rw [load]
  cases source.names.load .names wording orders with
  | error => simp [bind, Except.bind]
  | ok =>
    cases source.shortNames.load .shortNames wording orders with
    | error => simp [bind, Except.bind]
    | ok => simp [bind, Except.bind, pure, Except.pure]

/-- The names are loaded first, so it is their fault that is reported, whatever the short names. -/
theorem table_of_load (h : source.load wording orders = .error error) :
    error.table = .names ↔ ¬∃ names, source.names.load .names wording orders = .ok names := by
  rw [load] at h
  cases hn : source.names.load .names wording orders with
  | error =>
    rw [hn] at h
    cases h
    exact iff_of_true (Entries.table_of_load hn) (by simp)
  | ok names =>
    rw [hn] at h
    cases hs : source.shortNames.load .shortNames wording orders with
    | error =>
      rw [hs] at h
      cases h
      rw [Entries.table_of_load hs]
      simp
    | ok =>
      rw [hs] at h
      cases h

/-- Orders make no difference to a source of settled tables. -/
theorem load_eq_of_settled (names : source.names.Settled .names wording)
    (shortNames : source.shortNames.Settled .shortNames wording) (orders others : Orders) :
    source.load wording orders = source.load wording others := by
  simp only [load, names.load_eq orders others, shortNames.load_eq orders others]

theorem isCode_of_load (h : source.load wording orders = .ok tables) :
    ∀ entry ∈ tables.names, Hex.isCode entry.2 = true := by
  obtain ⟨_, -, -, sound⟩ := Entries.load_eq_ok_iff.mp (load_eq_ok_iff.mp h).1
  intro entry hm
  simpa [TableName.fault?] using sound entry hm

theorem isFull_of_load (h : source.load wording orders = .ok tables) :
    ∀ entry ∈ tables.shortNames, Hex.isFull entry.1 = true := by
  obtain ⟨_, -, -, sound⟩ := Entries.load_eq_ok_iff.mp (load_eq_ok_iff.mp h).2
  intro entry hm
  simpa [TableName.fault?] using sound entry hm

end Source

end StyleSheet.Color
