import Mathlib.Data.List.Sort
import StyleSheet.Proofs.Sheet.Edits

namespace StyleSheet

namespace Column

variable {α β : Type} {column other : Column α} {index : UInt64} {value : α}

def lookup (entries : List (UInt64 × α)) (key : UInt64) : Option α :=
  (entries.find? fun entry => entry.1 == key).map Prod.snd

theorem lookup_cons (entry : UInt64 × α) (rest : List (UInt64 × α)) (key : UInt64) :
    lookup (entry :: rest) key = if entry.1 = key then some entry.2 else lookup rest key := by
  by_cases h : entry.1 = key <;> simp [lookup, h]

theorem lookup_insertEntry (index : UInt64) (value : α) (entries : List (UInt64 × α))
    (key : UInt64) :
    lookup (insertEntry index value entries) key =
      if index = key then some value else lookup entries key := by
  induction entries with
  | nil => exact lookup_cons _ _ _
  | cons entry rest ih =>
    rw [insertEntry]
    split
    next => exact lookup_cons _ _ _
    next =>
      split
      next same =>
        rw [lookup_cons, lookup_cons, ← same]
        split <;> rfl
      next differs =>
        rw [lookup_cons, lookup_cons, ih]
        by_cases h : entry.1 = key
        · rw [if_pos h, if_pos h, if_neg (h ▸ differs)]
        · rw [if_neg h, if_neg h]

theorem get?_insert (column : Column α) (index : UInt64) (value : α) (key : UInt64) :
    (column.insert index value).get? key = if index = key then some value else column.get? key :=
  lookup_insertEntry index value column.entries key

theorem lookup_of_mem {entries : List (UInt64 × α)}
    (ha : entries.Pairwise fun a b => a.1 < b.1) (h : (index, value) ∈ entries) :
    lookup entries index = some value := by
  induction entries with
  | nil => cases h
  | cons entry rest ih =>
    obtain ⟨first, ha⟩ := List.pairwise_cons.mp ha
    rw [lookup_cons]
    rcases List.mem_cons.mp h with rfl | h
    · exact if_pos rfl
    · have hlt := first _ h
      have hne : entry.1 ≠ index := by
        rintro rfl
        exact UInt64.lt_irrefl _ hlt
      rw [if_neg hne]
      exact ih ha h

theorem get?_eq_some_iff : column.get? index = some value ↔ (index, value) ∈ column.entries := by
  constructor
  · intro h
    obtain ⟨entry, hf, rfl⟩ := Option.map_eq_some_iff.mp h
    have hk : entry.1 = index := by simpa using List.find?_some hf
    rw [← hk]
    exact List.mem_of_find?_eq_some hf
  · exact lookup_of_mem column.ascending

theorem ext_entries (h : column.entries = other.entries) : column = other := by
  obtain ⟨entries, ha⟩ := column
  obtain ⟨others, ho⟩ := other
  cases h
  rfl

theorem ext_get? (h : ∀ key, column.get? key = other.get? key) : column = other := by
  have irreflexive : Std.Irrefl fun a b : UInt64 × α => a.1 < b.1 :=
    ⟨fun _ => UInt64.lt_irrefl _⟩
  have antisymmetric : Std.Antisymm fun a b : UInt64 × α => a.1 < b.1 :=
    ⟨fun _ _ hab hba => absurd hba (UInt64.lt_asymm hab)⟩
  apply ext_entries
  apply column.ascending.eq_of_mem_iff other.ascending
  intro entry
  rw [← get?_eq_some_iff, ← get?_eq_some_iff, h]

theorem get?_foldl_insert (keys : List UInt64) (g : UInt64 → α) (column : Column α)
    (key : UInt64) :
    ((keys.map fun i => (i, g i)).foldl (fun column entry => column.insert entry.1 entry.2)
        column).get? key =
      if key ∈ keys then some (g key) else column.get? key := by
  induction keys generalizing column with
  | nil => simp
  | cons first rest ih =>
    rw [List.map_cons, List.foldl_cons, ih, get?_insert]
    by_cases hr : key ∈ rest
    · rw [if_pos hr, if_pos (List.mem_cons_of_mem _ hr)]
    · by_cases hf : first = key
      · rw [if_neg hr, if_pos hf, if_pos (hf ▸ List.mem_cons_self), hf]
      · rw [if_neg hr, if_neg hf, if_neg]
        rintro (_ | hm)
        · exact hf rfl
        · exact hr ‹_›

theorem get?_ofList_map (keys : List UInt64) (g : UInt64 → α) (key : UInt64) :
    (ofList (keys.map fun i => (i, g i))).get? key =
      if key ∈ keys then some (g key) else none :=
  get?_foldl_insert keys g {} key

theorem insertEntry_eq_append {entries : List (UInt64 × α)}
    (h : ∀ entry ∈ entries, entry.1 < index) (value : α) :
    insertEntry index value entries = entries ++ [(index, value)] := by
  induction entries with
  | nil => rfl
  | cons entry rest ih =>
    have hlt := h entry List.mem_cons_self
    have hne : index ≠ entry.1 := by
      rintro rfl
      exact UInt64.lt_irrefl _ hlt
    rw [insertEntry, if_neg (UInt64.lt_asymm hlt), if_neg hne, List.cons_append,
      ih fun entry hm => h entry (List.mem_cons_of_mem _ hm)]

theorem entries_foldl_insert {entries : List (UInt64 × α)} (column : Column α)
    (h : (column.entries ++ entries).Pairwise fun a b => a.1 < b.1) :
    (entries.foldl (fun column entry => column.insert entry.1 entry.2) column).entries =
      column.entries ++ entries := by
  induction entries generalizing column with
  | nil => simp
  | cons entry rest ih =>
    have hbefore := (List.pairwise_append.mp h).2.2
    have hs : (column.insert entry.1 entry.2).entries = column.entries ++ [entry] :=
      insertEntry_eq_append (fun other ho => hbefore other ho entry List.mem_cons_self) entry.2
    rw [List.foldl_cons, ih, hs, List.append_assoc]
    · rfl
    · rw [hs, List.append_assoc]
      exact h

theorem entries_ofList {entries : List (UInt64 × α)}
    (h : entries.Pairwise fun a b => a.1 < b.1) : (ofList entries).entries = entries :=
  entries_foldl_insert {} h

/-- A renaming of these keys that leaves them in their order. -/
def KeepsOrder (f : UInt64 → UInt64) (keys : List UInt64) : Prop :=
  ∀ a ∈ keys, ∀ b ∈ keys, a < b → f a < f b

instance (f : UInt64 → UInt64) (keys : List UInt64) : Decidable (KeepsOrder f keys) :=
  decidable_of_iff ((keys.all fun a => keys.all fun b => decide (a < b → f a < f b)) = true)
    (by simp only [KeepsOrder, List.all_eq_true, decide_eq_true_eq])

namespace KeepsOrder

variable {f : UInt64 → UInt64} {keys others : List UInt64} {a b : UInt64}

theorem subset (hf : KeepsOrder f keys) (h : ∀ key ∈ others, key ∈ keys) : KeepsOrder f others :=
  fun a ha b hb => hf a (h a ha) b (h b hb)

theorem injective (hf : KeepsOrder f keys) (ha : a ∈ keys) (hb : b ∈ keys) (h : f a = f b) :
    a = b := by
  by_contra hne
  rcases UInt64.lt_or_lt_of_ne hne with hlt | hlt
  · have := hf a ha b hb hlt
    rw [h] at this
    exact UInt64.lt_irrefl _ this
  · have := hf b hb a ha hlt
    rw [h] at this
    exact UInt64.lt_irrefl _ this

theorem lt_iff (hf : KeepsOrder f keys) (ha : a ∈ keys) (hb : b ∈ keys) : f a < f b ↔ a < b := by
  constructor
  · intro h
    by_contra hn
    rcases UInt64.le_iff_lt_or_eq.mp (UInt64.not_lt.mp hn) with hlt | rfl
    · exact UInt64.lt_asymm h (hf b hb a ha hlt)
    · exact UInt64.lt_irrefl _ h
  · exact hf a ha b hb

end KeepsOrder

def renamed (f : UInt64 → UInt64) (entry : UInt64 × α) : UInt64 × α :=
  (f entry.1, entry.2)

def rename (f : UInt64 → UInt64) (column : Column α) : Column α :=
  ofList (column.entries.map (renamed f))

theorem insertEntry_renamed {f : UInt64 → UInt64} {entries : List (UInt64 × α)}
    (hf : KeepsOrder f (index :: entries.map Prod.fst)) (value : α) :
    insertEntry (f index) value (entries.map (renamed f)) =
      (insertEntry index value entries).map (renamed f) := by
  induction entries with
  | nil => rfl
  | cons entry rest ih =>
    have hi : index ∈ index :: (entry :: rest).map Prod.fst := List.mem_cons_self
    have he : entry.1 ∈ index :: (entry :: rest).map Prod.fst :=
      List.mem_cons_of_mem _ List.mem_cons_self
    have hs : f index = f entry.1 ↔ index = entry.1 := ⟨hf.injective hi he, congrArg f⟩
    have hr := ih (hf.subset fun key hk => by
      rcases List.mem_cons.mp hk with rfl | hk
      · exact hi
      · exact List.mem_cons_of_mem _ (List.mem_cons_of_mem _ hk))
    rw [List.map_cons, insertEntry, insertEntry, renamed, hr]
    simp only [hf.lt_iff hi he, hs]
    split
    · rfl
    · split <;> rfl

theorem mem_indices_insert {key : UInt64} (h : key ∈ (column.insert index value).indices) :
    key = index ∨ key ∈ column.indices := by
  obtain ⟨entry, hm, rfl⟩ := List.mem_map.mp h
  rcases mem_insertEntry hm with he | hm
  · exact .inl he
  · exact .inr (List.mem_map_of_mem hm)

theorem mem_indices_foldl_insert {entries : List (UInt64 × α)} {key : UInt64}
    (h : key ∈ (entries.foldl (fun column entry => column.insert entry.1 entry.2) column).indices) :
    key ∈ column.indices ∨ key ∈ entries.map Prod.fst := by
  induction entries generalizing column with
  | nil => exact .inl h
  | cons entry rest ih =>
    rcases ih h with h | h
    · rcases mem_indices_insert h with rfl | h
      · exact .inr List.mem_cons_self
      · exact .inl h
    · exact .inr (List.mem_cons_of_mem _ h)

theorem mem_of_mem_indices_ofList {entries : List (UInt64 × α)} {key : UInt64}
    (h : key ∈ (ofList entries).indices) : key ∈ entries.map Prod.fst :=
  (mem_indices_foldl_insert h).resolve_left List.not_mem_nil

theorem entries_foldl_renamed {f : UInt64 → UInt64} {entries : List (UInt64 × α)}
    (hf : KeepsOrder f (column.indices ++ entries.map Prod.fst))
    (ho : other.entries = column.entries.map (renamed f)) :
    ((entries.map (renamed f)).foldl (fun column entry => column.insert entry.1 entry.2)
        other).entries =
      (entries.foldl (fun column entry => column.insert entry.1 entry.2) column).entries.map
        (renamed f) := by
  induction entries generalizing column other with
  | nil => exact ho
  | cons entry rest ih =>
    rw [List.map_cons, List.foldl_cons, List.foldl_cons]
    apply ih
    · apply hf.subset
      intro key hk
      rcases List.mem_append.mp hk with hk | hk
      · rcases mem_indices_insert hk with rfl | hk
        · exact List.mem_append_right _ List.mem_cons_self
        · exact List.mem_append_left _ hk
      · exact List.mem_append_right _ (List.mem_cons_of_mem _ hk)
    · have hs : KeepsOrder f (entry.1 :: column.entries.map Prod.fst) := by
        apply hf.subset
        intro key hk
        rcases List.mem_cons.mp hk with rfl | hk
        · exact List.mem_append_right _ List.mem_cons_self
        · exact List.mem_append_left _ hk
      have hi := insertEntry_renamed hs entry.2
      rw [← ho] at hi
      exact hi

theorem entries_rename {f : UInt64 → UInt64} (hf : KeepsOrder f column.indices) :
    (column.rename f).entries = column.entries.map (renamed f) := by
  apply entries_ofList
  apply List.pairwise_map.mpr
  apply column.ascending.imp_of_mem
  intro a b ha hb hlt
  exact hf a.1 (List.mem_map_of_mem ha) b.1 (List.mem_map_of_mem hb) hlt

theorem ofList_renamed {f : UInt64 → UInt64} {entries : List (UInt64 × α)}
    (hf : KeepsOrder f (entries.map Prod.fst)) :
    ofList (entries.map (renamed f)) = (ofList entries).rename f := by
  apply ext_entries
  rw [entries_rename (hf.subset fun key => mem_of_mem_indices_ofList)]
  exact entries_foldl_renamed hf rfl

theorem get?_rename {f : UInt64 → UInt64} {keys : List UInt64} (hf : KeepsOrder f keys)
    (hc : ∀ key ∈ column.indices, key ∈ keys) (hi : index ∈ keys) :
    (column.rename f).get? (f index) = column.get? index := by
  apply Option.ext
  intro value
  rw [get?_eq_some_iff, get?_eq_some_iff, entries_rename (hf.subset hc), List.mem_map]
  constructor
  · rintro ⟨entry, hm, he⟩
    obtain ⟨hk, rfl⟩ := Prod.mk.inj he
    rw [← hf.injective (hc _ (List.mem_map_of_mem hm)) hi hk]
    exact hm
  · intro hm
    exact ⟨_, hm, rfl⟩

end Column

namespace Slot

theorem map_fst_live_sublist (slots : List Slot) :
    ((live slots).map Prod.fst).Sublist (slots.map Slot.index) := by
  induction slots with
  | nil => exact .slnil
  | cons slot rest ih =>
    obtain ⟨index, content⟩ := slot
    cases content with
    | none => exact ih.cons index
    | some rule => exact ih.cons_cons index

theorem live_map_some (entries : List (UInt64 × Rule)) :
    live (entries.map fun entry => ⟨entry.1, some entry.2⟩) = entries := by
  induction entries with
  | nil => rfl
  | cons entry rest ih =>
    rw [List.map_cons, Merge.live_cons_some, ih]

end Slot

namespace Parts

def indices (parts : Parts) : List UInt64 :=
  parts.selectors.indices ++ parts.bodies.indices

def rules (parts : Parts) : Column Rule :=
  .ofList (parts.indices.map fun index => (index, Sheet.ruleOfParts parts index))

theorem toList_ofParts (parts : Parts) :
    (Sheet.ofParts parts).slots.toList =
      parts.rules.entries.map fun entry => ⟨entry.1, some entry.2⟩ :=
  rfl

theorem get?_rules (parts : Parts) (index : UInt64) :
    parts.rules.get? index =
      if index ∈ parts.indices then some (Sheet.ruleOfParts parts index) else none :=
  Column.get?_ofList_map parts.indices (Sheet.ruleOfParts parts) index

end Parts

namespace Sheet

variable {sheet : Sheet}

theorem rules_eq (sheet : Sheet) : sheet.rules = sheet.live.map Prod.snd :=
  (Slot.map_snd_live _).symm

theorem Ascending.pairwise_live (h : sheet.Ascending) :
    sheet.live.Pairwise fun a b => a.1 < b.1 :=
  List.pairwise_map.mp (h.sublist (Slot.map_fst_live_sublist _))

theorem entries_column (h : sheet.Ascending) {α : Type} (g : Rule → α) :
    (Column.ofList (sheet.live.map fun entry => (entry.1, g entry.2))).entries =
      sheet.live.map fun entry => (entry.1, g entry.2) :=
  Column.entries_ofList (List.pairwise_map.mpr h.pairwise_live)

theorem get?_column (h : sheet.Ascending) {α : Type} (g : Rule → α) {index : UInt64} {rule : Rule}
    (hm : (index, rule) ∈ sheet.live) :
    (Column.ofList (sheet.live.map fun entry => (entry.1, g entry.2))).get? index =
      some (g rule) := by
  rw [Column.get?_eq_some_iff, entries_column h]
  exact List.mem_map.mpr ⟨_, hm, rfl⟩

theorem mem_indices_toParts (h : sheet.Ascending) {index : UInt64} :
    index ∈ sheet.toParts.indices ↔ ∃ rule, (index, rule) ∈ sheet.live := by
  have column {α : Type} (g : Rule → α) :
      (Column.ofList (sheet.live.map fun entry => (entry.1, g entry.2))).indices =
        sheet.live.map Prod.fst := by
    rw [Column.indices, entries_column h, List.map_map]
    rfl
  rw [Parts.indices, toParts, column Rule.selector, column Rule.body, List.mem_append, or_self_iff,
    List.mem_map]
  constructor
  · rintro ⟨⟨key, rule⟩, hm, rfl⟩
    exact ⟨rule, hm⟩
  · rintro ⟨rule, hm⟩
    exact ⟨_, hm, rfl⟩

theorem ruleOfParts_toParts (h : sheet.Ascending) {index : UInt64} {rule : Rule}
    (hm : (index, rule) ∈ sheet.live) : ruleOfParts sheet.toParts index = rule := by
  rw [ruleOfParts, toParts, get?_column h Rule.selector hm, get?_column h Rule.body hm]
  rfl

theorem rules_toParts (h : sheet.Ascending) :
    sheet.toParts.rules = ⟨sheet.live, h.pairwise_live⟩ := by
  apply Column.ext_get?
  intro index
  apply Option.ext
  intro rule
  rw [Parts.get?_rules, Column.get?_eq_some_iff]
  constructor
  · intro he
    split at he
    next hi =>
      obtain ⟨found, hm⟩ := (mem_indices_toParts h).mp hi
      cases he
      rw [ruleOfParts_toParts h hm]
      exact hm
    next => cases he
  · intro hm
    rw [if_pos ((mem_indices_toParts h).mpr ⟨rule, hm⟩), ruleOfParts_toParts h hm]

/-- Taking a sheet apart and putting it together again leaves out the holes. -/
theorem toList_ofParts_toParts (h : sheet.Ascending) :
    (ofParts sheet.toParts).slots.toList =
      sheet.live.map fun entry => ⟨entry.1, some entry.2⟩ := by
  rw [Parts.toList_ofParts, rules_toParts h]

end Sheet

end StyleSheet
