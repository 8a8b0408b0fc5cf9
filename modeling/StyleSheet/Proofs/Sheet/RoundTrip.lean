import StyleSheet.Proofs.Sheet.Columns

namespace StyleSheet

namespace Column

variable {α β : Type} {column : Column α} {index : UInt64}

def erase (column : Column α) (index : UInt64) : Column α where
  entries := column.entries.filter fun entry => entry.1 != index
  ascending := column.ascending.filter _

theorem get?_erase (column : Column α) (index key : UInt64) :
    (column.erase index).get? key = if index = key then none else column.get? key := by
  apply Option.ext
  intro value
  rw [get?_eq_some_iff, erase, List.mem_filter, bne_iff_ne, ne_comm]
  split
  next same => simp [same]
  next differs => rw [get?_eq_some_iff, and_iff_left differs]

theorem mem_indices_iff : index ∈ column.indices ↔ (column.get? index).isSome = true := by
  rw [Option.isSome_iff_exists, indices, List.mem_map]
  simp only [get?_eq_some_iff]
  constructor
  · rintro ⟨entry, hm, rfl⟩
    exact ⟨entry.2, hm⟩
  · rintro ⟨value, hm⟩
    exact ⟨_, hm, rfl⟩

theorem lookup_entries (column : Column α) (key : UInt64) :
    lookup column.entries key = column.get? key :=
  rfl

theorem lookup_map (g : α → β) (entries : List (UInt64 × α)) (key : UInt64) :
    lookup (entries.map fun entry => (entry.1, g entry.2)) key = (lookup entries key).map g := by
  induction entries with
  | nil => rfl
  | cons entry rest ih =>
    rw [List.map_cons, lookup_cons, lookup_cons, ih]
    split <;> rfl

theorem lookup_eq_none_of_ascending {entry : UInt64 × α} {rest : List (UInt64 × α)}
    (ha : (entry :: rest).Pairwise fun a b => a.1 < b.1) : lookup rest entry.1 = none := by
  rw [lookup, Option.map_eq_none_iff, List.find?_eq_none]
  intro other hm he
  have hlt := (List.pairwise_cons.mp ha).1 other hm
  rw [beq_iff_eq.mp he] at hlt
  exact UInt64.lt_irrefl _ hlt

theorem get?_foldl_insert_map (g : β → α) {entries : List (UInt64 × β)}
    (ha : entries.Pairwise fun a b => a.1 < b.1) (column : Column α) (key : UInt64) :
    (entries.foldl (fun column entry => column.insert entry.1 (g entry.2)) column).get? key =
      ((lookup entries key).map g).or (column.get? key) := by
  induction entries generalizing column with
  | nil => rfl
  | cons entry rest ih =>
    rw [List.foldl_cons, ih (List.pairwise_cons.mp ha).2, get?_insert, lookup_cons]
    by_cases h : entry.1 = key
    · subst h
      rw [lookup_eq_none_of_ascending ha, if_pos rfl, if_pos rfl]
      rfl
    · rw [if_neg h, if_neg h]

end Column

namespace Parts

/-- The rules put together so far, and the bodies that no selector has taken. -/
structure Drain where
  rules : Column Rule
  bodies : Column Text

/-- A selector takes the body under its index, or an empty one. -/
def Drain.take (drain : Drain) (entry : UInt64 × Text) : Drain where
  rules := drain.rules.insert entry.1 ⟨entry.2, (drain.bodies.get? entry.1).getD []⟩
  bodies := drain.bodies.erase entry.1

/-- Selectors take their bodies one after another; each body that is left gets an empty selector. -/
def drained (parts : Parts) : Column Rule :=
  let drain := parts.selectors.entries.foldl Drain.take ⟨{}, parts.bodies⟩
  drain.bodies.entries.foldl (fun rules entry => rules.insert entry.1 ⟨[], entry.2⟩) drain.rules

theorem get?_foldl_take {entries : List (UInt64 × Text)}
    (ha : entries.Pairwise fun a b => a.1 < b.1) (drain : Drain) (key : UInt64) :
    (entries.foldl Drain.take drain).rules.get? key =
        ((Column.lookup entries key).map fun selector =>
          ⟨selector, (drain.bodies.get? key).getD []⟩).or (drain.rules.get? key) ∧
      (entries.foldl Drain.take drain).bodies.get? key =
        if (Column.lookup entries key).isSome then none else drain.bodies.get? key := by
  induction entries generalizing drain with
  | nil => exact ⟨rfl, rfl⟩
  | cons entry rest ih =>
    obtain ⟨hr, hb⟩ := ih (List.pairwise_cons.mp ha).2 (drain.take entry)
    rw [List.foldl_cons, hr, hb, Drain.take, Column.get?_insert, Column.get?_erase,
      Column.lookup_cons]
    by_cases h : entry.1 = key
    · subst h
      rw [Column.lookup_eq_none_of_ascending ha]
      simp
    · simp only [if_neg h, and_self]

/-- Walking over the columns puts together the rule that stands under each index. -/
theorem drained_eq_rules (parts : Parts) : parts.drained = parts.rules := by
  apply Column.ext_get?
  intro key
  obtain ⟨hr, hb⟩ := get?_foldl_take parts.selectors.ascending ⟨{}, parts.bodies⟩ key
  rw [drained, Column.get?_foldl_insert_map (Rule.mk []) (Column.ascending _), get?_rules, hr,
    Column.lookup_entries, Column.lookup_entries, hb, Column.lookup_entries]
  have hm : key ∈ parts.indices ↔
      (parts.selectors.get? key).isSome = true ∨ (parts.bodies.get? key).isSome = true := by
    rw [indices, List.mem_append, Column.mem_indices_iff, Column.mem_indices_iff]
  simp only [hm, Sheet.ruleOfParts]
  cases parts.selectors.get? key <;> cases parts.bodies.get? key <;> rfl

theorem ruleOfParts_of_mem {parts : Parts} {index : UInt64} (h : index ∈ parts.indices) :
    parts.rules.get? index = some (Sheet.ruleOfParts parts index) := by
  rw [get?_rules, if_pos h]

end Parts

theorem Slot.map_live_some (slots : List Slot) :
    (live slots).map (fun entry => ⟨entry.1, some entry.2⟩) =
      slots.filter fun slot => slot.rule.isSome := by
  induction slots with
  | nil => rfl
  | cons slot rest ih =>
    obtain ⟨index, content⟩ := slot
    cases content with
    | none => exact ih
    | some rule => exact congrArg (Slot.mk index (some rule) :: ·) ih

namespace Sheet

variable {sheet : Sheet} {parts : Parts}

theorem ascending_ofParts (parts : Parts) : (ofParts parts).Ascending :=
  (Origin.parts parts).ascending

theorem live_ofParts (parts : Parts) : (ofParts parts).live = parts.rules.entries := by
  rw [live, Parts.toList_ofParts, Slot.live_map_some]

theorem get?_column_ofParts (parts : Parts) (g : Rule → Text) (index : UInt64) :
    (Column.ofList ((ofParts parts).live.map fun entry => (entry.1, g entry.2))).get? index =
      (parts.rules.get? index).map g := by
  rw [← Column.lookup_entries, entries_column (ascending_ofParts parts), Column.lookup_map,
    live_ofParts, Column.lookup_entries]

theorem mem_indices_column_ofParts (g : Rule → Text) {index : UInt64} :
    index ∈ (Column.ofList
        ((ofParts parts).live.map fun entry => (entry.1, g entry.2))).indices ↔
      index ∈ parts.selectors.indices ∨ index ∈ parts.bodies.indices := by
  rw [Column.mem_indices_iff, get?_column_ofParts, Option.isSome_map, Parts.get?_rules,
    ← List.mem_append]
  change _ ↔ index ∈ parts.indices
  split <;> simp [*]

theorem toList_ofParts_toParts_eq_filter (h : sheet.Ascending) :
    (ofParts sheet.toParts).slots.toList =
      sheet.slots.toList.filter fun slot => slot.rule.isSome := by
  rw [toList_ofParts_toParts h, live, Slot.map_live_some]

theorem live_ofParts_toParts (h : sheet.Ascending) :
    (ofParts sheet.toParts).live = sheet.live := by
  rw [live_ofParts, rules_toParts h]

theorem ofParts_toParts_eq_iff (h : sheet.Ascending) :
    ofParts sheet.toParts = sheet ↔ ∀ slot ∈ sheet.slots, slot.rule ≠ none := by
  have hs : ofParts sheet.toParts = sheet ↔
      (ofParts sheet.toParts).slots.toList = sheet.slots.toList := by
    constructor
    · exact fun he => congrArg (fun sheet => sheet.slots.toList) he
    · exact fun he => congrArg (fun slots : List Slot => (⟨slots.toArray⟩ : Sheet)) he
  rw [hs, toList_ofParts_toParts_eq_filter h, List.filter_eq_self]
  simp only [Array.mem_toList_iff, Option.isSome_iff_ne_none]

/--
Columns that are made into a sheet and back have all their indices in both, with their own texts
where they had any and empty ones elsewhere. A sheet that is made into columns and back loses its
holes and nothing else.
-/
theorem columns_round_trip :
    (∀ parts : Parts,
      let back := (ofParts parts).toParts
      (ofParts parts).slots.toList =
          parts.drained.entries.map (fun entry => ⟨entry.1, some entry.2⟩) ∧
        (∀ index, index ∈ back.selectors.indices ↔
          index ∈ parts.selectors.indices ∨ index ∈ parts.bodies.indices) ∧
        (∀ index, index ∈ back.bodies.indices ↔
          index ∈ parts.selectors.indices ∨ index ∈ parts.bodies.indices) ∧
        ∀ index, index ∈ parts.selectors.indices ∨ index ∈ parts.bodies.indices →
          back.selectors.get? index = some ((parts.selectors.get? index).getD []) ∧
            back.bodies.get? index = some ((parts.bodies.get? index).getD [])) ∧
    ∀ (origin : Origin) (changes : List Edit),
      let sheet := origin.toSheet.edits changes
      let again := ofParts sheet.toParts
      again.slots.toList = sheet.slots.toList.filter (fun slot => slot.rule.isSome) ∧
        again.live = sheet.live ∧ again.size = sheet.size ∧ again.render = sheet.render ∧
        (again = sheet ↔ ∀ slot ∈ sheet.slots, slot.rule ≠ none) := by
  refine ⟨fun parts => ⟨?_, fun index => ?_, fun index => ?_, fun index hi => ?_⟩,
    fun origin changes => ?_⟩
  · rw [Parts.toList_ofParts, Parts.drained_eq_rules]
  · exact mem_indices_column_ofParts Rule.selector
  · exact mem_indices_column_ofParts Rule.body
  · have hr := Parts.ruleOfParts_of_mem (List.mem_append.mpr hi)
    rw [toParts, get?_column_ofParts parts Rule.selector, get?_column_ofParts parts Rule.body, hr]
    exact ⟨rfl, rfl⟩
  · intro sheet again
    have ha : sheet.Ascending := (origin.ascending.edits changes).1
    have hl : again.live = sheet.live := live_ofParts_toParts ha
    refine ⟨toList_ofParts_toParts_eq_filter ha, hl, ?_, ?_, ofParts_toParts_eq_iff ha⟩
    · rw [size_eq_length_rules, size_eq_length_rules, rules_eq, rules_eq, hl]
    · rw [render, render, hl]

end Sheet

end StyleSheet
