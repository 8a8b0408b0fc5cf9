import StyleSheet.Proofs.Sheet.Fates

namespace StyleSheet.Sheet

variable {sheet later final : Sheet}

def indices (sheet : Sheet) : List UInt64 :=
  sheet.slots.toList.map Slot.index

def Ascending (sheet : Sheet) : Prop :=
  sheet.indices.Pairwise (· < ·)

theorem Ascending.index_lt (h : sheet.Ascending) {i j : Fin sheet.slots.size} (hij : i < j) :
    sheet.slots[i].index < sheet.slots[j].index := by
  have hp := List.pairwise_map.mp h
  exact List.pairwise_iff_getElem.mp hp i j i.isLt j.isLt hij

theorem index_of_findBetween {slots : Array Slot} {index : UInt64} {lo hi : Nat}
    {bound : hi ≤ slots.size} {position : Fin slots.size}
    (h : findBetween slots index lo hi bound = some position) : slots[position].index = index := by
  fun_induction findBetween slots index lo hi bound with
  | case1 lo hi bound nonempty mid inside same =>
    cases h
    exact same
  | case2 lo hi bound nonempty mid inside differs less ih => exact ih h
  | case3 lo hi bound nonempty mid inside differs less ih => exact ih h
  | case4 => cases h

/-- In ascending slots the half that a search leaves out does not hold what it looks for. -/
theorem Ascending.findBetween_eq (h : sheet.Ascending) {lo hi : Nat}
    {bound : hi ≤ sheet.slots.size} (position : Fin sheet.slots.size) (hlo : lo ≤ position)
    (hhi : position < hi) :
    findBetween sheet.slots sheet.slots[position].index lo hi bound = some position := by
  fun_induction findBetween sheet.slots sheet.slots[position].index lo hi bound with
  | case1 lo hi bound nonempty mid inside same =>
    rcases Nat.lt_trichotomy mid position with hm | hm | hm
    · have hlt := h.index_lt (i := ⟨mid, inside⟩) (j := position) hm
      exact absurd (same ▸ hlt) (UInt64.lt_irrefl _)
    · exact congrArg some (Fin.ext hm)
    · have hlt := h.index_lt (i := position) (j := ⟨mid, inside⟩) hm
      exact absurd (same ▸ hlt) (UInt64.lt_irrefl _)
  | case2 lo hi bound nonempty mid inside differs less ih =>
    apply ih _ hhi
    rcases Nat.lt_trichotomy mid position with hm | hm | hm
    · exact hm
    · exact absurd (by simp [hm]) differs
    · exact absurd less (UInt64.lt_asymm (h.index_lt (i := position) (j := ⟨mid, inside⟩) hm))
  | case3 lo hi bound nonempty mid inside differs less ih =>
    apply ih hlo
    rcases Nat.lt_trichotomy mid position with hm | hm | hm
    · exact absurd (h.index_lt (i := ⟨mid, inside⟩) (j := position) hm) less
    · exact absurd (by simp [hm]) differs
    · exact hm
  | case4 lo hi bound empty => omega

theorem Ascending.get?_eq_some_iff (h : sheet.Ascending) {index : UInt64} {rule : Rule} :
    sheet.get? index = some rule ↔
      ∃ slot ∈ sheet.slots, slot.index = index ∧ slot.rule = some rule := by
  constructor
  · intro hg
    obtain ⟨position, hp, hr⟩ := Option.bind_eq_some_iff.mp hg
    exact ⟨_, Array.getElem_mem position.isLt, index_of_findBetween hp, hr⟩
  · rintro ⟨slot, hm, rfl, hr⟩
    obtain ⟨i, hi, rfl⟩ := Array.mem_iff_getElem.mp hm
    have hp : sheet.position? sheet.slots[i].index = some ⟨i, hi⟩ :=
      h.findBetween_eq ⟨i, hi⟩ (Nat.zero_le i) hi
    rw [get?, hp]
    exact hr

/-- A sheet some time later: slots may have been added, and a hole is still a hole. -/
structure Extends (sheet later : Sheet) : Prop where
  indices : sheet.indices <+: later.indices
  holes : ∀ (position : Nat) (slot : Slot), sheet.slots[position]? = some slot →
    slot.rule = none → later.slots[position]? = some slot

theorem Extends.refl (sheet : Sheet) : sheet.Extends sheet :=
  ⟨List.prefix_rfl, fun _ _ hs _ => hs⟩

theorem Extends.trans (h : sheet.Extends later) (h' : later.Extends final) :
    sheet.Extends final := by
  refine ⟨h.indices.trans h'.indices, ?_⟩
  intro position slot hs hn
  exact h'.holes position slot (h.holes position slot hs hn) hn

theorem indices_setAt (position : Fin sheet.slots.size) (content : Option Rule) :
    (sheet.setAt position content).indices = sheet.indices := by
  rw [indices, indices, setAt, Array.toList_set, List.map_set]
  apply List.ext_getElem
  · simp
  · intro i hi hi'
    rw [List.getElem_set]
    split
    next he => simp [← he]
    next => rfl

theorem extends_setAt {position : Fin sheet.slots.size} {slot : Slot} {rule : Rule}
    (hp : sheet.slots[position.val]? = some slot) (hr : slot.rule = some rule)
    (content : Option Rule) : sheet.Extends (sheet.setAt position content) := by
  refine ⟨?_, ?_⟩
  · exact (indices_setAt position content).symm ▸ List.prefix_rfl
  · intro other hole hs hn
    have hne : position.val ≠ other := by
      rintro rfl
      cases hp.symm.trans hs
      cases hn.symm.trans hr
    rw [setAt, Array.getElem?_set_ne position.isLt hne]
    exact hs

theorem Ascending.setAt (h : sheet.Ascending) {position : Fin sheet.slots.size} {slot : Slot}
    {rule : Rule} (hp : sheet.slots[position.val]? = some slot) (hr : slot.rule = some rule)
    (content : Option Rule) :
    (sheet.setAt position content).Ascending ∧ sheet.Extends (sheet.setAt position content) := by
  refine ⟨?_, extends_setAt hp hr content⟩
  rw [Ascending, indices_setAt]
  exact h

theorem extends_push (sheet : Sheet) (slot : Slot) : sheet.Extends ⟨sheet.slots.push slot⟩ := by
  refine ⟨?_, ?_⟩
  · rw [indices, indices, Array.toList_push, List.map_append]
    exact List.prefix_append _ _
  · intro position other hs _
    have hp := (Array.getElem?_eq_some_iff.mp hs).1
    rw [Array.getElem?_push_lt hp, ← Array.getElem?_eq_getElem hp]
    exact hs

theorem nextIndex?_eq_none_iff :
    sheet.nextIndex? = none ↔
      ∃ last, sheet.slots.back? = some last ∧ last.index.toNat = UInt64.size - 1 := by
  rw [nextIndex?]
  split
  next hb => simp [hb]
  next last hb =>
    have hl := last.index.toNat_lt_size
    rw [hb]
    split
    next hn =>
      constructor
      · intro he
        cases he
      · rintro ⟨other, ho, hm⟩
        cases ho
        omega
    next hn =>
      constructor
      · intro _
        exact ⟨last, rfl, by omega⟩
      · intro _
        rfl

theorem toNat_of_nextIndex? {index : UInt64} (h : sheet.nextIndex? = some index) :
    index.toNat = (sheet.slots.back?.map fun last => last.index.toNat + 1).getD 0 := by
  rw [nextIndex?] at h
  split at h
  next hb =>
    cases h
    rw [hb]
    rfl
  next last hb =>
    split at h
    next hn =>
      cases h
      rw [hb, UInt64.toNat_add]
      exact Nat.mod_eq_of_lt hn
    next => cases h

theorem Ascending.le_last (h : sheet.Ascending) {index : UInt64} (hi : index ∈ sheet.indices) :
    ∃ last, sheet.slots.back? = some last ∧ index.toNat ≤ last.index.toNat := by
  rw [Ascending] at h
  rw [indices] at h hi
  rw [← Array.getLast?_toList]
  rcases List.eq_nil_or_concat sheet.slots.toList with he | ⟨front, last, he⟩
  · rw [he] at hi
    cases hi
  · rw [he, List.concat_eq_append, List.map_append] at h hi
    refine ⟨last, by simp [he], ?_⟩
    rcases List.mem_append.mp hi with hi | hi
    · have hlt := (List.pairwise_append.mp h).2.2 index hi last.index (List.mem_singleton.mpr rfl)
      exact Nat.le_of_lt (UInt64.lt_iff_toNat_lt.mp hlt)
    · cases List.mem_singleton.mp hi
      exact Nat.le_refl _

theorem Ascending.push (h : sheet.Ascending) {index : UInt64} (hn : sheet.nextIndex? = some index)
    (rule : Rule) : Ascending ⟨sheet.slots.push ⟨index, some rule⟩⟩ := by
  rw [Ascending, indices, Array.toList_push, List.map_append]
  apply List.pairwise_append.mpr
  refine ⟨h, List.pairwise_singleton _ _, ?_⟩
  intro earlier he other ho
  cases List.mem_singleton.mp ho
  obtain ⟨last, hb, hle⟩ := h.le_last he
  have ht := toNat_of_nextIndex? hn
  rw [hb] at ht
  rw [UInt64.lt_iff_toNat_lt, ht]
  exact Nat.lt_succ_of_le hle

inductive Edit where
  | push (rule : Rule)
  | modify (index : UInt64) (change : Rule → Rule)
  | remove (index : UInt64)
  | operate (operation : Operation) (session : Session)

/-- An edit that is refused or fails leaves the sheet as it is. -/
def edit (sheet : Sheet) : Edit → Sheet
  | .push rule => ((sheet.push? rule).map Prod.snd).getD sheet
  | .modify index change => (sheet.modify? index change).getD sheet
  | .remove index => ((sheet.remove? index).map Prod.snd).getD sheet
  | .operate operation session =>
    match (session.perform (operation.work sheet)).1 with
    | .ok (result, _) => result
    | .error _ => sheet

def edits (sheet : Sheet) (changes : List Edit) : Sheet :=
  changes.foldl edit sheet

theorem edit_operate {operation : Operation} {session : Session} :
    sheet.edit (.operate operation session) = sheet ∨
      ∃ fates, Slot.Become sheet.slots.toList fates
        (sheet.edit (.operate operation session)).slots.toList := by
  rw [edit, (operation.computes_work sheet).fst_perform]
  obtain ⟨plan, hp⟩ := operation.exists_plan session.holder.served sheet.rules
  have hf := hp sheet rfl
  generalize operation.outcome session.holder.served sheet = outcome at hf ⊢
  cases hf with
  | error error => exact .inl rfl
  | ok count h => exact .inr ⟨_, h⟩

theorem Ascending.edit (h : sheet.Ascending) (change : Edit) :
    (sheet.edit change).Ascending ∧ sheet.Extends (sheet.edit change) := by
  cases change with
  | push rule =>
    rw [Sheet.edit, push?]
    cases hn : sheet.nextIndex? with
    | none => exact ⟨h, .refl sheet⟩
    | some index => exact ⟨h.push hn rule, extends_push sheet _⟩
  | modify index change =>
    rw [Sheet.edit, modify?]
    cases hp : sheet.position? index with
    | none => exact ⟨h, .refl sheet⟩
    | some position =>
      rw [Option.bind_some]
      cases hr : sheet.slots[position].rule with
      | none => exact ⟨h, .refl sheet⟩
      | some rule =>
        exact h.setAt (Array.getElem?_eq_getElem position.isLt) hr (some (change rule))
  | remove index =>
    rw [Sheet.edit, remove?]
    cases hp : sheet.position? index with
    | none => exact ⟨h, .refl sheet⟩
    | some position =>
      rw [Option.bind_some]
      cases hr : sheet.slots[position].rule with
      | none => exact ⟨h, .refl sheet⟩
      | some rule => exact h.setAt (Array.getElem?_eq_getElem position.isLt) hr none
  | operate operation session =>
    rcases edit_operate with he | ⟨fates, hb⟩
    · rw [he]
      exact ⟨h, .refl sheet⟩
    · have hi : (sheet.edit (.operate operation session)).indices = sheet.indices := hb.map_index
      refine ⟨?_, ?_, ?_⟩
      · rw [Ascending, hi]
        exact h
      · exact hi.symm ▸ List.prefix_rfl
      · intro position slot hs hn
        rw [← Array.getElem?_toList] at hs ⊢
        exact hb.getElem?_hole hs hn

theorem Ascending.edits (h : sheet.Ascending) (changes : List Edit) :
    (sheet.edits changes).Ascending ∧ sheet.Extends (sheet.edits changes) := by
  induction changes generalizing sheet with
  | nil => exact ⟨h, .refl sheet⟩
  | cons change rest ih =>
    obtain ⟨ha, he⟩ := h.edit change
    obtain ⟨ha', he'⟩ := ih ha
    exact ⟨ha', he.trans he'⟩

inductive Origin where
  | empty
  | parts (columns : Parts)
  | rules (listed : List Rule) (bound : listed.length ≤ UInt64.size)

def Origin.toSheet : Origin → Sheet
  | .empty => {}
  | .parts columns => ofParts columns
  | .rules listed _ => ofRules listed

theorem Origin.ascending (origin : Origin) : origin.toSheet.Ascending := by
  cases origin with
  | empty => exact .nil
  | parts columns =>
    rw [Origin.toSheet, Ascending, indices, ofParts]
    simp only [List.map_map]
    exact List.pairwise_map.mpr (Column.ascending _)
  | rules listed bound =>
    rw [Origin.toSheet, Ascending, indices, ofRules]
    simp only [List.map_map]
    apply List.pairwise_map.mpr
    apply List.pairwise_iff_getElem.mpr
    intro i j hi hj hij
    rw [List.length_zipIdx] at hi hj
    simp only [List.getElem_zipIdx, Function.comp_apply, Nat.zero_add, UInt64.lt_iff_toNat_lt]
    rw [UInt64.toNat_ofNat_of_lt' (by omega), UInt64.toNat_ofNat_of_lt' (by omega)]
    exact hij

theorem push?_eq_none_iff {rule : Rule} : sheet.push? rule = none ↔ sheet.nextIndex? = none :=
  Option.map_eq_none_iff

theorem push?_eq_some_iff {rule : Rule} {index : UInt64} {pushed : Sheet} :
    sheet.push? rule = some (index, pushed) ↔
      sheet.nextIndex? = some index ∧ pushed = ⟨sheet.slots.push ⟨index, some rule⟩⟩ := by
  rw [push?, Option.map_eq_some_iff]
  constructor
  · rintro ⟨next, hn, he⟩
    cases he
    exact ⟨hn, rfl⟩
  · rintro ⟨hn, rfl⟩
    exact ⟨index, hn, rfl⟩

/--
Wherever a sheet comes from and however it is edited, its indices ascend and stay a part of all
later indices, holes stay holes, an index leads to the rule in its slot, and a rule is appended
under the next index unless there is none.
-/
theorem edits_keep_indices (origin : Origin) (before after : List Edit) :
    let sheet := origin.toSheet.edits before
    let later := sheet.edits after
    sheet.indices.Pairwise (· < ·) ∧
    sheet.indices <+: later.indices ∧
    (∀ (position : Nat) (slot : Slot), sheet.slots[position]? = some slot → slot.rule = none →
      later.slots[position]? = some slot) ∧
    (∀ index rule, sheet.get? index = some rule ↔
      ∃ slot ∈ sheet.slots, slot.index = index ∧ slot.rule = some rule) ∧
    ∀ rule,
      (sheet.push? rule = none ↔
        ∃ last, sheet.slots.back? = some last ∧ last.index.toNat = UInt64.size - 1) ∧
      (sheet.push? rule = none → sheet.edit (.push rule) = sheet) ∧
      ∀ index pushed, sheet.push? rule = some (index, pushed) →
        index.toNat = (sheet.slots.back?.map fun last => last.index.toNat + 1).getD 0 ∧
        pushed.slots = sheet.slots.push ⟨index, some rule⟩ ∧
        sheet.edit (.push rule) = pushed := by
  intro sheet later
  obtain ⟨ascending, -⟩ := origin.ascending.edits before
  obtain ⟨-, extended⟩ := ascending.edits after
  refine ⟨ascending, extended.indices, extended.holes, fun index rule => ascending.get?_eq_some_iff,
    fun rule => ⟨?_, ?_, ?_⟩⟩
  · rw [push?_eq_none_iff]
    exact nextIndex?_eq_none_iff
  · intro hn
    rw [edit, hn]
    rfl
  · intro index pushed hp
    obtain ⟨hn, hs⟩ := push?_eq_some_iff.mp hp
    refine ⟨toNat_of_nextIndex? hn, by rw [hs], ?_⟩
    rw [edit, hp]
    rfl

end StyleSheet.Sheet
