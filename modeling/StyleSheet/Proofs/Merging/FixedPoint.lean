import StyleSheet.Proofs.Merging.Collapse

namespace StyleSheet

namespace Merge

variable {criterion : Criterion} {criteria : List Criterion} {slots : List Slot}

def Distinct (criterion : Criterion) (slots : List Slot) : Prop :=
  (Slot.rules slots).Pairwise fun a b => criterion.alike a b = false

theorem later_eq_nil_iff {rule : Rule} :
    later criterion rule slots = [] ↔
      ∀ other ∈ Slot.rules slots, criterion.alike rule other = false := by
  rw [later, List.filter_eq_nil_iff, ← Slot.map_snd_live, List.forall_mem_map]
  simp only [Bool.not_eq_true]

theorem rules_clear (criterion : Criterion) (rule : Rule) (slots : List Slot) :
    Slot.rules (clear criterion rule slots) =
      (Slot.rules slots).filter fun other => !criterion.alike rule other := by
  rw [← Slot.map_snd_live, ← Slot.map_snd_live, live_clear, List.filter_map]
  rfl

theorem merges_eq_nil_iff : merges criterion [] slots = [] ↔ Distinct criterion slots := by
  induction slots with
  | nil => exact ⟨fun _ => .nil, fun _ => rfl⟩
  | cons slot rest ih =>
    obtain ⟨index, content⟩ := slot
    cases content with
    | none => exact ih
    | some rule =>
      rw [merges_cons_some, List.append_eq_nil_iff, List.map_eq_nil_iff, Distinct,
        Slot.rules_cons_some, List.pairwise_cons, ← later_eq_nil_iff]
      constructor
      · rintro ⟨hl, hm⟩
        rw [clear_of_later_eq_nil hl] at hm
        exact ⟨hl, ih.mp hm⟩
      · rintro ⟨hl, hd⟩
        rw [clear_of_later_eq_nil hl]
        exact ⟨hl, ih.mpr hd⟩

theorem collapse_of_distinct (h : Distinct criterion slots) :
    collapse criterion [] slots = slots := by
  induction slots with
  | nil => rfl
  | cons slot rest ih =>
    obtain ⟨index, content⟩ := slot
    cases content with
    | none => rw [collapse_cons_none, ih h]
    | some rule =>
      rw [Distinct, Slot.rules_cons_some, List.pairwise_cons, ← later_eq_nil_iff] at h
      rw [collapse_cons_some, gathered, h.1, clear_of_later_eq_nil h.1, ih h.2]
      rfl

theorem exists_alike_of_mem_collapse {other : Rule}
    (h : other ∈ Slot.rules (collapse criterion [] slots)) :
    ∃ rule ∈ Slot.rules slots, ∀ third, criterion.alike other third = criterion.alike rule third := by
  induction slots using clearing_induction criterion with
  | nil => cases h
  | hole index rest ih => exact ih h
  | rule index rule rest ih =>
    rw [collapse_cons_some, Slot.rules_cons_some] at h
    rcases List.mem_cons.mp h with rfl | h
    · exact ⟨rule, List.mem_cons_self, fun third => Criterion.alike_foldl_absorb criterion rule third _⟩
    · obtain ⟨source, hs, he⟩ := ih h
      rw [rules_clear] at hs
      exact ⟨source, List.mem_cons_of_mem _ (List.mem_filter.mp hs).1, he⟩

theorem distinct_collapse (criterion : Criterion) (slots : List Slot) :
    Distinct criterion (collapse criterion [] slots) := by
  induction slots using clearing_induction criterion with
  | nil => exact .nil
  | hole index rest ih => exact ih
  | rule index rule rest ih =>
    rw [collapse_cons_some, Distinct, Slot.rules_cons_some, List.pairwise_cons]
    refine ⟨fun other hother => ?_, ih⟩
    rw [gathered, Criterion.alike_foldl_absorb, ← Bool.not_eq_true]
    intro ha
    obtain ⟨source, hs, he⟩ := exists_alike_of_mem_collapse hother
    rw [rules_clear, List.mem_filter] at hs
    have hback : criterion.alike source rule = true := he rule ▸ Criterion.alike_symm ha
    rw [Criterion.alike_symm hback] at hs
    cases hs.2

theorem round_of_merges_eq_nil (h : (round criteria slots).merges = []) :
    (round criteria slots).slots = slots ∧ ∀ criterion ∈ criteria, Distinct criterion slots := by
  induction criteria generalizing slots with
  | nil => exact ⟨rfl, fun _ hm => by cases hm⟩
  | cons criterion rest ih =>
    obtain ⟨first, others⟩ := List.append_eq_nil_iff.mp h
    have hd : Distinct criterion slots := merges_eq_nil_iff.mp first
    have hc : (pass criterion slots).slots = slots := collapse_of_distinct hd
    rw [hc] at others
    obtain ⟨hs, hr⟩ := ih others
    refine ⟨?_, ?_⟩
    · rw [round, hc, hs]
    · intro other hm
      rcases List.mem_cons.mp hm with rfl | hm
      · exact hd
      · exact hr other hm

theorem settle_of_merges_eq_nil (h : (round criteria slots).merges = []) :
    settle criteria slots = ⟨slots, []⟩ := by
  rw [settle, dif_pos h]
  have hs := (round_of_merges_eq_nil h).1
  cases hr : round criteria slots with
  | mk final log =>
    rw [hr] at h hs
    cases h
    cases hs
    rfl

theorem merges_round_settle (criteria : List Criterion) (slots : List Slot) :
    (round criteria (settle criteria slots).slots).merges = [] := by
  fun_induction settle criteria slots with
  | case1 slots next h =>
    have hs : next.slots = slots := (round_of_merges_eq_nil h).1
    rw [hs]
    exact h
  | case2 slots next h final ih => exact ih

theorem settle_settle (criteria : List Criterion) (slots : List Slot) :
    settle criteria (settle criteria slots).slots = ⟨(settle criteria slots).slots, []⟩ :=
  settle_of_merges_eq_nil (merges_round_settle criteria slots)

theorem distinct_settle (slots : List Slot) (h : criterion ∈ criteria) :
    Distinct criterion (settle criteria slots).slots :=
  (round_of_merges_eq_nil (merges_round_settle criteria slots)).2 criterion h

theorem settle_singleton (criterion : Criterion) (slots : List Slot) :
    settle [criterion] slots = pass criterion slots := by
  have one (slots : List Slot) : round [criterion] slots = pass criterion slots := by
    simp only [round, List.append_nil, pass]
  by_cases h : (round [criterion] slots).merges = []
  · rw [settle, dif_pos h, one]
  · have again : settle [criterion] (pass criterion slots).slots =
        ⟨(pass criterion slots).slots, []⟩ := by
      apply settle_of_merges_eq_nil
      rw [one]
      exact merges_eq_nil_iff.mpr (distinct_collapse criterion slots)
    rw [settle, dif_neg h, one, again]
    simp only [List.append_nil, pass]

end Merge

/--
A sheet merged until nothing is left to merge has no two rules with the same selector, none with
the same declarations, and stays as it is when merged again.
-/
theorem Sheet.merge_settle_fixed (sheet : Sheet) (criteria : List Criterion) :
    (.selector ∈ criteria → (sheet.merge (Merge.settle criteria)).1.rules.Pairwise
      fun a b => a.selector ≠ b.selector) ∧
    (.body ∈ criteria → (sheet.merge (Merge.settle criteria)).1.rules.Pairwise
      fun a b => ¬(Body.split a.body).Perm (Body.split b.body)) ∧
    (sheet.merge (Merge.settle criteria)).1.merge (Merge.settle criteria) =
      ((sheet.merge (Merge.settle criteria)).1, []) ∧
    ∀ criterion, sheet.merge (Merge.settle [criterion]) = sheet.merge (Merge.pass criterion) := by
  refine ⟨fun h => ?_, fun h => ?_, ?_, fun criterion => ?_⟩
  · have hd := Merge.distinct_settle sheet.slots.toList h
    apply hd.imp
    intro a b hab he
    exact beq_eq_false_iff_ne.mp hab he
  · have hd := Merge.distinct_settle sheet.slots.toList h
    apply hd.imp
    intro a b hab he
    rw [Criterion.alike_body_iff.mpr he] at hab
    cases hab
  · have hs := Merge.settle_settle criteria sheet.slots.toList
    simp only [Sheet.merge, List.toList_toArray, hs]
  · simp only [Sheet.merge, Merge.settle_singleton]

end StyleSheet
