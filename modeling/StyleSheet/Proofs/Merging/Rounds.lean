import Mathlib.Data.List.Forall2
import StyleSheet.Proofs.Merging.Grouping

namespace StyleSheet

namespace Slot

variable {slot after final : Slot} {slots others last : List Slot}

/-- A slot some time later: its rule may be gone, or have got text behind its selector and its body. -/
structure Grows (slot after : Slot) : Prop where
  index : after.index = slot.index
  hole : slot.rule = none → after.rule = none
  kept : ∀ rule kept, slot.rule = some rule → after.rule = some kept →
    rule.selector <+: kept.selector ∧ rule.body <+: kept.body

theorem Grows.refl (slot : Slot) : slot.Grows slot := by
  refine ⟨rfl, id, fun rule kept hr hk => ?_⟩
  cases hr.symm.trans hk
  exact ⟨List.prefix_rfl, List.prefix_rfl⟩

theorem Grows.trans (h : slot.Grows after) (h' : after.Grows final) : slot.Grows final := by
  refine ⟨h'.index.trans h.index, fun hn => h'.hole (h.hole hn), fun rule kept hr hk => ?_⟩
  cases hm : after.rule with
  | none =>
    rw [h'.hole hm] at hk
    cases hk
  | some middle =>
    obtain ⟨hs, hb⟩ := h.kept rule middle hr hm
    obtain ⟨hs', hb'⟩ := h'.kept middle kept hm hk
    exact ⟨hs.trans hs', hb.trans hb'⟩

theorem forall₂_grows_refl (slots : List Slot) : List.Forall₂ Grows slots slots :=
  List.forall₂_same.mpr fun slot _ => .refl slot

theorem forall₂_grows_trans (h : List.Forall₂ Grows slots others)
    (h' : List.Forall₂ Grows others last) : List.Forall₂ Grows slots last := by
  induction h generalizing last with
  | nil => exact h'
  | cons hs h ih =>
    cases h' with
    | cons hs' h' => exact .cons (hs.trans hs') (ih h')

def first? (slots : List Slot) : Option Nat :=
  slots.findIdx? fun slot => slot.rule.isSome

theorem first?_cons_none (index : UInt64) (slots : List Slot) :
    first? (⟨index, none⟩ :: slots) = (first? slots).map (· + 1) :=
  List.findIdx?_cons

theorem first?_cons_some (index : UInt64) (rule : Rule) (slots : List Slot) :
    first? (⟨index, some rule⟩ :: slots) = some 0 :=
  List.findIdx?_cons

theorem first?_eq_none_iff : first? slots = none ↔ rules slots = [] := by
  rw [first?, List.findIdx?_eq_none_iff, rules, List.filterMap_eq_nil_iff]
  simp only [Option.isSome_eq_false_iff, Option.isNone_iff_eq_none]

end Slot

theorem Criterion.grows_absorb (criterion : Criterion) (index : UInt64) (rule later : Rule) :
    Slot.Grows ⟨index, some rule⟩ ⟨index, some (criterion.absorb rule later)⟩ := by
  refine ⟨rfl, fun hn => (Option.some_ne_none rule hn).elim, fun _ _ hr hk => ?_⟩
  cases hr
  cases hk
  cases criterion with
  | selector => exact ⟨List.prefix_rfl, List.prefix_append _ _⟩
  | body => exact ⟨List.prefix_append _ _, List.prefix_rfl⟩

namespace Merge

variable {criterion : Criterion} {criteria : List Criterion} {slots final : List Slot}
  {steps : List Step}

theorem Step.grows (step : Step) : List.Forall₂ Slot.Grows step.start step.finish := by
  have target := step.criterion.grows_absorb step.target step.rule step.later
  have source : Slot.Grows ⟨step.source, some step.later⟩ ⟨step.source, none⟩ :=
    ⟨rfl, fun _ => rfl, fun _ _ _ hk => nomatch hk⟩
  have behind := List.rel_append (Slot.forall₂_grows_refl step.between)
    (.cons source (Slot.forall₂_grows_refl step.rest))
  exact List.rel_append (Slot.forall₂_grows_refl step.front) (.cons target behind)

theorem Run.grows (h : Run slots steps final) : List.Forall₂ Slot.Grows slots final := by
  apply h.keeps _ (Slot.forall₂_grows_refl slots)
  intro step hp
  exact Slot.forall₂_grows_trans hp step.grows

theorem first?_collapse (criterion : Criterion) (slots : List Slot) :
    Slot.first? (collapse criterion [] slots) = Slot.first? slots := by
  induction slots with
  | nil => rfl
  | cons slot rest ih =>
    obtain ⟨index, content⟩ := slot
    cases content with
    | none => rw [collapse_cons_none, Slot.first?_cons_none, Slot.first?_cons_none, ih]
    | some rule => rw [collapse_cons_some, Slot.first?_cons_some, Slot.first?_cons_some]

theorem first?_round (criteria : List Criterion) (slots : List Slot) :
    Slot.first? (round criteria slots).slots = Slot.first? slots := by
  induction criteria generalizing slots with
  | nil => rfl
  | cons criterion rest ih => exact (ih _).trans (first?_collapse criterion slots)

theorem first?_settle (criteria : List Criterion) (slots : List Slot) :
    Slot.first? (settle criteria slots).slots = Slot.first? slots := by
  fun_induction settle criteria slots with
  | case1 slots next h => exact first?_round criteria slots
  | case2 slots next h final ih => exact ih.trans (first?_round criteria slots)

/-- Settling in a limited number of rounds, the one that merges nothing included. -/
def settleWithin (criteria : List Criterion) : Nat → List Slot → Option Merged
  | 0, _ => none
  | rounds + 1, slots =>
    let next := round criteria slots
    if next.merges = [] then some next
    else
      (settleWithin criteria rounds next.slots).map fun final =>
        ⟨final.slots, next.merges ++ final.merges⟩

theorem settleWithin_eq_settle {rounds : Nat} (hp : 0 < rounds)
    (hr : (Slot.rules slots).length ≤ rounds) :
    settleWithin criteria rounds slots = some (settle criteria slots) := by
  induction rounds generalizing slots with
  | zero => cases hp
  | succ rounds ih =>
    rw [settleWithin, settle]
    by_cases h : (round criteria slots).merges = []
    · rw [if_pos h, dif_pos h]
    · have fewer : (Slot.rules (round criteria slots).slots).length < (Slot.rules slots).length := by
        have hc := length_merges_round criteria slots
        have hm := List.length_pos_iff.mpr h
        omega
      have some_left : 0 < (Slot.rules (round criteria slots).slots).length := by
        rw [List.length_pos_iff, ne_eq, ← Slot.first?_eq_none_iff, first?_round,
          Slot.first?_eq_none_iff, ← ne_eq, ← List.length_pos_iff]
        omega
      rw [if_neg h, dif_neg h, ih (by omega) (by omega)]
      rfl

end Merge

namespace Sheet

def first? (sheet : Sheet) : Option Nat :=
  Slot.first? sheet.slots.toList

/--
Merging until nothing is left to merge takes no more rounds than there are rules (one if there are
none), removes as many rules as it counts and never the first one; indices and holes stay as they
are, and a rule that is left begins with the selector and the body that it had.
-/
theorem merge_settle_grows (sheet : Sheet) (criteria : List Criterion) :
    let result := sheet.merge (Merge.settle criteria)
    Merge.settleWithin criteria (max 1 sheet.size) sheet.slots.toList =
        some (Merge.settle criteria sheet.slots.toList) ∧
      result.1.size + result.2.length = sheet.size ∧
      result.1.first? = sheet.first? ∧
      List.Forall₂ Slot.Grows sheet.slots.toList result.1.slots.toList := by
  intro result
  refine ⟨?_, ?_, Merge.first?_settle criteria sheet.slots.toList, ?_⟩
  · apply Merge.settleWithin_eq_settle (Nat.le_max_left 1 _)
    rw [size_eq_length_rules]
    exact Nat.le_max_right 1 _
  · rw [size_eq_length_rules, size_eq_length_rules, Nat.add_comm]
    exact Merge.length_merges_settle criteria sheet.slots.toList
  · obtain ⟨steps, run, -⟩ := Merge.exists_run_settle criteria sheet.slots.toList
    exact run.grows

end Sheet

end StyleSheet
