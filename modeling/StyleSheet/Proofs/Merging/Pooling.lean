import StyleSheet.Proofs.Merging.FixedPoint
import StyleSheet.Proofs.Seams
import StyleSheet.Proofs.Sheet.Fates

namespace StyleSheet

def Slot.bodiesOf (slots : List Slot) (selector : Text) : List Text :=
  ((rules slots).filter fun rule => selector == rule.selector).map Rule.body

def Sheet.bodiesOf (sheet : Sheet) (selector : Text) : List Text :=
  Slot.bodiesOf sheet.slots.toList selector

namespace Slot

theorem bodiesOf_cons_self (index : UInt64) (selector body : Text) (slots : List Slot) :
    bodiesOf (⟨index, some ⟨selector, body⟩⟩ :: slots) selector =
      body :: bodiesOf slots selector := by
  simp [bodiesOf]

theorem bodiesOf_cons_of_ne {selector own : Text} (h : selector ≠ own) (index : UInt64)
    (body : Text) (slots : List Slot) :
    bodiesOf (⟨index, some ⟨own, body⟩⟩ :: slots) selector = bodiesOf slots selector := by
  simp [bodiesOf, h]

end Slot

namespace Merge

open Slot (bodiesOf)

variable {rule : Rule} {selector : Text}

def pooled : List Text → List Text
  | [] => []
  | body :: rest => [body ++ rest.flatten]

theorem foldl_absorb_selector (rule : Rule) (taken : List Rule) :
    taken.foldl (Criterion.absorb .selector) rule =
      { rule with body := rule.body ++ (taken.map Rule.body).flatten } := by
  induction taken generalizing rule with
  | nil => simp
  | cons other rest ih => simp [ih, Criterion.absorb]

theorem gathered_selector (rule : Rule) (slots : List Slot) :
    gathered .selector rule slots =
      { rule with body := rule.body ++ (bodiesOf slots rule.selector).flatten } := by
  rw [gathered, foldl_absorb_selector, map_snd_later]
  rfl

theorem bodiesOf_clear_self (rule : Rule) (slots : List Slot) :
    bodiesOf (clear .selector rule slots) rule.selector = [] := by
  rw [bodiesOf, rules_clear, List.map_eq_nil_iff, List.filter_eq_nil_iff]
  intro other hm hs
  have hn := (List.mem_filter.mp hm).2
  rw [Criterion.alike, hs] at hn
  cases hn

theorem bodiesOf_clear_of_ne (h : selector ≠ rule.selector) (slots : List Slot) :
    bodiesOf (clear .selector rule slots) selector = bodiesOf slots selector := by
  rw [bodiesOf, rules_clear, List.filter_filter, bodiesOf]
  congr 1
  apply List.filter_congr
  intro other _
  cases hs : selector == other.selector with
  | false => rfl
  | true =>
    have hn : (rule.selector == other.selector) = false := by
      rw [← beq_iff_eq.mp hs]
      exact beq_eq_false_iff_ne.mpr h.symm
    rw [Criterion.alike, hn]
    rfl

theorem bodiesOf_collapse (slots : List Slot) (selector : Text) :
    bodiesOf (collapse .selector [] slots) selector = pooled (bodiesOf slots selector) := by
  induction slots using clearing_induction .selector with
  | nil => rfl
  | hole index rest ih => exact ih
  | rule index rule rest ih =>
    obtain ⟨own, body⟩ := rule
    rw [collapse_cons_some, gathered_selector]
    by_cases h : selector = own
    · subst h
      rw [bodiesOf_clear_self ⟨selector, body⟩] at ih
      rw [Slot.bodiesOf_cons_self, Slot.bodiesOf_cons_self, ih]
      rfl
    · rw [bodiesOf_clear_of_ne h] at ih
      rw [Slot.bodiesOf_cons_of_ne h, Slot.bodiesOf_cons_of_ne h, ih]

theorem flatMap_declarations_pooled (bodies : List Text) :
    (pooled bodies).flatMap Body.declarations = Body.declarations bodies.flatten := by
  cases bodies with
  | nil => rfl
  | cons body rest => exact List.flatMap_singleton ..

end Merge

/--
Merging rules with the same selector keeps the declarations for a selector exactly when each of its
bodies meets what is written before it.
-/
theorem Sheet.pooled_declarations_eq_iff (sheet : Sheet) (selector : Text) :
    ((sheet.merge (Merge.pass .selector)).1.bodiesOf selector).flatMap Body.declarations =
        (sheet.bodiesOf selector).flatMap Body.declarations ↔
      Body.seamless [] (sheet.bodiesOf selector) = true := by
  have hb : (sheet.merge (Merge.pass .selector)).1.bodiesOf selector =
      Merge.pooled (sheet.bodiesOf selector) := Merge.bodiesOf_collapse _ selector
  rw [hb, Merge.flatMap_declarations_pooled, Body.declarations_flatten_iff]

/-- Two bodies without a closing semicolon run together. -/
theorem Sheet.pooling_joins_open_bodies :
    let sheet := Sheet.ofRules [⟨"a,b".toList, "x:1".toList⟩, ⟨"a,b".toList, "y:2".toList⟩]
    (sheet.bodiesOf "a,b".toList).flatMap Body.declarations = ["x:1".toList, "y:2".toList] ∧
    ((sheet.merge (Merge.pass .selector)).1.bodiesOf "a,b".toList).flatMap Body.declarations =
      ["x:1y:2".toList] := by
  decide

end StyleSheet
