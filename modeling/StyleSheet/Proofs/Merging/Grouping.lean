import Mathlib.Data.List.Induction
import StyleSheet.Proofs.Merging.InPlace
import StyleSheet.Proofs.Merging.Pooling
import StyleSheet.Proofs.Sheet.Edits

namespace StyleSheet

namespace Slot

def ruleAt? (slots : List Slot) (position : Nat) : Option Rule :=
  slots[position]?.bind Slot.rule

theorem mem_rules_take {slots : List Slot} {position : Nat} {rule : Rule} :
    rule ∈ rules (slots.take position) ↔
      ∃ earlier < position, ruleAt? slots earlier = some rule := by
  rw [rules, List.mem_filterMap]
  simp only [List.mem_iff_getElem?, List.getElem?_take]
  constructor
  · rintro ⟨slot, ⟨earlier, hs⟩, hr⟩
    split at hs
    next hl => exact ⟨earlier, hl, Option.bind_eq_some_iff.mpr ⟨slot, hs, hr⟩⟩
    next => cases hs
  · rintro ⟨earlier, hl, hs⟩
    obtain ⟨slot, hs, hr⟩ := Option.bind_eq_some_iff.mp hs
    exact ⟨slot, ⟨earlier, by rwa [if_pos hl]⟩, hr⟩

theorem forall_mem_rules_take {slots : List Slot} {position : Nat} {P : Rule → Prop} :
    (∀ rule ∈ rules (slots.take position), P rule) ↔
      ∀ earlier < position, ∀ rule, ruleAt? slots earlier = some rule → P rule := by
  simp only [mem_rules_take]
  constructor
  · intro h earlier hl rule hr
    exact h rule ⟨earlier, hl, hr⟩
  · rintro h rule ⟨earlier, hl, hr⟩
    exact h earlier hl rule hr

end Slot

namespace Criterion

def unite : Criterion → Rule → List Rule → Rule
  | .selector, rule, group => { rule with body := (group.map Rule.body).flatten }
  | .body, rule, group => { rule with selector := [','].intercalate (group.map Rule.selector) }

theorem alike_refl (criterion : Criterion) (rule : Rule) : criterion.alike rule rule = true := by
  cases criterion with
  | selector => exact beq_self_eq_true rule.selector
  | body => exact alike_body_iff.mpr (.refl _)

theorem alike_comm (criterion : Criterion) (a b : Rule) :
    criterion.alike a b = criterion.alike b a :=
  Bool.eq_iff_iff.mpr ⟨alike_symm, alike_symm⟩

theorem intercalate_joined (c : Char) (first second : Text) (rest : List Text) :
    [c].intercalate ((first ++ c :: second) :: rest) =
      [c].intercalate (first :: second :: rest) := by
  cases rest <;> simp [List.intercalate]

theorem foldl_absorb_body (rule : Rule) (taken : List Rule) :
    taken.foldl (absorb .body) rule =
      { rule with selector := [','].intercalate (rule.selector :: taken.map Rule.selector) } := by
  induction taken generalizing rule with
  | nil => simp [List.intercalate]
  | cons other rest ih => rw [List.foldl_cons, ih, absorb, intercalate_joined, List.map_cons]

theorem foldl_absorb (criterion : Criterion) (rule : Rule) (taken : List Rule) :
    taken.foldl criterion.absorb rule = criterion.unite rule (rule :: taken) := by
  cases criterion with
  | selector => exact Merge.foldl_absorb_selector rule taken
  | body => exact foldl_absorb_body rule taken

end Criterion

namespace Merge

variable {criterion : Criterion} {front kept : List Rule} {rule : Rule}

/-- What becomes of a rule in a group: the first one stands for all, the others are taken in. -/
def represented (criterion : Criterion) (before all : List Rule) (rule : Rule) : Option Rule :=
  if before.any (criterion.alike rule) then none
  else some (criterion.unite rule (all.filter (criterion.alike rule)))

/-- The kept rules tell whether a rule is like any of those before it. -/
def Represent (criterion : Criterion) (kept front : List Rule) : Prop :=
  ∀ rule, kept.any (criterion.alike · rule) = front.any (criterion.alike rule)

theorem Represent.nil (criterion : Criterion) : Represent criterion [] [] :=
  fun _ => rfl

theorem Represent.taken (h : Represent criterion kept front)
    (ht : kept.any (criterion.alike · rule) = true) :
    Represent criterion kept (front ++ [rule]) := by
  intro other
  rw [h other, List.any_append, List.any_cons, List.any_nil, Bool.or_false]
  cases ha : criterion.alike other rule with
  | false => exact (Bool.or_false _).symm
  | true =>
    rw [h rule] at ht
    obtain ⟨first, hm, hf⟩ := List.any_eq_true.mp ht
    rw [Bool.or_true]
    exact List.any_eq_true.mpr ⟨first, hm, Criterion.alike_trans ha hf⟩

theorem Represent.fresh (h : Represent criterion kept front) (rule : Rule) :
    Represent criterion (rule :: kept) (front ++ [rule]) := by
  intro other
  rw [List.any_cons, h other, List.any_append, List.any_cons, List.any_nil, Bool.or_false,
    Bool.or_comm, Criterion.alike_comm]

theorem filter_alike_of_fresh (h : front.any (criterion.alike rule) = false) (rest : List Rule) :
    (front ++ rule :: rest).filter (criterion.alike rule) =
      rule :: rest.filter (criterion.alike rule) := by
  have hf : front.filter (criterion.alike rule) = [] := by
    rw [List.filter_eq_nil_iff]
    intro other hm ha
    rw [List.any_eq_true.mpr ⟨other, hm, ha⟩] at h
    cases h
  rw [List.filter_append, hf, List.nil_append,
    List.filter_cons_of_pos (Criterion.alike_refl criterion rule)]

/-- A pass gives the rule at the front what is due to it and goes on with the others. -/
theorem Represent.collapse_cons (h : Represent criterion kept front) (index : UInt64) (rule : Rule)
    (rest : List Slot) :
    ∃ others, Represent criterion others (front ++ [rule]) ∧
      collapse criterion kept (⟨index, some rule⟩ :: rest) =
        ⟨index, represented criterion front (front ++ rule :: Slot.rules rest) rule⟩ ::
          collapse criterion others rest := by
  have hf := h rule
  simp only [collapse]
  rw [represented, ← hf]
  cases ht : kept.any (criterion.alike · rule) with
  | true => exact ⟨kept, h.taken ht, rfl⟩
  | false =>
    have hg := filter_alike_of_fresh (hf.symm.trans ht) (Slot.rules rest)
    rw [hg, ← Criterion.foldl_absorb, map_snd_later]
    exact ⟨rule :: kept, h.fresh rule, rfl⟩

/-- What becomes of a rule in a pass is decided by the rules before it and those in its group. -/
theorem ruleAt?_collapse (h : Represent criterion kept front) (slots : List Slot)
    (position : Nat) :
    Slot.ruleAt? (collapse criterion kept slots) position =
      (Slot.ruleAt? slots position).bind (represented criterion
        (front ++ Slot.rules (slots.take position)) (front ++ Slot.rules slots)) := by
  induction slots generalizing front kept position with
  | nil => rfl
  | cons slot rest ih =>
    obtain ⟨index, content⟩ := slot
    cases content with
    | none =>
      cases position with
      | zero => rfl
      | succ position => exact ih h position
    | some rule =>
      obtain ⟨others, ho, hc⟩ := h.collapse_cons index rule rest
      rw [hc]
      cases position with
      | zero =>
        have hn : front ++ Slot.rules [] = front := List.append_nil front
        rw [List.take_zero, hn]
        rfl
      | succ position =>
        have hr := ih ho position
        rw [List.append_assoc, List.append_assoc] at hr
        exact hr

theorem ruleAt?_pass (criterion : Criterion) (slots : List Slot) (position : Nat) :
    Slot.ruleAt? (pass criterion slots).slots position =
      (Slot.ruleAt? slots position).bind (represented criterion
        (Slot.rules (slots.take position)) (Slot.rules slots)) :=
  ruleAt?_collapse (.nil criterion) slots position

theorem represented_eq_some_iff {before all : List Rule} {stays : Rule} :
    represented criterion before all rule = some stays ↔
      (∀ other ∈ before, criterion.alike rule other = false) ∧
        stays = criterion.unite rule (all.filter (criterion.alike rule)) := by
  rw [represented]
  cases h : before.any (criterion.alike rule) with
  | true =>
    obtain ⟨other, hm, ha⟩ := List.any_eq_true.mp h
    constructor
    · intro hn
      cases hn
    · rintro ⟨hn, -⟩
      rw [hn other hm] at ha
      cases ha
  | false =>
    have hn (other : Rule) (hm : other ∈ before) : criterion.alike rule other = false :=
      Bool.eq_false_iff.mpr (List.any_eq_false.mp h other hm)
    rw [if_neg Bool.false_ne_true, Option.some_inj]
    exact ⟨fun he => ⟨hn, he.symm⟩, fun he => he.2.symm⟩

end Merge

def Table.tally (texts : List Text) : Table Nat :=
  texts.foldl (fun counts text => counts.insert text ((counts.get? text).getD 0 + 1)) []

theorem Table.get?_tally (texts : List Text) (text : Text) :
    (tally texts).get? text = if 0 < texts.count text then some (texts.count text) else none := by
  induction texts using List.reverseRecOn with
  | nil => rfl
  | append_singleton front last ih =>
    rw [tally, List.foldl_append, List.foldl_cons, List.foldl_nil, ← tally, get?_insert,
      List.count_append, List.count_singleton]
    by_cases h : last = text
    · subst h
      rw [ih]
      cases front.count last <;> simp
    · simp [h, ih]

/-- Tallies say the same exactly if one text for one the same texts were counted, in any order. -/
theorem Table.tally_eq_iff {texts others : List Text} :
    (∀ text, (tally texts).get? text = (tally others).get? text) ↔ texts.Perm others := by
  rw [List.perm_iff_count]
  apply forall_congr'
  intro text
  rw [get?_tally, get?_tally]
  cases texts.count text <;> cases others.count text <;> simp

namespace Criterion

theorem alike_selector_eq_false_iff {a b : Rule} :
    alike .selector a b = false ↔ b.selector ≠ a.selector := by
  rw [alike_comm]
  exact beq_eq_false_iff_ne

theorem alike_body_eq_false_iff {a b : Rule} :
    alike .body a b = false ↔ ¬(Body.split b.body).Perm (Body.split a.body) := by
  rw [alike_comm, ← alike_body_iff, Bool.not_eq_true]

theorem alike_body_iff_tally {a b : Rule} :
    alike .body a b = true ↔ ∀ text,
      (Table.tally (Body.split a.body)).get? text = (Table.tally (Body.split b.body)).get? text :=
  alike_body_iff.trans Table.tally_eq_iff.symm

end Criterion

namespace Sheet

def ruleAt? (sheet : Sheet) (position : Nat) : Option Rule :=
  Slot.ruleAt? sheet.slots.toList position

/-- The selectors of the rules that hold the pieces of a body in any order. -/
def selectorsOf (sheet : Sheet) (body : Text) : List Text :=
  (sheet.rules.filter fun rule => (Body.split body).Perm (Body.split rule.body)).map Rule.selector

theorem selectorsOf_eq (sheet : Sheet) (rule : Rule) :
    sheet.selectorsOf rule.body =
      (sheet.rules.filter (Criterion.alike .body rule)).map Rule.selector := by
  rw [selectorsOf]
  congr 2
  funext other
  exact Bool.eq_iff_iff.mpr (decide_eq_true_iff.trans Criterion.alike_body_iff.symm)

variable {criterion : Criterion} {sheet : Sheet}

theorem ruleAt?_pass_eq_some_iff {position : Nat} {kept : Rule} :
    (sheet.merge (Merge.pass criterion)).1.ruleAt? position = some kept ↔
      ∃ rule, sheet.ruleAt? position = some rule ∧
        (∀ earlier < position, ∀ other, sheet.ruleAt? earlier = some other →
          criterion.alike rule other = false) ∧
        kept = criterion.unite rule (sheet.rules.filter (criterion.alike rule)) := by
  have hp : (sheet.merge (Merge.pass criterion)).1.ruleAt? position =
      (sheet.ruleAt? position).bind (Merge.represented criterion
        (Slot.rules (sheet.slots.toList.take position)) sheet.rules) :=
    Merge.ruleAt?_pass criterion sheet.slots.toList position
  rw [hp, Option.bind_eq_some_iff]
  simp only [Merge.represented_eq_some_iff, Slot.forall_mem_rules_take]
  rfl

theorem merge_sweep (criterion : Criterion) (sheet : Sheet) :
    sheet.merge (Merge.sweep criterion) = sheet.merge (Merge.pass criterion) := by
  rw [merge, merge, Merge.sweep_eq_pass]

theorem indices_pass (criterion : Criterion) (sheet : Sheet) :
    (sheet.merge (Merge.pass criterion)).1.indices = sheet.indices :=
  (Merge.become_collapse criterion [] sheet.slots.toList).map_index

theorem size_pass (criterion : Criterion) (sheet : Sheet) :
    (sheet.merge (Merge.pass criterion)).1.size + (sheet.merge (Merge.pass criterion)).2.length =
      sheet.size := by
  rw [size_eq_length_rules, size_eq_length_rules, Nat.add_comm]
  exact Merge.length_merges_pass criterion sheet.slots.toList

/--
Merging by selector, pair by pair in place, is grouping: the first rule with a selector stays under
its index and gets the bodies of all rules with that selector, and the others leave holes.
-/
theorem merge_selector_groups (sheet : Sheet) :
    let result := sheet.merge (Merge.pass .selector)
    sheet.merge (Merge.sweep .selector) = result ∧
    result.1.indices = sheet.indices ∧
    (∀ position kept, result.1.ruleAt? position = some kept ↔
      ∃ rule, sheet.ruleAt? position = some rule ∧
        (∀ earlier < position, ∀ other, sheet.ruleAt? earlier = some other →
          other.selector ≠ rule.selector) ∧
        kept = { selector := rule.selector, body := (sheet.bodiesOf rule.selector).flatten }) ∧
    result.1.size + result.2.length = sheet.size := by
  intro result
  refine ⟨merge_sweep .selector sheet, indices_pass .selector sheet, fun position kept => ?_,
    size_pass .selector sheet⟩
  rw [ruleAt?_pass_eq_some_iff]
  simp only [Criterion.alike_selector_eq_false_iff]
  rfl

/--
Merging by body, pair by pair in place, is grouping: the first rule with some declarations stays
under its index, with its body as it is, and gets the selectors of all rules with the same ones.
-/
theorem merge_body_groups (sheet : Sheet) :
    let result := sheet.merge (Merge.pass .body)
    sheet.merge (Merge.sweep .body) = result ∧
    result.1.indices = sheet.indices ∧
    (∀ position kept, result.1.ruleAt? position = some kept ↔
      ∃ rule, sheet.ruleAt? position = some rule ∧
        (∀ earlier < position, ∀ other, sheet.ruleAt? earlier = some other →
          ¬(Body.split other.body).Perm (Body.split rule.body)) ∧
        kept =
          { selector := [','].intercalate (sheet.selectorsOf rule.body), body := rule.body }) ∧
    result.1.size + result.2.length = sheet.size ∧
    ∀ a b : Rule, Criterion.alike .body a b = true ↔
      ∀ text, (Table.tally (Body.split a.body)).get? text =
        (Table.tally (Body.split b.body)).get? text := by
  intro result
  refine ⟨merge_sweep .body sheet, indices_pass .body sheet, fun position kept => ?_,
    size_pass .body sheet, fun a b => Criterion.alike_body_iff_tally⟩
  rw [ruleAt?_pass_eq_some_iff]
  simp only [Criterion.alike_body_eq_false_iff, selectorsOf_eq]
  rfl

end Sheet

end StyleSheet
