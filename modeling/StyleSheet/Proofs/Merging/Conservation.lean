import StyleSheet.Proofs.Merging.Run

namespace StyleSheet

namespace Criterion

variable {criterion : Criterion} {a b : Rule} {atom declaration : Text}

theorem atoms_absorb_body (a b : Rule) : (absorb .body a b).atoms = a.atoms ++ b.atoms :=
  List.splitOn_append_cons_self a.selector b.selector

theorem atoms_of_alike (h : alike .selector a b = true) : b.atoms = a.atoms := by
  rw [Rule.atoms, Rule.atoms, beq_iff_eq.mp h]

theorem mem_atoms_absorb (h : criterion.alike a b = true) :
    atom ∈ (criterion.absorb a b).atoms ↔ atom ∈ a.atoms ∨ atom ∈ b.atoms := by
  cases criterion with
  | selector =>
    rw [atoms_of_alike h]
    exact (or_self_iff).symm
  | body => rw [atoms_absorb_body, List.mem_append]

theorem isClosed_absorb (ha : Body.isClosed a.body = true) (hb : Body.isClosed b.body = true) :
    Body.isClosed (criterion.absorb a b).body = true := by
  cases criterion with
  | selector => exact Body.isClosed_append ha hb
  | body => exact ha

theorem mem_declarationsFor {rule : Rule} :
    declaration ∈ rule.declarationsFor atom ↔
      atom ∈ rule.atoms ∧ declaration ∈ Body.split rule.body := by
  rw [Rule.declarationsFor]
  split
  next h => exact ⟨fun hd => ⟨h, hd⟩, And.right⟩
  next h => exact ⟨fun hd => absurd hd List.not_mem_nil, fun hd => absurd hd.1 h⟩

theorem mem_declarationsFor_absorb (h : criterion.alike a b = true)
    (ha : Body.isClosed a.body = true) (hd : declaration ≠ []) :
    declaration ∈ (criterion.absorb a b).declarationsFor atom ↔
      declaration ∈ a.declarationsFor atom ∨ declaration ∈ b.declarationsFor atom := by
  rw [mem_declarationsFor, mem_declarationsFor, mem_declarationsFor, mem_atoms_absorb h]
  cases criterion with
  | selector =>
    have hs : declaration ∈ Body.split (a.body ++ b.body) ↔
        declaration ∈ Body.split a.body ∨ declaration ∈ Body.split b.body := by
      have hf := Body.filter_split_append ha b.body (p := fun piece => piece != []) rfl
      have hm := congrArg (declaration ∈ ·) hf
      simpa [List.mem_append, List.mem_filter, hd] using hm
    rw [atoms_of_alike h, or_self_iff, ← and_or_left]
    exact and_congr_right fun _ => hs
  | body =>
    have hs : declaration ∈ Body.split a.body ↔ declaration ∈ Body.split b.body :=
      (alike_body_iff.mp h).mem_iff
    rw [or_and_right, ← hs]
    rfl

end Criterion

namespace Merge

variable {slots final : List Slot} {steps : List Step}

def Closed (slots : List Slot) : Prop :=
  ∀ rule ∈ Slot.rules slots, Body.isClosed rule.body = true

namespace Step

def others (step : Step) : List Rule :=
  Slot.rules step.front ++ (Slot.rules step.between ++ Slot.rules step.rest)

theorem rules_start (step : Step) :
    Slot.rules step.start = Slot.rules step.front ++
      step.rule :: (Slot.rules step.between ++ step.later :: Slot.rules step.rest) := by
  rw [start, Slot.rules_append, Slot.rules_cons_some, Slot.rules_append, Slot.rules_cons_some]

theorem rules_finish (step : Step) :
    Slot.rules step.finish = Slot.rules step.front ++
      step.merged :: (Slot.rules step.between ++ Slot.rules step.rest) := by
  rw [finish, Slot.rules_append, Slot.rules_cons_some, Slot.rules_append, Slot.rules_cons_none]

theorem mem_rules_start {step : Step} {rule : Rule} :
    rule ∈ Slot.rules step.start ↔
      rule = step.rule ∨ rule = step.later ∨ rule ∈ step.others := by
  rw [rules_start, others]
  simp only [List.mem_append, List.mem_cons]
  grind

theorem mem_rules_finish {step : Step} {rule : Rule} :
    rule ∈ Slot.rules step.finish ↔ rule = step.merged ∨ rule ∈ step.others := by
  rw [rules_finish, others]
  simp only [List.mem_append, List.mem_cons]
  grind

theorem exists_rules_start {step : Step} {P : Rule → Prop} :
    (∃ rule ∈ Slot.rules step.start, P rule) ↔
      (P step.rule ∨ P step.later) ∨ ∃ rule ∈ step.others, P rule := by
  simp only [mem_rules_start, or_and_right, exists_or, exists_eq_left, or_assoc]

theorem exists_rules_finish {step : Step} {P : Rule → Prop} :
    (∃ rule ∈ Slot.rules step.finish, P rule) ↔
      P step.merged ∨ ∃ rule ∈ step.others, P rule := by
  simp only [mem_rules_finish, or_and_right, exists_or, exists_eq_left]

theorem closed_finish {step : Step} (h : Closed step.start) : Closed step.finish := by
  have hr := h step.rule (mem_rules_start.mpr (.inl rfl))
  have hl := h step.later (mem_rules_start.mpr (.inr (.inl rfl)))
  intro rule hm
  rcases mem_rules_finish.mp hm with rfl | hm
  · exact Criterion.isClosed_absorb hr hl
  · exact h rule (mem_rules_start.mpr (.inr (.inr hm)))

theorem mem_atoms_finish {step : Step} {atom : Text} :
    atom ∈ Slot.atoms step.finish ↔ atom ∈ Slot.atoms step.start := by
  rw [Slot.atoms, Slot.atoms, List.mem_flatMap, List.mem_flatMap, exists_rules_start,
    exists_rules_finish, merged, Criterion.mem_atoms_absorb step.alike]

theorem mem_declarationsFor_finish {step : Step} {atom declaration : Text}
    (h : Closed step.start) (hd : declaration ≠ []) :
    declaration ∈ Slot.declarationsFor step.finish atom ↔
      declaration ∈ Slot.declarationsFor step.start atom := by
  have hr := h step.rule (mem_rules_start.mpr (.inl rfl))
  rw [Slot.declarationsFor, Slot.declarationsFor, List.mem_flatMap, List.mem_flatMap,
    exists_rules_start, exists_rules_finish, merged,
    Criterion.mem_declarationsFor_absorb step.alike hr hd]

end Step

theorem Run.closed (h : Run slots steps final) (hc : Closed slots) : Closed final :=
  h.keeps (fun _ => Step.closed_finish) hc

theorem Run.mem_atoms (h : Run slots steps final) {atom : Text} :
    atom ∈ Slot.atoms final ↔ atom ∈ Slot.atoms slots := by
  induction h with
  | refl => exact .rfl
  | head step run ih => exact ih.trans Step.mem_atoms_finish

theorem Run.mem_declarationsFor (h : Run slots steps final) (hc : Closed slots)
    {atom declaration : Text} (hd : declaration ≠ []) :
    declaration ∈ Slot.declarationsFor final atom ↔
      declaration ∈ Slot.declarationsFor slots atom := by
  induction h with
  | refl => exact .rfl
  | head step run ih =>
    exact (ih (Step.closed_finish hc)).trans (Step.mem_declarationsFor_finish hc hd)

end Merge

/-- Merging keeps the atoms of a sheet and what it declares for each of them. -/
theorem Sheet.merge_settle_conserves (sheet : Sheet) (criteria : List Criterion)
    (closed : ∀ rule ∈ sheet.rules, Body.isClosed rule.body = true) :
    (∀ atom, atom ∈ (sheet.merge (Merge.settle criteria)).1.atoms ↔ atom ∈ sheet.atoms) ∧
    (∀ atom declaration, declaration ≠ [] →
      (declaration ∈ (sheet.merge (Merge.settle criteria)).1.declarationsFor atom ↔
        declaration ∈ sheet.declarationsFor atom)) ∧
    ∀ rule ∈ (sheet.merge (Merge.settle criteria)).1.rules, Body.isClosed rule.body = true := by
  obtain ⟨steps, run, -⟩ := Merge.exists_run_settle criteria sheet.slots.toList
  refine ⟨fun atom => ?_, fun atom declaration hd => ?_, ?_⟩
  · exact run.mem_atoms
  · exact run.mem_declarationsFor closed hd
  · exact run.closed closed

/-- Three rules that become one: the first two join their selectors to that of the third. -/
theorem Sheet.joined_conserved :
    let sheet := Sheet.ofRules [⟨"a".toList, "x:1;".toList⟩, ⟨"b".toList, "x:1;".toList⟩,
      ⟨"a,b".toList, "y:2;".toList⟩]
    let merged := (sheet.merge (Merge.settle [.selector, .body])).1
    (∀ rule ∈ sheet.rules, Body.isClosed rule.body = true) ∧
    (∀ atom, atom ∈ merged.atoms ↔ atom ∈ sheet.atoms) ∧
    (∀ atom declaration, declaration ≠ [] →
      (declaration ∈ merged.declarationsFor atom ↔ declaration ∈ sheet.declarationsFor atom)) ∧
    ∀ rule ∈ merged.rules, Body.isClosed rule.body = true :=
  ⟨by decide, Sheet.merge_settle_conserves _ [.selector, .body] (by decide)⟩

end StyleSheet
