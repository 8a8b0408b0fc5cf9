import StyleSheet.Proofs.Merging.Conservation

namespace StyleSheet

open Cascade

/-- The declaration that decides a property for an atom. -/
def Slot.winner (slots : List Slot) (atom property : Text) : Option Text :=
  decisive property (Slot.declarationsFor slots atom)

def Sheet.winner (sheet : Sheet) (atom property : Text) : Option Text :=
  Slot.winner sheet.slots.toList atom property

namespace Cascade

variable {property declaration : Text} {declarations : List Text}

theorem weight_le_iff :
    weight (decisive property declarations) ≤ weight (some declaration) ↔
      ∀ other ∈ claims property declarations, Declaration.isImportant other = true →
        Declaration.isImportant declaration = true := by
  rw [weight_some]
  cases hi : Declaration.isImportant declaration with
  | true => exact ⟨fun _ _ _ _ => rfl, fun _ => weight_le_two _⟩
  | false =>
    constructor
    · intro h other hm ho
      have heavy := two_le_weight_iff.mpr ⟨other, hm, ho⟩
      exact absurd h (Nat.not_le_of_lt heavy)
    · intro h
      apply Nat.le_of_lt_succ
      apply Nat.lt_of_not_le
      intro heavy
      obtain ⟨other, hm, ho⟩ := two_le_weight_iff.mp heavy
      cases h other hm ho

theorem weight_lt_iff :
    weight (decisive property declarations) < weight (some declaration) ↔
      ∀ other ∈ claims property declarations, Declaration.isImportant declaration = true ∧
        Declaration.isImportant other = false := by
  rw [weight_some]
  cases hi : Declaration.isImportant declaration with
  | true =>
    constructor
    · intro h other hm
      refine ⟨rfl, Bool.eq_false_iff.mpr fun ho => ?_⟩
      exact absurd (two_le_weight_iff.mpr ⟨other, hm, ho⟩) (Nat.not_le_of_lt h)
    · intro h
      apply Nat.lt_of_not_le
      intro heavy
      obtain ⟨other, hm, ho⟩ := two_le_weight_iff.mp heavy
      rw [(h other hm).2] at ho
      cases ho
  | false =>
    constructor
    · intro h other hm
      cases hd : decisive property declarations with
      | none =>
        rw [decisive_eq_none_iff.mp hd] at hm
        cases hm
      | some first =>
        have hpos := weight_some_pos first
        rw [hd] at h
        exact absurd hpos (Nat.not_lt_of_le (Nat.le_of_lt_succ h))
    · intro h
      have none_left : claims property declarations = [] := by
        apply List.eq_nil_iff_forall_not_mem.mpr
        intro other hm
        cases (h other hm).1
      rw [decisive_eq_none_iff.mpr none_left]
      decide

variable {x t m l y a : Option Text}

theorem override_eq_later (hx : weight x ≤ weight l) (ht : weight t ≤ weight l)
    (hm : weight m ≤ weight l) (hy : weight y < weight l) :
    override x (override t (override m (override l y))) = l := by
  grind [override]

theorem override_eq_left (hx : weight x ≤ weight l) (ha : weight a = weight l)
    (hy : weight y < weight l) : override x (override a (override m y)) = override a m := by
  grind [override]

theorem override_eq_override (hw : weight a = max (weight t) (weight l))
    (ha : weight l < weight t → a = t)
    (h : weight x ≤ weight l → weight t ≤ weight l → weight m ≤ weight l →
      weight y < weight l → override a m = l) :
    override x (override a (override m y)) =
      override x (override t (override m (override l y))) := by
  grind [override]

end Cascade

namespace Criterion

variable {criterion : Criterion} {a b : Rule}

theorem decisive_absorb_selector (h : alike .selector a b = true)
    (ha : Body.isClosed a.body = true) (atom property : Text) :
    decisive property ((absorb .selector a b).declarationsFor atom) =
      override (decisive property (a.declarationsFor atom))
        (decisive property (b.declarationsFor atom)) := by
  rw [← decisive_append]
  apply decisive_congr
  have hb : b.declarationsFor atom = if atom ∈ a.atoms then Body.split b.body else [] := by
    rw [Rule.declarationsFor, atoms_of_alike h]
  rw [claims_append, hb, Rule.declarationsFor, Rule.declarationsFor]
  by_cases hm : atom ∈ a.atoms
  · have hm' : atom ∈ (absorb .selector a b).atoms := hm
    rw [if_pos hm, if_pos hm, if_pos hm']
    exact Body.filter_split_append ha b.body rfl
  · have hm' : atom ∉ (absorb .selector a b).atoms := hm
    rw [if_neg hm, if_neg hm, if_neg hm']
    rfl

theorem weight_absorb (h : criterion.alike a b = true) (ha : Body.isClosed a.body = true)
    (atom property : Text) :
    weight (decisive property ((criterion.absorb a b).declarationsFor atom)) =
        max (weight (decisive property (a.declarationsFor atom)))
          (weight (decisive property (b.declarationsFor atom))) ∧
      (weight (decisive property (b.declarationsFor atom)) <
          weight (decisive property (a.declarationsFor atom)) →
        decisive property ((criterion.absorb a b).declarationsFor atom) =
          decisive property (a.declarationsFor atom)) := by
  cases criterion with
  | selector =>
    rw [decisive_absorb_selector h ha, weight_override]
    exact ⟨rfl, fun hlt => if_pos hlt⟩
  | body =>
    have same := weight_decisive_perm property (alike_body_iff.mp h)
    by_cases hb : atom ∈ b.atoms
    · have hab : atom ∈ (absorb .body a b).atoms := (mem_atoms_absorb h).mpr (.inr hb)
      have left : (absorb .body a b).declarationsFor atom = Body.split a.body := if_pos hab
      have right : b.declarationsFor atom = Body.split b.body := if_pos hb
      rw [left, right, ← same]
      by_cases hm : atom ∈ a.atoms
      · have keep : a.declarationsFor atom = Body.split a.body := if_pos hm
        rw [keep]
        exact ⟨(Nat.max_self _).symm, fun _ => rfl⟩
      · have keep : a.declarationsFor atom = [] := if_neg hm
        rw [keep]
        exact ⟨(Nat.zero_max _).symm, fun hlt => absurd hlt (Nat.not_lt_zero _)⟩
    · have right : b.declarationsFor atom = [] := if_neg hb
      have left : (absorb .body a b).declarationsFor atom = a.declarationsFor atom := by
        by_cases hm : atom ∈ a.atoms
        · exact (if_pos ((mem_atoms_absorb h).mpr (.inl hm))).trans (if_pos hm).symm
        · have hab : atom ∉ (absorb .body a b).atoms := by
            rw [mem_atoms_absorb h]
            exact not_or.mpr ⟨hm, hb⟩
          exact (if_neg hab).trans (if_neg hm).symm
      rw [left, right]
      exact ⟨(Nat.max_zero _).symm, fun _ => rfl⟩

end Criterion

namespace Merge

variable {slots final : List Slot} {steps : List Step} {atom property old new : Text}

namespace Step

variable {step : Step}

/--
A step shifts the decision about a property when the rule that is taken in decides it for the atom
and what stays in front of its old place decides it differently.
-/
structure Shifts (step : Step) (atom property old new : Text) : Prop where
  decides : decisive property (step.later.declarationsFor atom) = some old
  /-- Nothing ahead of the later rule is important unless its declaration is. -/
  unbeaten : ∀ other ∈ claims property (Slot.declarationsFor step.front atom ++
      step.rule.declarationsFor atom ++ Slot.declarationsFor step.between atom),
    Declaration.isImportant other = true → Declaration.isImportant old = true
  /-- Nothing behind the later rule overrides its declaration. -/
  final : ∀ other ∈ claims property (Slot.declarationsFor step.rest atom),
    Declaration.isImportant old = true ∧ Declaration.isImportant other = false
  passes : decisive property (step.merged.declarationsFor atom ++
    Slot.declarationsFor step.between atom) = some new
  differs : new ≠ old

theorem winner_start (step : Step) (atom property : Text) :
    Slot.winner step.start atom property =
      override (decisive property (Slot.declarationsFor step.front atom))
        (override (decisive property (step.rule.declarationsFor atom))
          (override (decisive property (Slot.declarationsFor step.between atom))
            (override (decisive property (step.later.declarationsFor atom))
              (decisive property (Slot.declarationsFor step.rest atom))))) := by
  rw [Slot.winner, Slot.declarationsFor, rules_start, List.flatMap_append, List.flatMap_cons,
    List.flatMap_append, List.flatMap_cons, decisive_append, decisive_append, decisive_append,
    decisive_append]
  rfl

theorem winner_finish (step : Step) (atom property : Text) :
    Slot.winner step.finish atom property =
      override (decisive property (Slot.declarationsFor step.front atom))
        (override (decisive property (step.merged.declarationsFor atom))
          (override (decisive property (Slot.declarationsFor step.between atom))
            (decisive property (Slot.declarationsFor step.rest atom)))) := by
  rw [Slot.winner, Slot.declarationsFor, rules_finish, List.flatMap_append, List.flatMap_cons,
    List.flatMap_append, decisive_append, decisive_append, decisive_append]
  rfl

theorem weight_unbeaten_iff :
    (∀ other ∈ claims property (Slot.declarationsFor step.front atom ++
        step.rule.declarationsFor atom ++ Slot.declarationsFor step.between atom),
      Declaration.isImportant other = true → Declaration.isImportant old = true) ↔
    weight (decisive property (Slot.declarationsFor step.front atom)) ≤ weight (some old) ∧
      weight (decisive property (step.rule.declarationsFor atom)) ≤ weight (some old) ∧
      weight (decisive property (Slot.declarationsFor step.between atom)) ≤ weight (some old) := by
  rw [← weight_le_iff, decisive_append, decisive_append, weight_override, weight_override]
  omega

theorem weight_merged (hc : Closed step.start) (atom property : Text) :
    weight (decisive property (step.merged.declarationsFor atom)) =
        max (weight (decisive property (step.rule.declarationsFor atom)))
          (weight (decisive property (step.later.declarationsFor atom))) ∧
      (weight (decisive property (step.later.declarationsFor atom)) <
          weight (decisive property (step.rule.declarationsFor atom)) →
        decisive property (step.merged.declarationsFor atom) =
          decisive property (step.rule.declarationsFor atom)) :=
  Criterion.weight_absorb step.alike (hc step.rule (mem_rules_start.mpr (.inl rfl))) atom property

theorem Shifts.winner (h : step.Shifts atom property old new) (hc : Closed step.start) :
    Slot.winner step.start atom property = some old ∧
      Slot.winner step.finish atom property = some new := by
  obtain ⟨hx, ht, hm⟩ := weight_unbeaten_iff.mp h.unbeaten
  have hy := weight_lt_iff.mpr h.final
  constructor
  · rw [winner_start, h.decides]
    exact override_eq_later hx ht hm hy
  · have ha := (weight_merged hc atom property).1
    have hp := h.passes
    rw [h.decides, Nat.max_eq_right ht] at ha
    rw [decisive_append] at hp
    rw [winner_finish, ← hp]
    exact override_eq_left hx ha hy

theorem winner_finish_of_not_shifts (hc : Closed step.start)
    (h : ∀ old new, ¬step.Shifts atom property old new) :
    Slot.winner step.finish atom property = Slot.winner step.start atom property := by
  obtain ⟨hw, ha⟩ := weight_merged hc atom property
  rw [winner_start, winner_finish]
  apply override_eq_override hw ha
  intro hx ht hm hy
  cases decides : decisive property (step.later.declarationsFor atom) with
  | none =>
    rw [decides] at hy
    exact absurd hy (Nat.not_lt_zero _)
  | some old =>
    rw [decides] at hx ht hm hy hw
    rw [← decisive_append]
    cases passes : decisive property (step.merged.declarationsFor atom ++
        Slot.declarationsFor step.between atom) with
    | none =>
      have light := congrArg weight passes
      rw [decisive_append, weight_override, hw] at light
      have hpos := weight_some_pos old
      have hz : weight none = 0 := rfl
      omega
    | some new =>
      by_cases differs : new = old
      · rw [differs]
      · have unbeaten := weight_unbeaten_iff.mpr ⟨hx, ht, hm⟩
        exact absurd ⟨decides, unbeaten, weight_lt_iff.mp hy, passes, differs⟩ (h old new)

end Step

/-- The last step that shifts the decision hands it to this declaration. -/
def LastShift (steps : List Step) (atom property new : Text) : Prop :=
  ∃ pre step post old, steps = pre ++ step :: post ∧ step.Shifts atom property old new ∧
    ∀ other ∈ post, ∀ old new, ¬other.Shifts atom property old new

theorem exists_lastShift
    (h : ∃ step ∈ steps, ∃ old new, step.Shifts atom property old new) :
    ∃ new, LastShift steps atom property new := by
  induction steps with
  | nil =>
    obtain ⟨step, hm, -⟩ := h
    cases hm
  | cons first rest ih =>
    by_cases hr : ∃ step ∈ rest, ∃ old new, step.Shifts atom property old new
    · obtain ⟨new, pre, step, post, old, rfl, hs⟩ := ih hr
      exact ⟨new, first :: pre, step, post, old, rfl, hs⟩
    · obtain ⟨step, hm, old, new, hs⟩ := h
      rcases List.mem_cons.mp hm with rfl | hm
      · refine ⟨new, [], step, rest, old, rfl, hs, ?_⟩
        intro other ho old' new' hs'
        exact hr ⟨other, ho, old', new', hs'⟩
      · exact absurd ⟨step, hm, old, new, hs⟩ hr

theorem Run.suffix {pre post : List Step} {step : Step}
    (h : Run slots (pre ++ step :: post) final) (hc : Closed slots) :
    Closed step.start ∧ Run step.finish post final := by
  induction pre generalizing slots with
  | nil =>
    cases h with
    | head _ run => exact ⟨hc, run⟩
  | cons first rest ih =>
    cases h with
    | head _ run => exact ih run (Step.closed_finish hc)

theorem Run.winner_of_not_shifts (h : Run slots steps final) (hc : Closed slots)
    (hn : ∀ step ∈ steps, ∀ old new, ¬step.Shifts atom property old new) :
    Slot.winner final atom property = Slot.winner slots atom property := by
  induction h with
  | refl => rfl
  | head step run ih =>
    have first := Step.winner_finish_of_not_shifts hc (hn step List.mem_cons_self)
    have rest := ih (Step.closed_finish hc) fun other hm => hn other (List.mem_cons_of_mem _ hm)
    exact rest.trans first

theorem Run.winner_of_lastShift (h : Run slots steps final) (hc : Closed slots)
    (hl : LastShift steps atom property new) : Slot.winner final atom property = some new := by
  obtain ⟨pre, step, post, old, rfl, hs, hn⟩ := hl
  obtain ⟨hstart, run⟩ := h.suffix hc
  rw [run.winner_of_not_shifts (Step.closed_finish hstart) hn]
  exact (hs.winner hstart).2

theorem Run.winner_eq_iff (h : Run slots steps final) (hc : Closed slots) :
    Slot.winner final atom property = Slot.winner slots atom property ↔
      ∀ new, LastShift steps atom property new → Slot.winner slots atom property = some new := by
  constructor
  · intro he new hl
    rw [← he]
    exact h.winner_of_lastShift hc hl
  · intro hall
    by_cases hs : ∃ step ∈ steps, ∃ old new, step.Shifts atom property old new
    · obtain ⟨new, hl⟩ := exists_lastShift hs
      rw [h.winner_of_lastShift hc hl, hall new hl]
    · apply h.winner_of_not_shifts hc
      intro step hm old new hstep
      exact hs ⟨step, hm, old, new, hstep⟩

end Merge

/--
Organizing a sheet keeps what decides a property for an atom exactly when no step of its run shifts
the decision, or the last one that does hands it to a declaration that reads the same.
-/
theorem Sheet.organize_winner_eq_iff (sheet : Sheet) (atom property : Text)
    (closed : ∀ rule ∈ sheet.rules, Body.isClosed rule.body = true) :
    ∃ steps, Merge.Run sheet.slots.toList steps
        (sheet.merge (Merge.settle [.selector, .body])).1.slots.toList ∧
      steps.map Merge.Step.record = (sheet.merge (Merge.settle [.selector, .body])).2 ∧
      ((sheet.merge (Merge.settle [.selector, .body])).1.winner atom property =
          sheet.winner atom property ↔
        ∀ new, Merge.LastShift steps atom property new →
          sheet.winner atom property = some new) := by
  obtain ⟨steps, run, log⟩ := Merge.exists_run_settle [.selector, .body] sheet.slots.toList
  exact ⟨steps, run, log, run.winner_eq_iff closed⟩

/-- The outer two rules merge, and the one between them comes to stand behind both. -/
def Sheet.straddled : Sheet :=
  .ofRules [⟨"a".toList, "color:red;".toList⟩, ⟨"a,b".toList, "color:blue;".toList⟩,
    ⟨"a".toList, "color:green;".toList⟩]

theorem Sheet.organize_shifts_straddled :
    (∀ rule ∈ Sheet.straddled.rules, Body.isClosed rule.body = true ∧
      ((Body.split rule.body).filterMap Declaration.property?).Nodup) ∧
    Sheet.straddled.winner "a".toList "color".toList = some "color:green".toList ∧
    (Sheet.straddled.merge (Merge.settle [.selector, .body])).1.winner "a".toList "color".toList =
      some "color:blue".toList := by
  decide +kernel

theorem Sheet.straddled_winner_eq_iff :
    let merged := (Sheet.straddled.merge (Merge.settle [.selector, .body])).1
    (∀ rule ∈ Sheet.straddled.rules, Body.isClosed rule.body = true) ∧
    (∃ steps new, Merge.Run Sheet.straddled.slots.toList steps merged.slots.toList ∧
      Merge.LastShift steps "a".toList "color".toList new ∧
      Sheet.straddled.winner "a".toList "color".toList ≠ some new) ∧
    ∃ steps, Merge.Run Sheet.straddled.slots.toList steps merged.slots.toList ∧
      merged.winner "b".toList "color".toList = some "color:blue".toList ∧
      ∀ new, Merge.LastShift steps "b".toList "color".toList new → new = "color:blue".toList := by
  intro merged
  have closed : ∀ rule ∈ Sheet.straddled.rules, Body.isClosed rule.body = true := by decide
  have shifted : merged.winner "a".toList "color".toList ≠
      Sheet.straddled.winner "a".toList "color".toList := by decide +kernel
  have blue : Sheet.straddled.winner "b".toList "color".toList = some "color:blue".toList := by
    decide +kernel
  have kept : merged.winner "b".toList "color".toList = some "color:blue".toList := by
    decide +kernel
  obtain ⟨steps, run, -, hs⟩ := Sheet.organize_winner_eq_iff Sheet.straddled "a".toList
    "color".toList closed
  obtain ⟨others, run', -, hk⟩ := Sheet.organize_winner_eq_iff Sheet.straddled "b".toList
    "color".toList closed
  refine ⟨closed, ?_, others, run', kept, fun new hl => ?_⟩
  · obtain ⟨new, hn⟩ := Classical.not_forall.mp (mt hs.mpr shifted)
    obtain ⟨hl, hne⟩ := Classical.not_imp.mp hn
    exact ⟨steps, new, run, hl, hne⟩
  · have same := hk.mp (kept.trans blue.symm) new hl
    exact (Option.some.inj (blue.symm.trans same)).symm

end StyleSheet
