import StyleSheet.Proofs.Merging.Conservation
import StyleSheet.Proofs.Outcome

namespace StyleSheet

namespace Slot

variable {slots after final : List Slot} {fates more : List (Option Rule)}

/-- Each rule in its turn is replaced by its fate or taken out; holes and indices stay. -/
inductive Become : List Slot → List (Option Rule) → List Slot → Prop
  | nil : Become [] [] []
  | hole {slots after : List Slot} {fates : List (Option Rule)} (index : UInt64)
      (h : Become slots fates after) :
      Become (⟨index, none⟩ :: slots) fates (⟨index, none⟩ :: after)
  | rule {slots after : List Slot} {fates : List (Option Rule)} (index : UInt64) (rule : Rule)
      (fate : Option Rule) (h : Become slots fates after) :
      Become (⟨index, some rule⟩ :: slots) (fate :: fates) (⟨index, fate⟩ :: after)

/-- The fates of rules that first meet the one fate and, if they survive it, then the other. -/
def chain : List (Option Rule) → List (Option Rule) → List (Option Rule)
  | none :: fates, more => none :: chain fates more
  | some _ :: fates, fate :: more => fate :: chain fates more
  | some rule :: fates, [] => some rule :: chain fates []
  | [], _ => []

namespace Become

theorem refl (slots : List Slot) : Become slots ((rules slots).map some) slots := by
  induction slots with
  | nil => exact .nil
  | cons slot rest ih =>
    obtain ⟨index, content⟩ := slot
    cases content with
    | none => exact .hole index ih
    | some rule => exact .rule index rule (some rule) ih

theorem trans (h : Become slots fates after) (h' : Become after more final) :
    Become slots (chain fates more) final := by
  induction h generalizing more final with
  | nil =>
    cases h'
    exact .nil
  | hole index h ih =>
    cases h' with
    | hole index h' => exact .hole index (ih h')
  | rule index rule fate h ih =>
    cases h' with
    | hole index h' => exact .rule index rule none (ih h')
    | rule index survivor fate h' => exact .rule index rule fate (ih h')

theorem unique (h : Become slots fates after) (h' : Become slots fates final) : after = final := by
  induction h generalizing final with
  | nil =>
    cases h'
    rfl
  | hole index h ih =>
    cases h' with
    | hole index h' => rw [ih h']
  | rule index rule fate h ih =>
    cases h' with
    | rule index rule fate h' => rw [ih h']

theorem rules_eq (h : Become slots fates after) : rules after = fates.reduceOption := by
  induction h with
  | nil => rfl
  | hole index h ih => exact ih
  | rule index rule fate h ih =>
    cases fate with
    | none => exact ih
    | some survivor => exact congrArg (survivor :: ·) ih

theorem map_index (h : Become slots fates after) :
    after.map Slot.index = slots.map Slot.index := by
  induction h with
  | nil => rfl
  | hole index h ih => exact congrArg (index :: ·) ih
  | rule index rule fate h ih => exact congrArg (index :: ·) ih

theorem getElem?_hole (h : Become slots fates after) {position : Nat} {slot : Slot}
    (hs : slots[position]? = some slot) (hn : slot.rule = none) :
    after[position]? = some slot := by
  induction h generalizing position with
  | nil => exact hs
  | hole index h ih =>
    cases position with
    | zero => exact hs
    | succ position => exact ih hs
  | rule index rule fate h ih =>
    cases position with
    | zero =>
      cases hs
      cases hn
    | succ position => exact ih hs

theorem map_slots (h : Become slots fates after) (f : UInt64 → UInt64) :
    Become (slots.map fun slot => { slot with index := f slot.index }) fates
      (after.map fun slot => { slot with index := f slot.index }) := by
  induction h with
  | nil => exact .nil
  | hole index h ih => exact .hole (f index) ih
  | rule index rule fate h ih => exact .rule (f index) rule fate ih

theorem live_eq (h : Become slots fates after) :
    live after = (((live slots).map Prod.fst).zip fates).filterMap fun entry =>
      entry.2.map fun rule => (entry.1, rule) := by
  induction h with
  | nil => rfl
  | hole index h ih => exact ih
  | rule index rule fate h ih =>
    rw [Merge.live_cons_some, List.map_cons, List.zip_cons_cons, List.filterMap_cons, ← ih]
    cases fate <;> rfl

end Become

end Slot

namespace Merge

open Slot (Become)

variable {how : List Slot → Merged}

/-- The fates of rules in a pass; those of `kept` come before them. -/
def fates (criterion : Criterion) (kept : List Rule) : List Rule → List (Option Rule)
  | [] => []
  | rule :: rest =>
    if kept.any (criterion.alike · rule) then none :: fates criterion kept rest
    else
      some ((rest.filter (criterion.alike rule)).foldl criterion.absorb rule) ::
        fates criterion (rule :: kept) rest

theorem map_snd_later (criterion : Criterion) (rule : Rule) (slots : List Slot) :
    (later criterion rule slots).map Prod.snd =
      (Slot.rules slots).filter (criterion.alike rule) := by
  rw [later, ← Slot.map_snd_live, List.filter_map]
  rfl

theorem become_collapse (criterion : Criterion) (kept : List Rule) (slots : List Slot) :
    Become slots (fates criterion kept (Slot.rules slots)) (collapse criterion kept slots) := by
  induction slots generalizing kept with
  | nil => exact .nil
  | cons slot rest ih =>
    obtain ⟨index, content⟩ := slot
    cases content with
    | none => exact .hole index (ih kept)
    | some rule =>
      rw [Slot.rules_cons_some, fates]
      simp only [collapse]
      split
      next => exact .rule index rule none (ih kept)
      next =>
        rw [map_snd_later]
        exact .rule index rule _ (ih (rule :: kept))

/-- The fate of each rule follows from the rules alone. -/
def Determined (how : List Slot → Merged) : Prop :=
  ∀ rules, ∃ fates, ∀ slots, Slot.rules slots = rules → Become slots fates (how slots).slots

theorem determined_pass (criterion : Criterion) : Determined (pass criterion) := by
  intro rules
  refine ⟨fates criterion [] rules, ?_⟩
  rintro slots rfl
  exact become_collapse criterion [] slots

theorem Determined.trans {first second : List Slot → List Slot} {rules : List Rule}
    {fates : List (Option Rule)}
    (hf : ∀ slots, Slot.rules slots = rules → Become slots fates (first slots))
    (hs : ∃ more, ∀ slots, Slot.rules slots = fates.reduceOption → Become slots more (second slots)) :
    ∃ total, ∀ slots, Slot.rules slots = rules → Become slots total (second (first slots)) := by
  obtain ⟨more, hm⟩ := hs
  refine ⟨Slot.chain fates more, ?_⟩
  intro slots hr
  have h := hf slots hr
  exact h.trans (hm _ h.rules_eq)

theorem determined_round (criteria : List Criterion) : Determined (round criteria) := by
  intro rules
  induction criteria generalizing rules with
  | nil =>
    refine ⟨rules.map some, ?_⟩
    rintro slots rfl
    exact .refl slots
  | cons criterion rest ih =>
    obtain ⟨fates, hf⟩ := determined_pass criterion rules
    exact Determined.trans hf (ih fates.reduceOption)

theorem Run.length_rules {slots final : List Slot} {steps : List Step} (h : Run slots steps final) :
    steps.length + (Slot.rules final).length = (Slot.rules slots).length := by
  induction h with
  | refl => exact Nat.zero_add _
  | head step run ih =>
    rw [Step.rules_finish] at ih
    rw [Step.rules_start]
    simp only [List.length_append, List.length_cons] at ih ⊢
    omega

theorem length_merges_pass (criterion : Criterion) (slots : List Slot) :
    (pass criterion slots).merges.length + (Slot.rules (pass criterion slots).slots).length =
      (Slot.rules slots).length := by
  obtain ⟨steps, run, log⟩ := exists_run_collapse criterion [] slots
  have hl : (pass criterion slots).merges.length = steps.length := by
    rw [pass, ← log, List.length_map]
  rw [hl]
  exact run.length_rules

theorem length_merges_round (criteria : List Criterion) (slots : List Slot) :
    (round criteria slots).merges.length + (Slot.rules (round criteria slots).slots).length =
      (Slot.rules slots).length := by
  obtain ⟨steps, run, log⟩ := exists_run_round criteria slots
  rw [← log, List.length_map]
  exact run.length_rules

theorem length_merges_settle (criteria : List Criterion) (slots : List Slot) :
    (settle criteria slots).merges.length + (Slot.rules (settle criteria slots).slots).length =
      (Slot.rules slots).length := by
  obtain ⟨steps, run, log⟩ := exists_run_settle criteria slots
  rw [← log, List.length_map]
  exact run.length_rules

theorem determined_settle (criteria : List Criterion) : Determined (settle criteria) := by
  intro rules
  induction hn : rules.length using Nat.strongRecOn generalizing rules with
  | ind n ih =>
    obtain ⟨fates, hf⟩ := determined_round criteria rules
    by_cases hl : fates.reduceOption.length < n
    · obtain ⟨total, ht⟩ := Determined.trans hf (ih _ hl fates.reduceOption rfl)
      refine ⟨total, ?_⟩
      intro slots hr
      have hm := length_merges_round criteria slots
      rw [(hf slots hr).rules_eq, hr, hn] at hm
      have hz : (round criteria slots).merges ≠ [] := by
        intro hz
        rw [hz, List.length_nil] at hm
        omega
      rw [settle, dif_neg hz]
      exact ht slots hr
    · refine ⟨fates, ?_⟩
      intro slots hr
      have hm := length_merges_round criteria slots
      rw [(hf slots hr).rules_eq, hr, hn] at hm
      have hz : (round criteria slots).merges = [] := List.length_eq_zero_iff.mp (by omega)
      rw [settle, dif_pos hz]
      exact hf slots hr

end Merge

inductive Operation where
  | reduce (criterion : Criterion)
  | settle (criteria : List Criterion)
  | compress (compressor : Compressor)

namespace Operation

def work : Operation → Sheet → SessionM (Sheet × Option Nat)
  | .reduce criterion, sheet => do
    let (result, count) ← Session.merge (Merge.pass criterion) sheet
    return (result, some count)
  | .settle criteria, sheet => do
    let (result, count) ← Session.merge (Merge.settle criteria) sheet
    return (result, some count)
  | .compress compressor, sheet => return (← compressor.compress sheet, none)

def merging (how : List Slot → Merged) (sheet : Sheet) : Sheet × Option Nat :=
  ((sheet.merge how).1, some (sheet.merge how).2.length)

def outcome (served : Except Color.TableError Color.Tables) (sheet : Sheet) :
    Operation → Except Color.TableError (Sheet × Option Nat)
  | .reduce criterion => .ok (merging (Merge.pass criterion) sheet)
  | .settle criteria => .ok (merging (Merge.settle criteria) sheet)
  | .compress compressor => (compressor.outcome served sheet).map (·, none)

theorem computes_work (operation : Operation) (sheet : Sheet) :
    Session.Computes (operation.work sheet) fun served => operation.outcome served sheet := by
  cases operation with
  | reduce criterion => exact (Session.computes_merge _ sheet).seq (.pure _)
  | settle criteria => exact (Session.computes_merge _ sheet).seq (.pure _)
  | compress compressor => exact (compressor.computes_compress sheet).map (·, none)

/-- The fates of the rules, or why there are none, and the number that is given with them. -/
abbrev Plan := Except Color.TableError (List (Option Rule) × Option Nat)

/-- Work on a sheet fails as planned, or gives each rule the fate that is planned. -/
inductive Fulfils (sheet : Sheet) : Plan → Except Color.TableError (Sheet × Option Nat) → Prop
  | ok {fates : List (Option Rule)} {result : Sheet} (count : Option Nat)
      (h : Slot.Become sheet.slots.toList fates result.slots.toList) :
      Fulfils sheet (.ok (fates, count)) (.ok (result, count))
  | error (error : Color.TableError) : Fulfils sheet (.error error) (.error error)

theorem exists_plan_merging {how : List Slot → Merged} (hd : Merge.Determined how)
    (hl : ∀ slots, (how slots).merges.length + (Slot.rules (how slots).slots).length =
      (Slot.rules slots).length) (rules : List Rule) :
    ∃ plan, ∀ sheet : Sheet, sheet.rules = rules → Fulfils sheet plan (.ok (merging how sheet)) := by
  obtain ⟨fates, hf⟩ := hd rules
  refine ⟨.ok (fates, some (rules.length - fates.reduceOption.length)), ?_⟩
  intro sheet hr
  have hb := hf sheet.slots.toList hr
  have hc : (sheet.merge how).2.length = rules.length - fates.reduceOption.length := by
    have hn := hl sheet.slots.toList
    rw [hb.rules_eq, ← Sheet.rules, hr] at hn
    exact Nat.eq_sub_of_add_eq hn
  rw [merging, hc]
  exact .ok _ (by simpa [Sheet.merge] using hb)

theorem exists_plan_merged (compressor : Compressor) (rules : List Rule) :
    ∃ fates, ∀ sheet : Sheet, sheet.rules = rules →
      Slot.Become sheet.slots.toList fates (compressor.merged sheet).slots.toList := by
  by_cases hk : compressor.options.keepOrder = true
  · refine ⟨rules.map some, ?_⟩
    rintro sheet rfl
    rw [Compressor.merged, if_pos hk]
    exact .refl _
  · obtain ⟨fates, hf⟩ := Merge.determined_settle compressor.options.criteria rules
    refine ⟨fates, ?_⟩
    intro sheet hr
    rw [Compressor.merged, if_neg hk]
    simpa [Sheet.merge] using hf sheet.slots.toList hr

theorem fulfils_tidiedSlot (compressor : Compressor)
    (served : Except Color.TableError Color.Tables) (slots : List Slot) :
    Fulfils ⟨slots.toArray⟩
      (((Slot.rules slots).mapM (compressor.tidied served)).map fun rules => (rules.map some, none))
      ((slots.mapM (compressor.tidiedSlot served)).map fun after => (⟨after.toArray⟩, none)) := by
  induction slots with
  | nil => exact .ok none .nil
  | cons slot rest ih =>
    obtain ⟨index, content⟩ := slot
    cases content with
    | none =>
      have hs : compressor.tidiedSlot served ⟨index, none⟩ = .ok ⟨index, none⟩ := rfl
      rw [List.mapM_cons, hs, Slot.rules_cons_none]
      generalize rest.mapM (compressor.tidiedSlot served) = tidy at ih ⊢
      generalize Except.map _ (List.mapM _ _) = plan at ih ⊢
      cases tidy with
      | error error =>
        cases ih
        exact .error error
      | ok after =>
        cases ih with
        | ok count h => exact .ok none (.hole index h)
    | some rule =>
      have hs : compressor.tidiedSlot served ⟨index, some rule⟩ =
          (compressor.tidied served rule).map fun rule => ⟨index, some rule⟩ := rfl
      rw [List.mapM_cons, hs, Slot.rules_cons_some, List.mapM_cons]
      generalize rest.mapM (compressor.tidiedSlot served) = tidy at ih ⊢
      generalize (Slot.rules rest).mapM (compressor.tidied served) = fates at ih ⊢
      cases compressor.tidied served rule with
      | error error => exact .error error
      | ok first =>
        cases tidy with
        | error error =>
          cases fates with
          | error _ =>
            cases ih
            exact .error error
          | ok others => cases ih
        | ok after =>
          cases fates with
          | error error => cases ih
          | ok others =>
            cases ih with
            | ok count h => exact .ok none (.rule index rule (some first) h)

theorem Fulfils.of_become {sheet middle : Sheet} {fates : List (Option Rule)} {plan : Plan}
    {result : Except Color.TableError (Sheet × Option Nat)}
    (hb : Slot.Become sheet.slots.toList fates middle.slots.toList)
    (h : Fulfils middle plan result) :
    Fulfils sheet (plan.map fun foreseen => (Slot.chain fates foreseen.1, foreseen.2)) result := by
  cases h with
  | ok count h => exact .ok count (hb.trans h)
  | error error => exact .error error

/-- What is done to a sheet follows from its rules, in their order, and from the tables served. -/
theorem exists_plan (operation : Operation) (served : Except Color.TableError Color.Tables)
    (rules : List Rule) :
    ∃ plan, ∀ sheet : Sheet, sheet.rules = rules →
      Fulfils sheet plan (operation.outcome served sheet) := by
  cases operation with
  | reduce criterion =>
    exact exists_plan_merging (Merge.determined_pass criterion) (Merge.length_merges_pass criterion)
      rules
  | settle criteria =>
    exact exists_plan_merging (Merge.determined_settle criteria)
      (Merge.length_merges_settle criteria) rules
  | compress compressor =>
    obtain ⟨fates, hf⟩ := exists_plan_merged compressor rules
    let left : Plan := (fates.reduceOption.mapM (compressor.tidied served)).map
      fun rules => (rules.map some, none)
    refine ⟨left.map fun foreseen => (Slot.chain fates foreseen.1, foreseen.2), ?_⟩
    intro sheet hr
    have hb := hf sheet hr
    have ht := fulfils_tidiedSlot compressor served (compressor.merged sheet).slots.toList
    rw [hb.rules_eq] at ht
    rw [outcome, Compressor.outcome]
    have h := Fulfils.of_become hb ht
    cases hm : (compressor.merged sheet).slots.toList.mapM (compressor.tidiedSlot served) with
    | error error =>
      rw [hm] at h
      exact h
    | ok after =>
      rw [hm] at h
      exact h

end Operation

end StyleSheet
