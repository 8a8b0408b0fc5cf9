import StyleSheet.Proofs.Merging.Collapse

namespace StyleSheet.Merge

/-- A rule that takes in a later one, with the slots around the two. -/
structure Step where
  criterion : Criterion
  front : List Slot
  target : UInt64
  rule : Rule
  between : List Slot
  source : UInt64
  later : Rule
  rest : List Slot
  alike : criterion.alike rule later = true

namespace Step

def start (step : Step) : List Slot :=
  step.front ++ ⟨step.target, some step.rule⟩ ::
    (step.between ++ ⟨step.source, some step.later⟩ :: step.rest)

def merged (step : Step) : Rule :=
  step.criterion.absorb step.rule step.later

def finish (step : Step) : List Slot :=
  step.front ++ ⟨step.target, some step.merged⟩ ::
    (step.between ++ ⟨step.source, none⟩ :: step.rest)

def record (step : Step) : Merge :=
  ⟨step.criterion, step.later.selector, step.source, step.target⟩

end Step

/-- Slots become others by steps, one after another. -/
inductive Run : List Slot → List Step → List Slot → Prop
  | refl (slots : List Slot) : Run slots [] slots
  | head {steps : List Step} {final : List Slot} (step : Step)
      (run : Run step.finish steps final) : Run step.start (step :: steps) final

variable {criterion : Criterion} {slots others final : List Slot} {steps more : List Step}

theorem Run.trans (h : Run slots steps others) (h' : Run others more final) :
    Run slots (steps ++ more) final := by
  induction h with
  | refl => exact h'
  | head step run ih => exact .head step (ih h')

theorem Run.keeps {P : List Slot → Prop} (h : Run slots steps final)
    (keep : ∀ step : Step, P step.start → P step.finish) (hp : P slots) : P final := by
  induction h with
  | refl => exact hp
  | head step run ih => exact ih (keep step hp)

theorem exists_run_gathered (criterion : Criterion) (front : List Slot) (target : UInt64)
    (rule : Rule) (between slots : List Slot) :
    ∃ steps, Run (front ++ ⟨target, some rule⟩ :: (between ++ slots)) steps
        (front ++ ⟨target, some (gathered criterion rule slots)⟩ ::
          (between ++ clear criterion rule slots)) ∧
      steps.map Step.record = (later criterion rule slots).map
        fun entry => ⟨criterion, entry.2.selector, entry.1, target⟩ := by
  induction slots generalizing rule between with
  | nil => exact ⟨[], .refl _, rfl⟩
  | cons slot rest ih =>
    obtain ⟨index, content⟩ := slot
    cases content with
    | none =>
      obtain ⟨steps, run, log⟩ := ih rule (between ++ [⟨index, none⟩])
      rw [List.append_assoc, List.append_assoc] at run
      exact ⟨steps, run, log⟩
    | some other =>
      cases h : criterion.alike rule other with
      | true =>
        obtain ⟨steps, run, log⟩ := ih (criterion.absorb rule other) (between ++ [⟨index, none⟩])
        rw [List.append_assoc, List.append_assoc, clear_absorb] at run
        rw [later_absorb] at log
        let step : Step := ⟨criterion, front, target, rule, between, index, other, rest, h⟩
        refine ⟨step :: steps, ?_, ?_⟩
        · rw [gathered_cons_alike h, clear_cons_alike h]
          exact .head step run
        · rw [List.map_cons, log, later_cons_alike h]
          rfl
      | false =>
        obtain ⟨steps, run, log⟩ := ih rule (between ++ [⟨index, some other⟩])
        rw [List.append_assoc, List.append_assoc] at run
        rw [gathered_cons_not_alike h, later_cons_not_alike h, clear_cons_not_alike h]
        exact ⟨steps, run, log⟩

theorem exists_run_collapse (criterion : Criterion) (front slots : List Slot) :
    ∃ steps, Run (front ++ slots) steps (front ++ collapse criterion [] slots) ∧
      steps.map Step.record = merges criterion [] slots := by
  induction slots using clearing_induction criterion generalizing front with
  | nil => exact ⟨[], .refl _, rfl⟩
  | hole index rest ih =>
    obtain ⟨steps, run, log⟩ := ih (front ++ [⟨index, none⟩])
    rw [List.append_assoc, List.append_assoc] at run
    exact ⟨steps, run, log⟩
  | rule index rule rest ih =>
    obtain ⟨first, run, log⟩ := exists_run_gathered criterion front index rule [] rest
    obtain ⟨second, run', log'⟩ := ih (front ++ [⟨index, some (gathered criterion rule rest)⟩])
    rw [List.append_assoc, List.append_assoc] at run'
    rw [collapse_cons_some, merges_cons_some]
    exact ⟨first ++ second, run.trans run', by rw [List.map_append, log, log']⟩

theorem exists_run_round (criteria : List Criterion) (slots : List Slot) :
    ∃ steps, Run slots steps (round criteria slots).slots ∧
      steps.map Step.record = (round criteria slots).merges := by
  induction criteria generalizing slots with
  | nil => exact ⟨[], .refl _, rfl⟩
  | cons criterion rest ih =>
    obtain ⟨first, run, log⟩ := exists_run_collapse criterion [] slots
    obtain ⟨second, run', log'⟩ := ih (pass criterion slots).slots
    exact ⟨first ++ second, run.trans run', by rw [List.map_append, log, log']; rfl⟩

/-- Settling is a run of steps, and its record tells which. -/
theorem exists_run_settle (criteria : List Criterion) (slots : List Slot) :
    ∃ steps, Run slots steps (settle criteria slots).slots ∧
      steps.map Step.record = (settle criteria slots).merges := by
  fun_induction settle criteria slots with
  | case1 slots next h => exact exists_run_round criteria slots
  | case2 slots next h final ih =>
    obtain ⟨first, run, log⟩ := exists_run_round criteria slots
    obtain ⟨second, run', log'⟩ := ih
    exact ⟨first ++ second, run.trans run', by rw [List.map_append, log, log']⟩

end StyleSheet.Merge
