import StyleSheet.Body
import StyleSheet.Sheet

namespace StyleSheet

/-- In what two rules have to agree. -/
inductive Criterion where
  | selector
  | body
  deriving DecidableEq, Repr

namespace Criterion

/-- Selectors agree when they are equal, bodies when they hold the same pieces in any order. -/
def alike : Criterion → Rule → Rule → Bool
  | .selector, a, b => a.selector == b.selector
  | .body, a, b => (Body.split a.body).isPerm (Body.split b.body)

/-- A rule takes in a later one: the bodies follow one another, or a comma joins the selectors. -/
def absorb : Criterion → Rule → Rule → Rule
  | .selector, rule, later => { rule with body := rule.body ++ later.body }
  | .body, rule, later => { rule with selector := rule.selector ++ ',' :: later.selector }

end Criterion

structure Merge where
  criterion : Criterion
  /-- The selector of the rule that is gone. -/
  selector : Text
  source : UInt64
  target : UInt64
  deriving DecidableEq, Repr

/-- Slots after merging, and the merges in the order in which they were made. -/
structure Merged where
  slots : List Slot
  merges : List Merge
  deriving DecidableEq, Repr

namespace Merge

/-- The rules with their indices that a rule takes in from the slots behind it. -/
def later (criterion : Criterion) (rule : Rule) (slots : List Slot) : List (UInt64 × Rule) :=
  (Slot.live slots).filter fun entry => criterion.alike rule entry.2

/--
Merges the rules of the slots behind those of `kept`: a rule like a kept one has been taken in and
leaves a hole, any other is kept and takes in all that are like it.
-/
def collapse (criterion : Criterion) (kept : List Rule) : List Slot → List Slot
  | [] => []
  | slot :: rest =>
    match slot.rule with
    | none => slot :: collapse criterion kept rest
    | some rule =>
      if kept.any (criterion.alike · rule) then
        { slot with rule := none } :: collapse criterion kept rest
      else
        let taken := (later criterion rule rest).map Prod.snd
        { slot with rule := some (taken.foldl criterion.absorb rule) } ::
          collapse criterion (rule :: kept) rest

/-- The merges made by `collapse`, those of an earlier rule first. -/
def merges (criterion : Criterion) (kept : List Rule) : List Slot → List Merge
  | [] => []
  | slot :: rest =>
    match slot.rule with
    | none => merges criterion kept rest
    | some rule =>
      if kept.any (criterion.alike · rule) then merges criterion kept rest
      else
        (later criterion rule rest).map
            (fun entry => ⟨criterion, entry.2.selector, entry.1, slot.index⟩) ++
          merges criterion (rule :: kept) rest

/-- Merges all rules that agree in one respect. -/
def pass (criterion : Criterion) (slots : List Slot) : Merged :=
  ⟨collapse criterion [] slots, merges criterion [] slots⟩

/-- One pass for each criterion in turn. -/
def round : List Criterion → List Slot → Merged
  | [], slots => ⟨slots, []⟩
  | criterion :: rest, slots =>
    let first := pass criterion slots
    let second := round rest first.slots
    ⟨second.slots, first.merges ++ second.merges⟩

theorem live_cons (slot : Slot) (slots : List Slot) :
    Slot.live (slot :: slots) =
      (slot.rule.map fun rule => (slot.index, rule)).toList ++ Slot.live slots := by
  cases h : slot.rule <;> simp [Slot.live, h]

theorem length_live_collapse_le (criterion : Criterion) (kept : List Rule) (slots : List Slot) :
    (Slot.live (collapse criterion kept slots)).length ≤ (Slot.live slots).length := by
  induction slots generalizing kept with
  | nil => simp [collapse]
  | cons slot rest ih =>
    simp only [collapse]
    split
    next hole => simpa [live_cons, hole] using ih kept
    next rule live =>
      split
      · have := ih kept
        simp only [live_cons, live, Option.map_none, Option.map_some, Option.toList_none,
          Option.toList_some, List.nil_append, List.length_append, List.length_cons,
          List.length_nil]
        omega
      · simpa [live_cons, live] using ih (rule :: kept)

theorem length_live_collapse_lt {criterion : Criterion} {kept : List Rule} {slots : List Slot}
    {entry : UInt64 × Rule} (mem : entry ∈ Slot.live slots)
    (alike : kept.any (criterion.alike · entry.2) = true) :
    (Slot.live (collapse criterion kept slots)).length < (Slot.live slots).length := by
  induction slots generalizing kept with
  | nil => simp [Slot.live] at mem
  | cons slot rest ih =>
    simp only [collapse]
    split
    next hole =>
      have mem : entry ∈ Slot.live rest := by simpa [live_cons, hole] using mem
      simpa [live_cons, hole] using ih mem alike
    next rule live =>
      split
      next =>
        have := length_live_collapse_le criterion kept rest
        simp only [live_cons, live, Option.map_none, Option.map_some, Option.toList_none,
          Option.toList_some, List.nil_append, List.length_append, List.length_cons,
          List.length_nil]
        omega
      next fresh =>
        have mem : entry ∈ Slot.live rest := by
          rcases (by simpa [live_cons, live] using mem : entry = (slot.index, rule) ∨ _) with
            rfl | mem
          · exact absurd alike fresh
          · exact mem
        have alike : (rule :: kept).any (criterion.alike · entry.2) = true := by
          simp [alike]
        simpa [live_cons, live] using ih mem alike

theorem length_live_collapse_lt_of_merges {criterion : Criterion} {kept : List Rule}
    {slots : List Slot} (some_merge : merges criterion kept slots ≠ []) :
    (Slot.live (collapse criterion kept slots)).length < (Slot.live slots).length := by
  induction slots generalizing kept with
  | nil => simp [merges] at some_merge
  | cons slot rest ih =>
    simp only [merges] at some_merge
    simp only [collapse]
    split at some_merge
    next hole => simpa [live_cons, hole] using ih some_merge
    next rule live =>
      split at some_merge
      next taken =>
        have := ih some_merge
        simp only [taken, if_true, live_cons, live, Option.map_none, Option.map_some,
          Option.toList_none, Option.toList_some, List.nil_append, List.length_append,
          List.length_cons, List.length_nil]
        omega
      next fresh =>
        have fewer : (Slot.live (collapse criterion (rule :: kept) rest)).length <
            (Slot.live rest).length := by
          by_cases none_later : later criterion rule rest = []
          · exact ih (by simpa [none_later] using some_merge)
          · obtain ⟨entry, mem⟩ := List.exists_mem_of_ne_nil _ none_later
            obtain ⟨mem, alike⟩ := List.mem_filter.mp mem
            exact length_live_collapse_lt mem (by simp [alike])
        simpa [fresh, live_cons, live] using fewer

theorem length_live_round_le (criteria : List Criterion) (slots : List Slot) :
    (Slot.live (round criteria slots).slots).length ≤ (Slot.live slots).length := by
  induction criteria generalizing slots with
  | nil => simp [round]
  | cons criterion rest ih =>
    exact Nat.le_trans (ih _) (length_live_collapse_le criterion [] slots)

/-- A round that merges something leaves fewer rules. -/
theorem length_live_round_lt {criteria : List Criterion} {slots : List Slot}
    (some_merge : (round criteria slots).merges ≠ []) :
    (Slot.live (round criteria slots).slots).length < (Slot.live slots).length := by
  induction criteria generalizing slots with
  | nil => simp [round] at some_merge
  | cons criterion rest ih =>
    simp only [round] at some_merge ⊢
    by_cases first : (pass criterion slots).merges = []
    · rw [first, List.nil_append] at some_merge
      exact Nat.lt_of_lt_of_le (ih some_merge) (length_live_collapse_le criterion [] slots)
    · exact Nat.lt_of_le_of_lt (length_live_round_le rest _)
        (length_live_collapse_lt_of_merges first)

/-- Rounds until one of them merges nothing. -/
def settle (criteria : List Criterion) (slots : List Slot) : Merged :=
  let next := round criteria slots
  if _settled : next.merges = [] then next
  else
    let final := settle criteria next.slots
    ⟨final.slots, next.merges ++ final.merges⟩
termination_by (Slot.live slots).length
decreasing_by exact length_live_round_lt _settled

end Merge

/-- A sheet after merging, and the merges in the order in which they were made. -/
def Sheet.merge (sheet : Sheet) (how : List Slot → Merged) : Sheet × List Merge :=
  let merged := how sheet.slots.toList
  (⟨merged.slots.toArray⟩, merged.merges)

end StyleSheet
