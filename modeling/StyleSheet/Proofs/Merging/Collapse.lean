import StyleSheet.Merge
import StyleSheet.Proofs.Reading

namespace StyleSheet

namespace Criterion

variable {criterion : Criterion} {a b c : Rule}

theorem alike_body_iff : alike .body a b = true ↔ (Body.split a.body).Perm (Body.split b.body) :=
  List.isPerm_iff

theorem alike_symm (h : criterion.alike a b = true) : criterion.alike b a = true := by
  cases criterion with
  | selector => exact beq_iff_eq.mpr (beq_iff_eq.mp h).symm
  | body => exact alike_body_iff.mpr (alike_body_iff.mp h).symm

theorem alike_trans (h : criterion.alike a b = true) (h' : criterion.alike b c = true) :
    criterion.alike a c = true := by
  cases criterion with
  | selector => exact beq_iff_eq.mpr ((beq_iff_eq.mp h).trans (beq_iff_eq.mp h'))
  | body => exact alike_body_iff.mpr ((alike_body_iff.mp h).trans (alike_body_iff.mp h'))

theorem alike_absorb (criterion : Criterion) (a b c : Rule) :
    criterion.alike (criterion.absorb a b) c = criterion.alike a c := by
  cases criterion <;> rfl

theorem alike_foldl_absorb (criterion : Criterion) (a c : Rule) (taken : List Rule) :
    criterion.alike (taken.foldl criterion.absorb a) c = criterion.alike a c := by
  induction taken generalizing a with
  | nil => rfl
  | cons b rest ih => rw [List.foldl_cons, ih, alike_absorb]

end Criterion

namespace Merge

variable {criterion : Criterion}

/-- Slots with holes in place of the rules like a given one. -/
def clear (criterion : Criterion) (rule : Rule) (slots : List Slot) : List Slot :=
  slots.map fun slot =>
    if slot.rule.any (criterion.alike rule) then { slot with rule := none } else slot

theorem length_clear (criterion : Criterion) (rule : Rule) (slots : List Slot) :
    (clear criterion rule slots).length = slots.length :=
  List.length_map _

theorem clear_cons_none (criterion : Criterion) (rule : Rule) (index : UInt64)
    (slots : List Slot) :
    clear criterion rule (⟨index, none⟩ :: slots) = ⟨index, none⟩ :: clear criterion rule slots :=
  rfl

theorem clear_cons_alike {rule other : Rule} (h : criterion.alike rule other = true)
    (index : UInt64) (slots : List Slot) :
    clear criterion rule (⟨index, some other⟩ :: slots) =
      ⟨index, none⟩ :: clear criterion rule slots := by
  simp [clear, h]

theorem clear_cons_not_alike {rule other : Rule} (h : criterion.alike rule other = false)
    (index : UInt64) (slots : List Slot) :
    clear criterion rule (⟨index, some other⟩ :: slots) =
      ⟨index, some other⟩ :: clear criterion rule slots := by
  simp [clear, h]

theorem live_cons_none (index : UInt64) (slots : List Slot) :
    Slot.live (⟨index, none⟩ :: slots) = Slot.live slots :=
  rfl

theorem live_cons_some (index : UInt64) (rule : Rule) (slots : List Slot) :
    Slot.live (⟨index, some rule⟩ :: slots) = (index, rule) :: Slot.live slots :=
  rfl

theorem live_clear (criterion : Criterion) (rule : Rule) (slots : List Slot) :
    Slot.live (clear criterion rule slots) =
      (Slot.live slots).filter fun entry => !criterion.alike rule entry.2 := by
  induction slots with
  | nil => rfl
  | cons slot rest ih =>
    obtain ⟨index, content⟩ := slot
    cases content with
    | none => exact ih
    | some other =>
      by_cases h : criterion.alike rule other = true
      · rw [clear_cons_alike h, live_cons_none, live_cons_some, ih, List.filter_cons_of_neg]
        simp [h]
      · rw [Bool.not_eq_true] at h
        rw [clear_cons_not_alike h, live_cons_some, live_cons_some, ih, List.filter_cons_of_pos]
        simp [h]

theorem later_cons_alike {rule other : Rule} (h : criterion.alike rule other = true)
    (index : UInt64) (slots : List Slot) :
    later criterion rule (⟨index, some other⟩ :: slots) =
      (index, other) :: later criterion rule slots := by
  rw [later, live_cons_some]
  exact List.filter_cons_of_pos h

theorem later_cons_not_alike {rule other : Rule} (h : criterion.alike rule other = false)
    (index : UInt64) (slots : List Slot) :
    later criterion rule (⟨index, some other⟩ :: slots) = later criterion rule slots := by
  rw [later, live_cons_some, List.filter_cons_of_neg (by simp [h]), later]

theorem later_absorb (criterion : Criterion) (rule other : Rule) (slots : List Slot) :
    later criterion (criterion.absorb rule other) slots = later criterion rule slots := by
  simp only [later, Criterion.alike_absorb]

theorem clear_absorb (criterion : Criterion) (rule other : Rule) (slots : List Slot) :
    clear criterion (criterion.absorb rule other) slots = clear criterion rule slots := by
  have he : criterion.alike (criterion.absorb rule other) = criterion.alike rule :=
    funext (Criterion.alike_absorb criterion rule other)
  rw [clear, clear, he]

theorem later_clear {rule other : Rule} (h : criterion.alike rule other = false)
    (slots : List Slot) :
    later criterion other (clear criterion rule slots) = later criterion other slots := by
  rw [later, later, live_clear, List.filter_filter]
  apply List.filter_congr
  intro entry _
  cases he : criterion.alike other entry.2 with
  | false => rfl
  | true =>
    have hn : criterion.alike rule entry.2 = false := by
      rw [← Bool.not_eq_true]
      intro ha
      rw [Criterion.alike_trans ha (Criterion.alike_symm he)] at h
      cases h
    rw [hn]
    rfl

theorem clear_of_later_eq_nil {rule : Rule} {slots : List Slot}
    (h : later criterion rule slots = []) : clear criterion rule slots = slots := by
  induction slots with
  | nil => rfl
  | cons slot rest ih =>
    obtain ⟨index, content⟩ := slot
    cases content with
    | none => rw [clear_cons_none, ih h]
    | some other =>
      have hn := List.filter_eq_nil_iff.mp h (index, other) List.mem_cons_self
      rw [Bool.not_eq_true] at hn
      rw [later_cons_not_alike hn] at h
      rw [clear_cons_not_alike hn, ih h]

theorem pass_concat (rule : Rule) (kept : List Rule) (slots : List Slot) :
    collapse criterion (kept ++ [rule]) slots =
        collapse criterion kept (clear criterion rule slots) ∧
      merges criterion (kept ++ [rule]) slots =
        merges criterion kept (clear criterion rule slots) := by
  induction slots generalizing kept with
  | nil => exact ⟨rfl, rfl⟩
  | cons slot rest ih =>
    obtain ⟨index, content⟩ := slot
    obtain ⟨hc, hm⟩ := ih kept
    cases content with
    | none =>
      simp only [clear_cons_none, collapse, merges, hc, hm, and_self]
    | some other =>
      cases h : criterion.alike rule other with
      | true =>
        have hk : (kept ++ [rule]).any (criterion.alike · other) = true := by simp [h]
        simp only [clear_cons_alike h, collapse, merges, hk, if_true, hc, hm, and_self]
      | false =>
        have hk : (kept ++ [rule]).any (criterion.alike · other) =
            kept.any (criterion.alike · other) := by simp [h]
        obtain ⟨hc', hm'⟩ := ih (other :: kept)
        rw [List.cons_append] at hc' hm'
        simp only [clear_cons_not_alike h, collapse, merges, hk, later_clear h, hc, hm, hc', hm',
          and_self]

/-- The rule at the front after it has taken in those like it. -/
def gathered (criterion : Criterion) (rule : Rule) (slots : List Slot) : Rule :=
  ((later criterion rule slots).map Prod.snd).foldl criterion.absorb rule

theorem gathered_cons_alike {rule other : Rule} (h : criterion.alike rule other = true)
    (index : UInt64) (slots : List Slot) :
    gathered criterion rule (⟨index, some other⟩ :: slots) =
      gathered criterion (criterion.absorb rule other) slots := by
  rw [gathered, gathered, later_cons_alike h, later_absorb]
  rfl

theorem gathered_cons_not_alike {rule other : Rule} (h : criterion.alike rule other = false)
    (index : UInt64) (slots : List Slot) :
    gathered criterion rule (⟨index, some other⟩ :: slots) = gathered criterion rule slots := by
  rw [gathered, gathered, later_cons_not_alike h]

theorem collapse_cons_none (criterion : Criterion) (index : UInt64) (slots : List Slot) :
    collapse criterion [] (⟨index, none⟩ :: slots) = ⟨index, none⟩ :: collapse criterion [] slots :=
  rfl

theorem collapse_cons_some (criterion : Criterion) (index : UInt64) (rule : Rule)
    (slots : List Slot) :
    collapse criterion [] (⟨index, some rule⟩ :: slots) =
      ⟨index, some (gathered criterion rule slots)⟩ ::
        collapse criterion [] (clear criterion rule slots) := by
  rw [← (pass_concat rule [] slots).1]
  rfl

theorem merges_cons_some (criterion : Criterion) (index : UInt64) (rule : Rule)
    (slots : List Slot) :
    merges criterion [] (⟨index, some rule⟩ :: slots) =
      (later criterion rule slots).map
          (fun entry => ⟨criterion, entry.2.selector, entry.1, index⟩) ++
        merges criterion [] (clear criterion rule slots) := by
  rw [← (pass_concat rule [] slots).2]
  rfl

/-- Induction along a pass: behind a rule come the slots that it has cleared. -/
@[elab_as_elim]
theorem clearing_induction (criterion : Criterion) {motive : List Slot → Prop} (nil : motive [])
    (hole : ∀ index slots, motive slots → motive (⟨index, none⟩ :: slots))
    (rule : ∀ index rule slots, motive (clear criterion rule slots) →
      motive (⟨index, some rule⟩ :: slots))
    (slots : List Slot) : motive slots :=
  match slots with
  | [] => nil
  | ⟨index, none⟩ :: rest => hole index rest (clearing_induction criterion nil hole rule rest)
  | ⟨index, some r⟩ :: rest =>
    rule index r rest (clearing_induction criterion nil hole rule (clear criterion r rest))
termination_by slots.length
decreasing_by all_goals simp [length_clear]

end Merge

end StyleSheet
