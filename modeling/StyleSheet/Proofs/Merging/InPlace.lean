import StyleSheet.Proofs.Merging.Collapse

namespace StyleSheet.Merge

/-- The rules at two positions meet; if they are alike, the first takes the second in. -/
def meet (criterion : Criterion) (i : Nat) (state : Merged) (k : Nat) : Merged :=
  match state.slots[i]?, state.slots[k]? with
  | some ⟨target, some rule⟩, some ⟨source, some later⟩ =>
    if criterion.alike rule later then
      { slots := (state.slots.set k ⟨source, none⟩).set i
          ⟨target, some (criterion.absorb rule later)⟩
        merges := state.merges ++ [⟨criterion, later.selector, source, target⟩] }
    else state
  | _, _ => state

/-- The rule at a position meets those at all later positions. -/
def sweepRow (criterion : Criterion) (max : Nat) (state : Merged) (i : Nat) : Merged :=
  (List.range' (i + 1) (max - (i + 1))).foldl (meet criterion i) state

/-- Position after position, the rule that stands there meets those behind it. -/
def sweep (criterion : Criterion) (slots : List Slot) : Merged :=
  (List.range slots.length).foldl (sweepRow criterion slots.length) ⟨slots, []⟩

variable {criterion : Criterion} {rule other : Rule}

theorem meet_hole (front : List Slot) (index : UInt64) (slots : List Slot) (log : List Merge)
    (k : Nat) :
    meet criterion front.length ⟨front ++ ⟨index, none⟩ :: slots, log⟩ k =
      ⟨front ++ ⟨index, none⟩ :: slots, log⟩ := by
  simp [meet]

theorem getElem?_front (front slots : List Slot) (slot : Slot) :
    (front ++ slot :: slots)[front.length]? = some slot := by
  rw [List.getElem?_append_right (Nat.le_refl _), Nat.sub_self, List.getElem?_cons_zero]

theorem set_front (front slots : List Slot) (slot other : Slot) :
    (front ++ slot :: slots).set front.length other = front ++ other :: slots := by
  rw [List.set_append_right _ _ (Nat.le_refl _), Nat.sub_self, List.set_cons_zero]

theorem append_cons_append (front between rest : List Slot) (first second : Slot) :
    front ++ first :: (between ++ second :: rest) =
      (front ++ first :: between) ++ second :: rest := by
  rw [List.append_assoc, List.cons_append]

theorem length_append_cons (front between : List Slot) (first : Slot) :
    front.length + 1 + between.length = (front ++ first :: between).length := by
  rw [List.length_append, List.length_cons]
  omega

theorem getElem?_behind (front between rest : List Slot) (first second : Slot) :
    (front ++ first :: (between ++ second :: rest))[front.length + 1 + between.length]? =
      some second := by
  rw [append_cons_append, length_append_cons front between first, getElem?_front]

theorem set_behind (front between rest : List Slot) (first second other : Slot) :
    (front ++ first :: (between ++ second :: rest)).set (front.length + 1 + between.length) other =
      front ++ first :: (between ++ other :: rest) := by
  rw [append_cons_append, length_append_cons front between first, set_front, append_cons_append]

theorem meet_none (front between rest : List Slot) (target source : UInt64) (rule : Rule)
    (log : List Merge) :
    meet criterion front.length
        ⟨front ++ ⟨target, some rule⟩ :: (between ++ ⟨source, none⟩ :: rest), log⟩
        (front.length + 1 + between.length) =
      ⟨front ++ ⟨target, some rule⟩ :: (between ++ ⟨source, none⟩ :: rest), log⟩ := by
  simp only [meet, getElem?_front, getElem?_behind]

theorem meet_alike (h : criterion.alike rule other = true) (front between rest : List Slot)
    (target source : UInt64) (log : List Merge) :
    meet criterion front.length
        ⟨front ++ ⟨target, some rule⟩ :: (between ++ ⟨source, some other⟩ :: rest), log⟩
        (front.length + 1 + between.length) =
      ⟨front ++ ⟨target, some (criterion.absorb rule other)⟩ :: (between ++ ⟨source, none⟩ :: rest),
        log ++ [⟨criterion, other.selector, source, target⟩]⟩ := by
  simp only [meet, getElem?_front, getElem?_behind, h, if_true, set_behind, set_front]

theorem meet_not_alike (h : criterion.alike rule other = false) (front between rest : List Slot)
    (target source : UInt64) (log : List Merge) :
    meet criterion front.length
        ⟨front ++ ⟨target, some rule⟩ :: (between ++ ⟨source, some other⟩ :: rest), log⟩
        (front.length + 1 + between.length) =
      ⟨front ++ ⟨target, some rule⟩ :: (between ++ ⟨source, some other⟩ :: rest), log⟩ := by
  simp only [meet, getElem?_front, getElem?_behind, h, Bool.false_eq_true, if_false]

theorem foldl_meet (criterion : Criterion) (front : List Slot) (target : UInt64) (rule : Rule)
    (between slots : List Slot) (log : List Merge) :
    (List.range' (front.length + 1 + between.length) slots.length).foldl
        (meet criterion front.length) ⟨front ++ ⟨target, some rule⟩ :: (between ++ slots), log⟩ =
      ⟨front ++ ⟨target, some (gathered criterion rule slots)⟩ ::
          (between ++ clear criterion rule slots),
        log ++ (later criterion rule slots).map
          fun entry => ⟨criterion, entry.2.selector, entry.1, target⟩⟩ := by
  induction slots generalizing rule between log with
  | nil => exact congrArg (Merged.mk _) (List.append_nil log).symm
  | cons slot rest ih =>
    obtain ⟨source, content⟩ := slot
    rw [List.length_cons, List.range'_succ, List.foldl_cons, Nat.add_assoc _ between.length]
    cases content with
    | none =>
      have row := ih rule (between ++ [⟨source, none⟩]) log
      rw [List.length_append, List.append_assoc, List.append_assoc] at row
      rw [meet_none]
      exact row
    | some other =>
      cases h : criterion.alike rule other with
      | true =>
        have row := ih (criterion.absorb rule other) (between ++ [⟨source, none⟩])
          (log ++ [⟨criterion, other.selector, source, target⟩])
        rw [List.length_append, List.append_assoc, List.append_assoc, List.append_assoc,
          clear_absorb, later_absorb] at row
        rw [meet_alike h, gathered_cons_alike h, clear_cons_alike h, later_cons_alike h]
        exact row
      | false =>
        have row := ih rule (between ++ [⟨source, some other⟩]) log
        rw [List.length_append, List.append_assoc, List.append_assoc] at row
        rw [meet_not_alike h, gathered_cons_not_alike h, clear_cons_not_alike h,
          later_cons_not_alike h]
        exact row

theorem sweepRow_hole (max : Nat) (front : List Slot) (index : UInt64) (slots : List Slot)
    (log : List Merge) :
    sweepRow criterion max ⟨front ++ ⟨index, none⟩ :: slots, log⟩ front.length =
      ⟨front ++ ⟨index, none⟩ :: slots, log⟩ := by
  rw [sweepRow]
  induction List.range' (front.length + 1) (max - (front.length + 1)) with
  | nil => rfl
  | cons k rest ih => rwa [List.foldl_cons, meet_hole]

theorem sweepRow_rule {max : Nat} {front slots : List Slot}
    (hm : max = front.length + (slots.length + 1)) (index : UInt64) (rule : Rule)
    (log : List Merge) :
    sweepRow criterion max ⟨front ++ ⟨index, some rule⟩ :: slots, log⟩ front.length =
      ⟨front ++ ⟨index, some (gathered criterion rule slots)⟩ :: clear criterion rule slots,
        log ++ (later criterion rule slots).map
          fun entry => ⟨criterion, entry.2.selector, entry.1, index⟩⟩ := by
  have hl : max - (front.length + 1) = slots.length := by omega
  rw [sweepRow, hl]
  exact foldl_meet criterion front index rule [] slots log

theorem foldl_sweepRow {criterion : Criterion} {max : Nat} (front : List Slot) {slots : List Slot}
    (hm : max = front.length + slots.length) (log : List Merge) :
    (List.range' front.length slots.length).foldl (sweepRow criterion max) ⟨front ++ slots, log⟩ =
      ⟨front ++ collapse criterion [] slots, log ++ merges criterion [] slots⟩ := by
  induction slots using clearing_induction criterion generalizing front log with
  | nil => exact congrArg (Merged.mk _) (List.append_nil log).symm
  | hole index rest ih =>
    have hm' : max = (front ++ [(⟨index, none⟩ : Slot)]).length + rest.length := by
      rw [hm, List.length_append, List.length_cons, List.length_singleton]
      omega
    have rows := ih (front ++ [⟨index, none⟩]) hm' log
    rw [List.length_append, List.length_singleton, List.append_assoc, List.append_assoc] at rows
    rw [List.length_cons, List.range'_succ, List.foldl_cons, sweepRow_hole]
    exact rows
  | rule index rule rest ih =>
    have hm' : max = (front ++ [(⟨index, some (gathered criterion rule rest)⟩ : Slot)]).length +
        (clear criterion rule rest).length := by
      rw [hm, List.length_append, List.length_cons, List.length_singleton, length_clear]
      omega
    have rows := ih (front ++ [⟨index, some (gathered criterion rule rest)⟩]) hm'
      (log ++ (later criterion rule rest).map
        fun entry => ⟨criterion, entry.2.selector, entry.1, index⟩)
    rw [List.length_append, List.length_singleton, length_clear, List.append_assoc,
      List.append_assoc, List.append_assoc] at rows
    rw [List.length_cons, List.range'_succ, List.foldl_cons, sweepRow_rule hm, collapse_cons_some,
      merges_cons_some]
    exact rows

/-- Merging in place, pair by pair, is a pass. -/
theorem sweep_eq_pass (criterion : Criterion) (slots : List Slot) :
    sweep criterion slots = pass criterion slots := by
  rw [sweep, List.range_eq_range']
  exact foldl_sweepRow [] (Nat.zero_add _).symm []

end StyleSheet.Merge
