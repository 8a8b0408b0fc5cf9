import Mathlib.Algebra.Order.BigOperators.Group.List
import StyleSheet.Proofs.Compressing
import StyleSheet.Proofs.Sheet.Positions

namespace StyleSheet

namespace Text

variable {s t : Text}

def bytes (t : Text) : Nat :=
  (String.ofList t).utf8ByteSize

@[simp]
theorem bytes_nil : bytes [] = 0 :=
  rfl

@[simp]
theorem bytes_append (s t : Text) : bytes (s ++ t) = bytes s + bytes t := by
  rw [bytes, String.ofList_append, String.utf8ByteSize_append]
  rfl

@[simp]
theorem bytes_cons (c : Char) (t : Text) : bytes (c :: t) = c.utf8Size + bytes t := by
  have hc : bytes [c] = c.utf8Size := by
    rw [bytes, ← String.singleton_eq_ofList, String.utf8ByteSize_singleton]
  rw [← List.singleton_append, bytes_append, hc]

theorem bytes_flatMap {α : Type} (f : α → Text) (l : List α) :
    bytes (l.flatMap f) = (l.map fun a => bytes (f a)).sum := by
  induction l with
  | nil => rfl
  | cons a rest ih => simp [ih]

theorem bytes_le_of_sublist (h : s.Sublist t) : bytes s ≤ bytes t := by
  induction h with
  | slnil => exact Nat.le_refl _
  | cons c h ih =>
    rw [bytes_cons]
    omega
  | cons_cons c h ih =>
    rw [bytes_cons, bytes_cons]
    omega

theorem utf8Size_eq_one {c : Char} (h : c.toNat ≤ 127) : c.utf8Size = 1 :=
  Char.utf8Size_eq_one_iff.mpr (UInt32.le_iff_toNat_le.mpr h)

theorem utf8Size_toLower (c : Char) : c.toLower.utf8Size = c.utf8Size := by
  rw [Char.toLower]
  split
  next h =>
    have hc : c.val.toNat ≤ 90 := UInt32.le_iff_toNat_le.mp h.2
    have hd : ('a'.val - 'A'.val).toNat = 32 := rfl
    have hl : (c.val + ('a'.val - 'A'.val)).toNat ≤ 127 := by
      rw [UInt32.toNat_add]
      omega
    rw [utf8Size_eq_one (Nat.le_trans hc (by decide))]
    exact utf8Size_eq_one hl
  next => rfl

theorem bytes_lower (t : Text) : bytes (lower t) = bytes t := by
  induction t with
  | nil => rfl
  | cons c cs ih =>
    change bytes (c.toLower :: lower cs) = _
    rw [bytes_cons, bytes_cons, utf8Size_toLower, ih]

def Shrinks (f : Text → Text) : Prop :=
  ∀ t, bytes (f t) ≤ bytes t

end Text

open Text (bytes Shrinks)

variable {f : Text → Text}

theorem Value.bytes_rewrite_le (hf : Shrinks f) (value : Text) :
    bytes (rewrite f value) ≤ bytes value := by
  have hs : bytes (((segments value).map (Segment.rewrite f)).flatMap Segment.text) ≤
      bytes ((segments value).flatMap Segment.text) := by
    rw [Text.bytes_flatMap, Text.bytes_flatMap, List.map_map]
    apply List.sum_le_sum
    intro segment _
    cases segment with
    | separator c => exact Nat.le_refl _
    | token t => exact hf t
  have hv := congrArg bytes (flatMap_text_segments value)
  rw [Text.bytes_append] at hv
  rw [rewrite, Text.bytes_append]
  omega

theorem Declaration.bytes_recolor_le (hf : Shrinks f) (declaration : Text) :
    bytes (recolor f declaration) ≤ bytes declaration := by
  rcases recolor_cases f declaration with h | ⟨property, value, hd, h⟩
  · rw [h]
  · have hv := Value.bytes_rewrite_le hf value
    rw [h, hd, Text.bytes_append, Text.bytes_append, Text.bytes_cons, Text.bytes_cons]
    omega

namespace Body

theorem bytes_join (pieces : List Text) :
    bytes (join pieces) = (pieces.map fun piece => bytes piece + 1).sum - 1 := by
  induction pieces with
  | nil => rfl
  | cons piece rest ih =>
    cases rest with
    | nil => simp [join, List.intercalate]
    | cons second rest =>
      have hs : (';').utf8Size = 1 := rfl
      rw [join_cons piece (List.cons_ne_nil _ _), Text.bytes_append, Text.bytes_cons, ih, hs]
      simp only [List.map_cons, List.sum_cons]
      omega

theorem bytes_prune_le (body : Text) : bytes (Cascade.prune body) ≤ bytes body := by
  by_cases h : Cascade.survivors (declarations body) = []
  · rw [prune_of_survivors_eq_nil h]
    exact Nat.zero_le _
  · have hs := ((pieces_survivors_sublist body).map fun piece => bytes piece + 1).sum_le_sum
      fun _ _ => Nat.zero_le _
    have hb := congrArg bytes (join_split body)
    rw [bytes_join] at hb
    rw [prune_eq_join h, bytes_join, ← hb]
    exact Nat.sub_le_sub_right hs 1

theorem bytes_recolor_le (hf : Shrinks f) (body : Text) : bytes (recolor f body) ≤ bytes body := by
  have hs : (((split body).map (Declaration.recolor f)).map fun piece => bytes piece + 1).sum ≤
      ((split body).map fun piece => bytes piece + 1).sum := by
    rw [List.map_map]
    apply List.sum_le_sum
    intro piece _
    exact Nat.succ_le_succ (Declaration.bytes_recolor_le hf piece)
  have hb := congrArg bytes (join_split body)
  rw [bytes_join] at hb
  rw [recolor, bytes_join, ← hb]
  exact Nat.sub_le_sub_right hs 1

end Body

namespace Color

theorem Hex.sublist_of_shorten? {t short : Text} (h : shorten? t = some short) :
    short.Sublist t := by
  unfold shorten? at h
  split at h
  next r₁ r₂ g₁ g₂ b₁ b₂ =>
    split at h
    next =>
      cases h
      have pair (c d : Char) {s t : Text} (hs : s.Sublist t) : (c :: s).Sublist (c :: d :: t) :=
        (hs.cons d).cons_cons c
      exact (pair r₁ r₂ (pair g₁ g₂ (pair b₁ b₂ .slnil))).cons_cons _
    next => cases h
  next => cases h

theorem Hex.bytes_lowercase (t : Text) : bytes (lowercase t) = bytes t := by
  rw [lowercase]
  split
  next => exact Text.bytes_lower t
  next => rfl

theorem bytes_run_le {tables : Option Tables} {stages : List Stage}
    (h : ∀ stage ∈ stages, ∀ literal next, stage.apply tables literal = some next →
      bytes next ≤ bytes literal) (literal : Text) :
    bytes (run tables stages literal) ≤ bytes literal := by
  induction stages generalizing literal with
  | nil => exact Nat.le_refl _
  | cons stage rest ih =>
    obtain ⟨first, others⟩ := List.forall_mem_cons.mp h
    rw [run_cons]
    apply Nat.le_trans (ih others _)
    cases ha : stage.apply tables literal with
    | none => exact Nat.le_refl _
    | some next => exact first literal next ha

/-- Without the stages that write a colour in another notation no literal gets longer. -/
theorem shrinks_normalize {options : ColorOptions} (hr : options.rgbToHex = false)
    (hn : options.nameToHex = false) (hs : options.hexToShortName = false)
    (tables : Option Tables) : Shrinks (normalize options tables) := by
  intro literal
  rw [normalize, Hex.bytes_lowercase]
  apply bytes_run_le
  intro stage hm literal next ha
  have he := (List.mem_filter.mp hm).2
  cases stage with
  | rgbToHex => exact absurd (hr.symm.trans he) Bool.false_ne_true
  | nameToHex => exact absurd (hn.symm.trans he) Bool.false_ne_true
  | hexToShortName => exact absurd (hs.symm.trans he) Bool.false_ne_true
  | hexToShortHex => exact Text.bytes_le_of_sublist (Hex.sublist_of_shorten? ha)

end Color

theorem Rule.bytes_render (rule : Rule) :
    bytes rule.render = bytes rule.selector + bytes rule.body + 2 := by
  have hl : ('{').utf8Size = 1 := rfl
  have hr : ('}').utf8Size = 1 := rfl
  simp only [render, Text.bytes_append, Text.bytes_cons, Text.bytes_nil, hl, hr]
  omega

def Slot.render (slots : List Slot) : Text :=
  (rules slots).flatMap Rule.render

namespace Merge

variable {slots final : List Slot} {steps : List Step}

namespace Step

/-- The bytes that a step saves: one rule less is printed, but for a comma and what it adds. -/
def saved (step : Step) : Nat :=
  match step.criterion with
  | .selector => bytes step.later.selector + 2
  | .body => bytes step.later.body + 1

theorem one_le_saved (step : Step) : 1 ≤ step.saved := by
  rw [saved]
  split <;> omega

theorem bytes_merged (step : Step) :
    bytes step.merged.render + step.saved =
      bytes step.rule.render + bytes step.later.render := by
  have hc : (',').utf8Size = 1 := rfl
  rw [merged, saved, Rule.bytes_render, Rule.bytes_render, Rule.bytes_render]
  cases step.criterion with
  | selector =>
    simp only [Criterion.absorb, Text.bytes_append]
    omega
  | body =>
    simp only [Criterion.absorb, Text.bytes_append, Text.bytes_cons, hc]
    omega

theorem bytes_finish (step : Step) :
    bytes (Slot.render step.finish) + step.saved = bytes (Slot.render step.start) := by
  have hm := step.bytes_merged
  simp only [Slot.render, rules_start, rules_finish, List.flatMap_append, List.flatMap_cons,
    Text.bytes_append]
  omega

end Step

theorem Run.bytes_eq (h : Run slots steps final) :
    bytes (Slot.render final) + (steps.map Step.saved).sum = bytes (Slot.render slots) := by
  induction h with
  | refl => rfl
  | head step run ih =>
    rw [← step.bytes_finish, ← ih, List.map_cons, List.sum_cons]
    omega

theorem Run.bytes_le (h : Run slots steps final) :
    bytes (Slot.render final) + steps.length ≤ bytes (Slot.render slots) := by
  have hs : steps.length ≤ (steps.map Step.saved).sum := by
    have hl := List.length_le_sum_of_one_le (steps.map Step.saved)
    rw [List.length_map] at hl
    apply hl
    intro n hn
    obtain ⟨step, -, rfl⟩ := List.mem_map.mp hn
    exact step.one_le_saved
  have he := h.bytes_eq
  omega

theorem bytes_settle_le (criteria : List Criterion) (slots : List Slot) :
    bytes (Slot.render (settle criteria slots).slots) + (settle criteria slots).merges.length ≤
      bytes (Slot.render slots) := by
  obtain ⟨steps, run, log⟩ := exists_run_settle criteria slots
  rw [← log, List.length_map]
  exact run.bytes_le

end Merge

namespace Sheet

theorem length_merge_settle (sheet : Sheet) (criteria : List Criterion) :
    (sheet.merge (Merge.settle criteria)).2.length +
      (sheet.merge (Merge.settle criteria)).1.rules.length = sheet.rules.length :=
  Merge.length_merges_settle criteria sheet.slots.toList

theorem bytes_merge_settle_le (sheet : Sheet) (criteria : List Criterion) :
    bytes (sheet.merge (Merge.settle criteria)).1.render +
      (sheet.merge (Merge.settle criteria)).2.length ≤ bytes sheet.render := by
  rw [render_eq, render_eq]
  exact Merge.bytes_settle_le criteria sheet.slots.toList

end Sheet

namespace Compressor

theorem bytes_tidy_le {compressor : Compressor} {tables : Option Color.Tables}
    (hf : Shrinks (Color.normalize compressor.options.color tables)) (rule : Rule) :
    bytes (compressor.tidy tables rule).render ≤ bytes rule.render := by
  have hp : bytes (compressor.pruned rule.body) ≤ bytes rule.body := by
    rw [pruned]
    split
    next => exact Body.bytes_prune_le rule.body
    next => exact Nat.le_refl _
  have hc := Body.bytes_recolor_le hf (compressor.pruned rule.body)
  rw [Rule.bytes_render, Rule.bytes_render, tidy]
  exact Nat.add_le_add_right (Nat.add_le_add_left (Nat.le_trans hc hp) _) 2

theorem bytes_merged_le (compressor : Compressor) (sheet : Sheet) :
    (compressor.merged sheet).rules.length ≤ sheet.rules.length ∧
      bytes (compressor.merged sheet).render + sheet.rules.length ≤
        bytes sheet.render + (compressor.merged sheet).rules.length := by
  rw [merged]
  split
  next => exact ⟨Nat.le_refl _, Nat.le_refl _⟩
  next =>
    have hb := Sheet.bytes_merge_settle_le sheet compressor.options.criteria
    have hl := Sheet.length_merge_settle sheet compressor.options.criteria
    omega

theorem bytes_compressed_le {compressor : Compressor} {tables : Option Color.Tables}
    (hf : Shrinks (Color.normalize compressor.options.color tables)) (sheet : Sheet) :
    (compressor.compressed tables sheet).size ≤ sheet.size ∧
      bytes (compressor.compressed tables sheet).render +
          (sheet.size - (compressor.compressed tables sheet).size) ≤ bytes sheet.render := by
  obtain ⟨hl, hm⟩ := compressor.bytes_merged_le sheet
  have ht : bytes (compressor.compressed tables sheet).render ≤
      bytes (compressor.merged sheet).render := by
    rw [Sheet.render_eq, Sheet.render_eq, rules_compressed, Text.bytes_flatMap, Text.bytes_flatMap,
      List.map_map]
    apply List.sum_le_sum
    intro rule _
    exact bytes_tidy_le hf rule
  have hs : (compressor.compressed tables sheet).size = (compressor.merged sheet).rules.length := by
    rw [Sheet.size_eq_length_rules, rules_compressed, List.length_map]
  rw [hs, sheet.size_eq_length_rules]
  omega

end Compressor

/--
Merging saves at least a byte for each rule that goes. So does compressing if it writes no colour
in another notation, and then it always succeeds.
-/
theorem Sheet.merge_and_compress_shrink (sheet : Sheet) :
    (∀ criteria : List Criterion,
      bytes (sheet.merge (Merge.settle criteria)).1.render +
        (sheet.merge (Merge.settle criteria)).2.length ≤ bytes sheet.render) ∧
    ∀ (options : Options) (session : Session), options.color.rgbToHex = false →
      options.color.nameToHex = false → options.color.hexToShortName = false →
      ∃ result after, session.perform (Compressor.compress ⟨options⟩ sheet) = (.ok result, after) ∧
        result.size ≤ sheet.size ∧
        bytes result.render + (sheet.size - result.size) ≤ bytes sheet.render := by
  refine ⟨sheet.bytes_merge_settle_le, fun options session hr hn hs => ?_⟩
  have hl : options.color.lookup session.holder.served = .ok none := by
    rw [Color.ColorOptions.lookup, Color.ColorOptions.needsTables, hn, hs]
    rfl
  obtain ⟨after, hp, -⟩ := (Compressor.computes_compress ⟨options⟩ sheet).perform_eq session
    (Compressor.outcome_of_lookup hl sheet)
  exact ⟨_, after, hp,
    Compressor.bytes_compressed_le (Color.shrinks_normalize hr hn hs none) sheet⟩

end StyleSheet
