import StyleSheet.Proofs.Outcome
import StyleSheet.Proofs.Pruning
import StyleSheet.Proofs.Color.NormalForm
import StyleSheet.Proofs.Merging.FixedPoint

namespace StyleSheet

/-- The slots of a sheet with their indices and selectors; a hole has none. -/
def Sheet.skeleton (sheet : Sheet) : List (UInt64 × Option Text) :=
  sheet.slots.toList.map fun slot => (slot.index, slot.rule.map Rule.selector)

/-- The bundled tables if one of the stages looks colours up. -/
def Color.ColorOptions.bundledTables (options : ColorOptions) : Option Tables :=
  if options.needsTables then some Tables.bundled else .none

theorem Color.ColorOptions.eq_bundled {options : ColorOptions} {tables : Tables}
    (h : tables ∈ options.bundledTables) : tables = Tables.bundled := by
  rw [bundledTables] at h
  split at h
  next => exact (Option.mem_some.mp h).symm
  next => cases h

theorem Color.ColorOptions.settles_normalize (options : ColorOptions) :
    Value.Settles (normalize options options.bundledTables) :=
  Tables.final_bundled.settles_normalize (fun _ ht => options.eq_bundled ht) options

namespace Compressor

variable {compressor : Compressor} {tables : Option Color.Tables}

theorem rules_compressed (sheet : Sheet) :
    (compressor.compressed tables sheet).rules =
      (compressor.merged sheet).rules.map (compressor.tidy tables) := by
  change Slot.rules ((compressor.merged sheet).slots.toList.map _) =
    (Slot.rules (compressor.merged sheet).slots.toList).map _
  induction (compressor.merged sheet).slots.toList with
  | nil => rfl
  | cons slot rest ih =>
    obtain ⟨index, content⟩ := slot
    cases content with
    | none => exact ih
    | some rule => exact congrArg (compressor.tidy tables rule :: ·) ih

theorem pairwise_selector_compressed (hk : compressor.options.keepOrder = false)
    (hs : compressor.options.mergeSelectors = true) (sheet : Sheet) :
    (compressor.compressed tables sheet).rules.Pairwise fun rule other =>
      rule.selector ≠ other.selector := by
  have hm : Criterion.selector ∈ compressor.options.criteria := by
    rw [Options.criteria, hs]
    exact List.mem_append_left _ List.mem_cons_self
  have hd := Merge.distinct_settle sheet.slots.toList hm
  rw [rules_compressed, merged, hk]
  apply List.pairwise_map.mpr
  apply List.Pairwise.imp _ hd
  intro rule other ha he
  exact beq_eq_false_iff_ne.mp ha he

theorem skeleton_compressed (hk : compressor.options.keepOrder = true) (sheet : Sheet) :
    (compressor.compressed tables sheet).skeleton = sheet.skeleton := by
  rw [Sheet.skeleton, compressed, merged, if_pos hk, List.toList_toArray, List.map_map]
  apply List.map_congr_left
  intro slot _
  obtain ⟨index, content⟩ := slot
  cases content <;> rfl

theorem properties_tidy_nodup (hp : compressor.options.prune = true)
    (hf : Value.Settles (Color.normalize compressor.options.color tables)) (rule : Rule) :
    (Cascade.properties (Body.split (compressor.tidy tables rule).body)).Nodup := by
  obtain ⟨kept, closed, h⟩ := Body.exists_pruned_prune rule.body
  rw [tidy, pruned, if_pos hp]
  exact (h.recolor hf.tame).properties_nodup

theorem tidy_tidy (hf : Value.Settles (Color.normalize compressor.options.color tables))
    (rule : Rule) :
    compressor.tidy tables (compressor.tidy tables rule) = compressor.tidy tables rule := by
  have hp : compressor.pruned (compressor.tidy tables rule).body =
      (compressor.tidy tables rule).body := by
    unfold tidy pruned
    split
    next =>
      obtain ⟨kept, closed, h⟩ := Body.exists_pruned_prune rule.body
      exact (h.recolor hf.tame).prune_eq
    next => rfl
  rw [tidy, hp, tidy, Body.recolor_recolor hf]

/-- With its rules kept in place a compressed sheet is left as it is. -/
theorem compressed_compressed
    (hf : Value.Settles (Color.normalize compressor.options.color tables)) {again : Compressor}
    (ha : again.options = { compressor.options with keepOrder := true }) (sheet : Sheet) :
    again.compressed tables (compressor.compressed tables sheet) =
      compressor.compressed tables sheet := by
  have ht (rule : Rule) : again.tidy tables rule = compressor.tidy tables rule := by
    rw [tidy, tidy, pruned, pruned, ha]
  have hk : again.options.keepOrder = true := by rw [ha]
  rw [compressed, merged, if_pos hk, compressed, List.toList_toArray, List.map_map]
  congr 2
  apply List.map_congr_left
  intro slot _
  obtain ⟨index, content⟩ := slot
  cases content with
  | none => rfl
  | some rule => simp only [Function.comp_apply, tidySlot, Option.map_some, ht, tidy_tidy hf]

theorem perform_compress {session : Session}
    (h : session.holder.served = .ok Color.Tables.bundled) (compressor : Compressor)
    (sheet : Sheet) :
    ∃ after, session.perform (compressor.compress sheet) =
        (.ok (compressor.compressed compressor.options.color.bundledTables sheet), after) ∧
      after.holder.served = .ok Color.Tables.bundled := by
  have hl : compressor.options.color.lookup session.holder.served =
      .ok compressor.options.color.bundledTables := by
    rw [h]
    exact Color.ColorOptions.lookup_of_ok _ _
  obtain ⟨after, hp, hr⟩ :=
    (computes_compress compressor sheet).perform_eq session (outcome_of_lookup hl sheet)
  exact ⟨after, hp, hr.served h⟩

/--
With the bundled tables a sheet compresses to one in which no two rules have the same selector if
these are merged, nothing has moved if the order is kept, and no body declares a property twice if
bodies are pruned; compressing it again without moving rules changes nothing.
-/
theorem compress_reaches_normal_form (options : Options) (sheet : Sheet) (session : Session)
    (bundled : session.holder.served = .ok Color.Tables.bundled) :
    ∃ result after, session.perform (compress ⟨options⟩ sheet) = (.ok result, after) ∧
      after.holder.served = .ok Color.Tables.bundled ∧
      (options.keepOrder = false → options.mergeSelectors = true →
        result.rules.Pairwise fun rule other => rule.selector ≠ other.selector) ∧
      (options.keepOrder = true → result.skeleton = sheet.skeleton) ∧
      (options.prune = true → ∀ rule ∈ result.rules,
        (Cascade.properties (Body.split rule.body)).Nodup) ∧
      ∀ later : Session, later.holder.served = .ok Color.Tables.bundled →
        (later.perform (compress ⟨{ options with keepOrder := true }⟩ result)).1 = .ok result := by
  have hf := options.color.settles_normalize
  obtain ⟨after, hp, ha⟩ := perform_compress bundled ⟨options⟩ sheet
  refine ⟨_, after, hp, ha, fun hk hs => pairwise_selector_compressed hk hs sheet,
    fun hk => skeleton_compressed hk sheet, ?_, ?_⟩
  · intro hprune rule hm
    rw [rules_compressed] at hm
    obtain ⟨rule, -, rfl⟩ := List.mem_map.mp hm
    exact properties_tidy_nodup hprune hf rule
  · intro later hl
    obtain ⟨_, hp, -⟩ := perform_compress hl ⟨{ options with keepOrder := true }⟩
      (compressed ⟨options⟩ options.color.bundledTables sheet)
    rw [hp]
    exact congrArg Except.ok (compressed_compressed hf rfl sheet)

theorem repeated_reaches_normal_form :
    let session : Session := ⟨.orderly .bundled fun _ => "", #[]⟩
    let sheet : Sheet := .ofRules
      [⟨"a".toList, "color:Black !IMPORTANT;COLOR:rgb(0,0,0);".toList⟩,
        ⟨"b".toList, "border:1px solid #FF0000 ;; border:0\\;".toList⟩,
        ⟨"a".toList, "color:navy".toList⟩]
    session.holder.served = .ok Color.Tables.bundled ∧
      (∃ result after, session.perform (compress ⟨{}⟩ sheet) = (.ok result, after) ∧
        (result.rules.Pairwise fun rule other => rule.selector ≠ other.selector) ∧
        (∀ rule ∈ result.rules, (Cascade.properties (Body.split rule.body)).Nodup) ∧
        (after.perform (compress ⟨{ keepOrder := true }⟩ result)).1 = .ok result) ∧
      ∃ result after, session.perform (compress ⟨{ keepOrder := true }⟩ sheet) =
          (.ok result, after) ∧
        result.skeleton = sheet.skeleton := by
  intro session sheet
  have hs : session.holder.served = .ok Color.Tables.bundled := Color.Source.load_bundled _ _
  obtain ⟨result, after, hp, ha, hd, -, hn, hl⟩ := compress_reaches_normal_form {} sheet session hs
  obtain ⟨kept, later, hk, -, -, hb, -⟩ :=
    compress_reaches_normal_form { keepOrder := true } sheet session hs
  exact ⟨hs, ⟨result, after, hp, hd rfl rfl, hn rfl, hl after ha⟩, kept, later, hk, hb rfl⟩

end Compressor

end StyleSheet
