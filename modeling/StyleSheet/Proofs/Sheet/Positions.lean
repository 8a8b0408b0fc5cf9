import StyleSheet.Proofs.Sheet.Columns

namespace StyleSheet

open Column (KeepsOrder)

variable {f : UInt64 → UInt64}

def Parts.rename (f : UInt64 → UInt64) (parts : Parts) : Parts :=
  ⟨parts.selectors.rename f, parts.bodies.rename f⟩

namespace Sheet

variable {sheet other : Sheet} {parts : Parts}

def rename (f : UInt64 → UInt64) (sheet : Sheet) : Sheet :=
  ⟨(sheet.slots.toList.map fun slot => { slot with index := f slot.index }).toArray⟩

theorem live_rename (f : UInt64 → UInt64) (sheet : Sheet) :
    (sheet.rename f).live = sheet.live.map (Column.renamed f) := by
  rw [live, live, Slot.live, Slot.live, rename, List.filterMap_map, List.map_filterMap]
  congr 1
  funext slot
  obtain ⟨index, content⟩ := slot
  cases content <;> rfl

theorem rules_rename (f : UInt64 → UInt64) (sheet : Sheet) :
    (sheet.rename f).rules = sheet.rules := by
  rw [rules_eq, rules_eq, live_rename, List.map_map]
  rfl

theorem toParts_rename (hf : KeepsOrder f sheet.indices) :
    (sheet.rename f).toParts = sheet.toParts.rename f := by
  have hl : KeepsOrder f (sheet.live.map Prod.fst) :=
    hf.subset fun key hk => (Slot.map_fst_live_sublist _).subset hk
  have column {α : Type} (g : Rule → α) :
      Column.ofList ((sheet.rename f).live.map fun entry => (entry.1, g entry.2)) =
        (Column.ofList (sheet.live.map fun entry => (entry.1, g entry.2))).rename f := by
    have hk : KeepsOrder f ((sheet.live.map fun entry => (entry.1, g entry.2)).map Prod.fst) := by
      rw [List.map_map]
      exact hl
    rw [← Column.ofList_renamed hk, live_rename, List.map_map, List.map_map]
    rfl
  rw [toParts, toParts, Parts.rename, ← column Rule.selector, ← column Rule.body]

theorem ruleOfParts_rename (hf : KeepsOrder f parts.indices) {index : UInt64}
    (hi : index ∈ parts.indices) :
    ruleOfParts (parts.rename f) (f index) = ruleOfParts parts index := by
  rw [ruleOfParts, ruleOfParts, Parts.rename,
    Column.get?_rename hf (fun key => List.mem_append_left _) hi,
    Column.get?_rename hf (fun key => List.mem_append_right _) hi]

theorem indices_rename (hf : KeepsOrder f parts.indices) :
    (parts.rename f).indices = parts.indices.map f := by
  have hs : KeepsOrder f parts.selectors.indices := hf.subset fun key => List.mem_append_left _
  have hb : KeepsOrder f parts.bodies.indices := hf.subset fun key => List.mem_append_right _
  rw [Parts.indices, Parts.indices, List.map_append, Parts.rename, Column.indices, Column.indices,
    Column.entries_rename hs, Column.entries_rename hb, List.map_map, List.map_map, Column.indices,
    Column.indices, List.map_map, List.map_map]
  rfl

theorem rules_rename_parts (hf : KeepsOrder f parts.indices) :
    (parts.rename f).rules.entries = parts.rules.entries.map (Column.renamed f) := by
  have hk : KeepsOrder f ((parts.indices.map fun index =>
      (index, ruleOfParts parts index)).map Prod.fst) := by
    rw [List.map_map]
    exact hf.subset fun key hm => by simpa using hm
  have same : ((parts.rename f).indices.map fun index =>
      (index, ruleOfParts (parts.rename f) index)) =
        (parts.indices.map fun index => (index, ruleOfParts parts index)).map (Column.renamed f) := by
    rw [indices_rename hf, List.map_map, List.map_map]
    apply List.map_congr_left
    intro index hi
    exact congrArg (Prod.mk (f index)) (ruleOfParts_rename hf hi)
  rw [Parts.rules, same, Column.ofList_renamed hk,
    Column.entries_rename (hk.subset fun key => Column.mem_of_mem_indices_ofList)]
  rfl

theorem ofParts_rename (hf : KeepsOrder f parts.indices) :
    ofParts (parts.rename f) = (ofParts parts).rename f := by
  have hs : (ofParts (parts.rename f)).slots.toList = ((ofParts parts).rename f).slots.toList := by
    rw [Parts.toList_ofParts, rules_rename_parts hf, rename, Parts.toList_ofParts, List.map_map,
      List.map_map]
    rfl
  exact congrArg (fun slots : List Slot => (⟨slots.toArray⟩ : Sheet)) hs

theorem mem_indices_ofParts {index : UInt64} (h : index ∈ (ofParts parts).indices) :
    index ∈ parts.indices := by
  rw [indices, Parts.toList_ofParts, List.map_map] at h
  have hm : index ∈ (parts.indices.map fun index => (index, ruleOfParts parts index)).map Prod.fst :=
    Column.mem_of_mem_indices_ofList h
  simpa using hm

theorem render_eq (sheet : Sheet) : sheet.render = sheet.rules.flatMap Rule.render := by
  rw [rules_eq, render, List.flatMap_map]

end Sheet

namespace Operation

variable {sheet other : Sheet} {plan : Plan}
  {result result' : Except Color.TableError (Sheet × Option Nat)}

theorem Fulfils.unique (h : Fulfils sheet plan result) (h' : Fulfils sheet plan result') :
    result = result' := by
  cases h with
  | error error =>
    cases h'
    rfl
  | ok count h =>
    cases h' with
    | ok count h' =>
      have hs := congrArg (fun slots : List Slot => (⟨slots.toArray⟩ : Sheet)) (h.unique h')
      exact congrArg (fun sheet => Except.ok (sheet, count)) hs

theorem Fulfils.rename (h : Fulfils sheet plan result) (f : UInt64 → UInt64) :
    Fulfils (sheet.rename f) plan (result.map fun given => (given.1.rename f, given.2)) := by
  cases h with
  | error error => exact .error error
  | ok count h => exact .ok count (h.map_slots f)

theorem Fulfils.map_render (h : Fulfils sheet plan result) (h' : Fulfils other plan result') :
    (result.map fun given => (given.1.render, given.2)) =
      result'.map fun given => (given.1.render, given.2) := by
  cases h with
  | error error =>
    cases h'
    rfl
  | ok count h =>
    cases h' with
    | ok count h' =>
      simp only [Except.map, Sheet.render_eq, Sheet.rules, h.rules_eq, h'.rules_eq]

theorem Fulfils.map_live (h : Fulfils sheet plan result) (h' : Fulfils other plan result')
    (hi : sheet.live.map Prod.fst = other.live.map Prod.fst) :
    (result.map fun given => (given.1.live, given.2)) =
      result'.map fun given => (given.1.live, given.2) := by
  rw [Sheet.live, Sheet.live] at hi
  cases h with
  | error error =>
    cases h'
    rfl
  | ok count h =>
    cases h' with
    | ok count h' => simp only [Except.map, Sheet.live, h.live_eq, h'.live_eq, hi]

theorem outcome_rename (operation : Operation) (served : Except Color.TableError Color.Tables)
    (sheet : Sheet) (f : UInt64 → UInt64) :
    operation.outcome served (sheet.rename f) =
      (operation.outcome served sheet).map fun given => (given.1.rename f, given.2) := by
  obtain ⟨plan, hp⟩ := operation.exists_plan served sheet.rules
  exact (hp _ (Sheet.rules_rename f sheet)).unique ((hp sheet rfl).rename f)

theorem toParts_outcome_rename (operation : Operation)
    (served : Except Color.TableError Color.Tables) {parts : Parts}
    (hf : KeepsOrder f parts.indices) :
    ((operation.outcome served (Sheet.ofParts (parts.rename f))).map fun given => given.1.toParts) =
      ((operation.outcome served (Sheet.ofParts parts)).map fun given => given.1.toParts).map
        (Parts.rename f) := by
  obtain ⟨plan, hp⟩ := operation.exists_plan served (Sheet.ofParts parts).rules
  have h := hp _ rfl
  rw [Sheet.ofParts_rename hf, outcome_rename]
  generalize operation.outcome served (Sheet.ofParts parts) = result at h ⊢
  cases h with
  | error error => rfl
  | @ok fates sheet count h =>
    have hi : sheet.indices = (Sheet.ofParts parts).indices := h.map_index
    have hk : KeepsOrder f sheet.indices := by
      rw [hi]
      exact hf.subset fun key => Sheet.mem_indices_ofParts
    exact congrArg Except.ok (Sheet.toParts_rename hk)

theorem computes_organizeParts (parts : Parts) :
    Session.Computes (Session.organizeParts parts) fun served =>
      ((settle [.selector, .body]).outcome served (Sheet.ofParts parts)).map
        fun given => given.1.toParts :=
  (Session.computes_merge _ _).seq (.pure _)

theorem computes_compressParts (compressor : Compressor) (parts : Parts) :
    Session.Computes (compressor.compressParts parts) fun served =>
      ((compress compressor).outcome served (Sheet.ofParts parts)).map
        fun given => given.1.toParts := by
  apply (compressor.computes_compressParts parts).congr
  intro served
  rw [outcome]
  cases compressor.outcome served (Sheet.ofParts parts) <;> rfl

end Operation

/--
Where two sheets hold the same rules in the same order, each operation gives the same count, text
and fate for every rule; so it does not matter how indices are named or whether there are holes.
-/
theorem Sheet.operations_follow_rules (session session' : Session)
    (served : session.holder.served = session'.holder.served) :
    (∀ (operation : Operation) (sheet other : Sheet), sheet.rules = other.rules →
      ((session.perform (operation.work sheet)).1.map fun given => (given.1.render, given.2)) =
        ((session'.perform (operation.work other)).1.map
          fun given => (given.1.render, given.2)) ∧
      ∃ plan, Operation.Fulfils sheet plan (session.perform (operation.work sheet)).1 ∧
        Operation.Fulfils other plan (session'.perform (operation.work other)).1) ∧
    (∀ (parts : Parts) (f : UInt64 → UInt64), KeepsOrder f parts.indices →
      (session.perform (Session.organizeParts (parts.rename f))).1 =
        (session'.perform (Session.organizeParts parts)).1.map (Parts.rename f) ∧
      ∀ compressor : Compressor, (session.perform (compressor.compressParts (parts.rename f))).1 =
        (session'.perform (compressor.compressParts parts)).1.map (Parts.rename f)) ∧
    ∀ (operation : Operation) (sheet : Sheet), sheet.Ascending →
      ((session.perform (operation.work (ofParts sheet.toParts))).1.map
          fun given => (given.1.live, given.2)) =
        (session'.perform (operation.work sheet)).1.map fun given => (given.1.live, given.2) := by
  refine ⟨fun operation sheet other hr => ?_, fun parts f hf => ⟨?_, fun compressor => ?_⟩,
    fun operation sheet ha => ?_⟩
  · rw [(operation.computes_work sheet).fst_perform, (operation.computes_work other).fst_perform,
      served]
    obtain ⟨plan, hp⟩ := operation.exists_plan session'.holder.served other.rules
    exact ⟨(hp sheet hr).map_render (hp other rfl), plan, hp sheet hr, hp other rfl⟩
  · rw [(Operation.computes_organizeParts _).fst_perform,
      (Operation.computes_organizeParts _).fst_perform, served]
    exact Operation.toParts_outcome_rename _ _ hf
  · rw [(Operation.computes_compressParts compressor _).fst_perform,
      (Operation.computes_compressParts compressor _).fst_perform, served]
    exact Operation.toParts_outcome_rename _ _ hf
  · rw [(operation.computes_work _).fst_perform, (operation.computes_work sheet).fst_perform, served]
    have hl : (ofParts sheet.toParts).live = sheet.live := by
      rw [live, toList_ofParts_toParts ha, Slot.live_map_some]
    have hr : (ofParts sheet.toParts).rules = sheet.rules := by
      rw [rules_eq, rules_eq, hl]
    obtain ⟨plan, hp⟩ := operation.exists_plan session'.holder.served sheet.rules
    exact (hp _ hr).map_live (hp sheet rfl) (by rw [hl])

/-- A sheet with a hole and the largest index against one with neither. -/
theorem Sheet.sparse_follows_dense :
    let a : Rule := ⟨"a".toList, "color:Black;".toList⟩
    let b : Rule := ⟨"b".toList, "margin:0;".toList⟩
    let session : Session := ⟨.orderly .bundled fun _ => "", #[]⟩
    let sparse : Sheet := ⟨#[⟨3, some a⟩, ⟨7, none⟩, ⟨90, some b⟩, ⟨18446744073709551615, some a⟩]⟩
    let dense : Sheet := ofRules [a, b, a]
    let f : UInt64 → UInt64 := fun index => 2 * index + 3
    sparse.rules = dense.rules ∧ KeepsOrder f dense.toParts.indices ∧ sparse.Ascending ∧
      ((session.perform ((Operation.settle [.selector]).work sparse)).1.map
          fun given => (given.1.render, given.2)) =
        ((session.perform ((Operation.settle [.selector]).work dense)).1.map
          fun given => (given.1.render, given.2)) ∧
      (session.perform (Session.organizeParts (dense.toParts.rename f))).1 =
        (session.perform (Session.organizeParts dense.toParts)).1.map (Parts.rename f) ∧
      ((session.perform ((Operation.reduce .body).work (ofParts sparse.toParts))).1.map
          fun given => (given.1.live, given.2)) =
        (session.perform ((Operation.reduce .body).work sparse)).1.map
          fun given => (given.1.live, given.2) := by
  intro a b session sparse dense f
  have hr : sparse.rules = dense.rules := by decide
  have hf : KeepsOrder f dense.toParts.indices := by decide
  have ha : sparse.Ascending := by
    unfold Ascending
    decide
  obtain ⟨hw, hp, hl⟩ := operations_follow_rules session session rfl
  exact ⟨hr, hf, ha, (hw _ sparse dense hr).1, (hp dense.toParts f hf).1, hl _ sparse ha⟩

end StyleSheet
