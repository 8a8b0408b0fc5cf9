import StyleSheet.Compressor
import StyleSheet.Proofs.Loading

namespace StyleSheet

namespace Holder

variable {holder after later : Holder} {tables : Color.Tables}

/-- A holder some time later: it may have been asked for its tables in between. -/
inductive Reaches (holder : Holder) : Holder → Prop
  | refl : Reaches holder holder
  | asked {after : Holder} (reached : Reaches holder after) : Reaches holder after.asked

namespace Reaches

theorem trans (h : holder.Reaches after) (h' : after.Reaches later) : holder.Reaches later := by
  induction h' with
  | refl => exact h
  | asked _ ih => exact ih.asked

theorem served (h : holder.Reaches after) (hs : holder.served = .ok tables) :
    after.served = .ok tables := by
  induction h with
  | refl => exact hs
  | asked _ ih => exact served_asked ih

end Reaches

end Holder

namespace Color.ColorOptions

/-- The tables at hand when a literal is shortened. -/
def lookup (options : ColorOptions) (served : Except TableError Tables) :
    Except TableError (Option Tables) :=
  if options.needsTables then served.map some else .ok .none

theorem lookup_of_ok (options : ColorOptions) (tables : Tables) :
    options.lookup (.ok tables) = .ok (if options.needsTables then some tables else .none) := by
  rw [lookup]
  split <;> rfl

theorem lookup_eq_error_iff {options : ColorOptions} {served : Except TableError Tables}
    {error : TableError} :
    options.lookup served = .error error ↔ options.needsTables = true ∧ served = .error error := by
  rw [lookup]
  split
  next h =>
    cases served with
    | ok tables => simp [Except.map]
    | error e => simp [Except.map, h]
  next h => simp [h]

end Color.ColorOptions

namespace Session

variable {α β : Type} {work : SessionM α} {next : α → SessionM β}

/-- Whatever the session, the work comes to what follows from the tables served, and while it
succeeds the same goes on being served. -/
def Computes (work : SessionM α)
    (outcome : Except Color.TableError Color.Tables → Except Color.TableError α) : Prop :=
  ∀ session : Session, ∃ after,
    session.perform work = (outcome session.holder.served, after) ∧
      session.holder.Reaches after.holder ∧
      ∀ a, outcome session.holder.served = .ok a → after.holder.served = session.holder.served

namespace Computes

variable {f : Except Color.TableError Color.Tables → Except Color.TableError α}
  {g : α → Except Color.TableError Color.Tables → Except Color.TableError β}

theorem pure (a : α) : Computes (pure a) fun _ => .ok a := by
  intro session
  exact ⟨session, rfl, .refl, fun _ _ => rfl⟩

theorem bind (h : Computes work f) (hn : ∀ a, Computes (next a) (g a)) :
    Computes (work >>= next) fun served => f served >>= fun a => g a served := by
  intro session
  obtain ⟨after, hp, hr, hs⟩ := h session
  cases ho : f session.holder.served with
  | error error =>
    rw [ho] at hp
    refine ⟨after, ?_, hr, ?_⟩
    · simp only [perform_bind_error hp, ho]
      rfl
    · intro b hb
      simp only [ho] at hb
      cases hb
  | ok a =>
    rw [ho] at hp
    obtain ⟨later, hp', hr', hs'⟩ := hn a after
    rw [hs a ho] at hp' hs'
    refine ⟨later, ?_, hr.trans hr', ?_⟩
    · simp only [perform_bind hp, hp', ho]
      rfl
    · intro b hb
      simp only [ho] at hb
      exact hs' b hb

theorem congr {f' : Except Color.TableError Color.Tables → Except Color.TableError α}
    (h : Computes work f) (he : ∀ served, f served = f' served) : Computes work f' := by
  have same : f = f' := funext he
  exact same ▸ h

theorem seq {a : α} {f' : Except Color.TableError Color.Tables → Except Color.TableError β}
    (h : Computes work fun _ => .ok a) (hn : Computes (next a) f') : Computes (work >>= next) f' := by
  intro session
  obtain ⟨after, hp, hr, hs⟩ := h session
  obtain ⟨later, hp', hr', hs'⟩ := hn after
  rw [hs a rfl] at hp' hs'
  exact ⟨later, (perform_bind hp next).trans hp', hr.trans hr', hs'⟩

theorem map (h : Computes work f) (m : α → β) :
    Computes (work >>= fun a => Pure.pure (m a)) fun served => (f served).map m := by
  apply (h.bind fun a => pure (m a)).congr
  intro served
  cases f served <;> rfl

theorem mapM {ι : Type} {each : ι → SessionM α}
    {outcome : ι → Except Color.TableError Color.Tables → Except Color.TableError α}
    (h : ∀ i, Computes (each i) (outcome i)) (items : List ι) :
    Computes (items.mapM each) fun served => items.mapM (outcome · served) := by
  induction items with
  | nil =>
    apply (pure []).congr
    intro served
    rfl
  | cons i rest ih =>
    rw [List.mapM_cons]
    apply ((h i).bind fun a => ih.map (a :: ·)).congr
    intro served
    rw [List.mapM_cons]
    cases outcome i served with
    | error error => rfl
    | ok a => cases rest.mapM (outcome · served) <;> rfl

theorem perform_eq (h : Computes work f) (session : Session)
    {result : Except Color.TableError α} (hf : f session.holder.served = result) :
    ∃ after, session.perform work = (result, after) ∧ session.holder.Reaches after.holder := by
  obtain ⟨after, hp, hr, -⟩ := h session
  exact ⟨after, by rw [hp, hf], hr⟩

theorem fst_perform (h : Computes work f) (session : Session) :
    (session.perform work).1 = f session.holder.served := by
  obtain ⟨after, hp, -⟩ := h session
  rw [hp]

end Computes

theorem computes_emitAll (events : List Event) : Computes (emitAll events) fun _ => .ok () := by
  intro session
  exact ⟨_, rfl, .refl, fun _ _ => rfl⟩

theorem computes_emit (event : Event) : Computes (emit event) fun _ => .ok () := by
  intro session
  exact ⟨_, rfl, .refl, fun _ _ => rfl⟩

theorem computes_tables : Computes tables fun served => served := by
  intro session
  obtain ⟨log, hp⟩ := session.perform_tables
  exact ⟨_, hp, .asked .refl, fun found hs => (Holder.served_asked hs).trans hs.symm⟩

theorem computes_tablesFor (options : Color.ColorOptions) :
    Computes (tablesFor options) options.lookup := by
  rw [tablesFor]
  split
  next h =>
    apply (computes_tables.map some).congr
    intro served
    rw [Color.ColorOptions.lookup, if_pos h]
  next h =>
    apply (Computes.pure none).congr
    intro served
    rw [Color.ColorOptions.lookup, if_neg h]

/-- Looks colours up for some literals and reports what that changes. -/
def shorten (options : Color.ColorOptions) (literals : List Text)
    (result : Option Color.Tables → α) : SessionM α := do
  let tables ← tablesFor options
  emitAll ((literals.flatMap (Color.steps tables options.stages)).map .rewritten)
  return result tables

theorem computes_shorten (options : Color.ColorOptions) (literals : List Text)
    (result : Option Color.Tables → α) :
    Computes (shorten options literals result) fun served =>
      (options.lookup served).map result := by
  refine .congr (.bind (computes_tablesFor options) fun tables =>
    .seq (computes_emitAll _) (.pure _)) fun served => ?_
  cases options.lookup served <;> rfl

def recolored (options : Color.ColorOptions) (body : Text)
    (served : Except Color.TableError Color.Tables) : Except Color.TableError Text :=
  if (Body.literals body).isEmpty then .ok body
  else (options.lookup served).map fun tables =>
    Body.recolor (Color.normalize options tables) body

theorem computes_recolor (options : Color.ColorOptions) (body : Text) :
    Computes (recolor options body) (recolored options body) := by
  by_cases h : (Body.literals body).isEmpty = true
  · have hw : recolor options body = pure body := if_pos h
    rw [hw]
    apply (Computes.pure body).congr
    intro served
    exact (if_pos h).symm
  · have hw : recolor options body = shorten options (Body.literals body) _ := if_neg h
    rw [hw]
    apply (computes_shorten options (Body.literals body) _).congr
    intro served
    exact (if_neg h).symm

theorem recolored_of_lookup {options : Color.ColorOptions}
    {served : Except Color.TableError Color.Tables} {tables : Option Color.Tables}
    (h : options.lookup served = .ok tables) (body : Text) :
    recolored options body served = .ok (Body.recolor (Color.normalize options tables) body) := by
  rw [recolored]
  split
  next hn => rw [Body.recolor_of_literals_eq_nil _ (List.isEmpty_iff.mp hn)]
  next => rw [h]; rfl

theorem computes_prune (body : Text) : Computes (prune body) fun _ => .ok (Cascade.prune body) := by
  by_cases h : 0 < Cascade.overridden body
  · have hw : prune body = emit (.pruned (Cascade.overridden body)) >>= fun _ =>
        pure (Cascade.prune body) := if_pos h
    rw [hw]
    exact (computes_emit _).seq (.pure _)
  · have hw : prune body = pure (Cascade.prune body) := if_neg h
    rw [hw]
    exact .pure _

theorem computes_merge (how : List Slot → Merged) (sheet : Sheet) :
    Computes (merge how sheet) fun _ => .ok ((sheet.merge how).1, (sheet.merge how).2.length) :=
  (computes_emitAll _).seq (.pure _)

end Session

namespace Compressor

open Session (Computes)

theorem computes_build (options : Options) :
    Computes (build options) fun served =>
      (options.color.lookup served).map fun _ => ⟨options⟩ := by
  unfold build Session.preload
  apply ((Session.computes_tablesFor options.color).bind fun _ => .pure _).bind
    (fun _ => .pure _) |>.congr
  intro served
  cases options.color.lookup served <;> rfl

def merged (compressor : Compressor) (sheet : Sheet) : Sheet :=
  if compressor.options.keepOrder then sheet
  else (sheet.merge (Merge.settle compressor.options.criteria)).1

theorem computes_merge (compressor : Compressor) (sheet : Sheet) :
    Computes (compressor.merge sheet) fun _ => .ok (compressor.merged sheet) := by
  unfold merge merged
  split
  next => exact .pure sheet
  next => exact (Session.computes_merge _ _).seq (.pure _)

def pruned (compressor : Compressor) (body : Text) : Text :=
  if compressor.options.prune then Cascade.prune body else body

def tidied (compressor : Compressor) (served : Except Color.TableError Color.Tables)
    (rule : Rule) : Except Color.TableError Rule :=
  (Session.recolored compressor.options.color (compressor.pruned rule.body) served).map
    fun body => { rule with body }

theorem computes_compressBody (compressor : Compressor) (body : Text) :
    Computes (compressor.compressBody body)
      (Session.recolored compressor.options.color (compressor.pruned body)) := by
  unfold compressBody pruned
  split
  next =>
    exact (Session.computes_prune body).seq (Session.computes_recolor _ _)
  next => exact Session.computes_recolor _ body

def tidiedSlot (compressor : Compressor) (served : Except Color.TableError Color.Tables)
    (slot : Slot) : Except Color.TableError Slot :=
  match slot.rule with
  | none => .ok slot
  | some rule => (compressor.tidied served rule).map fun rule => { slot with rule := some rule }

theorem computes_compressSlot (compressor : Compressor) (slot : Slot) :
    Computes (compressor.compressSlot slot) fun served => compressor.tidiedSlot served slot := by
  obtain ⟨index, content⟩ := slot
  cases content with
  | none => exact .pure _
  | some rule =>
    apply ((computes_compressBody compressor rule.body).map _).congr
    intro served
    change _ = Except.map _ (Except.map _ _)
    cases Session.recolored _ _ served <;> rfl

def outcome (compressor : Compressor) (served : Except Color.TableError Color.Tables)
    (sheet : Sheet) : Except Color.TableError Sheet :=
  ((compressor.merged sheet).slots.toList.mapM (compressor.tidiedSlot served)).map
    fun slots => ⟨slots.toArray⟩

theorem computes_compress (compressor : Compressor) (sheet : Sheet) :
    Computes (compressor.compress sheet) fun served => compressor.outcome served sheet := by
  apply (computes_merge compressor sheet).seq
  refine .congr (.bind (.mapM (computes_compressSlot compressor) _) fun slots =>
    .seq (Session.computes_emit _) (.pure _)) fun served => ?_
  rw [outcome]
  cases (compressor.merged sheet).slots.toList.mapM (compressor.tidiedSlot served) <;> rfl

theorem computes_compressParts (compressor : Compressor) (parts : Parts) :
    Computes (compressor.compressParts parts) fun served =>
      (compressor.outcome served (Sheet.ofParts parts)).map Sheet.toParts :=
  (computes_compress compressor (Sheet.ofParts parts)).map Sheet.toParts

def tidy (compressor : Compressor) (tables : Option Color.Tables) (rule : Rule) : Rule :=
  { rule with
    body := Body.recolor (Color.normalize compressor.options.color tables)
      (compressor.pruned rule.body) }

def tidySlot (compressor : Compressor) (tables : Option Color.Tables) (slot : Slot) : Slot :=
  { slot with rule := slot.rule.map (compressor.tidy tables) }

theorem tidiedSlot_of_lookup {compressor : Compressor}
    {served : Except Color.TableError Color.Tables} {tables : Option Color.Tables}
    (h : compressor.options.color.lookup served = .ok tables) (slot : Slot) :
    compressor.tidiedSlot served slot = .ok (compressor.tidySlot tables slot) := by
  obtain ⟨index, content⟩ := slot
  cases content with
  | none => rfl
  | some rule =>
    change (compressor.tidied served rule).map _ = _
    rw [tidied, Session.recolored_of_lookup h]
    rfl

def compressed (compressor : Compressor) (tables : Option Color.Tables) (sheet : Sheet) : Sheet :=
  ⟨((compressor.merged sheet).slots.toList.map (compressor.tidySlot tables)).toArray⟩

theorem outcome_of_lookup {compressor : Compressor} {served : Except Color.TableError Color.Tables}
    {tables : Option Color.Tables} (h : compressor.options.color.lookup served = .ok tables)
    (sheet : Sheet) :
    compressor.outcome served sheet = .ok (compressor.compressed tables sheet) := by
  have hm : compressor.tidiedSlot served = fun slot => pure (compressor.tidySlot tables slot) := by
    funext slot
    exact tidiedSlot_of_lookup h slot
  rw [outcome, hm, List.mapM_pure]
  rfl

theorem compress_succeeds {compressor : Compressor} {session : Session}
    {tables : Option Color.Tables}
    (h : compressor.options.color.lookup session.holder.served = .ok tables) (sheet : Sheet) :
    ∃ result after, session.perform (compressor.compress sheet) = (.ok result, after) ∧
      session.holder.Reaches after.holder := by
  obtain ⟨after, hp, hr⟩ :=
    (computes_compress compressor sheet).perform_eq session (outcome_of_lookup h sheet)
  exact ⟨_, after, hp, hr⟩

theorem compressParts_succeeds {compressor : Compressor} {session : Session}
    {tables : Option Color.Tables}
    (h : compressor.options.color.lookup session.holder.served = .ok tables) (parts : Parts) :
    ∃ result after, session.perform (compressor.compressParts parts) = (.ok result, after) ∧
      session.holder.Reaches after.holder := by
  obtain ⟨after, hp, hr⟩ := (computes_compressParts compressor parts).perform_eq session
    (congrArg (Except.map Sheet.toParts) (outcome_of_lookup h (Sheet.ofParts parts)))
  exact ⟨_, after, hp, hr⟩

theorem fst_build_eq_error_iff {options : Options} {session : Session} {error : Color.TableError} :
    (session.perform (build options)).1 = .error error ↔
      options.color.needsTables = true ∧ session.holder.served = .error error := by
  rw [(computes_build options).fst_perform, ← Color.ColorOptions.lookup_eq_error_iff]
  cases options.color.lookup session.holder.served <;> simp [Except.map]

theorem of_build_eq_ok {options : Options} {session after : Session} {compressor : Compressor}
    (h : session.perform (build options) = (.ok compressor, after)) :
    compressor = ⟨options⟩ ∧ session.holder.Reaches after.holder ∧
      ∃ tables, options.color.lookup after.holder.served = .ok tables := by
  obtain ⟨built, hp, hr, hs⟩ := computes_build options session
  rw [h] at hp
  dsimp only at hp hs
  cases hl : options.color.lookup session.holder.served with
  | error error =>
    rw [hl] at hp
    cases hp
  | ok tables =>
    rw [hl] at hp hs
    cases hp
    rw [hs ⟨options⟩ rfl]
    exact ⟨rfl, hr, tables, hl⟩

end Compressor

end StyleSheet
