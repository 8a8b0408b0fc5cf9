import Mathlib.Data.List.Forall2
import StyleSheet.Proofs.Latch
import StyleSheet.Proofs.Parting

namespace StyleSheet

theorem mapM_eq_ok_iff {ε α ι : Type} {each : ι → Except ε α} {items : List ι}
    {results : List α} :
    items.mapM each = .ok results ↔ List.Forall₂ (fun i a => each i = .ok a) items results := by
  induction items generalizing results with
  | nil =>
    rw [List.mapM_nil, List.forall₂_nil_left_iff]
    exact ⟨fun h => (Except.ok.inj h).symm, fun h => congrArg Except.ok h.symm⟩
  | cons i rest ih =>
    rw [List.mapM_cons, List.forall₂_cons_left_iff]
    simp only [← ih]
    cases each i with
    | error error => simp [bind, Except.bind]
    | ok a => cases rest.mapM each <;> simp [bind, Except.bind, pure, Except.pure, eq_comm]

namespace Session

variable {α β γ ι : Type} {options : Color.ColorOptions} {session after : Session}

def rewriteSegment (options : Color.ColorOptions) : Value.Segment → SessionM Text
  | .separator c => return [c]
  | .token t => normalize options t

def rewriteValue (options : Color.ColorOptions) (value : Text) : SessionM Text := do
  let written ← (Value.segments value).mapM (rewriteSegment options)
  return written.flatten ++ Value.remainder value

def rewriteDeclaration (options : Color.ColorOptions) (declaration : Text) : SessionM Text :=
  match Declaration.colorParts? declaration with
  | none => return declaration
  | some (property, value) => do
    let written ← rewriteValue options value
    return property ++ ':' :: written

def rewriteBody (options : Color.ColorOptions) (body : Text) : SessionM Text := do
  let written ← (Body.split body).mapM (rewriteDeclaration options)
  return Body.join written

theorem emitAll_append (events others : List Event) (next : SessionM α) :
    (emitAll events >>= fun _ => emitAll others >>= fun _ => next) =
      emitAll (events ++ others) >>= fun _ => next := by
  funext session
  change (session.perform (emitAll events >>= fun _ => emitAll others >>= fun _ => next)) =
    session.perform (emitAll (events ++ others) >>= fun _ => next)
  rw [perform_bind (perform_emitAll _ _), perform_bind (perform_emitAll _ _),
    perform_bind (perform_emitAll _ _)]
  have hl : session.log ++ events ++ others = session.log ++ (events ++ others) := by
    apply Array.ext'
    simp
  rw [hl]

theorem perform_tables_again {found : Color.Tables}
    (h : session.perform tables = (.ok found, after)) (log : Array Event) :
    ({ after with log } : Session).perform tables = (.ok found, { after with log }) := by
  have hl : after.holder.loaded = some found := by
    have hs := asks_tables session
    have hf := computes_tables.fst_perform session
    rw [h] at hs hf
    rw [hs, if_pos rfl, Holder.loaded_asked, ← hf]
    rfl
  exact perform_tables_of_loaded hl

theorem perform_tablesFor_again {found : Option Color.Tables}
    (h : session.perform (tablesFor options) = (.ok found, after)) (log : Array Event) :
    ({ after with log } : Session).perform (tablesFor options) = (.ok found, { after with log }) := by
  unfold tablesFor at h ⊢
  split at h
  next hn =>
    rw [if_pos hn]
    cases ht : session.perform tables with
    | mk outcome later =>
      cases outcome with
      | error error =>
        rw [perform_bind_error ht] at h
        cases h
      | ok tables =>
        rw [perform_bind ht] at h
        cases h
        rw [perform_bind (perform_tables_again ht log)]
        rfl
  next hn =>
    rw [if_neg hn]
    cases h
    rfl

/-- Tables need to be asked for only once. -/
theorem shorten_append (first second : List Text) (f : Option Color.Tables → α)
    (g : Option Color.Tables → β) (m : α → β → γ) :
    (shorten options first f >>= fun a => shorten options second g >>= fun b => pure (m a b)) =
      shorten options (first ++ second) fun tables => m (f tables) (g tables) := by
  funext session
  change session.perform _ = session.perform _
  simp only [shorten, bind_assoc, pure_bind]
  cases ht : session.perform (tablesFor options) with
  | mk outcome after =>
    cases outcome with
    | error error => rw [perform_bind_error ht, perform_bind_error ht]
    | ok tables =>
      rw [perform_bind ht, perform_bind ht, perform_bind (perform_emitAll _ _),
        perform_bind (perform_tablesFor_again ht _), List.flatMap_append, List.map_append]
      exact congrFun (emitAll_append _ _ _) after

/-- Work that comes to a result by shortening some literals, and needs no tables without any. -/
inductive Shortens (options : Color.ColorOptions) :
    SessionM α → List Text → (Option Color.Tables → α) → Prop
  | pure (a : α) : Shortens options (Pure.pure a) [] fun _ => a
  | shorten {literals : List Text} (result : Option Color.Tables → α) (h : literals ≠ []) :
    Shortens options (shorten options literals result) literals result

namespace Shortens

variable {work : SessionM α} {other : SessionM β} {literals others : List Text}
  {f : Option Color.Tables → α} {g : Option Color.Tables → β}

theorem zip (h : Shortens options work literals f) (ho : Shortens options other others g)
    (m : α → β → γ) :
    Shortens options (work >>= fun a => other >>= fun b => Pure.pure (m a b)) (literals ++ others)
      fun tables => m (f tables) (g tables) := by
  cases h with
  | pure a =>
    rw [pure_bind]
    cases ho with
    | pure b =>
      rw [pure_bind]
      exact .pure _
    | shorten g hn =>
      have hw : (Session.shorten options others g >>= fun b => Pure.pure (m a b)) =
          Session.shorten options others fun tables => m a (g tables) := by
        simp [Session.shorten]
      rw [hw]
      exact .shorten _ hn
  | shorten f hn =>
    cases ho with
    | pure b =>
      have hw : (Session.shorten options literals f >>= fun a => Pure.pure b >>= fun b =>
          Pure.pure (m a b)) = Session.shorten options literals fun tables => m (f tables) b := by
        simp [Session.shorten]
      rw [hw, List.append_nil]
      exact .shorten _ hn
    | shorten g ho =>
      rw [shorten_append]
      exact .shorten _ (by simp [hn])

theorem congr {f' : Option Color.Tables → α} {literals' : List Text}
    (h : Shortens options work literals f) (hl : literals = literals')
    (hf : ∀ tables, f tables = f' tables) : Shortens options work literals' f' := by
  cases hl
  cases funext hf
  exact h

theorem map (h : Shortens options work literals f) (m : α → β) :
    Shortens options (work >>= fun a => Pure.pure (m a)) literals fun tables => m (f tables) := by
  have hz := h.zip (.pure ()) fun a _ => m a
  rwa [List.append_nil] at hz

theorem mapM {each : ι → SessionM α} {literals : ι → List Text}
    {result : ι → Option Color.Tables → α}
    (h : ∀ i, Shortens options (each i) (literals i) (result i)) (items : List ι) :
    Shortens options (items.mapM each) (items.flatMap literals)
      fun tables => items.map (result · tables) := by
  induction items with
  | nil => exact .pure []
  | cons i rest ih =>
    rw [List.mapM_cons]
    exact (h i).zip ih List.cons

end Shortens

theorem shortens_normalize (options : Color.ColorOptions) (t : Text) :
    Shortens options (normalize options t) [t] (Color.normalize options · t) := by
  rw [normalize_eq_shorten]
  exact .shorten _ (List.cons_ne_nil t [])

theorem shortens_rewriteSegment (options : Color.ColorOptions) (part : Value.Segment) :
    Shortens options (rewriteSegment options part) part.token?.toList
      fun tables => (part.rewrite (Color.normalize options tables)).text := by
  cases part with
  | separator c => exact .pure [c]
  | token t => exact shortens_normalize options t

theorem shortens_rewriteValue (options : Color.ColorOptions) (value : Text) :
    Shortens options (rewriteValue options value) (Value.tokens value)
      fun tables => Value.rewrite (Color.normalize options tables) value := by
  have hs := Shortens.mapM (shortens_rewriteSegment options) (Value.segments value)
  apply (hs.map fun written => written.flatten ++ Value.remainder value).congr
  · rw [Value.tokens, List.filterMap_eq_flatMap_toList]
  · intro tables
    rw [Value.rewrite, List.flatMap_map]
    rfl

theorem shortens_rewriteDeclaration (options : Color.ColorOptions) (declaration : Text) :
    Shortens options (rewriteDeclaration options declaration) (Declaration.literals declaration)
      fun tables => Declaration.recolor (Color.normalize options tables) declaration := by
  unfold rewriteDeclaration Declaration.literals Declaration.recolor
  cases Declaration.colorParts? declaration with
  | none => exact .pure declaration
  | some parts =>
    exact (shortens_rewriteValue options parts.2).map fun written => parts.1 ++ ':' :: written

theorem shortens_rewriteBody (options : Color.ColorOptions) (body : Text) :
    Shortens options (rewriteBody options body) (Body.literals body)
      fun tables => Body.recolor (Color.normalize options tables) body :=
  (Shortens.mapM (shortens_rewriteDeclaration options) (Body.split body)).map Body.join

theorem Shortens.eq_ite {work : SessionM α} {literals : List Text}
    {result : Option Color.Tables → α} (h : Shortens options work literals result)
    (tables : Option Color.Tables) :
    work = if literals.isEmpty then Pure.pure (result tables)
      else Session.shorten options literals result := by
  cases h with
  | pure a => rfl
  | shorten result hn => rw [if_neg (by simpa using hn)]

theorem Shortens.computes {work : SessionM α} {literals : List Text}
    {result : Option Color.Tables → α} (h : Shortens options work literals result) :
    Computes work fun served =>
      if literals.isEmpty then .ok (result none) else (options.lookup served).map result := by
  cases h with
  | pure a => exact .pure a
  | shorten result hn =>
    apply (computes_shorten options literals result).congr
    intro served
    rw [if_neg (by simpa using hn)]

/-- Shortening a body at once fetches the tables, reports and comes out like shortening its tokens
one after another. -/
theorem recolor_eq_rewriteBody (options : Color.ColorOptions) (body : Text) :
    recolor options body = rewriteBody options body := by
  rw [(shortens_rewriteBody options body).eq_ite none, recolor]
  split
  next h => rw [Body.recolor_of_literals_eq_nil _ (List.isEmpty_iff.mp h)]
  next => rfl

/-- What a segment is written as: a separator as itself, a token as what shortening gives. -/
def Writes (session : Session) (options : Color.ColorOptions) : Value.Segment → Text → Prop
  | .separator c, text => text = [c]
  | .token t, text => (session.perform (normalize options t)).1 = .ok text

theorem writes_iff {part : Value.Segment} {text : Text} :
    (session.perform (rewriteSegment options part)).1 = .ok text ↔
      session.Writes options part text := by
  cases part with
  | separator c => exact ⟨fun h => (Except.ok.inj h).symm, fun h => congrArg Except.ok h.symm⟩
  | token t => exact Iff.rfl

theorem fst_perform_map_iff {work : SessionM α} {m : α → β} {b : β} :
    (session.perform (work >>= fun a => pure (m a))).1 = .ok b ↔
      ∃ a, (session.perform work).1 = .ok a ∧ b = m a := by
  cases hp : session.perform work with
  | mk outcome after =>
    cases outcome with
    | error error =>
      rw [perform_bind_error hp]
      simp
    | ok a =>
      have hb : (after.perform (pure (m a))).1 = .ok (m a) := rfl
      rw [perform_bind hp, hb]
      simp [eq_comm]

theorem fst_perform_mapM_iff {each : ι → SessionM α}
    {outcome : ι → Except Color.TableError Color.Tables → Except Color.TableError α}
    (h : ∀ i, Computes (each i) (outcome i)) {items : List ι} {results : List α} :
    (session.perform (items.mapM each)).1 = .ok results ↔
      List.Forall₂ (fun i a => (session.perform (each i)).1 = .ok a) items results := by
  rw [(Computes.mapM h items).fst_perform, mapM_eq_ok_iff]
  simp only [(h _).fst_perform]

theorem fst_perform_rewriteValue_iff {value output : Text} :
    (session.perform (rewriteValue options value)).1 = .ok output ↔
      ∃ written, List.Forall₂ (session.Writes options) (Value.segments value) written ∧
        output = written.flatten ++ Value.remainder value := by
  have hs (part : Value.Segment) := (shortens_rewriteSegment options part).computes
  rw [rewriteValue, fst_perform_map_iff]
  simp only [fst_perform_mapM_iff hs, writes_iff]

/--
Shortening the colours of a body shortens the values behind its colour properties one by one. A
value has one decomposition into separators and tokens in front of its exclamation mark; shortening
it succeeds just when it does for each token, and replaces each token and nothing else.
-/
theorem recolor_tokenwise (options : Color.ColorOptions) :
    (∀ body, recolor options body = rewriteBody options body) ∧
      ∀ value : Text, ∃ parts rest,
        (∀ others other,
          Value.Parted 0 others other ∧ others.flatMap Value.Segment.text ++ other = value ↔
            others = parts ∧ other = rest) ∧
        ∀ (session : Session) (output : Text),
          (session.perform (rewriteValue options value)).1 = .ok output ↔
            ∃ written, List.Forall₂ (session.Writes options) parts written ∧
              output = written.flatten ++ rest :=
  ⟨recolor_eq_rewriteBody options, fun value =>
    ⟨Value.segments value, Value.remainder value, fun _ _ => Value.parted_iff value,
      fun _ _ => fst_perform_rewriteValue_iff⟩⟩

end Session

end StyleSheet
