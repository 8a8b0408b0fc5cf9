import StyleSheet.Session

namespace StyleSheet

namespace Holder

variable {holder : Holder} {tables : Color.Tables}

/-- What asking for the tables comes to. -/
def served (holder : Holder) : Except Color.TableError Color.Tables :=
  match holder.loaded with
  | some tables => .ok tables
  | none => holder.attempt 0

/-- The holder after it was asked for its tables. -/
def asked (holder : Holder) : Holder :=
  if holder.isLoaded then holder else holder.tried

/-- Asking gives these tables, which some load of the source gives. -/
structure Serves (holder : Holder) (tables : Color.Tables) : Prop where
  load : ∃ orders, holder.source.load holder.wording orders = .ok tables
  served : holder.served = .ok tables

theorem served_of_loaded (h : holder.loaded = some tables) : holder.served = .ok tables := by
  rw [Holder.served, h]

theorem served_of_unloaded (h : holder.loaded = none) : holder.served = holder.attempt 0 := by
  rw [served, h]

theorem asked_of_loaded (h : holder.loaded = some tables) : holder.asked = holder := by
  rw [asked, isLoaded, h]
  rfl

theorem asked_of_unloaded (h : holder.loaded = none) : holder.asked = holder.tried := by
  rw [asked, isLoaded, h]
  rfl

@[simp]
theorem source_asked (holder : Holder) : holder.asked.source = holder.source := by
  rw [asked]
  split <;> rfl

@[simp]
theorem wording_asked (holder : Holder) : holder.asked.wording = holder.wording := by
  rw [asked]
  split <;> rfl

theorem loaded_asked (holder : Holder) : holder.asked.loaded = holder.served.toOption := by
  cases h : holder.loaded with
  | some tables =>
    rw [asked_of_loaded h, served_of_loaded h, h]
    rfl
  | none =>
    rw [asked_of_unloaded h, served_of_unloaded h]
    rfl

/-- Tables that were given once are given ever after. -/
theorem served_asked (h : holder.served = .ok tables) : holder.asked.served = .ok tables := by
  apply served_of_loaded
  rw [loaded_asked, h]
  rfl

theorem Serves.asked (h : holder.Serves tables) : holder.asked.Serves tables where
  load := by
    rw [source_asked, wording_asked]
    exact h.load
  served := served_asked h.served

end Holder

namespace Session

variable {session after : Session} {α β : Type}

/-- What a session makes of a piece of work: its outcome and the session after it. -/
def perform (session : Session) (work : SessionM α) : Except Color.TableError α × Session :=
  work.run.run session

theorem perform_bind {work : SessionM α} {a : α} (h : session.perform work = (.ok a, after))
    (next : α → SessionM β) : session.perform (work >>= next) = after.perform (next a) := by
  have hw : work session = (.ok a, after) := h
  change (ExceptT.bindCont next (work session).1) (work session).2 = _
  rw [hw]
  rfl

theorem perform_bind_error {work : SessionM α} {error : Color.TableError}
    (h : session.perform work = (.error error, after)) (next : α → SessionM β) :
    session.perform (work >>= next) = (.error error, after) := by
  have hw : work session = (.error error, after) := h
  change (ExceptT.bindCont next (work session).1) (work session).2 = _
  rw [hw]
  rfl

theorem perform_emitAll (session : Session) (events : List Event) :
    session.perform (emitAll events) = (.ok (), { session with log := session.log ++ events }) :=
  rfl

theorem perform_tables_of_loaded {found : Color.Tables} (h : session.holder.loaded = some found) :
    session.perform tables = (.ok found, session) := by
  have hget : session.perform get = (.ok session, session) := rfl
  rw [tables, perform_bind hget, h]
  rfl

/-- Asking for the tables gives what the holder serves, and counts as one asking. -/
theorem perform_tables (session : Session) :
    ∃ log, session.perform tables = (session.holder.served, ⟨session.holder.asked, log⟩) := by
  cases hl : session.holder.loaded with
  | some found =>
    rw [Holder.served_of_loaded hl, Holder.asked_of_loaded hl]
    exact ⟨session.log, perform_tables_of_loaded hl⟩
  | none =>
    rw [Holder.served_of_unloaded hl, Holder.asked_of_unloaded hl]
    have hget : session.perform get = (.ok session, session) := rfl
    rw [tables, perform_bind hget, hl]
    have hset : session.perform (set { session with holder := session.holder.tried }) =
        (.ok ⟨⟩, { session with holder := session.holder.tried }) := rfl
    dsimp only
    rw [perform_bind hset]
    cases session.holder.attempt 0 with
    | error error => exact ⟨_, rfl⟩
    | ok found => exact ⟨_, rfl⟩

theorem perform_tablesFor {tables : Color.Tables} (hs : session.holder.Serves tables)
    (options : Color.ColorOptions) :
    ∃ after, session.perform (tablesFor options) =
        (.ok (if options.needsTables then some tables else none), after) ∧
      after.holder.Serves tables := by
  rw [tablesFor]
  split
  next =>
    obtain ⟨log, hp⟩ := session.perform_tables
    rw [hs.served] at hp
    exact ⟨_, perform_bind hp _, hs.asked⟩
  next => exact ⟨session, rfl, hs⟩

theorem perform_normalize {tables : Color.Tables} (hs : session.holder.Serves tables)
    (options : Color.ColorOptions) (literal : Text) :
    ∃ after, session.perform (normalize options literal) =
        (.ok (Color.normalize options (if options.needsTables then some tables else none) literal),
          after) ∧
      after.holder.Serves tables := by
  obtain ⟨after, hp, ha⟩ := perform_tablesFor hs options
  rw [normalize, perform_bind hp, perform_bind (perform_emitAll _ _)]
  exact ⟨_, rfl, ha⟩

end Session

end StyleSheet
