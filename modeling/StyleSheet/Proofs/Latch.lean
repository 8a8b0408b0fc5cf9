import Mathlib.Data.Nat.Find
import Mathlib.Logic.Function.Iterate
import StyleSheet.Proofs.Color.Loads
import StyleSheet.Proofs.Outcome

namespace StyleSheet

namespace Holder

variable {holder : Holder} {tables : Color.Tables} {count : Nat}

/-- Tables that are there have come from a load of the source. -/
def Faithful (holder : Holder) : Prop :=
  ∀ tables ∈ holder.loaded, ∃ orders, holder.source.load holder.wording orders = .ok tables

theorem Faithful.served_eq {outcome : Except Color.TableError Color.Tables} (h : holder.Faithful)
    (settled : ∀ orders, holder.source.load holder.wording orders = outcome) :
    holder.served = outcome := by
  cases hl : holder.loaded with
  | none =>
    rw [served_of_unloaded hl]
    exact settled (holder.orders 0)
  | some found =>
    obtain ⟨orders, ho⟩ := h found hl
    rw [served_of_loaded hl, ← ho, settled]

theorem served_eq_error_iff {error : Color.TableError} :
    holder.served = .error error ↔ holder.loaded = none ∧ holder.attempt 0 = .error error := by
  rw [served]
  cases holder.loaded <;> simp

/-- Of so many loads, the first that gives tables gives these. -/
def Latches (holder : Holder) (count : Nat) (tables : Color.Tables) : Prop :=
  ∃ n < count, holder.attempt n = .ok tables ∧ ∀ m < n, ∃ error, holder.attempt m = .error error

theorem attempt_tried (holder : Holder) (n : Nat) :
    holder.tried.attempt n = holder.attempt (n + 1) :=
  rfl

theorem not_latches_zero : ¬holder.Latches 0 tables := by
  rintro ⟨n, hn, -⟩
  exact Nat.not_lt_zero n hn

theorem latches_succ_of_ok {found : Color.Tables} (h : holder.attempt 0 = .ok found) :
    holder.Latches (count + 1) tables ↔ found = tables := by
  constructor
  · rintro ⟨n, -, hn, hm⟩
    cases n with
    | zero => exact Except.ok.inj (h.symm.trans hn)
    | succ n =>
      obtain ⟨error, he⟩ := hm 0 n.succ_pos
      rw [h] at he
      cases he
  · rintro rfl
    exact ⟨0, count.succ_pos, h, fun m hm => absurd hm m.not_lt_zero⟩

theorem latches_succ_of_error {error : Color.TableError} (h : holder.attempt 0 = .error error) :
    holder.Latches (count + 1) tables ↔ holder.tried.Latches count tables := by
  constructor
  · rintro ⟨n, hn, ho, hm⟩
    cases n with
    | zero =>
      rw [h] at ho
      cases ho
    | succ n =>
      exact ⟨n, Nat.lt_of_succ_lt_succ hn, ho, fun m hlt => hm (m + 1) (Nat.succ_lt_succ hlt)⟩
  · rintro ⟨n, hn, ho, hm⟩
    refine ⟨n + 1, Nat.succ_lt_succ hn, ho, fun m hlt => ?_⟩
    cases m with
    | zero => exact ⟨error, h⟩
    | succ m => exact hm m (Nat.lt_of_succ_lt_succ hlt)

theorem exists_latches_iff :
    (∃ tables, holder.Latches count tables) ↔
      ∃ n < count, ∃ tables, holder.attempt n = .ok tables := by
  constructor
  · rintro ⟨tables, n, hn, ho, -⟩
    exact ⟨n, hn, tables, ho⟩
  · intro h
    classical
    obtain ⟨hn, tables, ho⟩ := Nat.find_spec h
    refine ⟨tables, Nat.find h, hn, ho, fun m hm => ?_⟩
    have first := Nat.find_min h hm
    cases ha : holder.attempt m with
    | error error => exact ⟨error, rfl⟩
    | ok found => exact absurd ⟨hm.trans hn, found, ha⟩ first

theorem iterate_asked_of_loaded (h : holder.loaded = some tables) (count : Nat) :
    asked^[count] holder = holder :=
  Function.iterate_fixed (asked_of_loaded h) count

/-- A holder that was asked a number of times has kept what the first good load gave. -/
theorem loaded_iterate_asked (h : holder.loaded = none) :
    (asked^[count] holder).loaded = some tables ↔ holder.Latches count tables := by
  induction count generalizing holder with
  | zero =>
    refine iff_of_false (fun hl => ?_) not_latches_zero
    rw [Function.iterate_zero_apply, h] at hl
    cases hl
  | succ count ih =>
    rw [Function.iterate_succ_apply, asked_of_unloaded h]
    cases ha : holder.attempt 0 with
    | ok found =>
      have hl : holder.tried.loaded = some found := by rw [tried, ha]; rfl
      rw [iterate_asked_of_loaded hl, hl, latches_succ_of_ok ha, Option.some_inj]
    | error error =>
      have hl : holder.tried.loaded = none := by rw [tried, ha]; rfl
      rw [ih hl, latches_succ_of_error ha]

/-- A holder without tables makes its next load after one for each asking. -/
theorem attempt_iterate_asked (h : (asked^[count] holder).loaded = none) (n : Nat) :
    (asked^[count] holder).attempt n = holder.attempt (n + count) := by
  induction count generalizing holder n with
  | zero => rfl
  | succ count ih =>
    rw [Function.iterate_succ_apply] at h ⊢
    cases hl : holder.loaded with
    | some found =>
      rw [asked_of_loaded hl, iterate_asked_of_loaded hl, hl] at h
      cases h
    | none =>
      rw [asked_of_unloaded hl] at h ⊢
      rw [ih h, attempt_tried]
      rfl

end Holder

namespace Session

variable {α β : Type} {work : SessionM α} {next : α → SessionM β} {wants : Bool}

/-- Work asks the holder for its tables if it wants them and leaves it alone otherwise. -/
def Asks (work : SessionM α) (wants : Bool) : Prop :=
  ∀ session : Session, (session.perform work).2.holder =
    if wants then session.holder.asked else session.holder

theorem asks_pure (a : α) : Asks (pure a) false :=
  fun _ => rfl

theorem asks_emitAll (events : List Event) : Asks (emitAll events) false :=
  fun _ => rfl

theorem Asks.bind (h : Asks work wants) (hn : ∀ a, Asks (next a) false) :
    Asks (work >>= next) wants := by
  intro session
  have hs := h session
  cases hp : session.perform work with
  | mk result after =>
    rw [hp] at hs
    cases result with
    | error error =>
      rw [perform_bind_error hp]
      exact hs
    | ok a =>
      rw [perform_bind hp]
      exact (hn a after).trans hs

theorem asks_tables : Asks tables true := by
  intro session
  obtain ⟨log, hp⟩ := session.perform_tables
  rw [hp]
  rfl

theorem asks_tablesFor (options : Color.ColorOptions) :
    Asks (tablesFor options) options.needsTables := by
  rw [tablesFor]
  cases options.needsTables with
  | true => exact asks_tables.bind fun _ => asks_pure _
  | false => exact asks_pure none

theorem computes_preload (options : Color.ColorOptions) :
    Computes (preload options) fun served => (options.lookup served).map fun _ => () :=
  (computes_tablesFor options).map fun _ => ()

theorem normalize_eq_shorten (options : Color.ColorOptions) (literal : Text) :
    normalize options literal =
      shorten options [literal] fun tables => Color.normalize options tables literal := by
  simp [normalize, shorten]

theorem computes_normalize (options : Color.ColorOptions) (literal : Text) :
    Computes (normalize options literal) fun served =>
      (options.lookup served).map fun tables => Color.normalize options tables literal := by
  rw [normalize_eq_shorten]
  exact computes_shorten options [literal] _

theorem Computes.fst_eq_error_iff {options : Color.ColorOptions} {f : Option Color.Tables → α}
    (h : Computes work fun served => (options.lookup served).map f) {session : Session}
    {error : Color.TableError} :
    (session.perform work).1 = .error error ↔
      options.needsTables = true ∧ session.holder.served = .error error := by
  rw [h.fst_perform, ← Color.ColorOptions.lookup_eq_error_iff]
  cases options.lookup session.holder.served <;> simp [Except.map]

end Session

inductive Call where
  | tables
  | preload (options : Color.ColorOptions)
  | normalize (options : Color.ColorOptions) (literal : Text)
  | build (options : Options)

namespace Call

variable {session : Session}

def Answer : Call → Type
  | .tables => Color.Tables
  | .preload _ => Unit
  | .normalize _ _ => Text
  | .build _ => Compressor

def work : (call : Call) → SessionM call.Answer
  | .tables => Session.tables
  | .preload options => Session.preload options
  | .normalize options literal => Session.normalize options literal
  | .build options => Compressor.build options

/-- The tables themselves are asked for, or a stage that looks colours up is on. -/
def wantsTables : Call → Bool
  | .tables => true
  | .preload options | .normalize options _ => options.needsTables
  | .build options => options.color.needsTables

theorem asks_work (call : Call) : Session.Asks call.work call.wantsTables := by
  cases call with
  | tables => exact Session.asks_tables
  | preload options => exact (Session.asks_tablesFor options).bind fun _ => Session.asks_pure _
  | normalize options literal =>
    apply (Session.asks_tablesFor options).bind
    intro tables
    exact (Session.asks_emitAll _).bind fun _ => Session.asks_pure _
  | build options =>
    apply Session.Asks.bind _ fun _ => Session.asks_pure _
    exact (Session.asks_tablesFor options.color).bind fun _ => Session.asks_pure _

theorem fst_perform_eq_error_iff (call : Call) {error : Color.TableError} :
    (session.perform call.work).1 = .error error ↔
      call.wantsTables = true ∧ session.holder.served = .error error := by
  cases call with
  | tables =>
    change (session.perform Session.tables).1 = _ ↔ _
    rw [Session.computes_tables.fst_perform]
    exact (and_iff_right rfl).symm
  | preload options => exact (Session.computes_preload options).fst_eq_error_iff
  | normalize options literal =>
    exact (Session.computes_normalize options literal).fst_eq_error_iff
  | build options => exact Compressor.fst_build_eq_error_iff

/-- A call succeeds unless it wants tables that are not to be had. -/
theorem exists_answer_iff (call : Call) :
    (∃ answer, (session.perform call.work).1 = .ok answer) ↔
      (call.wantsTables = true → ∃ tables, session.holder.served = .ok tables) := by
  have hf (error : Color.TableError) :
      (session.perform call.work).1 = .error error ↔
        call.wantsTables = true ∧ session.holder.served = .error error :=
    call.fst_perform_eq_error_iff
  constructor
  · rintro ⟨answer, ha⟩ hw
    cases hs : session.holder.served with
    | ok tables => exact ⟨tables, rfl⟩
    | error error =>
      have failed := (hf error).mpr ⟨hw, hs⟩
      rw [ha] at failed
      cases failed
  · intro h
    cases ha : (session.perform call.work).1 with
    | ok answer => exact ⟨answer, rfl⟩
    | error error =>
      obtain ⟨hw, hs⟩ := (hf error).mp ha
      obtain ⟨tables, ho⟩ := h hw
      rw [hs] at ho
      cases ho

theorem loaded_perform (session : Session) (call : Call) (wants : call.wantsTables = true) :
    (session.perform call.work).2.holder.loaded = session.holder.served.toOption := by
  rw [call.asks_work session, if_pos wants, Holder.loaded_asked]

end Call

namespace Session

/-- The session after some calls; one that fails does not keep the next from being made. -/
def after (session : Session) (calls : List Call) : Session :=
  calls.foldl (fun session call => (session.perform call.work).2) session

theorem holder_after (session : Session) (calls : List Call) :
    (session.after calls).holder = Holder.asked^[calls.countP Call.wantsTables] session.holder := by
  induction calls generalizing session with
  | nil => rfl
  | cons call rest ih =>
    have hs := call.asks_work session
    change ((session.perform call.work).2.after rest).holder = _
    rw [ih, hs, List.countP_cons]
    cases call.wantsTables <;> rfl

theorem loaded_after {session : Session} (fresh : session.holder.loaded = none)
    (calls : List Call) {tables : Color.Tables} :
    (session.after calls).holder.loaded = some tables ↔
      session.holder.Latches (calls.countP Call.wantsTables) tables := by
  rw [holder_after]
  exact Holder.loaded_iterate_asked fresh

theorem isLoaded_after {session : Session} (fresh : session.holder.loaded = none)
    (calls : List Call) :
    (session.after calls).holder.isLoaded = true ↔
      ∃ n < calls.countP Call.wantsTables, ∃ tables, session.holder.attempt n = .ok tables := by
  rw [Holder.isLoaded, Option.isSome_iff_exists, ← Holder.exists_latches_iff]
  simp only [loaded_after fresh]

theorem served_after_of_unloaded {session : Session} (calls : List Call)
    (unloaded : (session.after calls).holder.loaded = none) :
    (session.after calls).holder.served =
      session.holder.attempt (calls.countP Call.wantsTables) := by
  rw [Holder.served_of_unloaded unloaded]
  rw [holder_after] at unloaded ⊢
  rw [Holder.attempt_iterate_asked unloaded, Nat.zero_add]

theorem served_after_of_settled {session : Session} (fresh : session.holder.loaded = none)
    (calls : List Call) {outcome : Except Color.TableError Color.Tables}
    (settled : ∀ n, session.holder.attempt n = outcome) :
    (session.after calls).holder.served = outcome := by
  cases hl : (session.after calls).holder.loaded with
  | none => rw [served_after_of_unloaded calls hl, settled]
  | some found =>
    obtain ⟨n, -, ho, -⟩ := (loaded_after fresh calls).mp hl
    rw [Holder.served_of_loaded hl, ← ho, settled]

/--
Over any run of calls on a fresh holder, each call that wants tables makes a load until one of them
gives tables; these are kept, and handed out, ever after. While there are none, such a call comes
to what its own load comes to, and a load that fails leaves the holder unloaded. A call that wants
no tables succeeds and leaves the holder alone. Where the source always comes to the same, the
holder is loaded just when that is tables and some call has wanted them.
-/
theorem calls_latch_tables (source : Color.Source) (wording : Color.Wording)
    (orders : Nat → Color.Orders) (log : Array Event) (calls : List Call) :
    let fresh : Holder := ⟨source, wording, orders, none⟩
    let session := after ⟨fresh, log⟩ calls
    let count := calls.countP Call.wantsTables
    (∀ tables, session.holder.loaded = some tables ↔ fresh.Latches count tables) ∧
    (session.holder.isLoaded = true ↔
      ∃ n < count, ∃ tables, source.load wording (orders n) = .ok tables) ∧
    (∀ found, session.holder.loaded = some found → ∀ later,
      (session.after later).holder = session.holder ∧
        ((session.after later).perform tables).1 = .ok found ∧
        ∀ call : Call, ∃ answer, ((session.after later).perform call.work).1 = .ok answer) ∧
    (session.holder.loaded = none →
      (session.perform tables).1 = source.load wording (orders count) ∧
      ∀ call : Call, call.wantsTables = true →
        (∀ error, (session.perform call.work).1 = .error error ↔
          source.load wording (orders count) = .error error) ∧
        (session.perform call.work).2.holder.loaded =
          (source.load wording (orders count)).toOption) ∧
    (∀ call : Call, call.wantsTables = false →
      (∃ answer, (session.perform call.work).1 = .ok answer) ∧
        (session.perform call.work).2.holder = session.holder) ∧
    ∀ outcome, (∀ orders, source.load wording orders = outcome) →
      (session.holder.isLoaded = true ↔
        (∃ tables, outcome = .ok tables) ∧ ∃ call ∈ calls, call.wantsTables = true) ∧
      (session.perform tables).1 = outcome ∧
      ∀ call : Call, call.wantsTables = true → ∀ error, outcome = .error error →
        (session.perform call.work).1 = .error error ∧
          (session.perform call.work).2.holder.isLoaded = false := by
  intro fresh session count
  have unasked : (Session.mk fresh log).holder.loaded = none := rfl
  refine ⟨fun tables => loaded_after unasked calls, isLoaded_after unasked calls,
    fun found hl later => ?_, fun hl => ?_, fun call hw => ?_, fun outcome settled => ?_⟩
  · have same : (session.after later).holder = session.holder := by
      rw [holder_after, Holder.iterate_asked_of_loaded hl]
    have served : (session.after later).holder.served = .ok found := by
      rw [same, Holder.served_of_loaded hl]
    exact ⟨same, (computes_tables.fst_perform _).trans served,
      fun call => call.exists_answer_iff.mpr fun _ => ⟨found, served⟩⟩
  · have served := served_after_of_unloaded calls hl
    refine ⟨(computes_tables.fst_perform session).trans served, fun call hw => ⟨fun error => ?_, ?_⟩⟩
    · rw [call.fst_perform_eq_error_iff, and_iff_right hw, served]
      rfl
    · rw [call.loaded_perform session hw, served]
      rfl
  · refine ⟨call.exists_answer_iff.mpr fun wants => absurd wants (by simp [hw]), ?_⟩
    rw [call.asks_work session, hw]
    rfl
  · have always (n : Nat) : (Session.mk fresh log).holder.attempt n = outcome := settled (orders n)
    have served := served_after_of_settled unasked calls always
    refine ⟨?_, (computes_tables.fst_perform session).trans served, fun call hw error he => ⟨?_, ?_⟩⟩
    · rw [isLoaded_after unasked calls, ← List.countP_pos_iff]
      simp only [always]
      exact ⟨fun ⟨n, hn, ho⟩ => ⟨ho, Nat.zero_lt_of_lt hn⟩, fun ⟨ho, hp⟩ => ⟨0, hp, ho⟩⟩
    · exact call.fst_perform_eq_error_iff.mpr ⟨hw, served.trans he⟩
    · rw [Holder.isLoaded, call.loaded_perform session hw, served, he]
      rfl

/-- The same source fails in one order and loads in another. -/
example :
    let source : Color.Source :=
      ⟨.listed [("Ink".toList, "#123".toList), ("ink".toList, "oops".toList)], .listed []⟩
    let turned : Color.Orders :=
      ⟨fun _ => .startingWith ("ink".toList, "oops".toList), fun _ => .ascending⟩
    let session : Session :=
      ⟨⟨source, fun _ => "", fun n => if n = 0 then .ascending else turned, none⟩, #[]⟩
    (session.perform tables).1 = .error (.notCode "ink".toList "oops".toList) ∧
      (session.after [.tables, .tables]).holder.loaded =
        some ⟨[("ink".toList, "#123".toList)], []⟩ := by
  decide +kernel

end Session

namespace Color.ColorOptions

theorem lookup_of_reaches {options : ColorOptions} {holder later : Holder} {tables : Option Tables}
    (h : options.lookup holder.served = .ok tables) (reached : holder.Reaches later) :
    options.lookup later.served = .ok tables := by
  rw [lookup] at h ⊢
  split at h
  next needs =>
    cases hs : holder.served with
    | error error =>
      rw [hs] at h
      cases h
    | ok found =>
      rw [if_pos needs, reached.served hs, ← h, hs]
  next idle => rw [if_neg idle, h]

end Color.ColorOptions

namespace Compressor

/--
Building a compressor fails just when it needs tables that are not there yet and its load of them
fails, with the error of that load. A compressor that has been built has its tables loaded if it
needs any, and never fails from then on, whatever is asked of the holder.
-/
theorem build_error_iff_and_built_succeeds (options : Options) (session : Session) :
    (∀ error, (session.perform (build options)).1 = .error error ↔
      options.color.needsTables = true ∧ session.holder.loaded = none ∧
        session.holder.source.load session.holder.wording (session.holder.orders 0) =
          .error error) ∧
    (session.holder.Faithful → ∀ outcome,
      (∀ orders, session.holder.source.load session.holder.wording orders = outcome) →
      ∀ error, (session.perform (build options)).1 = .error error ↔
        options.color.needsTables = true ∧ outcome = .error error) ∧
    ∀ compressor after, session.perform (build options) = (.ok compressor, after) →
      compressor.options = options ∧
      (options.color.needsTables = true → after.holder.isLoaded = true) ∧
      ∀ later : Session, after.holder.Reaches later.holder →
        (∀ sheet, ∃ result final, later.perform (compressor.compress sheet) = (.ok result, final) ∧
          after.holder.Reaches final.holder) ∧
        ∀ parts, ∃ result final,
          later.perform (compressor.compressParts parts) = (.ok result, final) ∧
            after.holder.Reaches final.holder := by
  refine ⟨fun error => ?_, fun faithful outcome settled error => ?_, fun compressor after hb => ?_⟩
  · rw [fst_build_eq_error_iff, Holder.served_eq_error_iff]
    rfl
  · rw [fst_build_eq_error_iff, faithful.served_eq settled]
  · obtain ⟨rfl, -, tables, hl⟩ := of_build_eq_ok hb
    refine ⟨rfl, fun needs => ?_, fun later reached => ?_⟩
    · obtain ⟨found, served⟩ :=
        (Call.build options).exists_answer_iff.mp ⟨_, congrArg Prod.fst hb⟩ needs
      have loaded := (Call.build options).loaded_perform session needs
      change (session.perform (build options)).2.holder.loaded = _ at loaded
      rw [hb, served] at loaded
      rw [Holder.isLoaded, loaded]
      rfl
    · have hl' := Color.ColorOptions.lookup_of_reaches hl reached
      refine ⟨fun sheet => ?_, fun parts => ?_⟩
      · obtain ⟨result, final, hp, hr⟩ := compress_succeeds hl' sheet
        exact ⟨result, final, hp, reached.trans hr⟩
      · obtain ⟨result, final, hp, hr⟩ := compressParts_succeeds hl' parts
        exact ⟨result, final, hp, reached.trans hr⟩

/-- A source whose second text is no object, and one of two empty tables. -/
theorem unreadable_fails_and_loaded_compresses :
    let words := "invalid type: sequence, expected a map at line 1 column 0"
    let unreadable : Session := ⟨.orderly (.json "{}".toList "[1]".toList) fun _ => words, #[]⟩
    let fresh : Session := ⟨.orderly (.json "{}".toList "{}".toList) fun _ => words, #[]⟩
    (∀ orders, Color.Source.load (.json "{}".toList "[1]".toList) (fun _ => words) orders =
      .error (.unreadable .shortNames words)) ∧
    (unreadable.perform (build {})).1 = .error (.unreadable .shortNames words) ∧
    ∃ after, fresh.perform (build {}) = (.ok ⟨{}⟩, after) ∧
      after.holder.loaded = some ⟨[], []⟩ ∧
      ∀ sheet, ∃ result final, after.perform (compress ⟨{}⟩ sheet) = (.ok result, final) := by
  intro words unreadable fresh
  have empty : Color.Entries.read (fun _ => words) (.json "{}".toList) = .ok [] := rfl
  have settled (orders : Color.Orders) :
      Color.Source.load (.json "{}".toList "[1]".toList) (fun _ => words) orders =
        .error (.unreadable .shortNames words) := by
    have apart : Color.NodupLower [] := List.nodup_nil
    have names : (Color.Entries.json "{}".toList).load .names (fun _ => words) orders = .ok [] :=
      Color.Entries.load_eq_ok_iff.mpr
        ⟨[], empty, (Color.lowered_ofEntries apart _).symm, by simp⟩
    change Except.bind ((Color.Entries.json "{}".toList).load .names (fun _ => words) orders) _ = _
    rw [names]
    rfl
  have faithful : unreadable.holder.Faithful := by
    intro tables ht
    cases ht
  refine ⟨settled, ?_, _, rfl, rfl, fun sheet => ?_⟩
  · exact ((build_error_iff_and_built_succeeds {} unreadable).2.1 faithful _ settled _).mpr
      ⟨rfl, rfl⟩
  · obtain ⟨-, -, later⟩ := (build_error_iff_and_built_succeeds {} fresh).2.2 _ _ rfl
    obtain ⟨result, final, hp, -⟩ := (later _ .refl).1 sheet
    exact ⟨result, final, hp⟩

end Compressor

end StyleSheet
