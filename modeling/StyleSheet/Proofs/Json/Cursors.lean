import StyleSheet.Json.Document
import StyleSheet.Proofs.Json.Strings
import StyleSheet.Proofs.Json.Numbers

namespace StyleSheet.Json

theorem ok_of_toOption {ε α : Type} {result : Except ε α} {a : α} (h : result.toOption = some a) :
    result = .ok a := by
  cases result with
  | error => cases h
  | ok =>
    cases h
    rfl

theorem error_of_toOption {ε α : Type} {result : Except ε α} (h : result.toOption = none) :
    ∃ problem, result = .error problem := by
  cases result with
  | error problem => exact ⟨problem, rfl⟩
  | ok => cases h

/-- A value may end before this text. -/
def Delimited (t : Text) : Prop :=
  ∃ c rest, t = c :: rest ∧ isDelimiter c = true

def Place.skips {σ : Type} : Place σ → Bool
  | .value _ | .opened | .nextKey | .colon _ | .after => true
  | .key _ | .text _ _ | .word _ _ _ | .numeral _ _ => false

def Frame.opening : Frame → Char
  | .array => '['
  | .object => '{'

def Frame.closing : Frame → Char
  | .array => ']'
  | .object => '}'

theorem Delimited.spaces {before t : Text} (h : Delimited t) (hs : Spaces before) :
    Delimited (before ++ t) := by
  cases before with
  | nil => exact h
  | cons c before =>
    refine ⟨c, before ++ t, rfl, ?_⟩
    simp [isDelimiter, hs c List.mem_cons_self]

namespace Cursor

variable {σ : Type} {reader : Reader σ} {cursor next : Cursor σ} {wanted : Wanted σ} {c : Char}
  {t text : Text}

/-- What comes of a cursor by the end of a text; all problems are one. -/
def outcome (reader : Reader σ) (cursor : Cursor σ) (text : Text) : Option σ :=
  (text.foldlM (step reader) cursor >>= finish).toOption

theorem outcome_cons (reader : Reader σ) (cursor : Cursor σ) (c : Char) (text : Text) :
    outcome reader cursor (c :: text) =
      (step reader cursor c).toOption.bind (outcome reader · text) := by
  rw [outcome, List.foldlM_cons]
  cases step reader cursor c <;> rfl

theorem outcome_of_step (h : step reader cursor c = .ok next) :
    outcome reader cursor (c :: text) = outcome reader next text := by
  rw [outcome_cons, h]
  rfl

theorem outcome_of_error {problem : Problem} (h : step reader cursor c = .error problem) :
    outcome reader cursor (c :: text) = none := by
  rw [outcome_cons, h]
  rfl

theorem step_space (hp : cursor.place.skips = true) (hc : isSpace c = true) :
    step reader cursor c = .ok cursor := by
  obtain ⟨taken, frames, place⟩ := cursor
  cases place with
  | value | opened | nextKey | colon | after => simp only [step, stepAfter, hc, if_true]
  | key | text | word | numeral => cases hp

theorem outcome_spaces (hp : cursor.place.skips = true) (hs : Spaces t) :
    outcome reader cursor (t ++ text) = outcome reader cursor text := by
  induction t with
  | nil => rfl
  | cons c t ih =>
    obtain ⟨hc, hs⟩ := List.forall_mem_cons.mp hs
    rw [List.cons_append, outcome_of_step (step_space hp hc), ih hs]

theorem outcome_key (reader : Reader σ) (cursor : Cursor σ) (q : Quoted) (text : Text) :
    outcome reader { cursor with place := .key q } text =
      (q.close? text).bind fun read => (cursor.wantedMember reader read.1).bind fun wanted =>
        outcome reader { cursor with place := .colon wanted } read.2 := by
  induction text generalizing q with
  | nil => rfl
  | cons c text ih =>
    rw [outcome_cons, Quoted.close?, step]
    dsimp only
    cases q.step c with
    | error => rfl
    | ok read =>
      cases read with
      | some q => exact ih q
      | none =>
        have same : { cursor with place := .key q }.wantedMember reader q.text =
            cursor.wantedMember reader q.text := rfl
        simp only [bind, Except.bind, same, Option.bind_some]
        cases cursor.wantedMember reader q.text <;> rfl

theorem accept_place (place : Place σ) (wanted : Wanted σ) (scalar : Scalar) :
    { cursor with place := place }.accept wanted scalar = cursor.accept wanted scalar := by
  cases wanted <;> cases scalar <;> rfl

theorem outcome_text (cursor : Cursor σ) (q : Quoted) :
    outcome reader { cursor with place := .text q wanted } text =
      (q.close? text).bind fun read => (cursor.accept wanted (.text read.1)).toOption.bind
        (outcome reader · read.2) := by
  induction text generalizing q with
  | nil => rfl
  | cons c text ih =>
    rw [outcome_cons, Quoted.close?, step]
    dsimp only
    cases q.step c with
    | error => rfl
    | ok read =>
      cases read with
      | some q => exact ih q
      | none =>
        rw [← accept_place (.text q wanted)]
        rfl

theorem outcome_word (word : Text) (scalar : Scalar) (h : word ≠ []) :
    outcome reader { cursor with place := .word word scalar wanted } (word ++ text) =
      (cursor.accept wanted scalar).toOption.bind (outcome reader · text) := by
  induction word with
  | nil => exact absurd rfl h
  | cons c word ih =>
    rw [List.cons_append, outcome_cons, step]
    cases word with
    | nil =>
      rw [← accept_place (.word [c] scalar wanted)]
      simp
    | cons d word =>
      rw [← ih (List.cons_ne_nil d word)]
      simp [Except.toOption]

theorem step_numeral (n : Numeral) :
    step reader { cursor with place := .numeral n wanted } c =
      match n.step c with
      | .more next => .ok { cursor with place := .numeral next wanted }
      | .bad => .error .malformed
      | .stop => (cursor.accept wanted (.number n)).bind (stepAfter reader · c) := by
  rw [← accept_place (.numeral n wanted)]
  rfl

theorem outcome_run {n m : Numeral} (h : n.run? t = some m) :
    outcome reader { cursor with place := .numeral n wanted } (t ++ text) =
      outcome reader { cursor with place := .numeral m wanted } text := by
  induction t generalizing n with
  | nil =>
    cases h
    rfl
  | cons c t ih =>
    rw [Numeral.run?, List.foldlM_cons] at h
    cases hstep : n.step c with
    | more next =>
      rw [hstep] at h
      rw [List.cons_append, outcome_of_step (by rw [step_numeral, hstep])]
      exact ih h
    | stop | bad =>
      rw [hstep] at h
      cases h

theorem outcome_delimiter {n : Numeral} (hn : n.isComplete = true) (hc : isDelimiter c = true) :
    outcome reader { cursor with place := .numeral n .anything } (c :: text) =
      outcome reader { cursor with place := .after } (c :: text) := by
  rw [outcome_cons, outcome_cons, step_numeral, Numeral.step_delimiter hn hc]
  rfl

theorem accept_number (cursor : Cursor σ) (n : Numeral) (hw : wanted.isAnything = false) :
    ∃ problem, cursor.accept wanted (.number n) = .error problem := by
  cases wanted with
  | anything => cases hw
  | document | bool | text => exact ⟨_, rfl⟩

theorem outcome_numeral (n : Numeral) (hw : wanted.isAnything = false) :
    outcome reader { cursor with place := .numeral n wanted } text = none := by
  induction text generalizing n with
  | nil =>
    obtain ⟨problem, hp⟩ := accept_number { cursor with place := .numeral n wanted } n hw
    change (finish { cursor with place := .numeral n wanted }).toOption = none
    simp only [finish, hp, hw, Bool.false_eq_true, if_false]
    split <;> rfl
  | cons c text ih =>
    obtain ⟨problem, hp⟩ := accept_number cursor n hw
    rw [outcome_cons, step_numeral, hp]
    cases n.step c with
    | more next => exact ih next
    | bad | stop => rfl

theorem outcome_value_quote (cursor : Cursor σ) :
    outcome reader { cursor with place := .value wanted } ('"' :: text) =
      outcome reader { cursor with place := .text { strict := !wanted.isAnything } wanted } text :=
  outcome_of_step rfl

theorem outcome_value_bool (b : Bool) :
    outcome reader { cursor with place := .value wanted } (boolText b ++ text) =
      (cursor.accept wanted (.bool b)).toOption.bind (outcome reader · text) := by
  cases b with
  | false =>
    rw [← outcome_word "alse".toList (.bool false) (by decide)]
    exact outcome_of_step rfl
  | true =>
    rw [← outcome_word "rue".toList (.bool true) (by decide)]
    exact outcome_of_step rfl

theorem outcome_value_null :
    outcome reader { cursor with place := .value wanted } ("null".toList ++ text) =
      (cursor.accept wanted .null).toOption.bind (outcome reader · text) := by
  rw [← outcome_word "ull".toList .null (by decide)]
  exact outcome_of_step rfl

theorem outcome_value_open (cursor : Cursor σ) (frame : Frame) :
    outcome reader { cursor with place := .value wanted } (frame.opening :: text) =
      (cursor.openFrame reader wanted frame).toOption.bind (outcome reader · text) := by
  have hplace : { cursor with place := .value wanted }.openFrame reader wanted frame =
      cursor.openFrame reader wanted frame := by
    cases wanted <;> cases frame <;> rfl
  rw [outcome_cons, ← hplace]
  cases frame <;> rfl

theorem not_isSpace_of_start? {n : Numeral} (h : Numeral.start? c = some n) : isSpace c = false := by
  rw [← Bool.not_eq_true]
  intro hs
  have hlisted : c ∈ [' ', '\t', '\n', '\r'] := by
    simpa [isSpace, or_assoc] using hs
  have none : [' ', '\t', '\n', '\r'].all (fun c => Numeral.start? c = none) = true := by
    decide
  rw [of_decide_eq_true (List.all_eq_true.mp none c hlisted)] at h
  cases h

theorem outcome_value_start {n : Numeral} (h : Numeral.start? c = some n) :
    outcome reader { cursor with place := .value wanted } (c :: text) =
      outcome reader { cursor with place := .numeral n wanted } text := by
  apply outcome_of_step
  simp only [step, not_isSpace_of_start? h, Bool.false_eq_true, if_false]
  unfold beginValue
  split
  iterate 6 cases h
  rw [h]

theorem outcome_scalar (cursor : Cursor σ) (h : IsScalar t) (hd : Delimited text) :
    outcome reader { cursor with place := .value .anything } (t ++ text) =
      outcome reader { cursor with place := .after } text := by
  cases h with
  | null => exact outcome_value_null
  | bool b => exact outcome_value_bool b
  | number hn =>
    obtain ⟨c, rest, n, m, rfl, hstart, hrun, hm⟩ := Numeral.exists_run?_of_isNumber hn
    obtain ⟨d, text, rfl, hd⟩ := hd
    rw [List.cons_append, outcome_value_start hstart, outcome_run hrun, outcome_delimiter hm hd]
  | @text source hs =>
    have regroup : '"' :: (source ++ ['"']) ++ text = '"' :: (source ++ '"' :: text) := by simp
    obtain ⟨name, hclose⟩ := Quoted.close?_of_isQuotable (q := { strict := false }) rfl rfl hs
    rw [regroup, outcome_value_quote, outcome_text, Wanted.isAnything, Bool.not_true, hclose]
    rfl

end Cursor

end StyleSheet.Json
