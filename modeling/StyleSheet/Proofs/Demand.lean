import StyleSheet.Proofs.Recoloring
import StyleSheet.Proofs.Rewriting

namespace StyleSheet

namespace Value

variable {depth : Nat} {c : Char} {t value : Text}

/-- Whether there is a character other than blanks and commas in front of the first exclamation mark
outside parentheses. -/
def Inked (depth : Nat) (value : Text) : Prop :=
  ∃ before c after, value = before ++ c :: after ∧
    Hides (· = '!') depth (before ++ [c]) ∧ Text.isBlank c = false ∧ c ≠ ','

theorem isSeparator_eq_false_iff : isSeparator c = false ↔ Text.isBlank c = false ∧ c ≠ ',' := by
  simp [isSeparator]

theorem not_inked_nil (depth : Nat) : ¬Inked depth [] := by
  rintro ⟨before, c, after, he, -⟩
  simp at he

theorem inked_cons_iff :
    Inked depth (c :: t) ↔
      (depth = 0 → c ≠ '!') ∧ (isSeparator c = false ∨ Inked (nest depth c) t) := by
  constructor
  · rintro ⟨before, d, after, he, hm, hd⟩
    cases before with
    | nil =>
      cases he
      exact ⟨(hides_cons_iff.mp hm).1, .inl (isSeparator_eq_false_iff.mpr hd)⟩
    | cons first before =>
      obtain ⟨rfl, rfl⟩ := List.cons.inj he
      obtain ⟨hc, hm⟩ := hides_cons_iff.mp hm
      exact ⟨hc, .inr ⟨before, d, after, rfl, hm, hd⟩⟩
  · rintro ⟨hc, hs | ⟨before, d, after, rfl, hm, hd⟩⟩
    · exact ⟨[], c, t, rfl, hides_cons_iff.mpr ⟨hc, atEach_nil _⟩, isSeparator_eq_false_iff.mp hs⟩
    · exact ⟨c :: before, d, after, rfl, hides_cons_iff.mpr ⟨hc, hm⟩, hd⟩

theorem tokens_mark (rest : Text) : tokens ('!' :: rest) = [] :=
  rfl

theorem tokens_separator (h : isSeparator c = true) (rest : Text) :
    tokens (c :: rest) = tokens rest := by
  rw [tokens, segments, scan_separator h]
  rfl

theorem tokens_ne_nil_of_not_endsToken (h : endsToken 0 c = false) (rest : Text) :
    tokens (c :: rest) ≠ [] := by
  rw [tokens, segments, scan_extend h]
  generalize (scan (nest 0 c) rest).1 = parts
  cases parts with
  | nil => exact List.cons_ne_nil _ _
  | cons part parts => cases part <;> exact List.cons_ne_nil _ _

theorem tokens_ne_nil_iff : tokens value ≠ [] ↔ Inked 0 value := by
  induction value with
  | nil => exact iff_of_false (fun h => h rfl) (not_inked_nil 0)
  | cons c rest ih =>
    rw [inked_cons_iff]
    by_cases hm : c = '!'
    · subst hm
      exact iff_of_false (fun h => h (tokens_mark rest)) fun h => h.1 rfl rfl
    · cases hs : isSeparator c with
      | true =>
        rw [tokens_separator hs, ih, nest_of_isSeparator hs]
        simp [hm]
      | false =>
        have he : endsToken 0 c = false := by simp [endsToken, hm, hs]
        exact iff_of_true (tokens_ne_nil_of_not_endsToken he rest) ⟨fun _ => hm, .inl rfl⟩

end Value

namespace Declaration

variable {declaration : Text}

/-- Whether a property that carries colours has a value with a token in it. -/
def Inked (declaration : Text) : Prop :=
  ∃ property value, declaration = property ++ ':' :: value ∧ ':' ∉ property ∧
    carriesColor property = true ∧ Value.Inked 0 value

theorem literals_ne_nil_iff : literals declaration ≠ [] ↔ Inked declaration := by
  rw [literals]
  constructor
  · intro h
    split at h
    next => exact absurd rfl h
    next property value hc =>
      obtain ⟨hp, hc⟩ := Option.filter_eq_some_iff.mp hc
      exact ⟨property, value, (append_of_parts? hp).symm, not_mem_of_parts? hp, hc,
        Value.tokens_ne_nil_iff.mp h⟩
  · rintro ⟨property, value, rfl, hm, hc, hi⟩
    have hp : colorParts? (property ++ ':' :: value) = some (property, value) :=
      Option.filter_eq_some_iff.mpr ⟨parts?_append hm value, hc⟩
    rw [hp]
    exact Value.tokens_ne_nil_iff.mpr hi

end Declaration

theorem Body.literals_ne_nil_iff {body : Text} :
    literals body ≠ [] ↔ ∃ piece ∈ split body, Declaration.Inked piece := by
  rw [literals, ne_eq, List.flatMap_eq_nil_iff]
  simp only [Classical.not_forall, exists_prop, ← Declaration.literals_ne_nil_iff, ne_eq]

namespace Session

theorem recolored_error {options : Color.ColorOptions} (needs : options.needsTables = true)
    (body : Text) (error : Color.TableError) :
    recolored options body (.error error) =
      if (Body.literals body).isEmpty then .ok body else .error error := by
  rw [recolored, Color.ColorOptions.lookup_eq_error_iff.mpr ⟨needs, rfl⟩]
  rfl

/--
Where the tables cannot be loaded, shortening the colours of a body, token after token, succeeds if
no stage needs them. Otherwise it fails with the error of the load just when some declaration
carries colours and has a token in its value, and leaves the body as it is when it does not fail.
-/
theorem recolor_fails_iff_inked (options : Color.ColorOptions) (body : Text)
    (source : Color.Source) (wording : Color.Wording) (orders : Nat → Color.Orders)
    (log : Array Event) (error : Color.TableError)
    (broken : source.load wording (orders 0) = .error error) :
    let session : Session := ⟨⟨source, wording, orders, none⟩, log⟩
    let outcome := (session.perform (recolor options body)).1
    recolor options body = rewriteBody options body ∧
      (options.needsTables = false → ∃ result, outcome = .ok result) ∧
      (options.needsTables = true →
        (outcome = .error error ↔ ∃ piece ∈ Body.split body, Declaration.Inked piece) ∧
          (outcome ≠ .error error → outcome = .ok body)) := by
  intro session outcome
  have hs : session.holder.served = .error error := broken
  have ho : outcome = recolored options body (.error error) := by
    rw [← hs]
    exact (computes_recolor options body).fst_perform session
  refine ⟨recolor_eq_rewriteBody options body, fun off => ?_, fun needs => ?_⟩
  · have hl : options.lookup (.error error) = .ok none := by
      rw [Color.ColorOptions.lookup, off]
      rfl
    exact ⟨_, ho.trans (recolored_of_lookup hl body)⟩
  · rw [ho, recolored_error needs, ← Body.literals_ne_nil_iff, ne_eq, ← List.isEmpty_iff]
    cases (Body.literals body).isEmpty <;> simp

/-- A source that is no JSON, a body with blanks only in front of its marks, and one with a token
behind the first of them. -/
theorem recolor_fails_on_token :
    let words := "expected ident at line 1 column 2"
    let source : Color.Source := .json "nope".toList "{}".toList
    let session : Session := ⟨.orderly source fun _ => words, #[]⟩
    let idle := "color: , !red;margin:0;--fill:red;border".toList
    let asking := "color: , !red;-moz-fill: (!".toList
    source.load (fun _ => words) .ascending = .error (.unreadable .names words) ∧
      Color.ColorOptions.all.needsTables = true ∧
      (session.perform (recolor .all idle)).1 = .ok idle ∧
      (session.perform (recolor .all asking)).1 = .error (.unreadable .names words) := by
  intro words source session idle asking
  have broken : source.load (fun _ => words) .ascending = .error (.unreadable .names words) := rfl
  let orders : Nat → Color.Orders := fun _ => .ascending
  obtain ⟨-, -, hi⟩ := recolor_fails_iff_inked .all idle source _ orders #[] _ broken
  obtain ⟨-, -, ha⟩ := recolor_fails_iff_inked .all asking source _ orders #[] _ broken
  refine ⟨broken, rfl, (hi rfl).2 fun h => ?_, (ha rfl).1.mpr ?_⟩
  · exact Body.literals_ne_nil_iff.mpr ((hi rfl).1.mp h) (by decide +kernel)
  · have marks : Value.Hides (· = '!') 0 [' ', '('] :=
      Value.hides_cons_iff.mpr ⟨by decide, Value.hides_cons_iff.mpr ⟨by decide, Value.atEach_nil _⟩⟩
    exact ⟨"-moz-fill: (!".toList, by decide +kernel, "-moz-fill".toList, " (!".toList, rfl,
      by decide, by decide +kernel, [' '], '(', ['!'], rfl, marks, by decide, by decide⟩

end Session

end StyleSheet
