import StyleSheet.Proofs.Json.Grammar

namespace StyleSheet.Json

theorem unescape?_eq_some_iff {c d : Char} :
    Quoted.unescape? c = some d ↔ (c, d) ∈ escapes := by
  unfold Quoted.unescape?
  split <;> simp_all [escapes, eq_comm]

namespace Quoted

variable {q next : Quoted} {c d : Char} {t rest digits : Text} {high : Option Nat} {value : Nat}

theorem utf8Size_of_digit? {n : Nat} (h : digit? c = some n) : c.utf8Size = 1 := by
  rw [Char.utf8Size_eq_one_iff]
  unfold digit? at h
  simp only [Char.le_def] at h
  split at h
  next hc => exact UInt32.le_trans hc.2 (by decide)
  next =>
    split at h
    next hc => exact UInt32.le_trans hc.2 (by decide)
    next =>
      split at h
      next hc => exact UInt32.le_trans hc.2 (by decide)
      next => cases h

/-- Reads on to the closing quote: the text read, and what stands behind the quote. -/
def close? : Quoted → Text → Option (Text × Text)
  | _, [] => none
  | q, c :: rest =>
    match q.step c with
    | .ok (some next) => close? next rest
    | .ok none => some (q.text, rest)
    | .error _ => none

theorem close?_cons_of_step (h : q.step c = .ok (some next)) :
    close? q (c :: rest) = close? next rest := by
  rw [close?, h]

theorem text_push (q : Quoted) (c : Char) : (q.push c).text = q.text ++ [c] :=
  List.reverse_cons

theorem step_plain (hp : q.phase = .plain) (hc : IsPlain c) : q.step c = .ok (some (q.push c)) := by
  obtain ⟨hlow, hquote, hslash⟩ := hc
  simp only [step, hp, if_neg hquote, if_neg hslash, if_neg (Nat.not_lt.mpr hlow)]

theorem step_backslash (hp : q.phase = .plain) :
    q.step '\\' = .ok (some { q with phase := .escape }) := by
  simp only [step, hp]
  rfl

theorem step_escape (hp : q.phase = .escape) (hc : (c, d) ∈ escapes) :
    q.step c = .ok (some (q.push d)) := by
  have hu : c ≠ 'u' := by
    rintro rfl
    simp [escapes] at hc
  simp only [step, hp, if_neg hu, unescape?_eq_some_iff.mpr hc]

theorem step_u (hp : q.phase = .escape) :
    q.step 'u' = .ok (some { q with phase := .unicode none 0 (some 0) }) := by
  simp only [step, hp]
  rfl

theorem pushUnit_phase (q : Quoted) (phase : Phase) (high : Option Nat) (value : Nat) :
    { q with phase := phase }.pushUnit high value = q.pushUnit high value :=
  rfl

/-- The digits of an escape are read one by one; the last of four tells what they stand for. -/
theorem close?_digits {bytes n : Nat} (hp : q.phase = .unicode high bytes (some n))
    (hl : bytes + digits.length = 4) (hn : digits ≠ [])
    (hv : digits.foldlM (fun n c => (digit? c).map fun d => 16 * n + d) n = some value) :
    close? q (digits ++ rest) = (q.pushUnit high value).toOption.bind (close? · rest) := by
  induction digits generalizing q bytes n with
  | nil => exact absurd rfl hn
  | cons c digits ih =>
    rw [List.foldlM_cons] at hv
    obtain ⟨m, hm, hv⟩ := Option.bind_eq_some_iff.mp hv
    obtain ⟨d, hd, rfl⟩ := Option.map_eq_some_iff.mp hm
    rw [List.length_cons] at hl
    have hpush : q.pushDigit high bytes (some n) c =
        if bytes + 1 < 4 then .ok { q with phase := .unicode high (bytes + 1) (some (16 * n + d)) }
        else q.pushUnit high (16 * n + d) := by
      simp only [pushDigit, utf8Size_of_digit? hd, Option.bind_some, hd, Option.map_some]
    cases digits with
    | nil =>
      cases hv
      rw [List.length_nil] at hl
      rw [List.cons_append, close?, step, hp]
      dsimp only
      rw [hpush, if_neg (by omega)]
      cases q.pushUnit high (16 * n + d) <;> rfl
    | cons e digits =>
      rw [List.length_cons] at hl
      have hs : q.step c =
          .ok (some { q with phase := .unicode high (bytes + 1) (some (16 * n + d)) }) := by
        rw [step, hp]
        dsimp only
        rw [hpush, if_pos (by omega)]
        rfl
      rw [List.cons_append, close?_cons_of_step hs, ih rfl (by rw [List.length_cons]; omega)
        (List.cons_ne_nil e digits) hv, pushUnit_phase]

theorem close?_unit (hp : q.phase = .unicode high 0 (some 0)) (hu : IsUnit digits value) :
    close? q (digits ++ rest) = (q.pushUnit high value).toOption.bind (close? · rest) := by
  obtain ⟨hl, hv⟩ := hu
  refine close?_digits hp (by omega) ?_ hv
  rintro rfl
  cases hl

theorem close?_u_unit (hp : q.phase = .plain) (hu : IsUnit digits value) :
    close? q ('\\' :: 'u' :: (digits ++ rest)) =
      (q.pushUnit none value).toOption.bind (close? · rest) := by
  rw [close?_cons_of_step (step_backslash hp), close?_cons_of_step (step_u rfl),
    close?_unit rfl hu]
  rfl

theorem close?_spelled {chunk : Text} (hs : q.strict = true) (hp : q.phase = .plain)
    (h : Spelled chunk c) : close? q (chunk ++ rest) = close? (q.push c) rest := by
  induction h with
  | plain hc => exact close?_cons_of_step (step_plain hp hc)
  | escape hc =>
    rw [List.cons_append, close?_cons_of_step (step_backslash hp)]
    exact close?_cons_of_step (step_escape rfl hc)
  | unit hu hhigh hlow =>
    rw [List.cons_append, List.cons_append, close?_u_unit hp hu]
    simp only [pushUnit, hs, hhigh, hlow, if_true]
    rfl
  | @pair first second high low hfirst hsecond hhigh hlow =>
    have hnot : isLowSurrogate high = false := by
      simp only [isHighSurrogate, isLowSurrogate, Bool.and_eq_true, decide_eq_true_eq,
        Bool.and_eq_false_iff, decide_eq_false_iff_not] at hhigh ⊢
      omega
    have half : q.pushUnit none high = .ok { q with phase := .half high } := by
      simp only [pushUnit, hs, hhigh, hnot, if_true]
      rfl
    have whole : q.pushUnit (some high) low = .ok (q.push (Char.ofNat (combine high low))) := by
      simp only [pushUnit, hs, hlow, if_true]
    have slash : { q with phase := .half high }.step '\\' =
        .ok (some { q with phase := .halfEscape high }) := rfl
    have u : { q with phase := .halfEscape high }.step 'u' =
        .ok (some { q with phase := .unicode (some high) 0 (some 0) }) := rfl
    rw [List.cons_append, List.cons_append, List.append_assoc, close?_u_unit hp hfirst, half]
    simp only [Except.toOption, Option.bind_some, List.cons_append]
    rw [close?_cons_of_step slash, close?_cons_of_step u, close?_unit rfl hsecond, pushUnit_phase,
      whole]
    rfl

theorem close?_quote (hp : q.phase = .plain) : close? q ('"' :: rest) = some (q.text, rest) := by
  rw [close?, step, hp]
  rfl

/-- A strict string that is spelled out is read as the text it writes. -/
theorem close?_of_spells {source : Text} (hs : q.strict = true) (hp : q.phase = .plain)
    (h : Spells source t) : close? q (source ++ '"' :: rest) = some (q.text ++ t, rest) := by
  induction h generalizing q with
  | nil =>
    rw [List.nil_append, close?_quote hp, List.append_nil]
  | @cons chunk source text c hc _ ih =>
    have pushed : (q.push c).strict = true := hs
    rw [List.append_assoc, close?_spelled hs hp hc, ih pushed rfl, text_push, List.append_assoc]
    rfl

theorem close?_of_isQuotable {source : Text} (hs : q.strict = false) (hp : q.phase = .plain)
    (h : IsQuotable source) : ∃ t, close? q (source ++ '"' :: rest) = some (t, rest) := by
  induction h generalizing q with
  | nil => exact ⟨q.text, close?_quote hp⟩
  | plain hc _ ih =>
    rw [List.cons_append, close?_cons_of_step (step_plain hp hc)]
    exact ih hs rfl
  | escape hc _ ih =>
    rw [List.cons_append, List.cons_append, close?_cons_of_step (step_backslash hp),
      close?_cons_of_step (step_escape rfl hc)]
    exact ih hs rfl
  | @unit digits source value hu _ ih =>
    have passed : q.pushUnit none value = .ok { q with phase := .plain } := by
      simp only [pushUnit, hs]
      rfl
    rw [List.cons_append, List.cons_append, List.append_assoc, close?_u_unit hp hu, passed]
    exact ih hs rfl

/-- What a strict string has read of an escape. After a digit that is none it cannot go on. -/
inductive Lead : Phase → Text → Prop where
  | plain : Lead .plain []
  | escape : Lead .escape ['\\']
  | first {digits : Text} {value : Nat} : digits.length < 4 → hexValue? digits = some value →
      Lead (.unicode none digits.length (some value)) ('\\' :: 'u' :: digits)
  | half {first : Text} {high : Nat} : IsUnit first high → isHighSurrogate high = true →
      Lead (.half high) ('\\' :: 'u' :: first)
  | halfEscape {first : Text} {high : Nat} : IsUnit first high → isHighSurrogate high = true →
      Lead (.halfEscape high) ('\\' :: 'u' :: (first ++ ['\\']))
  | second {first digits : Text} {high value : Nat} : IsUnit first high →
      isHighSurrogate high = true → digits.length < 4 → hexValue? digits = some value →
      Lead (.unicode (some high) digits.length (some value))
        ('\\' :: 'u' :: (first ++ '\\' :: 'u' :: digits))
  | stray {high : Option Nat} {bytes : Nat} {lead : Text} : Lead (.unicode high bytes none) lead

theorem hexValue?_append {n m : Nat} (h : hexValue? digits = some n) (hc : digit? c = some m) :
    hexValue? (digits ++ [c]) = some (16 * n + m) := by
  rw [hexValue?] at h
  rw [hexValue?, List.foldlM_append, h]
  simp [hc]

theorem pushDigit_cases {n : Nat} (h : q.pushDigit high digits.length (some n) c = .ok next)
    (hv : hexValue? digits = some n) (hl : digits.length < 4) :
    (∃ bytes, next = { q with phase := .unicode high bytes none }) ∨
    (∃ value, (digits ++ [c]).length < 4 ∧ hexValue? (digits ++ [c]) = some value ∧
      next = { q with phase := .unicode high (digits ++ [c]).length (some value) }) ∨
    ∃ value, IsUnit (digits ++ [c]) value ∧ q.pushUnit high value = .ok next := by
  simp only [pushDigit, Option.bind_some] at h
  cases hd : digit? c with
  | none =>
    rw [hd] at h
    split at h
    next =>
      cases h
      exact .inl ⟨_, rfl⟩
    next => cases h
  | some d =>
    have hlength : (digits ++ [c]).length = digits.length + 1 := List.length_append
    have hvalue := hexValue?_append hv hd
    rw [hd, utf8Size_of_digit? hd, ← hlength] at h
    split at h
    next hshort =>
      cases h
      exact .inr (.inl ⟨_, hshort, hvalue, rfl⟩)
    next hfull => exact .inr (.inr ⟨_, ⟨by omega, hvalue⟩, h⟩)

theorem pushDigit_of_step {bytes : Nat} {seen : Option Nat}
    (hp : q.phase = .unicode high bytes seen) (h : q.step c = .ok (some next)) :
    q.pushDigit high bytes seen c = .ok next := by
  rw [step, hp] at h
  dsimp only at h
  cases hpush : q.pushDigit high bytes seen c with
  | error => rw [hpush] at h; cases h
  | ok after => rw [hpush] at h; cases h; rfl

theorem pushUnit_none_cases (hs : q.strict = true) (hu : IsUnit digits value)
    (h : q.pushUnit none value = .ok next) :
    (isHighSurrogate value = true ∧ next = { q with phase := .half value }) ∨
      ∃ d, Spelled ('\\' :: 'u' :: digits) d ∧ next = q.push d := by
  rw [pushUnit, if_pos hs] at h
  cases hlow : isLowSurrogate value with
  | true =>
    rw [hlow] at h
    cases h
  | false =>
    cases hhigh : isHighSurrogate value with
    | true =>
      rw [hlow, hhigh] at h
      cases h
      exact .inl ⟨rfl, rfl⟩
    | false =>
      rw [hlow, hhigh] at h
      cases h
      exact .inr ⟨_, .unit hu hhigh hlow, rfl⟩

/-- A character either leads further into an escape or completes the spelling of a character. -/
theorem Lead.step {lead : Text} (hl : Lead q.phase lead) (hs : q.strict = true)
    (h : q.step c = .ok (some next)) :
    (∃ phase, Lead phase (lead ++ [c]) ∧ next = { q with phase := phase }) ∨
    ∃ d, Spelled (lead ++ [c]) d ∧ next = q.push d := by
  generalize hp : q.phase = phase at hl
  cases hl with
  | plain =>
    rw [Quoted.step, hp] at h
    dsimp only at h
    split at h
    next => cases h
    next hquote =>
      split at h
      next hslash =>
        cases h
        rw [hslash]
        exact .inl ⟨_, .escape, rfl⟩
      next hslash =>
        split at h
        next => cases h
        next hlow =>
          cases h
          exact .inr ⟨c, .plain ⟨Nat.not_lt.mp hlow, hquote, hslash⟩, rfl⟩
  | escape =>
    rw [Quoted.step, hp] at h
    dsimp only at h
    split at h
    next hu =>
      cases h
      rw [hu]
      have short : ([] : Text).length < 4 := by decide
      exact .inl ⟨_, .first short rfl, rfl⟩
    next =>
      split at h
      next d hd =>
        cases h
        exact .inr ⟨d, .escape (unescape?_eq_some_iff.mp hd), rfl⟩
      next => cases h
  | @first digits n hshort hv =>
    obtain ⟨bytes, rfl⟩ | ⟨value, hshort, hvalue, rfl⟩ | ⟨value, hunit, hpush⟩ :=
      pushDigit_cases (pushDigit_of_step hp h) hv hshort
    · exact .inl ⟨_, .stray, rfl⟩
    · exact .inl ⟨_, .first hshort hvalue, rfl⟩
    · obtain ⟨hhigh, rfl⟩ | spelled := pushUnit_none_cases hs hunit hpush
      · exact .inl ⟨_, .half hunit hhigh, rfl⟩
      · exact .inr spelled
  | half hfirst hhigh =>
    rw [Quoted.step, hp] at h
    dsimp only at h
    split at h
    next hslash =>
      cases h
      rw [hslash]
      exact .inl ⟨_, .halfEscape hfirst hhigh, rfl⟩
    next => cases h
  | @halfEscape first high hfirst hhigh =>
    rw [Quoted.step, hp] at h
    dsimp only at h
    split at h
    next hu =>
      cases h
      have short : ([] : Text).length < 4 := by decide
      have lead := Lead.second hfirst hhigh short rfl
      rw [hu]
      exact .inl ⟨_, by simpa using lead, rfl⟩
    next => cases h
  | @second first digits high n hfirst hhigh hshort hv =>
    have regroup : '\\' :: 'u' :: (first ++ '\\' :: 'u' :: digits) ++ [c] =
        '\\' :: 'u' :: (first ++ '\\' :: 'u' :: (digits ++ [c])) := by
      simp
    rw [regroup]
    obtain ⟨bytes, rfl⟩ | ⟨value, hshort, hvalue, rfl⟩ | ⟨value, hunit, hpush⟩ :=
      pushDigit_cases (pushDigit_of_step hp h) hv hshort
    · exact .inl ⟨_, .stray, rfl⟩
    · exact .inl ⟨_, .second hfirst hhigh hshort hvalue, rfl⟩
    · simp only [pushUnit, hs, if_true] at hpush
      split at hpush
      next hlow =>
        cases hpush
        exact .inr ⟨_, .pair hfirst hunit hhigh hlow, rfl⟩
      next => cases hpush
  | stray =>
    have hpush := pushDigit_of_step hp h
    simp only [pushDigit, Option.bind_none] at hpush
    split at hpush
    next =>
      cases hpush
      exact .inl ⟨_, .stray, rfl⟩
    next => cases hpush

theorem eq_quote_of_step (h : q.step c = .ok none) : q.phase = .plain ∧ c = '"' := by
  cases hp : q.phase with
  | plain =>
    rw [step, hp] at h
    dsimp only at h
    split at h
    next hc => exact ⟨rfl, hc⟩
    next =>
      split at h
      next => cases h
      next => split at h <;> cases h
  | escape =>
    rw [step, hp] at h
    dsimp only at h
    split at h
    next => cases h
    next => split at h <;> cases h
  | unicode high bytes value =>
    rw [step, hp] at h
    dsimp only at h
    cases hpush : q.pushDigit high bytes value c <;> rw [hpush] at h <;> cases h
  | half | halfEscape =>
    rw [step, hp] at h
    dsimp only at h
    split at h <;> cases h

theorem spells_of_close? {text lead : Text} (hl : Lead q.phase lead) (hs : q.strict = true)
    (h : close? q text = some (t, rest)) :
    ∃ source body, text = source ++ '"' :: rest ∧ Spells (lead ++ source) body ∧
      t = q.text ++ body := by
  induction text generalizing q lead with
  | nil => cases h
  | cons c text ih =>
    rw [close?] at h
    split at h
    next after hstep =>
      obtain ⟨phase, hnext, rfl⟩ | ⟨d, hd, rfl⟩ := hl.step hs hstep
      · have rest := ih (q := { q with phase := phase }) hnext hs h
        obtain ⟨source, body, rfl, hbody, rfl⟩ := rest
        rw [List.append_assoc] at hbody
        exact ⟨c :: source, body, rfl, hbody, rfl⟩
      · have rest := ih (q := q.push d) .plain hs h
        obtain ⟨source, body, rfl, hbody, rfl⟩ := rest
        refine ⟨c :: source, d :: body, rfl, ?_, ?_⟩
        · simpa using Spells.cons hd hbody
        · simp [text_push]
    next hstep =>
      cases h
      obtain ⟨hp, rfl⟩ := eq_quote_of_step hstep
      rw [hp] at hl
      cases hl
      exact ⟨[], [], rfl, .nil, (List.append_nil _).symm⟩
    next => cases h

end Quoted

end StyleSheet.Json
