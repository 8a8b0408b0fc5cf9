import StyleSheet.Proofs.Json.Documents

namespace StyleSheet.Json

/-- Every member has to be a string, and no array will do. -/
structure Reader.WantsTexts {σ : Type} (reader : Reader σ) : Prop where
  member : ∀ taken name, ∃ next, reader.member taken name = some (.text next)
  element : ∀ taken, reader.element taken = none

def Wanted.IsWhole {σ : Type} : Wanted σ → Prop
  | .document | .text _ => True
  | .anything | .bool _ => False

namespace Cursor

variable {σ : Type} {reader : Reader σ} {cursor : Cursor σ} {wanted : Wanted σ} {taken result : σ}
  {c : Char} {text : Text}

theorem hands_text (frames : List Frame) (next : σ → Text → σ) :
    Hands reader frames IsString (fun taken => some (.text (next taken)))
      fun taken value => some (next taken value) where
  starts := by
    rintro t value ⟨source, -, rfl⟩
    exact starts_cons rfl (by intro frame; cases frame <;> decide)
  reads := by
    rintro taken t text value ⟨source, hs, rfl⟩ -
    have regroup : '"' :: (source ++ ['"']) ++ text = '"' :: (source ++ '"' :: text) := by simp
    have strict : (!(Wanted.text (next taken)).isAnything) = true := rfl
    rw [regroup]
    refine (outcome_value_quote { taken, frames }).trans ?_
    refine (outcome_text { taken, frames } _).trans ?_
    rw [strict, Quoted.close?_of_spells rfl rfl hs]
    rfl

theorem exists_behind_spaces (hp : cursor.place.skips = true)
    (hf : (finish cursor).toOption = none) (h : outcome reader cursor text = some result) :
    ∃ before c rest, text = before ++ c :: rest ∧ Spaces before ∧ isSpace c = false ∧
      outcome reader cursor (c :: rest) = some result := by
  induction text with
  | nil =>
    change (finish cursor).toOption = some result at h
    rw [hf] at h
    cases h
  | cons c text ih =>
    cases hc : isSpace c with
    | true =>
      rw [outcome_of_step (step_space hp hc)] at h
      obtain ⟨before, d, rest, rfl, hs, hd, h⟩ := ih h
      exact ⟨c :: before, d, rest, rfl, List.forall_mem_cons.mpr ⟨hc, hs⟩, hd, h⟩
    | false => exact ⟨[], c, text, rfl, spaces_nil, hc, h⟩

theorem exists_expected {mark : Char} {next : Cursor σ} (hp : cursor.place.skips = true)
    (hf : (finish cursor).toOption = none) (hmark : step reader cursor mark = .ok next)
    (hother : ∀ c, isSpace c = false → c ≠ mark → step reader cursor c = .error .malformed)
    (h : outcome reader cursor text = some result) :
    ∃ before rest, text = before ++ mark :: rest ∧ Spaces before ∧
      outcome reader next rest = some result := by
  obtain ⟨before, c, rest, rfl, hbefore, hc, h⟩ := exists_behind_spaces hp hf h
  by_cases hm : c = mark
  · rw [hm, outcome_of_step hmark] at h
    exact ⟨before, rest, by rw [hm], hbefore, h⟩
  · rw [outcome_of_error (hother c hc hm)] at h
    cases h

theorem outcome_word_refused (word : Text) {scalar : Scalar}
    (h : ∀ cursor : Cursor σ, (cursor.accept wanted scalar).toOption = none) :
    outcome reader { cursor with place := .word word scalar wanted } text = none := by
  induction text generalizing word with
  | nil => rfl
  | cons c text ih =>
    cases word with
    | nil => exact outcome_of_error rfl
    | cons d word =>
      rw [outcome_cons, step]
      dsimp only
      split
      · rfl
      · split
        · rw [h]
          rfl
        · exact ih word

theorem isAnything_of_isWhole (hw : wanted.IsWhole) : wanted.isAnything = false := by
  cases wanted with
  | anything => cases hw
  | document | bool | text => rfl

theorem accept_word (hw : wanted.IsWhole) {scalar : Scalar}
    (hs : scalar = .null ∨ ∃ b, scalar = .bool b) (cursor : Cursor σ) :
    (cursor.accept wanted scalar).toOption = none := by
  cases wanted with
  | anything | bool => cases hw
  | document | text => obtain rfl | ⟨b, rfl⟩ := hs <;> rfl

theorem outcome_value_refused (hw : wanted.IsWhole) (hc : isSpace c = false) (hquote : c ≠ '"')
    (hopen : ∀ frame, c ≠ Frame.opening frame) :
    outcome reader { cursor with place := .value wanted } (c :: text) = none := by
  rw [outcome_cons, step]
  simp only [hc, Bool.false_eq_true, if_false]
  unfold beginValue
  split
  · exact absurd rfl hquote
  · exact absurd rfl (hopen .array)
  · exact absurd rfl (hopen .object)
  · exact outcome_word_refused _ (accept_word hw (.inr ⟨true, rfl⟩))
  · exact outcome_word_refused _ (accept_word hw (.inr ⟨false, rfl⟩))
  · exact outcome_word_refused _ (accept_word hw (.inl rfl))
  · split
    next n _ => exact outcome_numeral n (isAnything_of_isWhole hw)
    next => rfl

theorem outcome_value_cases (cursor : Cursor σ) (hw : wanted.IsWhole) (hc : isSpace c = false)
    (h : outcome reader { cursor with place := .value wanted } (c :: text) = some result) :
    (c = '"' ∧
      outcome reader { cursor with place := .text { strict := true } wanted } text = some result) ∨
    ∃ frame : Frame, c = frame.opening ∧
      (cursor.openFrame reader wanted frame).toOption.bind (outcome reader · text) =
        some result := by
  by_cases hquote : c = '"'
  · rw [hquote, outcome_value_quote, isAnything_of_isWhole hw] at h
    exact .inl ⟨hquote, h⟩
  · by_cases hopen : ∃ frame, c = Frame.opening frame
    · obtain ⟨frame, hframe⟩ := hopen
      rw [hframe, outcome_value_open] at h
      exact .inr ⟨frame, hframe, h⟩
    · rw [outcome_value_refused hw hc hquote (not_exists.mp hopen)] at h
      cases h

theorem exists_isString {next : Text → σ} {frames : List Frame}
    (h : outcome reader { taken, frames, place := .value (.text next) } text = some result) :
    ∃ before t value rest, text = before ++ t ++ rest ∧ Spaces before ∧ IsString t value ∧
      outcome reader { taken := next value, frames, place := .after } rest = some result := by
  have whole : (Wanted.text next).IsWhole := trivial
  obtain ⟨before, c, rest, rfl, hbefore, hc, h⟩ := exists_behind_spaces rfl rfl h
  obtain ⟨rfl, h⟩ | ⟨frame, -, h⟩ := outcome_value_cases { taken, frames } whole hc h
  · obtain ⟨⟨value, rest⟩, hclose, h⟩ := Option.bind_eq_some_iff.mp
      ((outcome_text { taken, frames } _).symm.trans h)
    obtain ⟨source, body, rfl, hspells, hvalue⟩ := Quoted.spells_of_close? .plain rfl hclose
    cases (hvalue : value = body)
    exact ⟨before, _, body, rest, by simp, hbefore, ⟨source, hspells, rfl⟩, h⟩
  · cases frame <;> cases h

theorem exists_behind_member
    (h : outcome reader { taken, frames := [.object], place := .after } text = some result) :
    ∃ behind c rest, text = behind ++ c :: rest ∧ Spaces behind ∧
      (c = ',' ∧ outcome reader { taken, frames := [.object], place := .nextKey } rest =
        some result ∨
      c = '}' ∧ outcome reader { taken, frames := [], place := .after } rest = some result) := by
  obtain ⟨behind, c, rest, rfl, hbehind, hc, h⟩ := exists_behind_spaces rfl rfl h
  refine ⟨behind, c, rest, rfl, hbehind, ?_⟩
  by_cases hcomma : c = ','
  · rw [hcomma, outcome_comma] at h
    exact .inl ⟨hcomma, h⟩
  · by_cases hbrace : c = '}'
    · rw [hbrace] at h
      exact .inr ⟨hbrace, (outcome_closing taken .object [] (.inr rfl)).symm.trans h⟩
    · have refused : step reader { taken, frames := [.object], place := .after } c =
          .error .malformed := by
        simp only [step, stepAfter, hc, Bool.false_eq_true, if_false]
        split <;> simp_all
      rw [outcome_of_error refused] at h
      cases h

theorem spaces_of_outcome (h : outcome reader { taken, frames := [], place := .after } text =
    some result) : Spaces text := by
  induction text with
  | nil => exact spaces_nil
  | cons c text ih =>
    cases hc : isSpace c with
    | true =>
      rw [outcome_of_step (step_space rfl hc)] at h
      exact List.forall_mem_cons.mpr ⟨hc, ih h⟩
    | false =>
      have refused : step reader { taken, frames := [], place := .after } c =
          .error .malformed := by
        simp only [step, stepAfter, hc, Bool.false_eq_true, if_false]
      rw [outcome_of_error refused] at h
      cases h

theorem step_nextKey_refused (hc : isSpace c = false) (hquote : c ≠ '"') :
    step reader { taken, frames := [.object], place := .nextKey } c = .error .malformed := by
  simp only [step, hc, if_neg hquote, Bool.false_eq_true, if_false]

theorem step_colon_refused {frames : List Frame} (hc : isSpace c = false) (hcolon : c ≠ ':') :
    step reader { taken, frames, place := .colon wanted } c = .error .malformed := by
  simp only [step, hc, if_neg hcolon, Bool.false_eq_true, if_false]

/-- A member that is taken in has been written out, and a comma or the end of the object follows. -/
theorem exists_member (hr : reader.WantsTexts)
    (h : outcome reader { taken, frames := [.object], place := .nextKey } text = some result) :
    ∃ t m c rest after, text = t ++ c :: rest ∧ IsMember Spells IsString t m ∧
      (c = ',' ∧ outcome reader { taken := after, frames := [.object], place := .nextKey } rest =
        some result ∨
      c = '}' ∧ outcome reader { taken := after, frames := [], place := .after } rest =
        some result) := by
  obtain ⟨before, text, rfl, hbefore, h⟩ :=
    exists_expected rfl rfl rfl (fun _ => step_nextKey_refused) h
  have hkey := outcome_key reader { taken, frames := [.object] } { strict := true } text
  obtain ⟨⟨name, rest⟩, hclose, hname⟩ := Option.bind_eq_some_iff.mp (hkey.symm.trans h)
  obtain ⟨source, key, rfl, hspells, -⟩ := Quoted.spells_of_close? .plain rfl hclose
  obtain ⟨wanted, hwanted, hcolon⟩ := Option.bind_eq_some_iff.mp hname
  obtain ⟨next, hnext⟩ := hr.member taken name
  have texts : wanted = .text next := Option.some.inj (hwanted.symm.trans hnext)
  subst texts
  obtain ⟨gap, rest, rfl, hgap, hvalue⟩ :=
    exists_expected rfl rfl rfl (fun _ => step_colon_refused) hcolon
  obtain ⟨lead, t, value, rest, rfl, hlead, hstring, hafter⟩ := exists_isString hvalue
  obtain ⟨behind, c, rest, rfl, hbehind, hgoes⟩ := exists_behind_member hafter
  refine ⟨_, (key, value), c, rest, _, ?_,
    .mk hbefore hspells hgap (.mk hlead hstring hbehind), hgoes⟩
  simp

theorem exists_members (hr : reader.WantsTexts)
    (h : outcome reader { taken, frames := [.object], place := .nextKey } text = some result) :
    ∃ t members rest, text = t ++ '}' :: rest ∧ Items (IsMember Spells IsString) t members ∧
      Spaces rest := by
  -- A member takes away characters of the text, and what was taken in so far does not matter.
  induction hn : text.length using Nat.strongRecOn generalizing text taken with
  | ind n ih =>
    obtain ⟨t, m, c, rest, after, rfl, hm, ⟨rfl, hnext⟩ | ⟨rfl, hend⟩⟩ := exists_member hr h
    · rw [List.length_append, List.length_cons] at hn
      obtain ⟨t', members, trail, rfl, hitems, htrail⟩ := ih rest.length (by omega) hnext rfl
      exact ⟨t ++ ',' :: t', m :: members, trail, by simp, .cons hm hitems, htrail⟩
    · exact ⟨t, [m], rest, rfl, .single hm, spaces_of_outcome hend⟩

theorem exists_opened
    (h : outcome reader { taken, frames := [.object], place := .opened } text = some result) :
    (∃ before rest, text = before ++ '}' :: rest ∧ Spaces before ∧ Spaces rest) ∨
    outcome reader { taken, frames := [.object], place := .nextKey } text = some result := by
  obtain ⟨before, c, rest, rfl, hbefore, hc, h⟩ := exists_behind_spaces rfl rfl h
  by_cases hbrace : c = '}'
  · rw [hbrace] at h
    have closed := (outcome_closing taken .object [] (.inl rfl)).symm.trans h
    exact .inl ⟨before, rest, by rw [hbrace], hbefore, spaces_of_outcome closed⟩
  · right
    rw [outcome_spaces rfl hbefore]
    rw [outcome_cons, step] at h ⊢
    simp only [stepOpened, hc, if_neg hbrace, Bool.false_eq_true, if_false] at h ⊢
    exact h

end Cursor

open Cursor in
/-- Only an object of strings is read. -/
theorem exists_isObjectText_of_read {σ : Type} {reader : Reader σ} (hr : reader.WantsTexts)
    {initial result : σ} {text : Text} (h : read reader initial text = .ok result) :
    ∃ members, IsObjectText IsString text members := by
  have hread : outcome reader { taken := initial, frames := [], place := .value .document } text =
      some result := congrArg Except.toOption h
  have whole : (Wanted.document : Wanted σ).IsWhole := trivial
  obtain ⟨before, c, rest, rfl, hbefore, hc, hrest⟩ := exists_behind_spaces rfl rfl hread
  obtain ⟨-, htext⟩ | ⟨frame, hframe, hopen⟩ :=
    outcome_value_cases { taken := initial } whole hc hrest
  · obtain ⟨read, -, haccept⟩ := Option.bind_eq_some_iff.mp
      ((outcome_text { taken := initial } _).symm.trans htext)
    cases haccept
  · cases frame with
    | array =>
      have refused : openFrame reader { taken := initial } .document .array =
          .error .mistyped := by
        simp [openFrame, hr.element]
      rw [refused] at hopen
      cases hopen
    | object =>
      change c = '{' at hframe
      subst hframe
      obtain ⟨inner, rest, rfl, hinner, htrail⟩ | hmembers := exists_opened hopen
      · have written : IsObjectText IsString _ _ := .mk hbefore (.empty hinner) htrail
        exact ⟨[], by simpa using written⟩
      · obtain ⟨t, members, rest, rfl, hitems, htrail⟩ := exists_members hr hmembers
        have written : IsObjectText IsString _ _ := .mk hbefore (.items hitems) htrail
        exact ⟨members, by simpa using written⟩

def collector : Reader (List (Text × Text)) where
  member members key := some (.text fun value => members ++ [(key, value)])
  element _ := none

theorem foldlM_collect (members front : List (Text × Text)) :
    members.foldlM (fun front m => some (front ++ [m])) front = some (front ++ members) := by
  induction members generalizing front with
  | nil => rw [List.append_nil, List.foldlM_nil]; rfl
  | cons m members ih =>
    refine (ih (front ++ [m])).trans ?_
    rw [List.append_assoc, List.singleton_append]

/-- The members that a text writes can be computed, so there is at most one list of them. -/
theorem isObjectText_iff_read {text : Text} {members : List (Text × Text)} :
    IsObjectText IsString text members ↔ read collector [] text = .ok members := by
  have read_eq {members : List (Text × Text)} (h : IsObjectText IsString text members) :
      (read collector [] text).toOption = some members := by
    have hands (key : Text) : Cursor.Hands collector [.object] IsString
        (collector.member · key) fun members value => some (members ++ [(key, value)]) :=
      Cursor.hands_text [.object] fun members value => members ++ [(key, value)]
    exact (toOption_read_object hands h).trans (foldlM_collect members [])
  constructor
  · exact fun h => ok_of_toOption (read_eq h)
  · intro h
    obtain ⟨others, ho⟩ := exists_isObjectText_of_read ⟨fun _ _ => ⟨_, rfl⟩, fun _ => rfl⟩ h
    have same := read_eq ho
    rw [h] at same
    cases Option.some.inj same
    exact ho

end StyleSheet.Json
