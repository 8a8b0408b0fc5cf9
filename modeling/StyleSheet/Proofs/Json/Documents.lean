import StyleSheet.Proofs.Json.Cursors

namespace StyleSheet.Json

/-- Space and then a character that closes no bracket. -/
def Starts (t : Text) : Prop :=
  ∃ before c rest, t = before ++ c :: rest ∧ Spaces before ∧ isSpace c = false ∧
    ∀ frame, c ≠ Frame.closing frame

theorem delimited_closing (frame : Frame) (t : Text) : Delimited (frame.closing :: t) :=
  ⟨frame.closing, t, rfl, by cases frame <;> rfl⟩

theorem Starts.spaces {before t : Text} (h : Starts t) (hs : Spaces before) :
    Starts (before ++ t) := by
  obtain ⟨others, c, rest, rfl, ho, hc⟩ := h
  exact ⟨before ++ others, c, rest, by simp, List.forall_mem_append.mpr ⟨hs, ho⟩, hc⟩

theorem Starts.append {t rest : Text} (h : Starts t) : Starts (t ++ rest) := by
  obtain ⟨before, c, others, rfl, hs, hc⟩ := h
  exact ⟨before, c, others ++ rest, by simp, hs, hc⟩

namespace Cursor

variable {σ α κ : Type} {reader : Reader σ} {cursor : Cursor σ} {wanted : Wanted σ} {c : Char}
  {t text : Text}

/-- The place where the next item inside the innermost bracket is read, if another is allowed. -/
def enter? (reader : Reader σ) (cursor : Cursor σ) : Option (Cursor σ) :=
  match cursor.frames with
  | .object :: _ => some { cursor with place := .nextKey }
  | _ => (cursor.wantedElement reader).map fun wanted => { cursor with place := .value wanted }

def entered (reader : Reader σ) (cursor : Cursor σ) (text : Text) : Option σ :=
  (cursor.enter? reader).bind (outcome reader · text)

theorem outcome_comma (taken : σ) (frame : Frame) (frames : List Frame) :
    outcome reader { taken, frames := frame :: frames, place := .after } (',' :: text) =
      entered reader { taken, frames := frame :: frames, place := .after } text := by
  have comma : isSpace ',' = false := rfl
  rw [outcome_cons, entered, enter?, step]
  cases frame with
  | object => rfl
  | array =>
    simp only [stepAfter, comma, Bool.false_eq_true, if_false]
    cases wantedElement reader { taken, frames := .array :: frames, place := .after } <;> rfl

theorem outcome_closing (taken : σ) (frame : Frame) (frames : List Frame) {place : Place σ}
    (hp : place = .opened ∨ place = .after) :
    outcome reader { taken, frames := frame :: frames, place } (frame.closing :: text) =
      outcome reader { taken, frames, place := .after } text := by
  apply outcome_of_step
  obtain rfl | rfl := hp <;> cases frame <;> rfl

theorem outcome_opened (taken : σ) (frame : Frame) (frames : List Frame) (h : Starts t) :
    outcome reader { taken, frames := frame :: frames, place := .opened } (t ++ text) =
      entered reader { taken, frames := frame :: frames, place := .after } (t ++ text) := by
  obtain ⟨before, c, rest, rfl, hs, hc, hclosing⟩ := h
  have hbrace : c ≠ '}' := hclosing .object
  have hbracket : c ≠ ']' := hclosing .array
  rw [List.append_assoc, List.cons_append, outcome_spaces rfl hs, entered]
  cases frame with
  | object =>
    change _ = outcome reader { taken, frames := .object :: frames, place := .nextKey } _
    rw [outcome_spaces rfl hs, outcome_cons, outcome_cons]
    simp only [step, stepOpened, hc, if_neg hbrace, Bool.false_eq_true, if_false]
    rfl
  | array =>
    let cursor : Cursor σ := { taken, frames := .array :: frames, place := .after }
    have inside : { cursor with place := .opened }.wantedElement reader =
        cursor.wantedElement reader := rfl
    rw [enter?, outcome_cons]
    simp only [step, stepOpened, hc, if_neg hbracket, Bool.false_eq_true, if_false]
    rw [inside]
    cases cursor.wantedElement reader with
    | none => rfl
    | some wanted =>
      simp only [Option.map_some, Option.bind_some]
      rw [outcome_spaces rfl hs, outcome_cons]
      simp only [step, hc, Bool.false_eq_true, if_false]
      rfl

/-- Inside these brackets every item is read to its end and taken in. -/
structure Takes (reader : Reader σ) (frames : List Frame) (item : Text → α → Prop)
    (take : σ → α → Option σ) : Prop where
  starts {t : Text} {a : α} : item t a → Starts t
  reads {taken : σ} {t text : Text} {a : α} : item t a → Delimited text →
    entered reader { taken, frames, place := .after } (t ++ text) =
      (take taken a).bind fun s => outcome reader { taken := s, frames, place := .after } text

namespace Takes

variable {frame : Frame} {frames : List Frame} {item : Text → α → Prop} {take : σ → α → Option σ}
  {items : List α} {taken : σ}

theorem entered_items (h : Takes reader (frame :: frames) item take) (hi : Items item t items)
    (hd : Delimited text) :
    entered reader { taken, frames := frame :: frames, place := .after } (t ++ text) =
      (items.foldlM take taken).bind fun s =>
        outcome reader { taken := s, frames := frame :: frames, place := .after } text := by
  induction hi generalizing taken with
  | @single t a ha =>
    rw [h.reads ha hd, List.foldlM_cons]
    cases take taken a <;> rfl
  | @cons t rest a items ha _ ih =>
    have hcomma : Delimited (',' :: (rest ++ text)) := ⟨',', _, rfl, rfl⟩
    rw [List.append_assoc, List.cons_append, h.reads ha hcomma, List.foldlM_cons,
      Option.bind_eq_bind, Option.bind_assoc]
    congr 1
    funext s
    rw [outcome_comma, ih]

theorem starts_items (h : Takes reader frames item take) (hi : Items item t items) : Starts t := by
  induction hi with
  | single ha => exact h.starts ha
  | cons ha _ _ => exact (h.starts ha).append

/-- The items between two brackets are taken in one after the other. -/
theorem bracketed (frame : Frame) (h : Takes reader (frame :: frames) item take)
    (hb : Bracketed frame.opening frame.closing item t items)
    (hopen : openFrame reader { taken, frames } wanted frame =
      .ok { taken, frames := frame :: frames, place := .opened }) :
    outcome reader { taken, frames, place := .value wanted } (t ++ text) =
      (items.foldlM take taken).bind fun s =>
        outcome reader { taken := s, frames, place := .after } text := by
  have opened (inner : Text) :
      outcome reader { taken, frames, place := .value wanted }
        (frame.opening :: (inner ++ [frame.closing]) ++ text) =
      outcome reader { taken, frames := frame :: frames, place := .opened }
        (inner ++ frame.closing :: text) := by
    rw [List.cons_append, List.append_assoc]
    refine (outcome_value_open { taken, frames } frame).trans ?_
    rw [hopen]
    rfl
  cases hb with
  | empty hs =>
    rw [opened, outcome_spaces rfl hs, outcome_closing taken frame frames (.inl rfl)]
    rfl
  | items hi =>
    rw [opened, outcome_opened taken frame frames (h.starts_items hi),
      h.entered_items hi (delimited_closing frame text)]
    congr 1
    funext s
    exact outcome_closing s frame frames (.inr rfl)

end Takes

/-- Wherever a value is wanted it is read to its end and taken in. -/
structure Hands (reader : Reader σ) (frames : List Frame) (value : Text → α → Prop)
    (wanted : σ → Option (Wanted σ)) (take : σ → α → Option σ) : Prop where
  starts {t : Text} {a : α} : value t a → Starts t
  reads {taken : σ} {t text : Text} {a : α} : value t a → Delimited text →
    ((wanted taken).bind fun w => outcome reader { taken, frames, place := .value w } (t ++ text)) =
      (take taken a).bind fun s => outcome reader { taken := s, frames, place := .after } text

namespace Hands

variable {frames : List Frame} {value : Text → α → Prop}

theorem spaced {wanted : σ → Option (Wanted σ)} {take : σ → α → Option σ}
    (h : Hands reader frames value wanted take) :
    Hands reader frames (Spaced value) wanted take where
  starts := by
    intro t a ht
    cases ht with
    | mk hbefore hvalue hbehind => exact ((h.starts hvalue).spaces hbefore).append
  reads := by
    intro taken t text a ht hd
    cases ht with
    | @mk before core behind a hbefore hvalue hbehind =>
      have lead (w : Wanted σ) :
          outcome reader { taken, frames, place := .value w } (before ++ core ++ behind ++ text) =
            outcome reader { taken, frames, place := .value w } (core ++ (behind ++ text)) := by
        rw [List.append_assoc, List.append_assoc]
        exact outcome_spaces rfl hbefore
      have trail (s : σ) :
          outcome reader { taken := s, frames, place := .after } (behind ++ text) =
            outcome reader { taken := s, frames, place := .after } text :=
        outcome_spaces rfl hbehind
      simp only [lead, h.reads hvalue (hd.spaces hbehind), trail]

theorem elements {take : σ → α → Option σ}
    (h : Hands reader (.array :: frames) value
      (fun taken => wantedElement reader { taken, frames := .array :: frames }) take) :
    Takes reader (.array :: frames) (Spaced value) take where
  starts := h.spaced.starts
  reads := by
    intro taken t text a ht hd
    rw [← h.spaced.reads ht hd]
    exact Option.bind_map

theorem members {name : Text → κ → Prop} {wanted : σ → κ → Option (Wanted σ)}
    {take : σ → κ × α → Option σ} (strict : Bool)
    (hs : ∀ taken, isOutermost ({ taken, frames := .object :: frames } : Cursor σ) = strict)
    (hn : ∀ {source key}, name source key → ∀ rest, ∃ t,
      Quoted.close? { strict } (source ++ '"' :: rest) = some (t, rest) ∧
      ∀ taken, wantedMember reader { taken, frames := .object :: frames } t = wanted taken key)
    (hv : ∀ key, Hands reader (.object :: frames) value (wanted · key)
      fun taken a => take taken (key, a)) :
    Takes reader (.object :: frames) (IsMember name value) take where
  starts := by
    intro t m ht
    cases ht with
    | mk hbefore _ _ _ => exact ⟨_, '"', _, rfl, hbefore, rfl, by intro frame; cases frame <;> decide⟩
  reads := by
    intro taken t text m ht hd
    cases ht with
    | @mk before source gap body key a hbefore hname hgap hbody =>
      obtain ⟨read, hclose, hread⟩ := hn hname (gap ++ ':' :: (body ++ text))
      have regroup : before ++ '"' :: (source ++ '"' :: (gap ++ ':' :: body)) ++ text =
          before ++ '"' :: (source ++ '"' :: (gap ++ ':' :: (body ++ text))) := by
        simp
      have colon (w : Wanted σ) :
          outcome reader { taken, frames := .object :: frames, place := .colon w }
            (gap ++ ':' :: (body ++ text)) =
          outcome reader { taken, frames := .object :: frames, place := .value w }
            (body ++ text) := by
        rw [outcome_spaces rfl hgap]
        exact outcome_of_step rfl
      rw [← (hv key).spaced.reads hbody hd, regroup]
      change outcome reader { taken, frames := .object :: frames, place := .nextKey } _ = _
      have quote : step reader { taken, frames := .object :: frames, place := .nextKey } '"' =
          .ok { taken, frames := .object :: frames, place := .key { strict } } := by
        rw [← hs taken]
        rfl
      have key := outcome_key reader { taken, frames := .object :: frames } { strict }
        (source ++ '"' :: (gap ++ ':' :: (body ++ text)))
      rw [outcome_spaces rfl hbefore, outcome_of_step quote, key, hclose]
      simp only [Option.bind_some, hread, colon]

end Hands

theorem starts_cons (hs : isSpace c = false) (hc : ∀ frame, c ≠ Frame.closing frame) :
    Starts (c :: t) :=
  ⟨[], c, t, rfl, by simp [Spaces], hs, hc⟩

theorem starts_of_isScalar (h : IsScalar t) : Starts t := by
  cases h with
  | null => exact starts_cons rfl (by intro frame; cases frame <;> decide)
  | bool b => cases b <;> exact starts_cons rfl (by intro frame; cases frame <;> decide)
  | number hn =>
    obtain ⟨c, rest, n, m, rfl, hstart, -⟩ := Numeral.exists_run?_of_isNumber hn
    refine starts_cons (not_isSpace_of_start? hstart) ?_
    rintro frame rfl
    cases frame <;> cases hstart
  | text => exact starts_cons rfl (by intro frame; cases frame <;> decide)

theorem starts_of_bracketed (frame : Frame) {item : Text → α → Prop} {items : List α}
    (h : Bracketed frame.opening frame.closing item t items) : Starts t := by
  cases h <;> cases frame <;> exact starts_cons rfl (by intro frame; cases frame <;> decide)

theorem foldlM_pass (taken : σ) (items : List α) :
    items.foldlM (fun s _ => some s) taken = some taken := by
  induction items with
  | nil => rfl
  | cons _ _ ih => exact ih

theorem starts_of_isNested {depth : Nat} (h : IsNested depth t) : Starts t := by
  induction depth with
  | zero => exact starts_of_isScalar h
  | succ depth ih =>
    obtain hnested | ⟨_, harray⟩ | ⟨_, hobject⟩ := h
    · exact ih hnested
    · exact starts_of_bracketed .array harray
    · exact starts_of_bracketed .object hobject

/-- Inside brackets any value is passed over, whatever is nested in it. -/
theorem hands_nested (depth : Nat) (frame : Frame) (frames : List Frame) :
    Hands reader (frame :: frames) (Verbatim (IsNested depth)) (fun _ => some .anything)
      fun taken _ => some taken := by
  -- The brackets around a value change from one depth to the next, but there is always one, so the
  -- reader is never asked about what is inside.
  induction depth generalizing frame frames with
  | zero =>
    refine ⟨fun ht => starts_of_isNested ht.1, ?_⟩
    intro taken t text source ht hd
    exact outcome_scalar { taken, frames := frame :: frames } ht.1 hd
  | succ depth ih =>
    have elements : Takes reader (.array :: frame :: frames) (Spaced (Verbatim (IsNested depth)))
        fun taken _ => some taken :=
      (ih .array (frame :: frames)).elements
    have members : Takes reader (.object :: frame :: frames)
        (IsMember (Verbatim IsQuotable) (Verbatim (IsNested depth))) fun taken _ => some taken := by
      apply Hands.members false (fun _ => rfl) ?_ fun _ => ih .object (frame :: frames)
      intro source key hname rest
      obtain ⟨t, ht⟩ := Quoted.close?_of_isQuotable (q := { strict := false }) rfl rfl hname.1
      exact ⟨t, ht, fun _ => rfl⟩
    refine ⟨fun ht => starts_of_isNested ht.1, ?_⟩
    rintro taken t text source ⟨hnested | ⟨_, harray⟩ | ⟨_, hobject⟩, rfl⟩ hd
    · exact (ih frame frames).reads ⟨hnested, rfl⟩ hd
    · refine (Takes.bracketed .array elements harray rfl).trans ?_
      rw [foldlM_pass]
    · refine (Takes.bracketed .object members hobject rfl).trans ?_
      rw [foldlM_pass]

theorem outcome_boolean_bracketed (frame : Frame) {item : Text → α → Prop} {items : List α}
    {next : Bool → σ} (h : Bracketed frame.opening frame.closing item t items) :
    outcome reader { cursor with place := .value (.bool next) } (t ++ text) =
      (bool? t).bind fun b => outcome reader { cursor with taken := next b, place := .after } text := by
  have refused (inner : Text) :
      outcome reader { cursor with place := .value (.bool next) }
        (frame.opening :: (inner ++ [frame.closing]) ++ text) = none := by
    rw [List.cons_append, outcome_value_open]
    cases frame <;> rfl
  have other (inner : Text) : bool? (frame.opening :: inner) = none := by
    cases frame <;> exact bool?_cons (by decide) (by decide)
  cases h with
  | empty | items => rw [refused, other, Option.bind_none]

theorem outcome_value_boolean (cursor : Cursor σ) {depth : Nat} {next : Bool → σ}
    (h : IsNested depth t) :
    outcome reader { cursor with place := .value (.bool next) } (t ++ text) =
      (bool? t).bind fun b => outcome reader { cursor with taken := next b, place := .after } text := by
  induction depth with
  | zero =>
    cases h with
    | null => exact outcome_value_null
    | bool b =>
      rw [outcome_value_bool, bool?_boolText]
      rfl
    | number hn =>
      obtain ⟨c, rest, n, m, rfl, hstart, -⟩ := Numeral.exists_run?_of_isNumber hn
      have ht : c ≠ 't' := by
        rintro rfl
        cases hstart
      have hf : c ≠ 'f' := by
        rintro rfl
        cases hstart
      rw [List.cons_append, outcome_value_start hstart, outcome_numeral n rfl, bool?_cons ht hf]
      rfl
    | @text source hs =>
      rw [List.cons_append, outcome_value_quote, outcome_text, bool?_cons (by decide) (by decide)]
      exact Option.bind_fun_none _
  | succ depth ih =>
    obtain hnested | ⟨_, harray⟩ | ⟨_, hobject⟩ := h
    · exact ih hnested
    · exact outcome_boolean_bracketed .array harray
    · exact outcome_boolean_bracketed .object hobject

end Cursor

open Cursor in
/-- What is read of a document is what its items make of the initial state, one after the other. -/
theorem toOption_read {σ α : Type} {reader : Reader σ} {initial : σ} (frame : Frame)
    {item : Text → α → Prop} {take : σ → α → Option σ} {text : Text} {items : List α}
    (h : Takes reader [frame] item take)
    (ht : Spaced (Bracketed frame.opening frame.closing item) text items)
    (hopen : openFrame reader { taken := initial } .document frame =
      .ok { taken := initial, frames := [frame], place := .opened }) :
    (read reader initial text).toOption = items.foldlM take initial := by
  cases ht with
  | @mk before core behind items hbefore hcore hbehind =>
    have trail (s : σ) : outcome reader { taken := s, frames := [], place := .after } behind =
        some s := by
      rw [← List.append_nil behind, outcome_spaces rfl hbehind]
      rfl
    change outcome reader { taken := initial, frames := [], place := .value .document }
      (before ++ core ++ behind) = _
    rw [List.append_assoc, outcome_spaces rfl hbefore, Takes.bracketed frame h hcore hopen]
    simp only [trail, Option.bind_fun_some]

section

open Cursor

variable {σ α : Type} {reader : Reader σ} {initial : σ} {value : Text → α → Prop} {text : Text}

theorem toOption_read_array {take : σ → α → Option σ} {elements : List α}
    (h : Hands reader [.array] value
      (fun taken => wantedElement reader { taken, frames := [.array] }) take)
    (hsome : (reader.element initial).isSome = true) (ht : IsArrayText value text elements) :
    (read reader initial text).toOption = elements.foldlM take initial := by
  apply toOption_read .array h.elements ht
  simp only [openFrame, hsome, if_true]

theorem toOption_read_object {take : σ → Text × α → Option σ} {members : List (Text × α)}
    (h : ∀ key, Hands reader [.object] value (reader.member · key)
      fun taken a => take taken (key, a))
    (ht : IsObjectText value text members) :
    (read reader initial text).toOption = members.foldlM take initial := by
  apply toOption_read .object (Hands.members true (fun _ => rfl) ?_ h) ht rfl
  intro source key hname rest
  exact ⟨key, Quoted.close?_of_spells (q := { strict := true }) rfl rfl hname, fun _ => rfl⟩

end

end StyleSheet.Json
