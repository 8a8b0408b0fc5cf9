import StyleSheet.Options
import StyleSheet.Proofs.Json.Documents

namespace StyleSheet

open Json

theorem Switch.ofKey?_key (switch : Switch) : ofKey? switch.key.toList = some switch := by
  cases switch with
  | stage s => cases s <;> decide
  | _ => decide

theorem Switch.ofKey?_eq_some_iff {name : Text} {switch : Switch} :
    ofKey? name = some switch ↔ name = switch.key.toList := by
  constructor
  · intro h
    have found := List.find?_some (p := fun switch : Switch => switch.key.toList == name) h
    exact (eq_of_beq found).symm
  · rintro rfl
    exact ofKey?_key switch

namespace Options

def valuesOf (members : List (Text × Text)) (switch : Switch) : List Text :=
  members.filterMap fun m => if m.1 = switch.key.toList then some m.2 else none

theorem valuesOf_cons (m : Text × Text) (members : List (Text × Text)) (switch : Switch) :
    valuesOf (m :: members) switch =
      if m.1 = switch.key.toList then m.2 :: valuesOf members switch else valuesOf members switch := by
  rw [valuesOf, List.filterMap_cons]
  split <;> simp_all [valuesOf]

namespace Draft

variable {draft after : Draft} {members : List (Text × Text)} {switch : Switch} {b : Bool}

/-- Takes in a member; the value of another name is passed over. -/
def takeMember (draft : Draft) (m : Text × Text) : Option Draft :=
  match Switch.ofKey? m.1 with
  | none => some draft
  | some switch => if switch ∈ draft.given then none else (bool? m.2).map (draft.give switch)

/-- Takes in an element, the value of the first switch that has none. -/
def takeElement (draft : Draft) (t : Text) : Option Draft :=
  Switch.all[draft.given.length]?.bind fun switch => (bool? t).map (draft.give switch)

theorem hands_member (key : Text) :
    Cursor.Hands reader [.object] (Verbatim IsValue) (reader.member · key)
      fun draft t => draft.takeMember (key, t) where
  starts := by
    intro t source ht
    obtain ⟨depth, hn⟩ := ht.1
    exact Cursor.starts_of_isNested hn
  reads := by
    rintro draft t text source ⟨⟨depth, hn⟩, rfl⟩ hd
    simp only [reader, takeMember]
    cases Switch.ofKey? key with
    | none => exact (Cursor.hands_nested depth .object []).reads ⟨hn, rfl⟩ hd
    | some switch =>
      dsimp only
      split
      · rfl
      · rw [Option.bind_some]
        refine (Cursor.outcome_value_boolean { taken := draft, frames := [.object] } hn).trans ?_
        rw [Option.bind_map]
        rfl

theorem hands_element :
    Cursor.Hands reader [.array] (Verbatim IsValue)
      (fun draft => Cursor.wantedElement reader { taken := draft, frames := [.array] })
      takeElement where
  starts := by
    intro t source ht
    obtain ⟨depth, hn⟩ := ht.1
    exact Cursor.starts_of_isNested hn
  reads := by
    rintro draft t text source ⟨⟨depth, hn⟩, rfl⟩ hd
    change (Option.map _ Switch.all[draft.given.length]?).bind _ = _
    rw [takeElement, Option.bind_map]
    cases Switch.all[draft.given.length]? with
    | none => rfl
    | some switch =>
      refine (Cursor.outcome_value_boolean { taken := draft, frames := [.array] } hn).trans ?_
      rw [Option.bind_some, Option.bind_map]
      rfl

/-- Each switch has at most one value, a truth value, and none if it was given one before. -/
def Fits (draft : Draft) (members : List (Text × Text)) : Prop :=
  ∀ switch, valuesOf members switch = [] ∨
    switch ∉ draft.given ∧ ∃ b, valuesOf members switch = [boolText b]

theorem takeMember_cases {m : Text × Text} (h : draft.takeMember m = some after) :
    ((∀ switch : Switch, m.1 ≠ switch.key.toList) ∧ after = draft) ∨
    ∃ switch b, m = (switch.key.toList, boolText b) ∧ switch ∉ draft.given ∧
      after = draft.give switch b := by
  obtain ⟨key, t⟩ := m
  unfold takeMember at h
  split at h
  next hnone =>
    cases h
    refine .inl ⟨?_, rfl⟩
    intro switch hkey
    rw [Switch.ofKey?_eq_some_iff.mpr hkey] at hnone
    cases hnone
  next switch hsome =>
    split at h
    next => cases h
    next hfresh =>
      obtain ⟨b, hb, rfl⟩ := Option.map_eq_some_iff.mp h
      have hkey := Switch.ofKey?_eq_some_iff.mp hsome
      exact .inr ⟨switch, b, Prod.ext hkey (bool?_eq_some_iff.mp hb), hfresh, rfl⟩

theorem takeMember_key (hs : switch ∉ draft.given) (t : Text) :
    draft.takeMember (switch.key.toList, t) = (bool? t).map (draft.give switch) := by
  simp only [takeMember, Switch.ofKey?_key, if_neg hs]

theorem takeMember_other {m : Text × Text} (h : ∀ switch : Switch, m.1 ≠ switch.key.toList) :
    draft.takeMember m = some draft := by
  have none : Switch.ofKey? m.1 = none := by
    rw [Option.eq_none_iff_forall_ne_some]
    exact fun switch hs => h switch (Switch.ofKey?_eq_some_iff.mp hs)
  rw [takeMember, none]

theorem valuesOf_cons_other {m : Text × Text} (h : m.1 ≠ switch.key.toList) :
    valuesOf (m :: members) switch = valuesOf members switch := by
  rw [valuesOf_cons, if_neg h]

theorem valuesOf_cons_key (switch : Switch) (t : Text) :
    valuesOf ((switch.key.toList, t) :: members) switch = t :: valuesOf members switch := by
  rw [valuesOf_cons, if_pos rfl]

theorem key_ne {other : Switch} (h : switch ≠ other) : switch.key.toList ≠ other.key.toList := by
  intro he
  have hs := Switch.ofKey?_key switch
  rw [he, Switch.ofKey?_key other] at hs
  exact h (Option.some.inj hs).symm

/-- Members that are taken in fit, and they override what was given before. -/
theorem fits_of_foldlM (h : members.foldlM takeMember draft = some after) :
    draft.Fits members ∧ ∀ switch,
      (valuesOf members switch = [] → after.options.get switch = draft.options.get switch) ∧
      ∀ b, valuesOf members switch = [boolText b] → after.options.get switch = b := by
  induction members generalizing draft with
  | nil =>
    cases h
    exact ⟨fun _ => .inl rfl, fun _ => ⟨fun _ => rfl, fun _ hb => absurd hb (List.cons_ne_nil _ _).symm⟩⟩
  | cons m members ih =>
    rw [List.foldlM_cons] at h
    obtain ⟨next, hnext, h⟩ := Option.bind_eq_some_iff.mp h
    obtain ⟨hfits, hvalues⟩ := ih h
    obtain ⟨hother, rfl⟩ | ⟨found, value, rfl, hfresh, rfl⟩ := takeMember_cases hnext
    · constructor
      · intro switch
        rw [valuesOf_cons_other (hother switch)]
        exact hfits switch
      · intro switch
        rw [valuesOf_cons_other (hother switch)]
        exact hvalues switch
    · have hrest : valuesOf members found = [] := by
        obtain hnone | ⟨hagain, -⟩ := hfits found
        · exact hnone
        · exact absurd List.mem_cons_self hagain
      constructor
      · intro switch
        by_cases hs : found = switch
        · rw [← hs, valuesOf_cons_key, hrest]
          exact .inr ⟨hfresh, value, rfl⟩
        · rw [valuesOf_cons_other (key_ne hs)]
          obtain hnone | ⟨hother, hb⟩ := hfits switch
          · exact .inl hnone
          · exact .inr ⟨fun hm => hother (List.mem_cons_of_mem found hm), hb⟩
      · intro switch
        by_cases hs : found = switch
        · rw [← hs, valuesOf_cons_key, hrest]
          refine ⟨fun he => absurd he (List.cons_ne_nil _ _), ?_⟩
          intro b hb
          have hvalue : bool? (boolText value) = bool? (boolText b) := by rw [(List.cons.inj hb).1]
          rw [bool?_boolText, bool?_boolText, Option.some.injEq] at hvalue
          rw [(hvalues found).1 hrest, ← hvalue, give, get_set, if_pos rfl]
        · rw [valuesOf_cons_other (key_ne hs)]
          refine ⟨?_, (hvalues switch).2⟩
          intro hnone
          rw [(hvalues switch).1 hnone, give, get_set, if_neg hs]

theorem foldlM_of_fits (h : draft.Fits members) :
    ∃ after, members.foldlM takeMember draft = some after := by
  induction members generalizing draft with
  | nil => exact ⟨draft, rfl⟩
  | cons m members ih =>
    rw [List.foldlM_cons]
    by_cases hother : ∀ switch : Switch, m.1 ≠ switch.key.toList
    · rw [takeMember_other hother]
      apply ih
      intro switch
      have fits := h switch
      rw [valuesOf_cons_other (hother switch)] at fits
      exact fits
    · obtain ⟨key, t⟩ := m
      obtain ⟨found, rfl⟩ : ∃ found : Switch, key = found.key.toList := by
        simpa using hother
      have fits := h found
      rw [valuesOf_cons_key] at fits
      obtain hnone | ⟨hfresh, value, hvalue⟩ := fits
      · exact absurd hnone (List.cons_ne_nil _ _)
      · obtain ⟨rfl, hrest⟩ := List.cons.inj hvalue
        rw [takeMember_key hfresh, bool?_boolText]
        apply ih
        intro switch
        by_cases hs : found = switch
        · exact .inl (hs ▸ hrest)
        · have fits := h switch
          rw [valuesOf_cons_other (key_ne hs)] at fits
          obtain hnone | ⟨hfresh, hb⟩ := fits
          · exact .inl hnone
          · exact .inr ⟨List.not_mem_cons_of_ne_of_not_mem (Ne.symm hs) hfresh, hb⟩

theorem not_mem_take (n : Fin Switch.all.length) : Switch.all[n] ∉ Switch.all.take n := by
  revert n
  decide

theorem foldlM_takeElement {texts : List Text} {n : Nat}
    (hn : n + texts.length ≤ Switch.all.length) (hd : draft.given = (Switch.all.take n).reverse) :
    texts.foldlM takeElement draft =
      (((Switch.all.drop n).map fun switch => switch.key.toList).zip texts).foldlM takeMember
        draft := by
  induction texts generalizing n draft with
  | nil => rw [List.zip_nil_right, List.foldlM_nil, List.foldlM_nil]
  | cons t texts ih =>
    rw [List.length_cons] at hn
    have hlt : n < Switch.all.length := by omega
    have hlength : draft.given.length = n := by
      rw [hd, List.length_reverse, List.length_take, Nat.min_eq_left (Nat.le_of_lt hlt)]
    have hfresh : Switch.all[n] ∉ draft.given := by
      rw [hd, List.mem_reverse]
      exact not_mem_take ⟨n, hlt⟩
    rw [List.drop_eq_getElem_cons hlt, List.map_cons, List.zip_cons_cons, List.foldlM_cons,
      List.foldlM_cons, takeMember_key hfresh, takeElement, hlength, List.getElem?_eq_getElem hlt,
      Option.bind_some]
    cases bool? t with
    | none => rfl
    | some b =>
      apply ih (by omega)
      rw [give, hd, List.take_succ_eq_append_getElem hlt, List.reverse_append]
      rfl

theorem foldlM_truthValues {values : List Bool}
    (h : draft.given.length + values.length ≤ Switch.all.length) :
    ∃ after, (values.map boolText).foldlM takeElement draft = some after := by
  induction values generalizing draft with
  | nil => exact ⟨draft, rfl⟩
  | cons b values ih =>
    rw [List.length_cons] at h
    have hlt : draft.given.length < Switch.all.length := by omega
    rw [List.map_cons, List.foldlM_cons, takeElement, List.getElem?_eq_getElem hlt,
      Option.bind_some, bool?_boolText]
    apply ih
    rw [give, List.length_cons]
    omega

end Draft

variable {text array : Text} {members : List (Text × Text)} {texts : List Text}

theorem toOption_ofJson (text : Text) :
    (ofJson text).toOption = (Json.read reader {} text).toOption.map Draft.options := by
  rw [ofJson]
  cases Json.read reader {} text <;> rfl

theorem toOption_ofJson_object (h : IsObjectText (Verbatim IsValue) text members) :
    (ofJson text).toOption = (members.foldlM Draft.takeMember {}).map Draft.options := by
  rw [toOption_ofJson, toOption_read_object Draft.hands_member h]

theorem toOption_ofJson_array (h : IsArrayText (Verbatim IsValue) array texts) :
    (ofJson array).toOption = (texts.foldlM Draft.takeElement {}).map Draft.options := by
  rw [toOption_ofJson, toOption_read_array Draft.hands_element (by decide) h]

theorem ofJson_of_fits (h : IsObjectText (Verbatim IsValue) text members)
    (hf : Draft.Fits {} members) :
    ∃ options, ofJson text = .ok options ∧ ∀ switch,
      (valuesOf members switch = [] → options.get switch = ({} : Options).get switch) ∧
      ∀ b, valuesOf members switch = [boolText b] → options.get switch = b := by
  obtain ⟨after, hfold⟩ := Draft.foldlM_of_fits hf
  refine ⟨after.options, ok_of_toOption ?_, (Draft.fits_of_foldlM hfold).2⟩
  rw [toOption_ofJson_object h, hfold]
  rfl

theorem ofJson_of_not_fits (h : IsObjectText (Verbatim IsValue) text members)
    (hf : ¬Draft.Fits {} members) : ∃ problem, ofJson text = .error problem := by
  apply error_of_toOption
  rw [toOption_ofJson_object h]
  cases hfold : members.foldlM Draft.takeMember {} with
  | none => rfl
  | some after => exact absurd (Draft.fits_of_foldlM hfold).1 hf

theorem ofJson_array {values : List Bool} (hn : values.length ≤ Switch.all.length)
    (ha : IsArrayText (Verbatim IsValue) array (values.map boolText))
    (ho : IsObjectText (Verbatim IsValue) text
      ((Switch.all.map fun switch => switch.key.toList).zip (values.map boolText))) :
    ∃ options, ofJson array = .ok options ∧ ofJson text = .ok options := by
  have free : ({} : Draft).given.length + values.length ≤ Switch.all.length := by
    rw [List.length_nil]
    omega
  have listed : 0 + (values.map boolText).length ≤ Switch.all.length := by
    rw [List.length_map]
    omega
  obtain ⟨after, hfold⟩ := Draft.foldlM_truthValues free
  have same := Draft.foldlM_takeElement listed (rfl : ({} : Draft).given = _)
  rw [List.drop_zero] at same
  refine ⟨after.options, ok_of_toOption ?_, ok_of_toOption ?_⟩
  · rw [toOption_ofJson_array ha, hfold]
    rfl
  · rw [toOption_ofJson_object ho, ← same, hfold]
    rfl

/--
Members of any names and values are written by some text, and however they are written, reading
them overrides the defaults just where a switch is given one truth value. A switch that is given
twice, or anything else, is an error. An array gives the switches in their order.
-/
theorem ofJson_reads_back (members : List (Text × Text)) (hv : ∀ m ∈ members, IsValue m.2) :
    (∃ text, IsObjectText (Verbatim IsValue) text members) ∧
    ∀ text, IsObjectText (Verbatim IsValue) text members →
      ((∀ switch, valuesOf members switch = [] ∨ ∃ b, valuesOf members switch = [boolText b]) →
        ∃ options, ofJson text = .ok options ∧ ∀ switch,
          (valuesOf members switch = [] → options.get switch = ({} : Options).get switch) ∧
          ∀ b, valuesOf members switch = [boolText b] → options.get switch = b) ∧
      (∀ switch, (1 < (valuesOf members switch).length ∨
          ∃ t ∈ valuesOf members switch, ∀ b, t ≠ boolText b) →
        ∃ problem, ofJson text = .error problem) ∧
      ∀ values : List Bool, values.length ≤ Switch.all.length →
        members = (Switch.all.map fun switch => switch.key.toList).zip (values.map boolText) →
        (∃ array, IsArrayText (Verbatim IsValue) array (values.map boolText)) ∧
        ∀ array, IsArrayText (Verbatim IsValue) array (values.map boolText) →
          ∃ options, ofJson array = .ok options ∧ ofJson text = .ok options := by
  have written : ∃ text, IsObjectText (Verbatim IsValue) text members :=
    exists_isObjectText fun m hm => ⟨m.2, hv m hm, rfl⟩
  refine ⟨written, fun text ht => ⟨?_, ?_, ?_⟩⟩
  · intro hgiven
    apply ofJson_of_fits ht
    intro switch
    exact (hgiven switch).imp_right fun hb => ⟨List.not_mem_nil, hb⟩
  · intro switch hbad
    apply ofJson_of_not_fits ht
    intro hf
    obtain hnone | ⟨-, b, hb⟩ := hf switch
    · rw [hnone] at hbad
      simp at hbad
    · rw [hb] at hbad
      obtain hmany | ⟨t, hmem, hother⟩ := hbad
      · exact absurd hmany (Nat.lt_irrefl 1)
      · exact hother b (List.mem_singleton.mp hmem)
  · rintro values hn rfl
    constructor
    · apply exists_isArrayText
      intro t ht
      obtain ⟨b, -, rfl⟩ := List.mem_map.mp ht
      exact ⟨_, ⟨0, .bool b⟩, rfl⟩
    · exact fun array ha => ofJson_array hn ha ht

/-- A switch between members that are passed over, an array with an object in it among them. -/
def switchAmongOthers : List (Text × Text) :=
  [("\"".toList, "[\x7b\"]\":null\x7d,-1]".toList), ("rm-multi-define".toList, boolText false),
    ("\"".toList, "null".toList)]

theorem isValue_switchAmongOthers : ∀ m ∈ switchAmongOthers, IsValue m.2 := by
  have name : Verbatim IsQuotable [']'] [']'] :=
    ⟨.plain ⟨by decide, by decide, by decide⟩ .nil, rfl⟩
  have object : IsNested 1 ('{' :: ('"' :: ([']'] ++ '"' :: ':' :: "null".toList) ++ ['}'])) :=
    .inr (.inr ⟨_, .items (.single (.bare name ⟨.null, rfl⟩))⟩)
  have whole : IsWhole ['1'] := .digits ⟨by decide, by simp⟩ (by decide)
  have number : IsNested 1 (['-'] ++ ['1'] ++ [] ++ []) :=
    .inl (.number (.mk (.inr rfl) whole .none .none))
  have elements : Items (Spaced (Verbatim (IsNested 1))) _ _ :=
    .cons (.bare ⟨object, rfl⟩) (.single (.bare ⟨number, rfl⟩))
  have array : IsNested 2 _ := .inr (.inl ⟨_, .items elements⟩)
  intro m hm
  obtain rfl | rfl | rfl : m = _ ∨ m = _ ∨ m = _ := by
    simpa [switchAmongOthers] using hm
  · exact ⟨2, array⟩
  · exact ⟨0, .bool false⟩
  · exact ⟨0, .null⟩

theorem ofJson_reads_back_among_others :
    (∀ m ∈ switchAmongOthers, IsValue m.2) ∧
    ∃ text options, IsObjectText (Verbatim IsValue) text switchAmongOthers ∧
      ofJson text = .ok options ∧ options.get .prune = false ∧ options.get .mergeBodies = true := by
  refine ⟨isValue_switchAmongOthers, ?_⟩
  obtain ⟨⟨text, ht⟩, hread⟩ := ofJson_reads_back switchAmongOthers isValue_switchAmongOthers
  have fits (switch : Switch) : valuesOf switchAmongOthers switch = [] ∨
      ∃ b, valuesOf switchAmongOthers switch = [boolText b] := by
    cases switch with
    | prune => exact .inr ⟨false, by decide⟩
    | stage s => cases s <;> exact .inl (by decide)
    | keepOrder | mergeSelectors | mergeBodies => exact .inl (by decide)
  obtain ⟨options, hok, hget⟩ := (hread text ht).1 fits
  exact ⟨text, options, ht, hok, (hget .prune).2 false (by decide),
    (hget .mergeBodies).1 (by decide)⟩

end Options

end StyleSheet
