import StyleSheet.Body

namespace StyleSheet.Body

/-- Whether the last character is a backslash; `escaped` says it of the empty text. -/
def endsEscaped (escaped : Bool) (t : Text) : Bool :=
  (t.getLast?.map (· == '\\')).getD escaped

theorem endsEscaped_cons (escaped : Bool) (c : Char) (cs : Text) :
    endsEscaped escaped (c :: cs) = endsEscaped (c == '\\') cs := by
  cases cs with
  | nil => rfl
  | cons d ds => simp [endsEscaped, List.getLast?_cons]

theorem endsEscaped_eq_false_iff {front : Text} :
    endsEscaped false front = false ↔ front.getLast? ≠ some '\\' := by
  cases h : front.getLast? <;> simp [endsEscaped, h]

theorem modifyHead_append {pieces : List Text} (h : pieces ≠ []) (f : Text → Text)
    (others : List Text) : (pieces ++ others).modifyHead f = pieces.modifyHead f ++ others := by
  cases pieces with
  | nil => exact absurd rfl h
  | cons p ps => rfl

/-- A semicolon that no backslash precedes separates the pieces around it. -/
theorem splitFrom_append_semicolon {escaped : Bool} {front : Text}
    (h : endsEscaped escaped front = false) (rest : Text) :
    splitFrom escaped (front ++ ';' :: rest) = splitFrom escaped front ++ splitFrom false rest := by
  induction front generalizing escaped with
  | nil =>
    have he : escaped = false := h
    simp [splitFrom, he]
  | cons c cs ih =>
    rw [List.cons_append, splitFrom, splitFrom]
    by_cases hc : c = ';' ∧ escaped = false
    · rw [endsEscaped_cons] at h
      have hs : (c == '\\') = false := by rw [hc.1]; rfl
      rw [if_pos hc, if_pos hc, List.cons_append, ih (hs ▸ h)]
    · rw [endsEscaped_cons] at h
      rw [if_neg hc, if_neg hc, ih h, modifyHead_append (splitFrom_ne_nil _ _)]

theorem splitFrom_concat {escaped : Bool} {front : Text} {c : Char}
    (h : ¬(c = ';' ∧ endsEscaped escaped front = false)) :
    ∃ pieces last, splitFrom escaped (front ++ [c]) = pieces ++ [last ++ [c]] := by
  induction front generalizing escaped with
  | nil =>
    have hc : ¬(c = ';' ∧ escaped = false) := h
    exact ⟨[], [], by simp [splitFrom, hc]⟩
  | cons d ds ih =>
    rw [endsEscaped_cons] at h
    rw [List.cons_append, splitFrom]
    by_cases hd : d = ';' ∧ escaped = false
    · have hs : (d == '\\') = false := by rw [hd.1]; rfl
      obtain ⟨pieces, last, he⟩ := ih (hs ▸ h)
      exact ⟨[] :: pieces, last, by rw [if_pos hd, he]; rfl⟩
    · obtain ⟨pieces, last, he⟩ := ih h
      rw [if_neg hd, he]
      cases pieces with
      | nil => exact ⟨[], d :: last, rfl⟩
      | cons p ps => exact ⟨(d :: p) :: ps, last, rfl⟩

theorem split_append_semicolon {front : Text} (h : endsEscaped false front = false) (rest : Text) :
    split (front ++ ';' :: rest) = split front ++ split rest :=
  splitFrom_append_semicolon h rest

/-- A body is closed when it is empty or ends with a semicolon that no backslash precedes. -/
theorem isClosed_iff {body : Text} :
    isClosed body = true ↔
      body = [] ∨ ∃ front, body = front ++ [';'] ∧ front.getLast? ≠ some '\\' := by
  constructor
  · intro h
    rcases List.eq_nil_or_concat body with he | ⟨front, c, he⟩
    · exact .inl he
    · rw [List.concat_eq_append] at he
      subst he
      by_cases hc : c = ';' ∧ endsEscaped false front = false
      · exact .inr ⟨front, by rw [hc.1], endsEscaped_eq_false_iff.mp hc.2⟩
      · obtain ⟨pieces, last, hs⟩ := splitFrom_concat hc
        simp [isClosed, split, hs] at h
  · rintro (rfl | ⟨front, rfl, hf⟩)
    · rfl
    · rw [isClosed, split_append_semicolon (endsEscaped_eq_false_iff.mpr hf)]
      simp [split, splitFrom]

/-- Behind a closed body the pieces of another one start afresh. -/
theorem split_append {body : Text} (h : isClosed body = true) (other : Text) :
    split (body ++ other) = (split body).dropLast ++ split other := by
  rcases isClosed_iff.mp h with rfl | ⟨front, rfl, hf⟩
  · rfl
  · have he := endsEscaped_eq_false_iff.mpr hf
    rw [List.append_assoc, List.singleton_append, split_append_semicolon he,
      split_append_semicolon he]
    simp [split, splitFrom]

theorem split_eq_dropLast_concat {body : Text} (h : isClosed body = true) :
    split body = (split body).dropLast ++ [[]] := by
  have hs := split_append h []
  rwa [List.append_nil] at hs

theorem isClosed_append {body other : Text} (h : isClosed body = true)
    (ho : isClosed other = true) : isClosed (body ++ other) = true := by
  have hl : (split other).getLast? = some [] := beq_iff_eq.mp ho
  rw [isClosed, split_append h, List.getLast?_append, hl]
  rfl

theorem filter_split_append {body : Text} (h : isClosed body = true) (other : Text)
    {p : Text → Bool} (hp : p [] = false) :
    (split (body ++ other)).filter p = (split body).filter p ++ (split other).filter p := by
  have hs : (split body).filter p = (split body).dropLast.filter p := by
    rw [split_eq_dropLast_concat h, List.filter_append, List.dropLast_concat]
    simp [hp]
  rw [split_append h, List.filter_append, hs]

end StyleSheet.Body
