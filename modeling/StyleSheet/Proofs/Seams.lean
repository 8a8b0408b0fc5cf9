import Mathlib.Algebra.GroupWithZero.Nat
import StyleSheet.Proofs.Splitting

namespace StyleSheet.Body

variable {front back : Text} {bodies pieces others : List Text}

/-- The text behind the last semicolon that ends a piece. -/
def tail (body : Text) : Text :=
  (split body).getLast (split_ne_nil body)

/-- The text ahead of the first semicolon that ends a piece. -/
def lead (body : Text) : Text :=
  (split body).head (split_ne_nil body)

/--
Whether each declaration stays as it is when one body is written behind another. Nothing runs
together if one side of the seam is empty or both are blank, but a backslash on the one side must
not come to stand before a semicolon on the other.
-/
def meets (front back : Text) : Bool :=
  (tail front).isEmpty || back.isEmpty || ((lead back).isEmpty && !endsEscaped false front) ||
    ((tail front).all Text.isBlank && (lead back).all Text.isBlank)

def seamless (written : Text) : List Text → Bool
  | [] => true
  | body :: rest => meets written body && seamless (written ++ body) rest

theorem splitFrom_append (escaped : Bool) (front back : Text) :
    ∃ pieces last, splitFrom escaped front = pieces ++ [last] ∧
      splitFrom escaped (front ++ back) =
        pieces ++ (splitFrom (endsEscaped escaped front) back).modifyHead (last ++ ·) := by
  induction front generalizing escaped with
  | nil => exact ⟨[], [], rfl, (congrFun List.modifyHead_id _).symm⟩
  | cons c cs ih =>
    rw [List.cons_append, splitFrom, splitFrom, endsEscaped_cons]
    by_cases hc : c = ';' ∧ escaped = false
    · have hs : (c == '\\') = false := by rw [hc.1]; rfl
      obtain ⟨pieces, last, hf, ha⟩ := ih false
      rw [if_pos hc, if_pos hc, hs, hf, ha]
      exact ⟨[] :: pieces, last, rfl, rfl⟩
    · obtain ⟨pieces, last, hf, ha⟩ := ih (c == '\\')
      rw [if_neg hc, if_neg hc, hf, ha]
      cases pieces with
      | nil => exact ⟨[], c :: last, rfl, List.modifyHead_modifyHead ..⟩
      | cons p ps => exact ⟨(c :: p) :: ps, last, rfl, rfl⟩

theorem tail_of_split {body last : Text} (h : split body = pieces ++ [last]) : tail body = last := by
  simp [tail, h]

theorem split_eq_concat_tail (body : Text) : split body = (split body).dropLast ++ [tail body] :=
  (List.dropLast_concat_getLast (split_ne_nil body)).symm

theorem split_eq_cons_lead (body : Text) : split body = lead body :: (split body).tail :=
  (List.cons_head_tail (split_ne_nil body)).symm

theorem split_append_eq (front back : Text) :
    split (front ++ back) = (split front).dropLast ++
      (splitFrom (endsEscaped false front) back).modifyHead (tail front ++ ·) := by
  obtain ⟨pieces, last, hf, ha⟩ := splitFrom_append false front back
  have hs : split front = pieces ++ [last] := hf
  have ht : tail front = last := tail_of_split hs
  rw [ht, hs, List.dropLast_concat]
  exact ha

theorem not_blank_tail (h : endsEscaped false front = true) :
    (tail front).all Text.isBlank = false := by
  rcases List.eq_nil_or_concat front with rfl | ⟨init, c, rfl⟩
  · cases h
  · rw [List.concat_eq_append] at h ⊢
    have hc : c = '\\' := by simpa [endsEscaped] using h
    subst hc
    have hn : ¬('\\' = ';' ∧ endsEscaped false init = false) := fun hn => absurd hn.1 (by decide)
    obtain ⟨pieces, last, hs⟩ := splitFrom_concat hn
    have ht : tail (init ++ ['\\']) = last ++ ['\\'] := tail_of_split hs
    rw [ht, List.all_append]
    simp only [List.all_cons, List.all_nil]
    have hb : Text.isBlank '\\' = false := by decide
    simp [hb]

theorem splitFrom_cases (escaped : Bool) (body : Text) :
    (escaped = true ∧ ∃ rest, body = ';' :: rest) ∨
      splitFrom escaped body = split body ∧ (body ≠ [] → escaped = true → lead body ≠ []) := by
  cases body with
  | nil => exact .inr ⟨rfl, fun h => absurd rfl h⟩
  | cons c cs =>
    cases escaped with
    | false => exact .inr ⟨rfl, fun _ h => nomatch h⟩
    | true =>
      by_cases hc : c = ';'
      · exact .inl ⟨rfl, cs, by rw [hc]⟩
      · have hs : split (c :: cs) = splitFrom true (c :: cs) := by simp [split, splitFrom, hc]
        refine .inr ⟨hs.symm, fun _ _ => ?_⟩
        obtain ⟨first, rest, he⟩ := List.exists_cons_of_ne_nil (splitFrom_ne_nil (c == '\\') cs)
        simp [lead, split, splitFrom, hc, he]

/-- How much longer a piece is than a declaration need be; blank pieces do not count. -/
def weigh (piece : Text) : Nat :=
  if piece.all Text.isBlank then 0 else piece.length - 1

def heft (pieces : List Text) : Nat :=
  (pieces.map weigh).sum

@[simp]
theorem heft_cons (piece : Text) (pieces : List Text) :
    heft (piece :: pieces) = weigh piece + heft pieces :=
  rfl

@[simp]
theorem heft_append (pieces others : List Text) :
    heft (pieces ++ others) = heft pieces + heft others := by
  simp [heft]

theorem heft_declarations (body : Text) : heft (declarations body) = heft (split body) := by
  rw [declarations]
  induction split body with
  | nil => rfl
  | cons piece rest ih =>
    rw [List.filter_cons]
    split
    next => rw [heft_cons, heft_cons, ih]
    next h =>
      have hw : weigh piece = 0 := if_pos (by simpa using h)
      rw [heft_cons, hw, Nat.zero_add, ih]

theorem weigh_append_lt {s t : Text} (hs : s ≠ []) (ht : t ≠ [])
    (h : s.all Text.isBlank = true → t.all Text.isBlank = false) :
    weigh s + weigh t < weigh (s ++ t) := by
  have hs := List.length_pos_iff.mpr hs
  have ht := List.length_pos_iff.mpr ht
  rw [weigh, weigh, weigh, List.all_append, List.length_append]
  cases hb : s.all Text.isBlank with
  | true =>
    rw [h hb]
    simp only [Bool.and_false, Bool.false_eq_true, if_true, if_false]
    omega
  | false =>
    simp only [Bool.false_and, Bool.false_eq_true, if_false]
    split <;> omega

theorem weigh_le_cons (c : Char) (t : Text) : weigh t ≤ weigh (c :: t) := by
  rw [weigh, weigh, List.all_cons, List.length_cons]
  split
  next => exact Nat.zero_le _
  next h =>
    rw [Bool.not_eq_true] at h
    rw [h, Bool.and_false, if_neg Bool.false_ne_true]
    omega

theorem filter_append_piece {s t : Text}
    (h : s = [] ∨ t = [] ∨ s.all Text.isBlank = true ∧ t.all Text.isBlank = true)
    (pieces : List Text) :
    ((s ++ t) :: pieces).filter (fun piece => !piece.all Text.isBlank) =
      ([s] ++ t :: pieces).filter fun piece => !piece.all Text.isBlank := by
  rcases h with rfl | rfl | ⟨hs, ht⟩
  · rfl
  · rw [List.append_nil, List.singleton_append, List.filter_cons, List.filter_cons (x := s)]
    rfl
  · simp only [List.singleton_append, List.filter_cons, List.all_append, hs, ht]
    rfl

theorem declarations_append (h : meets front back = true) :
    declarations (front ++ back) = declarations front ++ declarations back := by
  by_cases hb : back = []
  · rw [hb, List.append_nil]
    exact (List.append_nil _).symm
  · have he : endsEscaped false front = false := by
      rw [← Bool.not_eq_true]
      intro he
      have ht := not_blank_tail he
      have hn : tail front ≠ [] := by
        intro hn
        rw [hn] at ht
        cases ht
      simp [meets, he, ht, hn, hb] at h
    have hm : tail front = [] ∨ lead back = [] ∨
        (tail front).all Text.isBlank = true ∧ (lead back).all Text.isBlank = true := by
      simpa only [meets, he, List.isEmpty_iff, hb, Bool.or_eq_true, Bool.and_eq_true,
        Bool.not_false, and_true, or_false, or_assoc] using h
    have hs : splitFrom false back = lead back :: (split back).tail := split_eq_cons_lead back
    rw [declarations, split_append_eq, he, hs, List.modifyHead_cons, List.filter_append,
      filter_append_piece hm, ← List.filter_append, ← List.append_assoc, ← split_eq_concat_tail,
      ← split_eq_cons_lead, List.filter_append]
    rfl

theorem heft_lt_of_not_meets (h : meets front back = false) :
    heft (split front) + heft (split back) < heft (split (front ++ back)) := by
  simp only [meets, Bool.or_eq_false_iff, List.isEmpty_eq_false_iff] at h
  obtain ⟨⟨⟨ht, hb⟩, hl⟩, hn⟩ := h
  rw [split_append_eq, heft_append, split_eq_concat_tail front, List.dropLast_concat, heft_append,
    heft_cons]
  rcases splitFrom_cases (endsEscaped false front) back with ⟨he, rest, rfl⟩ | ⟨hs, hne⟩
  · have hsplit : splitFrom true (';' :: rest) = (split rest).modifyHead (';' :: ·) := rfl
    have hstart : split (';' :: rest) = [] :: split rest := rfl
    have hw := weigh_append_lt ht (List.cons_ne_nil ';' (lead rest)) fun hblank => by
      rw [not_blank_tail he] at hblank
      cases hblank
    have hc := weigh_le_cons ';' (lead rest)
    rw [he, hsplit, hstart, split_eq_cons_lead rest]
    simp only [List.modifyHead_cons, heft_cons]
    have hz : weigh [] = 0 := rfl
    have hz' : heft [] = 0 := rfl
    omega
  · have hne : lead back ≠ [] := by
      cases he : endsEscaped false front with
      | true => exact hne hb he
      | false => simpa [he] using hl
    have hw := weigh_append_lt ht hne fun hblank => by
      rw [hblank] at hn
      exact hn
    rw [hs, split_eq_cons_lead back]
    simp only [List.modifyHead_cons, heft_cons]
    have hz' : heft [] = 0 := rfl
    omega

theorem heft_append_le (front back : Text) :
    heft (split front) + heft (split back) ≤ heft (split (front ++ back)) := by
  cases h : meets front back with
  | false => exact Nat.le_of_lt (heft_lt_of_not_meets h)
  | true =>
    apply Nat.le_of_eq
    rw [← heft_declarations front, ← heft_declarations back, ← heft_declarations (front ++ back),
      declarations_append h, heft_append]

theorem heft_flatten_le (written : Text) (bodies : List Text) :
    heft (split written) + heft (bodies.flatMap declarations) ≤
      heft (split (written ++ bodies.flatten)) := by
  induction bodies generalizing written with
  | nil => exact Nat.le_of_eq (by rw [List.flatten_nil, List.append_nil]; rfl)
  | cons body rest ih =>
    have hb := heft_append_le written body
    have hr := ih (written ++ body)
    rw [List.flatMap_cons, heft_append, heft_declarations, List.flatten_cons, ← List.append_assoc]
    omega

/-- Declarations that run together or take a blank in are heavier for good. -/
theorem declarations_append_flatten_iff (written : Text) (bodies : List Text) :
    declarations (written ++ bodies.flatten) =
        declarations written ++ bodies.flatMap declarations ↔
      seamless written bodies = true := by
  induction bodies generalizing written with
  | nil => simp [seamless]
  | cons body rest ih =>
    rw [seamless, Bool.and_eq_true, List.flatten_cons, ← List.append_assoc, List.flatMap_cons]
    cases h : meets written body with
    | true =>
      rw [← List.append_assoc, ← declarations_append h, ih]
      exact (and_iff_right rfl).symm
    | false =>
      have hb := heft_lt_of_not_meets h
      have hr := heft_flatten_le (written ++ body) rest
      refine iff_of_false (fun he => ?_) fun hs => nomatch hs.1
      have hw := congrArg heft he
      rw [heft_append, heft_append, heft_declarations, heft_declarations, heft_declarations] at hw
      omega

theorem declarations_flatten_iff (bodies : List Text) :
    declarations bodies.flatten = bodies.flatMap declarations ↔ seamless [] bodies = true :=
  declarations_append_flatten_iff [] bodies

end StyleSheet.Body
