import StyleSheet.Proofs.Tokens

namespace StyleSheet.Value

variable {depth : Nat} {c : Char} {t rest : Text} {parts : List Segment}

/-- A property of every place in a list: of what stands before it, at it and behind it. -/
def AtEach {α : Type} (P : List α → α → List α → Prop) (items : List α) : Prop :=
  ∀ before item after, items = before ++ item :: after → P before item after

theorem atEach_nil {α : Type} (P : List α → α → List α → Prop) : AtEach P [] := by
  intro before item after h
  simp at h

theorem atEach_cons_iff {α : Type} {P : List α → α → List α → Prop} {first : α} {items : List α} :
    AtEach P (first :: items) ↔
      P [] first items ∧ AtEach (fun before => P (first :: before)) items := by
  constructor
  · intro h
    refine ⟨h [] first items rfl, ?_⟩
    rintro before item after rfl
    exact h (first :: before) item after rfl
  · rintro ⟨hf, h⟩ before item after he
    cases before with
    | nil =>
      cases he
      exact hf
    | cons d before =>
      obtain ⟨rfl, rfl⟩ := List.cons.inj he
      exact h before item after rfl

theorem atEach_append_iff {α : Type} {P : List α → α → List α → Prop} {front items : List α} :
    AtEach P (front ++ items) ↔
      AtEach (fun before item after => P before item (after ++ items)) front ∧
        AtEach (fun before => P (front ++ before)) items := by
  induction front generalizing P with
  | nil => simp [atEach_nil]
  | cons first front ih =>
    rw [List.cons_append, atEach_cons_iff, atEach_cons_iff, ih, and_assoc]
    rfl

def depthAfter (depth : Nat) (t : Text) : Nat :=
  t.foldl nest depth

/-- Whether all characters of a kind stand inside parentheses. -/
def Hides (kind : Char → Prop) (depth : Nat) : Text → Prop :=
  AtEach fun before c _ => depthAfter depth before = 0 → ¬kind c

/-- How a segment of a value has to lie: a separator outside parentheses; a token that is not empty,
holds no separator outside parentheses and has no other token right behind it. -/
def Segment.Lies (depth : Nat) : Segment → List Segment → Prop
  | .separator c, _ => isSeparator c = true ∧ depth = 0
  | .token t, after =>
    t ≠ [] ∧ Hides (isSeparator · = true) depth t ∧ startsToken after = false

/-- The parts of a text up to its first exclamation mark outside parentheses. -/
structure Parted (depth : Nat) (parts : List Segment) (rest : Text) : Prop where
  unmarked : Hides (· = '!') depth (parts.flatMap Segment.text)
  stops : rest = [] ∨
    rest.head? = some '!' ∧ depthAfter depth (parts.flatMap Segment.text) = 0
  lies : AtEach (fun before part after =>
    part.Lies (depthAfter depth (before.flatMap Segment.text)) after) parts

theorem nest_of_isSeparator (h : isSeparator c = true) (depth : Nat) : nest depth c = depth := by
  have ho : c ≠ '(' := by
    rintro rfl
    revert h
    decide
  have hc : c ≠ ')' := by
    rintro rfl
    revert h
    decide
  rw [nest, if_neg ho, if_neg hc]

theorem endsToken_eq_false_iff :
    endsToken depth c = false ↔ depth = 0 → c ≠ '!' ∧ isSeparator c ≠ true := by
  simp [endsToken]

theorem hides_cons_iff {kind : Char → Prop} :
    Hides kind depth (c :: t) ↔ (depth = 0 → ¬kind c) ∧ Hides kind (nest depth c) t :=
  atEach_cons_iff

theorem hides_append_iff {kind : Char → Prop} {front back : Text} :
    Hides kind depth (front ++ back) ↔
      Hides kind depth front ∧ Hides kind (depthAfter depth front) back := by
  rw [Hides, atEach_append_iff]
  simp only [depthAfter, List.foldl_append]
  rfl

/-- A token can be walked through when it hides both marks and separators. -/
theorem walk_eq_some_iff {after : Nat} :
    walk depth t = some after ↔
      Hides (· = '!') depth t ∧ Hides (isSeparator · = true) depth t ∧
        depthAfter depth t = after := by
  induction t generalizing depth with
  | nil => simp [walk, Hides, atEach_nil, depthAfter]
  | cons c cs ih =>
    have hw : walk depth (c :: cs) = some after ↔
        endsToken depth c = false ∧ walk (nest depth c) cs = some after := by
      rw [walk]
      split <;> simp [*]
    rw [hw, ih, endsToken_eq_false_iff, hides_cons_iff, hides_cons_iff]
    constructor
    · rintro ⟨hc, hm, hs, hd⟩
      exact ⟨⟨fun h => (hc h).1, hm⟩, ⟨fun h => (hc h).2, hs⟩, hd⟩
    · rintro ⟨⟨hcm, hm⟩, ⟨hcs, hs⟩, hd⟩
      exact ⟨fun h => ⟨hcm h, hcs h⟩, hm, hs, hd⟩

theorem depthAfter_append (front back : Text) :
    depthAfter depth (front ++ back) = depthAfter (depthAfter depth front) back :=
  List.foldl_append

theorem parted_nil_iff : Parted depth [] rest ↔ rest = [] ∨ rest.head? = some '!' ∧ depth = 0 := by
  constructor
  · intro h
    exact h.stops
  · intro h
    exact ⟨atEach_nil _, h, atEach_nil _⟩

theorem parted_cons_iff {part : Segment} :
    Parted depth (part :: parts) rest ↔
      Hides (· = '!') depth part.text ∧ part.Lies depth parts ∧
        Parted (depthAfter depth part.text) parts rest := by
  have hl : AtEach (fun before part after =>
      part.Lies (depthAfter depth (before.flatMap Segment.text)) after) (part :: parts) ↔
        part.Lies depth parts ∧ AtEach (fun before other after => other.Lies (depthAfter
          (depthAfter depth part.text) (before.flatMap Segment.text)) after) parts := by
    rw [atEach_cons_iff]
    simp only [List.flatMap_cons, depthAfter_append]
    rfl
  constructor
  · intro h
    obtain ⟨hm, hs⟩ := hides_append_iff.mp h.unmarked
    obtain ⟨hp, ho⟩ := hl.mp h.lies
    have stops := h.stops
    rw [List.flatMap_cons, depthAfter_append] at stops
    exact ⟨hm, hp, hs, stops, ho⟩
  · rintro ⟨hm, hp, h⟩
    refine ⟨hides_append_iff.mpr ⟨hm, h.unmarked⟩, ?_, hl.mpr ⟨hp, h.lies⟩⟩
    rw [List.flatMap_cons, depthAfter_append]
    exact h.stops

theorem Scanned.parted (h : Scanned depth parts rest) : Parted depth parts rest := by
  induction h with
  | stop depth => exact parted_nil_iff.mpr (.inl rfl)
  | mark rest => exact parted_nil_iff.mpr (.inr ⟨rfl, rfl⟩)
  | @separator c parts rest hc h ih =>
    have hd : depthAfter 0 [c] = 0 := nest_of_isSeparator hc 0
    refine parted_cons_iff.mpr ⟨?_, ⟨hc, rfl⟩, ?_⟩
    · exact hides_cons_iff.mpr ⟨fun _ => (ne_of_isSeparator hc).1, atEach_nil _⟩
    · rw [Segment.text, hd]
      exact ih
  | token ht hw hs h ih =>
    obtain ⟨hm, hi, rfl⟩ := walk_eq_some_iff.mp hw
    exact parted_cons_iff.mpr ⟨hm, ⟨ht, hi, hs⟩, ih⟩

theorem Parted.scanned (h : Parted depth parts rest) : Scanned depth parts rest := by
  induction parts generalizing depth with
  | nil =>
    rcases parted_nil_iff.mp h with rfl | ⟨hm, rfl⟩
    · exact .stop depth
    · obtain ⟨tail, rfl⟩ := List.head?_eq_some_iff.mp hm
      exact .mark tail
  | cons part parts ih =>
    obtain ⟨hm, hl, h⟩ := parted_cons_iff.mp h
    cases part with
    | separator c =>
      obtain ⟨hc, rfl⟩ := hl
      have hd : depthAfter 0 [c] = 0 := nest_of_isSeparator hc 0
      rw [Segment.text, hd] at h
      exact .separator hc (ih h)
    | token t =>
      obtain ⟨ht, hi, hs⟩ := hl
      exact .token ht (walk_eq_some_iff.mpr ⟨hm, hi, rfl⟩) hs (ih h)

/-- The segments and the remainder of a value are the one way to part it. -/
theorem parted_iff (value : Text) :
    Parted 0 parts rest ∧ parts.flatMap Segment.text ++ rest = value ↔
      parts = segments value ∧ rest = remainder value := by
  constructor
  · rintro ⟨h, rfl⟩
    have hs := h.scanned.scan_eq
    rw [segments, remainder, hs]
    exact ⟨rfl, rfl⟩
  · rintro ⟨rfl, rfl⟩
    exact ⟨(scanned_segments value).parted, flatMap_text_segments value⟩

example : segments ")(!a, b),,c\u3000!d !".toList =
    [.token ")(!a, b)".toList, .separator ',', .separator ',', .token ['c'],
      .separator '\u3000'] ∧ remainder ")(!a, b),,c\u3000!d !".toList = "!d !".toList := by
  decide +kernel

end StyleSheet.Value
