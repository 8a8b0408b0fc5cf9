import StyleSheet.Value
import StyleSheet.Proofs.Joining

namespace StyleSheet.Value

variable {depth after : Nat} {c : Char} {t value rest : Text} {parts : List Segment}
  {f : Text → Text}

/-- Whether a character at a depth ends the token before it. -/
def endsToken (depth : Nat) (c : Char) : Bool :=
  depth == 0 && (c == '!' || isSeparator c)

/-- The depth after the characters of a token, or none if one of them would end it. -/
def walk (depth : Nat) : Text → Option Nat
  | [] => some depth
  | c :: cs => if endsToken depth c then none else walk (nest depth c) cs

def startsToken : List Segment → Bool
  | .token _ :: _ => true
  | _ => false

/-- The segments and the remainder that a scan from a depth can come to. -/
inductive Scanned : Nat → List Segment → Text → Prop
  | stop (depth : Nat) : Scanned depth [] []
  | mark (rest : Text) : Scanned 0 [] ('!' :: rest)
  | separator {c : Char} {parts : List Segment} {rest : Text} (hc : isSeparator c = true)
      (h : Scanned 0 parts rest) : Scanned 0 (.separator c :: parts) rest
  | token {depth after : Nat} {t : Text} {parts : List Segment} {rest : Text} (ht : t ≠ [])
      (hw : walk depth t = some after) (hs : startsToken parts = false)
      (h : Scanned after parts rest) : Scanned depth (.token t :: parts) rest

theorem ne_of_isSeparator (h : isSeparator c = true) : c ≠ '!' ∧ c ≠ ';' ∧ c ≠ '\\' := by
  refine ⟨?_, ?_, ?_⟩ <;>
  · rintro rfl
    revert h
    decide

theorem scan_separator (h : isSeparator c = true) (rest : Text) :
    scan 0 (c :: rest) = (.separator c :: (scan 0 rest).1, (scan 0 rest).2) := by
  have hc := (ne_of_isSeparator h).1
  simp [scan, hc, h]

theorem scan_extend (h : endsToken depth c = false) (rest : Text) :
    scan depth (c :: rest) =
      (Segment.extend c (scan (nest depth c) rest).1, (scan (nest depth c) rest).2) := by
  have hm : ¬(depth = 0 ∧ c = '!') := by
    rintro ⟨rfl, rfl⟩
    cases h
  have hs : ¬(depth = 0 ∧ isSeparator c = true) := by
    rintro ⟨rfl, hc⟩
    simp [endsToken, hc] at h
  rw [scan, if_neg hm, if_neg hs]

theorem extend_of_startsToken (h : startsToken parts = false) (c : Char) :
    Segment.extend c parts = .token [c] :: parts := by
  cases parts with
  | nil => rfl
  | cons part parts =>
    cases part with
    | separator d => rfl
    | token t => cases h

theorem walk_cons (h : walk depth (c :: t) = some after) :
    endsToken depth c = false ∧ walk (nest depth c) t = some after := by
  rw [walk] at h
  split at h
  next => cases h
  next hc => exact ⟨Bool.eq_false_iff.mpr hc, h⟩

/-- A token in front of text that starts with none is scanned as one. -/
theorem scan_token_append (ht : t ≠ []) (hw : walk depth t = some after)
    (hs : startsToken (scan after rest).1 = false) :
    scan depth (t ++ rest) = (.token t :: (scan after rest).1, (scan after rest).2) := by
  induction t generalizing depth with
  | nil => exact absurd rfl ht
  | cons c cs ih =>
    obtain ⟨hc, hw⟩ := walk_cons hw
    rw [List.cons_append, scan_extend hc]
    cases cs with
    | nil =>
      cases hw
      rw [List.nil_append, extend_of_startsToken hs]
    | cons d ds =>
      rw [ih (List.cons_ne_nil d ds) hw]
      rfl

namespace Scanned

theorem scan_eq (h : Scanned depth parts rest) :
    scan depth (parts.flatMap Segment.text ++ rest) = (parts, rest) := by
  induction h with
  | stop depth => rfl
  | mark rest => rfl
  | separator hc h ih =>
    rw [List.flatMap_cons, Segment.text, List.singleton_append, List.cons_append,
      scan_separator hc, ih]
  | token ht hw hs h ih =>
    rw [List.flatMap_cons, List.append_assoc, Segment.text,
      scan_token_append ht hw (by rw [ih]; exact hs), ih]

theorem extend (hc : endsToken depth c = false) (h : Scanned (nest depth c) parts rest) :
    Scanned depth (Segment.extend c parts) rest := by
  have hw (t : Text) : walk depth (c :: t) = walk (nest depth c) t := by
    rw [walk, hc]
    rfl
  cases hs : startsToken parts with
  | false =>
    rw [extend_of_startsToken hs]
    exact .token (List.cons_ne_nil c []) (hw []) hs h
  | true =>
    generalize nest depth c = inner at h hw
    cases h with
    | token ht hw' hs' h => exact .token (List.cons_ne_nil _ _) ((hw _).trans hw') hs' h
    | _ => cases hs

end Scanned

theorem scanned_scan (depth : Nat) (value : Text) :
    Scanned depth (scan depth value).1 (scan depth value).2 := by
  induction value generalizing depth with
  | nil => exact .stop depth
  | cons c cs ih =>
    by_cases hc : endsToken depth c = true
    · obtain ⟨hd, hc⟩ := Bool.and_eq_true_iff.mp hc
      cases beq_iff_eq.mp hd
      rcases Bool.or_eq_true_iff.mp hc with hc | hc
      · cases beq_iff_eq.mp hc
        exact .mark cs
      · rw [scan_separator hc]
        exact .separator hc (ih 0)
    · have hc := Bool.eq_false_iff.mpr hc
      rw [scan_extend hc]
      exact (ih (nest depth c)).extend hc

theorem scanned_segments (value : Text) : Scanned 0 (segments value) (remainder value) :=
  scanned_scan 0 value

/-- Characters that mean nothing to a scan or to the split of a body. -/
def isInert (c : Char) : Bool :=
  !isSeparator c && c != '!' && c != '(' && c != ')' && c != ';' && c != '\\'

/-- A rewriting that writes nothing but inert tokens. -/
def Tame (f : Text → Text) : Prop :=
  ∀ t, f t = t ∨ f t ≠ [] ∧ (f t).all isInert = true

/-- A tame rewriting that has nothing more to do with what it has written. -/
structure Settles (f : Text → Text) : Prop where
  tame : Tame f
  fixed : ∀ t, f (f t) = f t

theorem walk_of_inert (h : t.all isInert = true) (depth : Nat) : walk depth t = some depth := by
  induction t with
  | nil => rfl
  | cons c cs ih =>
    obtain ⟨hc, hs⟩ := Bool.and_eq_true_iff.mp h
    have he : endsToken depth c = false := by
      simp [isInert] at hc
      simp [endsToken, hc]
    have hn : nest depth c = depth := by
      simp [isInert] at hc
      simp [nest, hc]
    rw [walk, he, hn]
    exact ih hs

theorem startsToken_map (f : Text → Text) (parts : List Segment) :
    startsToken (parts.map (Segment.rewrite f)) = startsToken parts := by
  cases parts with
  | nil => rfl
  | cons part parts => cases part <;> rfl

namespace Scanned

theorem eq_nil_of_pos (h : Scanned depth parts rest) (hs : startsToken parts = false)
    (hd : 0 < depth) : parts = [] ∧ rest = [] := by
  cases h with
  | stop => exact ⟨rfl, rfl⟩
  | mark rest => cases hd
  | separator hc h => cases hd
  | token => cases hs

theorem rewrite (hf : Tame f) (h : Scanned depth parts rest) (hd : depth = 0) :
    Scanned 0 (parts.map (Segment.rewrite f)) rest := by
  induction h with
  | stop => exact .stop 0
  | mark rest => exact .mark rest
  | separator hc h ih => exact .separator hc (ih rfl)
  | @token depth after t parts rest ht hw hs h ih =>
    subst hd
    have hs' := (startsToken_map f parts).trans hs
    cases after with
    | zero =>
      rcases hf t with he | ⟨hn, hi⟩
      · exact .token (by rwa [he]) (by rwa [he]) hs' (ih rfl)
      · exact .token hn (walk_of_inert hi 0) hs' (ih rfl)
    | succ after =>
      obtain ⟨rfl, rfl⟩ := h.eq_nil_of_pos hs (Nat.succ_pos after)
      rcases hf t with he | ⟨hn, hi⟩
      · exact .token (by rwa [he]) (by rwa [he]) rfl (.stop _)
      · exact .token hn (walk_of_inert hi 0) rfl (.stop 0)

end Scanned

theorem scan_rewrite (hf : Tame f) (value : Text) :
    scan 0 (rewrite f value) = ((segments value).map (Segment.rewrite f), remainder value) :=
  ((scanned_segments value).rewrite hf rfl).scan_eq

theorem segments_rewrite (hf : Tame f) (value : Text) :
    segments (rewrite f value) = (segments value).map (Segment.rewrite f) := by
  rw [segments, scan_rewrite hf]

theorem remainder_rewrite (hf : Tame f) (value : Text) :
    remainder (rewrite f value) = remainder value := by
  rw [remainder, scan_rewrite hf]

theorem rewrite_rewrite (hf : Settles f) (value : Text) :
    rewrite f (rewrite f value) = rewrite f value := by
  have hr (part : Segment) : (part.rewrite f).rewrite f = part.rewrite f := by
    cases part with
    | separator c => rfl
    | token t => exact congrArg Segment.token (hf.fixed t)
  rw [rewrite, segments_rewrite hf.tame, remainder_rewrite hf.tame, List.map_map]
  simp only [Function.comp_def, hr]
  rfl

theorem Scanned.isUnbroken_of_startsToken (h : Scanned depth parts rest)
    (hs : startsToken parts = false) (escaped : Bool) :
    Body.isUnbroken escaped (parts.flatMap Segment.text ++ rest) =
      Body.isUnbroken false (parts.flatMap Segment.text ++ rest) := by
  cases h with
  | stop => rfl
  | mark rest => rfl
  | separator hc h =>
    have hne := (ne_of_isSeparator hc).2.1
    exact (Body.isUnbroken_cons_of_ne hne _).trans (Body.isUnbroken_cons_of_ne hne _).symm
  | token => cases hs

theorem Scanned.isUnbroken_eq (h : Scanned depth parts rest) :
    Body.isUnbroken false (parts.flatMap Segment.text ++ rest) =
      (parts.all (fun part => Body.isUnbroken false part.text) && Body.isUnbroken false rest) := by
  induction h with
  | stop => rfl
  | mark rest => rfl
  | separator hc h ih =>
    obtain ⟨-, hne, hb⟩ := ne_of_isSeparator hc
    rw [List.flatMap_cons, Segment.text, List.singleton_append, List.cons_append,
      Body.isUnbroken_cons_of_ne hne, beq_eq_false_iff_ne.mpr hb, ih, List.all_cons,
      Segment.text, Body.isUnbroken_cons_of_ne hne]
    rfl
  | token ht hw hs h ih =>
    rw [List.flatMap_cons, List.append_assoc, Body.isUnbroken_append,
      h.isUnbroken_of_startsToken hs, ih, List.all_cons, Bool.and_assoc]

theorem isUnbroken_of_inert (h : t.all isInert = true) (escaped : Bool) :
    Body.isUnbroken escaped t = true := by
  induction t generalizing escaped with
  | nil => rfl
  | cons c cs ih =>
    obtain ⟨hc, hs⟩ := Bool.and_eq_true_iff.mp h
    have hne : c ≠ ';' := by
      rintro rfl
      cases hc
    rw [Body.isUnbroken_cons_of_ne hne]
    exact ih hs _

theorem endsEscaped_of_inert (hn : t ≠ []) (h : t.all isInert = true) (escaped : Bool) :
    Body.endsEscaped escaped t = false := by
  have hl := List.all_eq_true.mp h _ (List.getLast_mem hn)
  have hne : t.getLast hn ≠ '\\' := by
    intro he
    rw [he] at hl
    cases hl
  rw [Body.endsEscaped, List.getLast?_eq_some_getLast hn]
  exact beq_eq_false_iff_ne.mpr hne

theorem isUnbroken_rewrite (hf : Tame f) (h : Body.isUnbroken false value = true) :
    Body.isUnbroken false (rewrite f value) = true := by
  have hv := (scanned_segments value).isUnbroken_eq
  rw [flatMap_text_segments, h] at hv
  obtain ⟨hs, hr⟩ := Bool.and_eq_true_iff.mp hv.symm
  have hw := ((scanned_segments value).rewrite hf rfl).isUnbroken_eq
  refine hw.trans (Bool.and_eq_true_iff.mpr ⟨List.all_eq_true.mpr ?_, hr⟩)
  intro part hm
  obtain ⟨part, hp, rfl⟩ := List.mem_map.mp hm
  have hp := List.all_eq_true.mp hs part hp
  cases part with
  | separator c => exact hp
  | token t =>
    rcases hf t with he | ⟨-, hi⟩
    · rw [Segment.rewrite, he]
      exact hp
    · exact isUnbroken_of_inert hi false

theorem endsEscaped_map_rewrite (hf : Tame f) (parts : List Segment) {escaped other : Bool}
    (ho : escaped = false → other = false)
    (h : Body.endsEscaped escaped (parts.flatMap Segment.text ++ rest) = false) :
    Body.endsEscaped other ((parts.map (Segment.rewrite f)).flatMap Segment.text ++ rest) =
      false := by
  induction parts generalizing escaped other with
  | nil => exact Body.endsEscaped_mono ho h
  | cons part parts ih =>
    rw [List.flatMap_cons, List.append_assoc, Body.endsEscaped_append] at h
    rw [List.map_cons, List.flatMap_cons, List.append_assoc, Body.endsEscaped_append]
    refine ih ?_ h
    intro he
    cases part with
    | separator c => exact he
    | token t =>
      rcases hf t with hk | ⟨hn, hi⟩
      · rw [Segment.rewrite, hk]
        exact Body.endsEscaped_mono ho he
      · exact endsEscaped_of_inert hn hi other

theorem endsEscaped_rewrite (hf : Tame f) (h : Body.endsEscaped false value = false) :
    Body.endsEscaped false (rewrite f value) = false := by
  apply endsEscaped_map_rewrite hf (segments value) id
  rwa [flatMap_text_segments]

end StyleSheet.Value
