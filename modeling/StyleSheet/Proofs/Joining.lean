import StyleSheet.Proofs.Splitting

namespace StyleSheet.Body

variable {escaped : Bool} {t : Text} {pieces others : List Text}

/-- Whether no semicolon of a text ends a piece. -/
def isUnbroken (escaped : Bool) : Text → Bool
  | [] => true
  | c :: cs => !(c == ';' && !escaped) && isUnbroken (c == '\\') cs

theorem isUnbroken_cons_iff {c : Char} {cs : Text} :
    isUnbroken escaped (c :: cs) = true ↔
      ¬(c = ';' ∧ escaped = false) ∧ isUnbroken (c == '\\') cs = true := by
  cases escaped <;> simp [isUnbroken]

theorem isUnbroken_cons_of_ne {c : Char} (h : c ≠ ';') (cs : Text) :
    isUnbroken escaped (c :: cs) = isUnbroken (c == '\\') cs := by
  simp [isUnbroken, h]

theorem isUnbroken_append (escaped : Bool) (s t : Text) :
    isUnbroken escaped (s ++ t) =
      (isUnbroken escaped s && isUnbroken (endsEscaped escaped s) t) := by
  induction s generalizing escaped with
  | nil => rfl
  | cons c cs ih =>
    rw [List.cons_append, isUnbroken, isUnbroken, ih, endsEscaped_cons, Bool.and_assoc]

theorem endsEscaped_append (escaped : Bool) (s t : Text) :
    endsEscaped escaped (s ++ t) = endsEscaped (endsEscaped escaped s) t := by
  induction s generalizing escaped with
  | nil => rfl
  | cons c cs ih => rw [List.cons_append, endsEscaped_cons, endsEscaped_cons, ih]

theorem endsEscaped_mono {other : Bool} (ho : escaped = false → other = false)
    (h : endsEscaped escaped t = false) : endsEscaped other t = false := by
  cases t with
  | nil => exact ho h
  | cons c cs =>
    rw [endsEscaped_cons] at h ⊢
    exact h

theorem splitFrom_of_isUnbroken (h : isUnbroken escaped t = true) : splitFrom escaped t = [t] := by
  induction t generalizing escaped with
  | nil => rfl
  | cons c cs ih =>
    obtain ⟨hc, hs⟩ := isUnbroken_cons_iff.mp h
    rw [splitFrom, if_neg hc, ih hs]
    rfl

/-- No piece has a semicolon to end it, and none but the last ends with a backslash. -/
structure Joinable (pieces : List Text) : Prop where
  unbroken : ∀ piece ∈ pieces, isUnbroken false piece = true
  ends : pieces.Pairwise fun piece _ => endsEscaped false piece = false

namespace Joinable

theorem sublist (h : Joinable pieces) (hs : others.Sublist pieces) : Joinable others :=
  ⟨fun piece hm => h.unbroken piece (hs.subset hm), h.ends.sublist hs⟩

theorem split_join (h : Joinable pieces) (hn : pieces ≠ []) : split (join pieces) = pieces := by
  induction pieces with
  | nil => exact absurd rfl hn
  | cons piece rest ih =>
    have hu := splitFrom_of_isUnbroken (h.unbroken piece List.mem_cons_self)
    cases rest with
    | nil => simpa [join, List.intercalate, split] using hu
    | cons second rest =>
      obtain ⟨he, -⟩ := List.pairwise_cons.mp h.ends
      have hr := ih (h.sublist (List.sublist_cons_self _ _)) (List.cons_ne_nil _ _)
      rw [join_cons piece (List.cons_ne_nil _ _),
        split_append_semicolon (he second List.mem_cons_self), hr, split, hu]
      rfl

end Joinable

theorem splitFrom_pieces (escaped : Bool) (t : Text) :
    ∃ first rest, splitFrom escaped t = first :: rest ∧ isUnbroken escaped first = true ∧
      (rest ≠ [] → endsEscaped escaped first = false) ∧ Joinable rest := by
  induction t generalizing escaped with
  | nil => exact ⟨[], [], rfl, rfl, fun h => absurd rfl h, by simp, .nil⟩
  | cons c cs ih =>
    rw [splitFrom]
    split
    next h =>
      obtain ⟨first, rest, hs, hu, he, hj⟩ := ih false
      refine ⟨[], splitFrom false cs, rfl, rfl, fun _ => h.2, ?_, ?_⟩
      · rw [hs]
        exact List.forall_mem_cons.mpr ⟨hu, hj.unbroken⟩
      · rw [hs]
        refine List.pairwise_cons.mpr ⟨fun other hm => he (List.ne_nil_of_mem hm), hj.ends⟩
    next h =>
      obtain ⟨first, rest, hs, hu, he, hj⟩ := ih (c == '\\')
      refine ⟨c :: first, rest, by rw [hs]; rfl, isUnbroken_cons_iff.mpr ⟨h, hu⟩, ?_, hj⟩
      rw [endsEscaped_cons]
      exact he

theorem joinable_split (body : Text) : Joinable (split body) := by
  obtain ⟨first, rest, hs, hu, he, hj⟩ := splitFrom_pieces false body
  rw [split, hs]
  refine ⟨List.forall_mem_cons.mpr ⟨hu, hj.unbroken⟩, ?_⟩
  exact List.pairwise_cons.mpr ⟨fun other hm => he (List.ne_nil_of_mem hm), hj.ends⟩

theorem join_split (body : Text) : join (split body) = body :=
  join_splitFrom false body

end StyleSheet.Body
