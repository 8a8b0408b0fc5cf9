import Mathlib.Data.List.Induction
import Mathlib.Data.String.Basic
import StyleSheet.Proofs.Joining
import StyleSheet.Proofs.Seams

namespace StyleSheet.Body

open String (utf8Len utf8Len_append)

variable {escaped : Bool} {t front : Text} {c : Char} {pieces : List Text}

/--
Texts that are the pieces of some body: a semicolon stands right behind a backslash of its own
piece, and only the last piece may end with a backslash.
-/
structure ArePieces (pieces : List Text) : Prop where
  ne_nil : pieces ≠ []
  semicolons : ∀ piece ∈ pieces, ∀ front back, piece = front ++ ';' :: back →
    front.getLast? = some '\\'
  ends : ∀ piece ∈ pieces.dropLast, piece.getLast? ≠ some '\\'

theorem isUnbroken_iff :
    isUnbroken escaped t = true ↔
      ∀ front back, t = front ++ ';' :: back → endsEscaped escaped front = true := by
  constructor
  · rintro h front back rfl
    rw [isUnbroken_append, Bool.and_eq_true, isUnbroken_cons_iff] at h
    obtain ⟨-, hc, -⟩ := h
    exact Bool.of_not_eq_false fun he => hc ⟨rfl, he⟩
  · intro h
    induction t generalizing escaped with
    | nil => rfl
    | cons c cs ih =>
      refine isUnbroken_cons_iff.mpr ⟨?_, ih fun front back hs => ?_⟩
      · rintro ⟨rfl, he⟩
        have hn : escaped = true := h [] cs rfl
        rw [he] at hn
        cases hn
      · rw [← endsEscaped_cons escaped]
        exact h (c :: front) back (by rw [hs, List.cons_append])

theorem endsEscaped_iff {front : Text} :
    endsEscaped false front = true ↔ front.getLast? = some '\\' := by
  rw [← Bool.not_eq_false, endsEscaped_eq_false_iff, not_not]

theorem pairwise_iff_dropLast {p : Text → Prop} :
    pieces.Pairwise (fun piece _ => p piece) ↔ ∀ piece ∈ pieces.dropLast, p piece := by
  induction pieces with
  | nil => simp
  | cons piece rest ih =>
    cases rest with
    | nil => simp
    | cons second rest =>
      have hp : (∀ other ∈ second :: rest, p piece) ↔ p piece :=
        ⟨fun h => h second List.mem_cons_self, fun h _ _ => h⟩
      rw [List.pairwise_cons, hp, ih, List.dropLast_cons_cons, List.forall_mem_cons]

theorem arePieces_iff : ArePieces pieces ↔ pieces ≠ [] ∧ Joinable pieces := by
  have hs (piece : Text) : isUnbroken false piece = true ↔
      ∀ front back, piece = front ++ ';' :: back → front.getLast? = some '\\' := by
    simp only [isUnbroken_iff, endsEscaped_iff]
  constructor
  · intro h
    refine ⟨h.ne_nil, fun piece hm => (hs piece).mpr (h.semicolons piece hm), ?_⟩
    simp only [endsEscaped_eq_false_iff]
    exact pairwise_iff_dropLast.mpr h.ends
  · rintro ⟨hn, hj⟩
    refine ⟨hn, fun piece hm => (hs piece).mp (hj.unbroken piece hm), ?_⟩
    have he := hj.ends
    simp only [endsEscaped_eq_false_iff] at he
    exact pairwise_iff_dropLast.mp he

theorem split_join_iff : split (join pieces) = pieces ↔ ArePieces pieces := by
  rw [arePieces_iff]
  constructor
  · intro h
    rw [← h]
    exact ⟨split_ne_nil _, joinable_split _⟩
  · rintro ⟨hn, hj⟩
    exact hj.split_join hn

/-- A body is closed just when its pieces stay as they are whatever is written behind it. -/
theorem isClosed_iff_split_append {body : Text} :
    isClosed body = true ↔ (split body).getLast? = some [] ∧
      ∀ other, split (body ++ other) = (split body).dropLast ++ split other := by
  rw [isClosed, beq_iff_eq]
  constructor
  · intro h
    exact ⟨h, split_append (beq_iff_eq.mpr h)⟩
  · exact And.left

theorem split_concat (h : ¬(c = ';' ∧ endsEscaped false front = false)) :
    split (front ++ [c]) = (split front).dropLast ++ [tail front ++ [c]] := by
  rw [split_append_eq, splitFrom, if_neg h, splitFrom]
  rfl

theorem tail_concat_semicolon (h : endsEscaped false front = false) : tail (front ++ [';']) = [] :=
  tail_of_split (split_append_semicolon h [])

theorem tail_concat (h : ¬(c = ';' ∧ endsEscaped false front = false)) :
    tail (front ++ [c]) = tail front ++ [c] :=
  tail_of_split (split_concat h)

theorem exists_append_tail (body : Text) : ∃ ahead, body = ahead ++ tail body := by
  induction body using List.reverseRecOn with
  | nil => exact ⟨[], rfl⟩
  | append_singleton front c ih =>
    by_cases hc : c = ';' ∧ endsEscaped false front = false
    · exact ⟨front ++ [c], by rw [hc.1, tail_concat_semicolon hc.2, List.append_nil]⟩
    · obtain ⟨ahead, ha⟩ := ih
      exact ⟨ahead, by rw [tail_concat hc, ← List.append_assoc, ← ha]⟩

/--
A body that is being read: the byte at which the present piece starts, the byte at which the next
character stands, whether the last one was a backslash, and the pieces that have ended.
-/
@[ext]
structure Slicer where
  start : Nat
  offset : Nat
  escaped : Bool
  pieces : List String

namespace Slicer

def step (body : String) (slicer : Slicer) (c : Char) : Slicer :=
  if c = ';' ∧ slicer.escaped = false then
    { start := slicer.offset + 1
      offset := slicer.offset + 1
      escaped := false
      pieces := slicer.pieces ++ [String.Pos.Raw.extract body ⟨slicer.start⟩ ⟨slicer.offset⟩] }
  else { slicer with offset := slicer.offset + c.utf8Size, escaped := c == '\\' }

/-- The slicer that has read a text, said by the pieces of that text. -/
def behind (front : Text) : Slicer where
  start := utf8Len front - utf8Len (tail front)
  offset := utf8Len front
  escaped := endsEscaped false front
  pieces := (split front).dropLast.map String.ofList

theorem extract_behind (front rest : Text) :
    String.Pos.Raw.extract (String.ofList (front ++ rest)) ⟨(behind front).start⟩
      ⟨(behind front).offset⟩ = String.ofList (tail front) := by
  obtain ⟨ahead, ha⟩ := exists_append_tail front
  have ho : (behind front).offset = utf8Len ahead + utf8Len (tail front) := by
    rw [← utf8Len_append, ← ha, behind]
  have hs : (behind front).start = utf8Len ahead := by
    change (behind front).offset - utf8Len (tail front) = _
    rw [ho, Nat.add_sub_cancel]
  have he := String.extract_of_valid ahead (tail front) rest
  rwa [← ha, ← ho, ← hs] at he

theorem map_split (front : Text) :
    (split front).map String.ofList = (behind front).pieces ++ [String.ofList (tail front)] := by
  rw [behind, ← List.map_singleton, ← List.map_append, ← split_eq_concat_tail]

theorem step_behind (front : Text) (c : Char) (rest : Text) :
    (behind front).step (String.ofList (front ++ c :: rest)) c = behind (front ++ [c]) := by
  by_cases hc : c = ';' ∧ (behind front).escaped = false
  · rw [step, if_pos hc, extract_behind, ← map_split]
    obtain ⟨rfl, he⟩ := hc
    have hs : split (front ++ [';']) = split front ++ [[]] := split_append_semicolon he []
    have hu : ';'.utf8Size = 1 := rfl
    ext1
    case start => simp [behind, tail_concat_semicolon he, hu]
    case offset => simp [behind, hu]
    case escaped => simp [behind, endsEscaped]
    case pieces => simp [behind, hs]
  · rw [step, if_neg hc]
    ext1
    case start => simp [behind, tail_concat hc, Nat.add_sub_add_right]
    case offset => simp [behind]
    case escaped => simp [behind, endsEscaped]
    case pieces => simp [behind, split_concat hc]

theorem foldl_behind (front rest : Text) :
    rest.foldl (step (String.ofList (front ++ rest))) (behind front) = behind (front ++ rest) := by
  induction rest generalizing front with
  | nil => rw [List.foldl_nil, List.append_nil]
  | cons c cs ih =>
    rw [List.foldl_cons, step_behind, List.append_cons]
    exact ih (front ++ [c])

def read (body : String) : Slicer :=
  body.toList.foldl (step body) ⟨0, 0, false, []⟩

theorem read_ofList (body : Text) : read (String.ofList body) = behind body := by
  rw [read, String.toList_ofList]
  exact foldl_behind [] body

end Slicer

/-- The pieces of a body as slices of its bytes. -/
def slices (body : String) : List String :=
  (Slicer.read body).pieces ++
    [String.Pos.Raw.extract body ⟨(Slicer.read body).start⟩ body.rawEndPos]

theorem slices_ofList (body : Text) :
    slices (String.ofList body) = (split body).map String.ofList := by
  have he : (String.ofList body).rawEndPos = ⟨(Slicer.behind body).offset⟩ :=
    String.rawEndPos_ofList body
  have hx := Slicer.extract_behind body []
  rw [List.append_nil] at hx
  rw [slices, Slicer.read_ofList, he, hx, Slicer.map_split]

example : slices "é:'\\;';;\\\\;b\\" = ["é:'\\;'", "", "\\\\;b\\"] := by
  decide +kernel

/--
The pieces of a body are slices of it. They are put together to the body again, and texts come out
again as pieces just when they are pieces of some body; behind a body that is empty or ends with a
semicolon that no backslash precedes, and behind no other, any body keeps its pieces.
-/
theorem split_inverts_join :
    (∀ body : Text,
      slices (String.ofList body) = (split body).map String.ofList ∧
        join (split body) = body ∧ ArePieces (split body)) ∧
    (∀ pieces, split (join pieces) = pieces ↔ ArePieces pieces) ∧
    ∀ body : Text,
      body = [] ∨ (∃ front, body = front ++ [';'] ∧ front.getLast? ≠ some '\\') ↔
        (split body).getLast? = some [] ∧
          ∀ other, split (body ++ other) = (split body).dropLast ++ split other := by
  refine ⟨fun body => ⟨slices_ofList body, join_split body, ?_⟩, fun pieces => split_join_iff,
    fun body => ?_⟩
  · exact arePieces_iff.mpr ⟨split_ne_nil body, joinable_split body⟩
  · rw [← isClosed_iff]
    exact isClosed_iff_split_append

end StyleSheet.Body
