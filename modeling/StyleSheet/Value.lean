import StyleSheet.Text

namespace StyleSheet.Value

inductive Segment where
  | separator (c : Char)
  | token (t : Text)
  deriving DecidableEq, Repr

namespace Segment

def text : Segment → Text
  | .separator c => [c]
  | .token t => t

def token? : Segment → Option Text
  | .separator _ => none
  | .token t => some t

def rewrite (f : Text → Text) : Segment → Segment
  | .separator c => .separator c
  | .token t => .token (f t)

/-- Puts a character in front of the first token, or makes it a token of its own. -/
def extend (c : Char) : List Segment → List Segment
  | .token t :: rest => .token (c :: t) :: rest
  | segments => .token [c] :: segments

end Segment

/-- What stands between tokens: blank characters and commas. -/
def isSeparator (c : Char) : Bool :=
  Text.isBlank c || c == ','

/-- The parenthesis depth after a character; a closing parenthesis too many changes nothing. -/
def nest (depth : Nat) (c : Char) : Nat :=
  if c = '(' then depth + 1 else if c = ')' then depth - 1 else depth

/--
The segments before the first exclamation mark outside parentheses, and the text from that mark
on. Separators inside parentheses belong to their token.
-/
def scan (depth : Nat) : Text → List Segment × Text
  | [] => ([], [])
  | c :: cs =>
    if depth = 0 ∧ c = '!' then ([], c :: cs)
    else if depth = 0 ∧ isSeparator c = true then
      let after := scan 0 cs
      (.separator c :: after.1, after.2)
    else
      let after := scan (nest depth c) cs
      (Segment.extend c after.1, after.2)

def segments (value : Text) : List Segment :=
  (scan 0 value).1

/-- What a value holds from its exclamation mark on. -/
def remainder (value : Text) : Text :=
  (scan 0 value).2

def tokens (value : Text) : List Text :=
  (segments value).filterMap Segment.token?

/-- Rewrites each token of a value; all else stays. -/
def rewrite (f : Text → Text) (value : Text) : Text :=
  ((segments value).map (Segment.rewrite f)).flatMap Segment.text ++ remainder value

theorem Segment.flatMap_text_extend (c : Char) (segments : List Segment) :
    (extend c segments).flatMap text = c :: segments.flatMap text := by
  cases segments with
  | nil => rfl
  | cons segment rest => cases segment <;> rfl

theorem flatMap_text_scan (depth : Nat) (value : Text) :
    (scan depth value).1.flatMap Segment.text ++ (scan depth value).2 = value := by
  induction value generalizing depth with
  | nil => rfl
  | cons c cs ih =>
    rw [scan]
    split
    · rfl
    · split
      · simpa [Segment.text] using ih 0
      · simpa [Segment.flatMap_text_extend] using ih (nest depth c)

/-- The segments and the remainder spell out the value. -/
theorem flatMap_text_segments (value : Text) :
    (segments value).flatMap Segment.text ++ remainder value = value :=
  flatMap_text_scan 0 value

theorem rewrite_of_tokens_eq_nil (f : Text → Text) {value : Text} (h : tokens value = []) :
    rewrite f value = value := by
  have keep : (segments value).map (Segment.rewrite f) = (segments value).map id := by
    apply List.map_congr_left
    intro segment mem
    cases segment with
    | separator c => rfl
    | token t => cases List.filterMap_eq_nil_iff.mp h _ mem
  rw [rewrite, keep, List.map_id, flatMap_text_segments]

end StyleSheet.Value
