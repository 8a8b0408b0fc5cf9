import StyleSheet.Text

namespace StyleSheet.Body

/-- Cuts at each semicolon; `escaped` says that the character before the text is a backslash. -/
def splitFrom (escaped : Bool) : Text → List Text
  | [] => [[]]
  | c :: cs =>
    if c = ';' ∧ escaped = false then [] :: splitFrom false cs
    else (splitFrom (c == '\\') cs).modifyHead (c :: ·)

/-- The pieces of a body: a semicolon ends a piece unless a backslash stands right before it. -/
def split (body : Text) : List Text :=
  splitFrom false body

def join (pieces : List Text) : Text :=
  [';'].intercalate pieces

/-- The pieces that hold more than blank characters. -/
def declarations (body : Text) : List Text :=
  (split body).filter fun piece => !piece.all Text.isBlank

/-- Whether a body stops right after a semicolon that ends a piece, or is empty. -/
def isClosed (body : Text) : Bool :=
  (split body).getLast? == some []

theorem splitFrom_ne_nil (escaped : Bool) (t : Text) : splitFrom escaped t ≠ [] := by
  induction t generalizing escaped with
  | nil => simp [splitFrom]
  | cons c cs ih =>
    rw [splitFrom]
    split
    · simp
    · simpa using ih _

theorem split_ne_nil (body : Text) : split body ≠ [] :=
  splitFrom_ne_nil false body

theorem join_cons {pieces : List Text} (piece : Text) (h : pieces ≠ []) :
    join (piece :: pieces) = piece ++ ';' :: join pieces := by
  cases pieces with
  | nil => exact absurd rfl h
  | cons p ps => simp [join, List.intercalate]

theorem join_modifyHead {pieces : List Text} (c : Char) (h : pieces ≠ []) :
    join (pieces.modifyHead (c :: ·)) = c :: join pieces := by
  cases pieces with
  | nil => exact absurd rfl h
  | cons p ps => cases ps <;> simp [join, List.intercalate]

theorem join_splitFrom (escaped : Bool) (t : Text) : join (splitFrom escaped t) = t := by
  induction t generalizing escaped with
  | nil => rfl
  | cons c cs ih =>
    rw [splitFrom]
    split
    next h => rw [join_cons _ (splitFrom_ne_nil _ _), ih, h.1, List.nil_append]
    next => rw [join_modifyHead c (splitFrom_ne_nil _ _), ih]

end StyleSheet.Body
