namespace StyleSheet.Json

/-- The first problem met when a text is read from left to right. -/
inductive Problem where
  /-- The text stops too early. -/
  | truncated
  /-- A character cannot stand where it does. -/
  | malformed
  /-- A value of the wrong kind, or a member given twice. -/
  | mistyped
  deriving DecidableEq, Repr

def isSpace (c : Char) : Bool :=
  c == ' ' || c == '\t' || c == '\n' || c == '\r'

end StyleSheet.Json
