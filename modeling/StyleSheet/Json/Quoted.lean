import StyleSheet.Text
import StyleSheet.Json.Problem

namespace StyleSheet.Json

/-- What the characters read so far leave open. -/
inductive Quoted.Phase where
  /-- Nothing: the next character speaks for itself. -/
  | plain
  /-- A backslash was read. -/
  | escape
  /-- A backslash and `u` were read, then `bytes` bytes with this value if all were digits. -/
  | unicode (high : Option Nat) (bytes : Nat) (value : Option Nat)
  /-- The first half of a surrogate pair was read; the second has to follow. -/
  | half (high : Nat)
  /-- The same, with the backslash of the second half. -/
  | halfEscape (high : Nat)
  deriving DecidableEq, Repr

/--
A string as far as it is read, its characters in reverse. A strict string has to decode to text; in
any other the halves of surrogate pairs may stand alone, since nobody asks for its text.
-/
structure Quoted where
  strict : Bool
  reversed : Text := []
  phase : Quoted.Phase := .plain
  deriving DecidableEq, Repr

namespace Quoted

def text (q : Quoted) : Text :=
  q.reversed.reverse

def push (q : Quoted) (c : Char) : Quoted :=
  { q with reversed := c :: q.reversed, phase := .plain }

def digit? (c : Char) : Option Nat :=
  if '0' ≤ c ∧ c ≤ '9' then some (c.toNat - '0'.toNat)
  else if 'a' ≤ c ∧ c ≤ 'f' then some (c.toNat - 'a'.toNat + 10)
  else if 'A' ≤ c ∧ c ≤ 'F' then some (c.toNat - 'A'.toNat + 10)
  else none

/-- The character that a single letter stands for behind a backslash. -/
def unescape? (c : Char) : Option Char :=
  match c with
  | '"' => some '"'
  | '\\' => some '\\'
  | '/' => some '/'
  | 'b' => some '\x08'
  | 'f' => some '\x0c'
  | 'n' => some '\n'
  | 'r' => some '\r'
  | 't' => some '\t'
  | _ => none

def isHighSurrogate (n : Nat) : Bool :=
  0xD800 ≤ n && n ≤ 0xDBFF

def isLowSurrogate (n : Nat) : Bool :=
  0xDC00 ≤ n && n ≤ 0xDFFF

/-- The code point of a surrogate pair. -/
def combine (high low : Nat) : Nat :=
  0x10000 + (high - 0xD800) * 0x400 + (low - 0xDC00)

/-- Takes the value of a `\u` escape; `high` is the first half it follows, if any. -/
def pushUnit (q : Quoted) (high : Option Nat) (value : Nat) : Except Problem Quoted :=
  if q.strict then
    match high with
    | some high =>
      if isLowSurrogate value then .ok (q.push (Char.ofNat (combine high value)))
      else .error .malformed
    | none =>
      if isLowSurrogate value then .error .malformed
      else if isHighSurrogate value then .ok { q with phase := .half value }
      else .ok (q.push (Char.ofNat value))
  else .ok { q with phase := .plain }

/--
Takes a character of a `\u` escape. Four bytes are read before they are judged, so a text that stops
within them is truncated rather than malformed.
-/
def pushDigit (q : Quoted) (high : Option Nat) (bytes : Nat) (value : Option Nat) (c : Char) :
    Except Problem Quoted :=
  let bytes := bytes + c.utf8Size
  let value := value.bind fun n => (digit? c).map fun d => 16 * n + d
  if bytes < 4 then .ok { q with phase := .unicode high bytes value }
  else
    match value with
    | some value => q.pushUnit high value
    | none => .error .malformed

/-- Takes the next character; `none` says that it was the closing quote. -/
def step (q : Quoted) (c : Char) : Except Problem (Option Quoted) :=
  match q.phase with
  | .plain =>
    if c = '"' then .ok none
    else if c = '\\' then .ok (some { q with phase := .escape })
    else if c.toNat < 0x20 then .error .malformed
    else .ok (some (q.push c))
  | .escape =>
    if c = 'u' then .ok (some { q with phase := .unicode none 0 (some 0) })
    else
      match unescape? c with
      | some d => .ok (some (q.push d))
      | none => .error .malformed
  | .unicode high bytes value => (q.pushDigit high bytes value c).map some
  | .half high =>
    if c = '\\' then .ok (some { q with phase := .halfEscape high }) else .error .malformed
  | .halfEscape high =>
    if c = 'u' then .ok (some { q with phase := .unicode (some high) 0 (some 0) })
    else .error .malformed

end Quoted

end StyleSheet.Json
