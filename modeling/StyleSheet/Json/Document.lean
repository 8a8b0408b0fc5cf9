import StyleSheet.Json.Quoted
import StyleSheet.Json.Numeral

namespace StyleSheet.Json

/-- What is to be done with a value. -/
inductive Wanted (σ : Type) where
  /-- It is the whole document: an object, or an array if the reader takes elements. -/
  | document
  /-- It is passed over, whatever it is. -/
  | anything
  | bool (next : Bool → σ)
  | text (next : Text → σ)

/-- Passing over a value asks less of it than reading it. -/
def Wanted.isAnything {σ : Type} : Wanted σ → Bool
  | .anything => true
  | _ => false

/-- How a document's members or elements are taken in. -/
structure Reader (σ : Type) where
  /-- What to do with a member of this name; `none` refuses the name. -/
  member : σ → Text → Option (Wanted σ)
  /-- What to do with one more element; `none` allows no more. -/
  element : σ → Option (Wanted σ)

inductive Scalar where
  | null
  | bool (b : Bool)
  | number (n : Numeral)
  | text (t : Text)
  deriving DecidableEq, Repr

inductive Frame where
  | array
  | object
  deriving DecidableEq, Repr

/-- Where in the document the next character stands. -/
inductive Place (σ : Type) where
  /-- Before a value. -/
  | value (wanted : Wanted σ)
  /-- Right behind an opening bracket. -/
  | opened
  /-- Before a member's name, behind a comma. -/
  | nextKey
  | key (q : Quoted)
  | colon (wanted : Wanted σ)
  | text (q : Quoted) (wanted : Wanted σ)
  /-- Inside a literal name, before the characters `rest`. -/
  | word (rest : Text) (scalar : Scalar) (wanted : Wanted σ)
  | numeral (n : Numeral) (wanted : Wanted σ)
  /-- Behind a value. -/
  | after

/-- How far a document is read: what was taken in, and the open brackets, innermost first. -/
structure Cursor (σ : Type) where
  taken : σ
  frames : List Frame := []
  place : Place σ := .value .document

namespace Cursor

variable {σ : Type}

/-- Hands over a value without parts. A number that nobody passes over has to be representable. -/
def accept (cursor : Cursor σ) (wanted : Wanted σ) (scalar : Scalar) :
    Except Problem (Cursor σ) :=
  match wanted, scalar with
  | .anything, _ => .ok { cursor with place := .after }
  | .bool next, .bool b => .ok { cursor with taken := next b, place := .after }
  | .text next, .text t => .ok { cursor with taken := next t, place := .after }
  | _, .number n => .error (if n.isHuge then .malformed else .mistyped)
  | _, _ => .error .mistyped

/-- Opens a bracket; only the document itself and values passed over may have parts. -/
def openFrame (reader : Reader σ) (cursor : Cursor σ) (wanted : Wanted σ) (frame : Frame) :
    Except Problem (Cursor σ) :=
  let inside : Cursor σ := { cursor with frames := frame :: cursor.frames, place := .opened }
  match wanted, frame with
  | .anything, _ => .ok inside
  | .document, .object => .ok inside
  | .document, .array =>
    if (reader.element cursor.taken).isSome then .ok inside else .error .mistyped
  | _, _ => .error .mistyped

def closeFrame (cursor : Cursor σ) : Cursor σ :=
  { cursor with frames := cursor.frames.tail, place := .after }

def beginValue (reader : Reader σ) (cursor : Cursor σ) (wanted : Wanted σ) (c : Char) :
    Except Problem (Cursor σ) :=
  match c with
  | '"' => .ok { cursor with place := .text { strict := !wanted.isAnything } wanted }
  | '[' => cursor.openFrame reader wanted .array
  | '{' => cursor.openFrame reader wanted .object
  | 't' => .ok { cursor with place := .word "rue".toList (.bool true) wanted }
  | 'f' => .ok { cursor with place := .word "alse".toList (.bool false) wanted }
  | 'n' => .ok { cursor with place := .word "ull".toList .null wanted }
  | _ =>
    match Numeral.start? c with
    | some n => .ok { cursor with place := .numeral n wanted }
    | none => .error .malformed

/-- Whether the innermost bracket is the document's own. -/
def isOutermost (cursor : Cursor σ) : Bool :=
  match cursor.frames with
  | [_] => true
  | _ => false

/-- Starts a member's name; only the names of the document's own members are asked for. -/
def beginKey (cursor : Cursor σ) : Cursor σ :=
  { cursor with place := .key { strict := cursor.isOutermost } }

def wantedElement (reader : Reader σ) (cursor : Cursor σ) : Option (Wanted σ) :=
  if cursor.isOutermost then reader.element cursor.taken else some .anything

def wantedMember (reader : Reader σ) (cursor : Cursor σ) (name : Text) : Option (Wanted σ) :=
  if cursor.isOutermost then reader.member cursor.taken name else some .anything

def stepOpened (reader : Reader σ) (cursor : Cursor σ) (c : Char) : Except Problem (Cursor σ) :=
  match cursor.frames with
  | .object :: _ =>
    if c = '"' then .ok cursor.beginKey
    else if c = '}' then .ok cursor.closeFrame
    else .error .malformed
  | _ =>
    if c = ']' then .ok cursor.closeFrame
    else
      match cursor.wantedElement reader with
      | some wanted => cursor.beginValue reader wanted c
      | none => .error .malformed

def stepAfter (reader : Reader σ) (cursor : Cursor σ) (c : Char) : Except Problem (Cursor σ) :=
  if isSpace c then .ok { cursor with place := .after }
  else
    match cursor.frames, c with
    | .object :: _, ',' => .ok { cursor with place := .nextKey }
    | .object :: _, '}' => .ok cursor.closeFrame
    | .array :: _, ',' =>
      match cursor.wantedElement reader with
      | some wanted => .ok { cursor with place := .value wanted }
      | none => .error .malformed
    | .array :: _, ']' => .ok cursor.closeFrame
    | _, _ => .error .malformed

/-- Takes the next character of the document. -/
def step (reader : Reader σ) (cursor : Cursor σ) (c : Char) : Except Problem (Cursor σ) :=
  match cursor.place with
  | .value wanted => if isSpace c then .ok cursor else cursor.beginValue reader wanted c
  | .opened => if isSpace c then .ok cursor else cursor.stepOpened reader c
  | .nextKey =>
    if isSpace c then .ok cursor
    else if c = '"' then .ok cursor.beginKey
    else .error .malformed
  | .key q => do
    match ← q.step c with
    | some q => return { cursor with place := .key q }
    | none =>
      match cursor.wantedMember reader q.text with
      | some wanted => return { cursor with place := .colon wanted }
      | none => throw .mistyped
  | .colon wanted =>
    if isSpace c then .ok cursor
    else if c = ':' then .ok { cursor with place := .value wanted }
    else .error .malformed
  | .text q wanted => do
    match ← q.step c with
    | some q => return { cursor with place := .text q wanted }
    | none => cursor.accept wanted (.text q.text)
  | .word rest scalar wanted =>
    match rest with
    | [] => .error .malformed
    | expected :: rest =>
      if c ≠ expected then .error .malformed
      else if rest.isEmpty then cursor.accept wanted scalar
      else .ok { cursor with place := .word rest scalar wanted }
  | .numeral n wanted =>
    match n.step c with
    | .more n => .ok { cursor with place := .numeral n wanted }
    | .bad => .error .malformed
    | .stop => do (← cursor.accept wanted (.number n)).stepAfter reader c
  | .after => cursor.stepAfter reader c

/--
What was taken in when the text ends here. A number passed over is judged when the text ends, any
other has to go on.
-/
def finish (cursor : Cursor σ) : Except Problem σ :=
  match cursor.place with
  | .after => if cursor.frames.isEmpty then .ok cursor.taken else .error .truncated
  | .numeral n wanted =>
    if n.isComplete then do
      let _ ← cursor.accept wanted (.number n)
      throw .truncated
    else if wanted.isAnything then .error .malformed
    else .error .truncated
  | _ => .error .truncated

end Cursor

/-- Reads a whole document into what a reader makes of it. -/
def read {σ : Type} (reader : Reader σ) (initial : σ) (text : Text) : Except Problem σ :=
  text.foldlM (Cursor.step reader) { taken := initial } >>= Cursor.finish

end StyleSheet.Json
