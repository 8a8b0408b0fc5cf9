import StyleSheet.Table
import StyleSheet.Color.Hex
import StyleSheet.Color.Palette
import StyleSheet.Json.Document

namespace StyleSheet.Color

inductive TableName where
  | names
  | shortNames
  deriving DecidableEq, Repr

/-- The label under which a table is reported. -/
def TableName.label : TableName → String
  | .names => "long2hex"
  | .shortNames => "hex2short"

/-- Why the tables cannot be loaded. -/
inductive TableError where
  /-- The text of a table is not a JSON object whose values are strings; the reader says why. -/
  | unreadable (table : TableName) (words : String)
  /-- A name stands for something other than a code. -/
  | notCode (name value : Text)
  /-- A short name is given to something other than a full code. -/
  | notFullCode (key : Text)
  deriving DecidableEq, Repr

namespace TableError

def table : TableError → TableName
  | .unreadable table _ => table
  | .notCode _ _ => .names
  | .notFullCode _ => .shortNames

def cause : TableError → String
  | .unreadable _ words => words
  | .notCode name value =>
    "'" ++ String.ofList name ++ "' maps to '" ++ String.ofList value ++
      "', which is not a hex code"
  | .notFullCode key => "key '" ++ String.ofList key ++ "' is not a 6 digit hex code"

def message (error : TableError) : String :=
  "failed to load color table '" ++ error.table.label ++ "': " ++ error.cause

end TableError

/-- Lookup by name and by code; all keys are in lower case. -/
structure Tables where
  names : Table Text
  shortNames : Table Text
  deriving DecidableEq, Repr

/-- What the JSON reader says about a text that it does not take. -/
abbrev Wording := Text → String

/-- Where the entries of a table come from. -/
inductive Entries where
  | listed (entries : List (Text × Text))
  | json (text : Text)
  deriving DecidableEq, Repr

namespace Entries

/-- Takes an object whose values are strings. -/
def reader : Json.Reader (Table Text) where
  member table key := some (.text (table.insert key))
  element _ := none

/-- The entries as they are written, the last entry of a key winning. -/
def read (wording : Wording) : Entries → Except String (Table Text)
  | .listed entries => .ok (Table.ofEntries entries)
  | .json text => (Json.read reader [] text).mapError fun _ => wording text

end Entries

/-- What is wrong with an entry of a table: a name has to stand for a code, and a short name has to
be given to a full code. -/
def TableName.fault? : TableName → Text × Text → Option TableError
  | .names, (name, value) => if Hex.isCode value then none else some (.notCode name value)
  | .shortNames, (key, _) => if Hex.isFull key then none else some (.notFullCode key)

def lowerKey (entry : Text × Text) : Text × Text :=
  (Text.lower entry.1, entry.2)

/-- The table under its keys in lower case; of keys that become one the last to come wins. -/
def lowered (order : Table.Order) (table : Table Text) : Table Text :=
  Table.ofEntries ((order.arrange table).map lowerKey)

/-- The orders in which a load comes by the entries of its tables. -/
structure Orders where
  lowering : TableName → Table.Order
  checking : TableName → Table.Order

def Orders.ascending : Orders where
  lowering _ := .ascending
  checking _ := .ascending

/-- Reads a table and reports the first fault that is met in it. -/
def Entries.load (entries : Entries) (name : TableName) (wording : Wording) (orders : Orders) :
    Except TableError (Table Text) :=
  match entries.read wording with
  | .error words => .error (.unreadable name words)
  | .ok written =>
    let table := lowered (orders.lowering name) written
    match ((orders.checking name).arrange table).findSome? name.fault? with
    | some error => .error error
    | none => .ok table

structure Source where
  names : Entries
  shortNames : Entries
  deriving DecidableEq, Repr

namespace Source

def bundled : Source where
  names := .listed (Palette.toTexts Palette.names)
  shortNames := .listed (Palette.toTexts Palette.shortNames)

def json (names shortNames : Text) : Source where
  names := .json names
  shortNames := .json shortNames

/-- Loads the names, then the short names. -/
def load (source : Source) (wording : Wording) (orders : Orders) : Except TableError Tables := do
  let names ← source.names.load .names wording orders
  let shortNames ← source.shortNames.load .shortNames wording orders
  return ⟨names, shortNames⟩

end Source

end StyleSheet.Color
