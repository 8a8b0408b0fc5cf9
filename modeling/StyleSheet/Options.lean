import StyleSheet.Color.Stage
import StyleSheet.Json.Document

namespace StyleSheet

structure Options where
  color : Color.ColorOptions := ⟨true, true, false, true⟩
  /-- Keep every rule where it is. -/
  keepOrder : Bool := false
  /-- Merge rules with the same selector. -/
  mergeSelectors : Bool := true
  /-- Merge rules with the same declarations. -/
  mergeBodies : Bool := true
  /-- Drop declarations that another one of the same body overrides. -/
  prune : Bool := true
  deriving DecidableEq, Repr

inductive Switch where
  | stage (s : Color.Stage)
  | keepOrder
  | mergeSelectors
  | mergeBodies
  | prune
  deriving DecidableEq, Repr

namespace Switch

/-- All switches in the order in which an array gives them. -/
def all : List Switch :=
  [.stage .rgbToHex, .stage .nameToHex, .stage .hexToShortName, .stage .hexToShortHex,
    .keepOrder, .mergeSelectors, .mergeBodies, .prune]

def key : Switch → String
  | .stage s => "color-" ++ s.name
  | .keepOrder => "order-important"
  | .mergeSelectors => "multiple-selectors"
  | .mergeBodies => "multiple-details"
  | .prune => "rm-multi-define"

def ofKey? (name : Text) : Option Switch :=
  all.find? fun switch => switch.key.toList == name

end Switch

namespace Options

def get (options : Options) : Switch → Bool
  | .stage s => options.color.enables s
  | .keepOrder => options.keepOrder
  | .mergeSelectors => options.mergeSelectors
  | .mergeBodies => options.mergeBodies
  | .prune => options.prune

def set (options : Options) (value : Bool) : Switch → Options
  | .stage s => { options with color := options.color.set value s }
  | .keepOrder => { options with keepOrder := value }
  | .mergeSelectors => { options with mergeSelectors := value }
  | .mergeBodies => { options with mergeBodies := value }
  | .prune => { options with prune := value }

/-- Options being read: the switches given so far keep others of their name out. -/
structure Draft where
  options : Options := {}
  given : List Switch := []
  deriving DecidableEq, Repr

def Draft.give (draft : Draft) (switch : Switch) (value : Bool) : Draft :=
  ⟨draft.options.set value switch, switch :: draft.given⟩

/-- An object gives switches by name, each at most once; an array gives the first few in order. -/
def reader : Json.Reader Draft where
  member draft name :=
    match Switch.ofKey? name with
    | none => some .anything
    | some switch => if switch ∈ draft.given then none else some (.bool (draft.give switch))
  element draft :=
    Switch.all[draft.given.length]?.map fun switch => .bool (draft.give switch)

/-- Reads options; a switch that is not given keeps its default. -/
def ofJson (text : Text) : Except Json.Problem Options :=
  (Json.read reader {} text).map Draft.options

theorem get_set (options : Options) (value : Bool) (switch other : Switch) :
    (options.set value switch).get other = if switch = other then value else options.get other := by
  obtain ⟨⟨_, _, _, _⟩, _, _, _, _⟩ := options
  cases switch with
  | stage s =>
    cases other with
    | stage t => cases s <;> cases t <;> rfl
    | _ => cases s <;> rfl
  | _ =>
    cases other with
    | stage t => cases t <;> rfl
    | _ => rfl

end Options

end StyleSheet
