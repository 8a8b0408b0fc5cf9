import StyleSheet.Color.Stage
import StyleSheet.Merge

namespace StyleSheet

inductive Level where
  | error
  | info
  | debug
  | trace
  deriving DecidableEq, Repr

def Level.label : Level → String
  | .error => "ERROR"
  | .info => "INFO"
  | .debug => "DEBUG"
  | .trace => "TRACE"

inductive Event where
  | loadFailed (error : Color.TableError)
  | loaded (names shortNames : Nat)
  | merged (merge : Merge)
  | pruned (count : Nat)
  | compressed (before after : Nat)
  | rewritten (step : Color.Step)
  deriving DecidableEq, Repr

namespace Event

def level : Event → Level
  | .loadFailed _ => .error
  | .loaded _ _ => .info
  | .merged _ | .pruned _ | .compressed _ _ => .debug
  | .rewritten _ => .trace

/-- The report of a merge; an index is given as that of a slot which exists. -/
def mergeMessage (merge : Merge) : String :=
  let selector := String.ofList merge.selector
  let source := merge.source.toNat
  let target := merge.target.toNat
  match merge.criterion with
  | .selector =>
    s!"merging repeated selector '{selector}' (block Some({source}) into Some({target}))"
  | .body => s!"merging selector '{selector}' into block Some({target}) (identical declarations)"

def message : Event → String
  | .loadFailed error => error.message
  | .loaded names shortNames => s!"loaded color tables: {names} names, {shortNames} short names"
  | .merged merge => mergeMessage merge
  | .pruned count => s!"dropped {count} overridden declarations"
  | .compressed before after => s!"compressed {before} rule blocks into {after}"
  | .rewritten step =>
    step.stage.name ++ ": " ++ String.ofList step.before ++ " -> " ++ String.ofList step.after

/-- An event on a line of its own. -/
def line (event : Event) : String :=
  event.level.label ++ " " ++ event.message

end Event

end StyleSheet
