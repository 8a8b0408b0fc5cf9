import StyleSheet.Cascade
import StyleSheet.Event
import StyleSheet.Recolor
import StyleSheet.Sheet.Parts

namespace StyleSheet

/-- Tables that are loaded at most once. The maps of each load to come have orders of their own. -/
structure Holder where
  source : Color.Source
  wording : Color.Wording
  orders : Nat → Color.Orders
  loaded : Option Color.Tables := none

namespace Holder

/-- Nothing is loaded yet, and all maps keep the order of their keys. -/
def orderly (source : Color.Source) (wording : Color.Wording) : Holder where
  source
  wording
  orders _ := .ascending

/-- The bundled tables, already loaded. -/
def bundled : Holder :=
  { orderly .bundled (fun _ => "") with
    loaded := (Color.Source.load .bundled (fun _ => "") .ascending).toOption }

def isLoaded (holder : Holder) : Bool :=
  holder.loaded.isSome

/-- What a load comes to if it is the one after so many others. -/
def attempt (holder : Holder) (count : Nat) : Except Color.TableError Color.Tables :=
  holder.source.load holder.wording (holder.orders count)

/-- The holder after its next load, which may have failed. -/
def tried (holder : Holder) : Holder :=
  { holder with
    orders := fun count => holder.orders (count + 1)
    loaded := (holder.attempt 0).toOption }

end Holder

/-- The tables in use, and the events so far. -/
structure Session where
  holder : Holder
  log : Array Event := #[]

/-- Work that fails only when the tables cannot be loaded; events are kept in any case. -/
abbrev SessionM := ExceptT Color.TableError (StateM Session)

namespace Session

def emit (event : Event) : SessionM Unit :=
  modify fun session => { session with log := session.log.push event }

def emitAll (events : List Event) : SessionM Unit :=
  modify fun session => { session with log := session.log ++ events }

/-- The tables, loaded now unless they are there already; a failed load is tried again next time. -/
def tables : SessionM Color.Tables := do
  let session ← get
  match session.holder.loaded with
  | some tables => return tables
  | none =>
    set { session with holder := session.holder.tried }
    match session.holder.attempt 0 with
    | .error error =>
      emit (.loadFailed error)
      throw error
    | .ok tables =>
      emit (.loaded tables.names.length tables.shortNames.length)
      return tables

/-- The tables if one of the stages looks colours up. -/
def tablesFor (options : Color.ColorOptions) : SessionM (Option Color.Tables) := do
  if options.needsTables then return some (← tables) else return none

def preload (options : Color.ColorOptions) : SessionM Unit := do
  let _ ← tablesFor options

/-- Shortens a colour literal and reports each stage that changed it. -/
def normalize (options : Color.ColorOptions) (literal : Text) : SessionM Text := do
  let tables ← tablesFor options
  emitAll ((Color.steps tables options.stages literal).map .rewritten)
  return Color.normalize options tables literal

/-- Shortens the colours of a body; a body without any needs no tables. -/
def recolor (options : Color.ColorOptions) (body : Text) : SessionM Text := do
  let literals := Body.literals body
  if literals.isEmpty then return body
  else
    let tables ← tablesFor options
    emitAll ((literals.flatMap (Color.steps tables options.stages)).map .rewritten)
    return Body.recolor (Color.normalize options tables) body

def prune (body : Text) : SessionM Text := do
  let count := Cascade.overridden body
  if 0 < count then emit (.pruned count)
  return Cascade.prune body

def merge (how : List Slot → Merged) (sheet : Sheet) : SessionM (Sheet × Nat) := do
  let (sheet, merges) := sheet.merge how
  emitAll (merges.map .merged)
  return (sheet, merges.length)

/-- Merges rules by both criteria until nothing is left to merge. -/
def organize (sheet : Sheet) : SessionM (Sheet × Nat) :=
  merge (Merge.settle [.selector, .body]) sheet

def organizeParts (parts : Parts) : SessionM Parts := do
  let (sheet, _) ← organize (Sheet.ofParts parts)
  return sheet.toParts

end Session

end StyleSheet
