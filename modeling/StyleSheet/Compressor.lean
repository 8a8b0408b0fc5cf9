import StyleSheet.Options
import StyleSheet.Session

namespace StyleSheet

def Options.criteria (options : Options) : List Criterion :=
  (if options.mergeSelectors then [.selector] else []) ++
    (if options.mergeBodies then [.body] else [])

/-- A compressor whose tables are at hand. -/
structure Compressor where
  options : Options
  deriving DecidableEq, Repr

namespace Compressor

/-- Loads the tables if they are needed, so that a failure comes before any work. -/
def build (options : Options) : SessionM Compressor := do
  Session.preload options.color
  return ⟨options⟩

/-- Merges rules unless their order is to be kept. -/
def merge (compressor : Compressor) (sheet : Sheet) : SessionM Sheet := do
  if compressor.options.keepOrder then return sheet
  else
    let (merged, _) ← Session.merge (Merge.settle compressor.options.criteria) sheet
    return merged

/-- Drops overridden declarations if that is wanted, then shortens colours. -/
def compressBody (compressor : Compressor) (body : Text) : SessionM Text := do
  let kept ← if compressor.options.prune then Session.prune body else pure body
  Session.recolor compressor.options.color kept

def compressSlot (compressor : Compressor) (slot : Slot) : SessionM Slot :=
  match slot.rule with
  | none => return slot
  | some rule =>
    return { slot with rule := some { rule with body := ← compressor.compressBody rule.body } }

/-- Merges the rules of a sheet and compresses the bodies that are left. -/
def compress (compressor : Compressor) (sheet : Sheet) : SessionM Sheet := do
  let merged ← compressor.merge sheet
  let slots ← merged.slots.toList.mapM compressor.compressSlot
  let result : Sheet := ⟨slots.toArray⟩
  Session.emit (.compressed sheet.size result.size)
  return result

def compressParts (compressor : Compressor) (parts : Parts) : SessionM Parts :=
  return (← compressor.compress (Sheet.ofParts parts)).toParts

end Compressor

end StyleSheet
