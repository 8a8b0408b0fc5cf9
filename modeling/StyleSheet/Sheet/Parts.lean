import StyleSheet.Sheet
import StyleSheet.Sheet.Column

namespace StyleSheet

/-- Selectors and bodies under the same indices. -/
structure Parts where
  selectors : Column Text
  bodies : Column Text

namespace Sheet

/-- The rule under an index of either column; the side that is missing is empty. -/
def ruleOfParts (parts : Parts) (index : UInt64) : Rule where
  selector := (parts.selectors.get? index).getD []
  body := (parts.bodies.get? index).getD []

/-- A rule for each index of either column. -/
def ofParts (parts : Parts) : Sheet :=
  let indices := parts.selectors.indices ++ parts.bodies.indices
  let rules := Column.ofList (indices.map fun index => (index, ruleOfParts parts index))
  ⟨(rules.entries.map fun (index, rule) => ⟨index, some rule⟩).toArray⟩

/-- The selectors and bodies of the rules; holes are in neither column. -/
def toParts (sheet : Sheet) : Parts where
  selectors := Column.ofList (sheet.live.map fun (index, rule) => (index, rule.selector))
  bodies := Column.ofList (sheet.live.map fun (index, rule) => (index, rule.body))

end Sheet

end StyleSheet
