import StyleSheet.Text
import StyleSheet.Body
import StyleSheet.Declaration
import StyleSheet.Table
import StyleSheet.Cascade
import StyleSheet.Value
import StyleSheet.Recolor
import StyleSheet.Json.Problem
import StyleSheet.Json.Quoted
import StyleSheet.Json.Precision
import StyleSheet.Json.Numeral
import StyleSheet.Json.Document
import StyleSheet.Color.Hex
import StyleSheet.Color.Rgb
import StyleSheet.Color.Palette
import StyleSheet.Color.Tables
import StyleSheet.Color.Stage
import StyleSheet.Options
import StyleSheet.Sheet
import StyleSheet.Sheet.Column
import StyleSheet.Sheet.Parts
import StyleSheet.Merge
import StyleSheet.Event
import StyleSheet.Session
import StyleSheet.Compressor
import StyleSheet.Proofs.Splitting
import StyleSheet.Proofs.Reading
import StyleSheet.Proofs.Merging.Collapse
import StyleSheet.Proofs.Merging.FixedPoint
import StyleSheet.Proofs.Merging.Run
import StyleSheet.Proofs.Merging.Conservation
import StyleSheet.Proofs.Merging.Shift
import StyleSheet.Proofs.Color.Loads
import StyleSheet.Proofs.Color.Bundled
import StyleSheet.Proofs.Outcome
import StyleSheet.Proofs.Sheet.Fates
import StyleSheet.Proofs.Sheet.Edits
import StyleSheet.Proofs.Sheet.Columns
import StyleSheet.Proofs.Sheet.Positions
import StyleSheet.Proofs.Joining
import StyleSheet.Proofs.Tokens
import StyleSheet.Proofs.Recoloring
import StyleSheet.Proofs.Color.NormalForm
import StyleSheet.Proofs.Pruning
import StyleSheet.Proofs.Compressing
import StyleSheet.Proofs.Latch
import StyleSheet.Proofs.Size
import StyleSheet.Proofs.Merging.Pooling
import StyleSheet.Proofs.Reordering
import StyleSheet.Proofs.Merging.InPlace
import StyleSheet.Proofs.Merging.Grouping
import StyleSheet.Proofs.Winners
import StyleSheet.Proofs.Interchange
import StyleSheet.Proofs.Shortening
import StyleSheet.Proofs.Concatenation
import StyleSheet.Proofs.Color.Calls
import StyleSheet.Proofs.Color.Length
import StyleSheet.Proofs.Parting
import StyleSheet.Proofs.Rewriting
import StyleSheet.Proofs.Framing
import StyleSheet.Proofs.Json.Grammar
import StyleSheet.Proofs.Json.Numbers
import StyleSheet.Proofs.Json.Strings
import StyleSheet.Proofs.Json.Cursors
import StyleSheet.Proofs.Color.TableTexts
import StyleSheet.Proofs.OptionTexts
import StyleSheet.Proofs.Demand
import StyleSheet.Proofs.Sheet.RoundTrip
import StyleSheet.Proofs.Merging.Rounds
import StyleSheet.Proofs.Color.Canonical
import StyleSheet.Proofs.Slicing
