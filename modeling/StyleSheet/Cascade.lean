import StyleSheet.Body
import StyleSheet.Declaration
import StyleSheet.Table

namespace StyleSheet.Cascade

structure Winner where
  position : Nat
  important : Bool
  deriving DecidableEq, Repr

/-- A newcomer takes the property over unless only its holder is important. -/
def Winner.yieldsTo (holder newcomer : Winner) : Bool :=
  !holder.important || newcomer.important

/-- Lets the declaration at a position contend for its property. -/
def contend (standing : Table Winner) (entry : Text × Nat) : Table Winner :=
  match Declaration.property? entry.1 with
  | none => standing
  | some name =>
    let newcomer : Winner := ⟨entry.2, Declaration.isImportant entry.1⟩
    match standing.get? name with
    | none => standing.insert name newcomer
    | some holder => if holder.yieldsTo newcomer then standing.insert name newcomer else standing

def winners (declarations : List Text) : Table Winner :=
  declarations.zipIdx.foldl contend []

/-- A declaration stays if it names no property or holds the one it names. -/
def survives (standing : Table Winner) (entry : Text × Nat) : Bool :=
  match Declaration.property? entry.1 with
  | none => true
  | some name => (standing.get? name).all fun winner => winner.position == entry.2

def survivors (declarations : List Text) : List Text :=
  (declarations.zipIdx.filter (survives (winners declarations))).map Prod.fst

/-- A body with the surviving declarations only; a closing semicolon is kept. -/
def prune (body : Text) : Text :=
  let kept := Body.join (survivors (Body.declarations body))
  if Body.isClosed body && !kept.isEmpty then kept ++ [';'] else kept

def overridden (body : Text) : Nat :=
  (Body.declarations body).length - (survivors (Body.declarations body)).length

end StyleSheet.Cascade
