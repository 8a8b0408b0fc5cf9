import StyleSheet.Color.Hex
import StyleSheet.Color.Rgb
import StyleSheet.Color.Tables

namespace StyleSheet.Color

inductive Stage where
  | rgbToHex
  | nameToHex
  | hexToShortName
  | hexToShortHex
  deriving DecidableEq, Repr

def rgbToHex? (literal : Text) : Option Text :=
  (Rgb.read? literal).map Rgb.toHex

def Tables.nameToHex? (tables : Tables) (literal : Text) : Option Text :=
  tables.names.get? (Text.lower literal)

def Tables.hexToShortName? (tables : Tables) (literal : Text) : Option Text :=
  if Hex.isFull literal then tables.shortNames.get? (Text.lower literal) else none

namespace Stage

/-- All stages in the order in which they run. -/
def all : List Stage :=
  [.rgbToHex, .nameToHex, .hexToShortName, .hexToShortHex]

def name : Stage → String
  | .rgbToHex => "rgb2hex"
  | .nameToHex => "long2hex"
  | .hexToShortName => "hex2shortcolor"
  | .hexToShortHex => "hex2shorthex"

/-- Whether a stage looks colours up. -/
def needsTables : Stage → Bool
  | .nameToHex | .hexToShortName => true
  | .rgbToHex | .hexToShortHex => false

/-- The other way to write a literal, if the stage knows one. -/
def apply (stage : Stage) (tables : Option Tables) (literal : Text) : Option Text :=
  match stage with
  | .rgbToHex => rgbToHex? literal
  | .nameToHex => tables.bind fun tables => tables.nameToHex? literal
  | .hexToShortName => tables.bind fun tables => tables.hexToShortName? literal
  | .hexToShortHex => Hex.shorten? literal

end Stage

structure ColorOptions where
  rgbToHex : Bool
  nameToHex : Bool
  hexToShortName : Bool
  hexToShortHex : Bool
  deriving DecidableEq, Repr

namespace ColorOptions

def all : ColorOptions := ⟨true, true, true, true⟩

def none : ColorOptions := ⟨false, false, false, false⟩

def enables (options : ColorOptions) : Stage → Bool
  | .rgbToHex => options.rgbToHex
  | .nameToHex => options.nameToHex
  | .hexToShortName => options.hexToShortName
  | .hexToShortHex => options.hexToShortHex

def set (options : ColorOptions) (value : Bool) : Stage → ColorOptions
  | .rgbToHex => { options with rgbToHex := value }
  | .nameToHex => { options with nameToHex := value }
  | .hexToShortName => { options with hexToShortName := value }
  | .hexToShortHex => { options with hexToShortHex := value }

/-- The options with just these stages on. -/
def ofStages (stages : List Stage) : ColorOptions :=
  stages.foldl (fun options stage => options.set true stage) none

def stages (options : ColorOptions) : List Stage :=
  Stage.all.filter options.enables

/-- Whether a stage that looks colours up is on. -/
def needsTables (options : ColorOptions) : Bool :=
  options.nameToHex || options.hexToShortName

theorem needsTables_eq (options : ColorOptions) :
    options.needsTables = options.stages.any Stage.needsTables := by
  obtain ⟨a, b, c, d⟩ := options
  cases a <;> cases b <;> cases c <;> cases d <;> rfl

end ColorOptions

/-- A stage that found another way to write a literal. -/
structure Step where
  stage : Stage
  before : Text
  after : Text
  deriving DecidableEq, Repr

/-- The steps taken by a run of stages, each working on what the one before left. -/
def steps (tables : Option Tables) : List Stage → Text → List Step
  | [], _ => []
  | stage :: rest, literal =>
    match stage.apply tables literal with
    | none => steps tables rest literal
    | some next => ⟨stage, literal, next⟩ :: steps tables rest next

def run (tables : Option Tables) (stages : List Stage) (literal : Text) : Text :=
  stages.foldl (fun current stage => (stage.apply tables current).getD current) literal

/-- The literal that the enabled stages make of a literal; a code ends up in lower case. -/
def normalize (options : ColorOptions) (tables : Option Tables) (literal : Text) : Text :=
  Hex.lowercase (run tables options.stages literal)

theorem run_eq_getLast_steps (tables : Option Tables) (stages : List Stage) (literal : Text) :
    run tables stages literal =
      ((steps tables stages literal).getLast?.map Step.after).getD literal := by
  induction stages generalizing literal with
  | nil => rfl
  | cons stage rest ih =>
    have unfold_run : run tables (stage :: rest) literal =
        run tables rest ((stage.apply tables literal).getD literal) := rfl
    rw [unfold_run, ih, steps]
    cases h : stage.apply tables literal with
    | none => simp
    | some next =>
      simp only [Option.getD_some]
      cases steps tables rest next with
      | nil => rfl
      | cons _ _ => simp [List.getLast?_cons]

end StyleSheet.Color
