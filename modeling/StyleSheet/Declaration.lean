import StyleSheet.Text

namespace StyleSheet.Declaration

/-- The texts before and after the first colon. -/
def parts? (declaration : Text) : Option (Text × Text) :=
  match declaration.dropWhile (· != ':') with
  | [] => none
  | _ :: value => some (declaration.takeWhile (· != ':'), value)

/-- Custom properties start with two hyphens; their names are case-sensitive. -/
def isCustom (name : Text) : Bool :=
  ['-', '-'].isPrefixOf name

/-- The trimmed name before the colon, in lower case unless custom; an empty name is none. -/
def property? (declaration : Text) : Option Text :=
  (parts? declaration).bind fun (name, _) =>
    let name := Text.trim name
    if name.isEmpty then none
    else if isCustom name then some name
    else some (Text.lower name)

def importantMark : Text := "!important".toList

/-- Blank characters inside the mark and the case of its letters do not matter. -/
def isImportant (declaration : Text) : Bool :=
  importantMark.isSuffixOf (Text.lower (declaration.filter fun c => !Text.isBlank c))

/-- Properties whose values may hold colours. -/
def colorProperties : List Text :=
  ["color", "box-shadow", "text-shadow", "caret-color", "accent-color", "fill", "stroke",
    "stop-color", "flood-color", "lighting-color", "scrollbar-color"].map String.toList

/-- Properties whose values may hold colours, together with all their longhands. -/
def colorFamilies : List Text :=
  ["background", "border", "outline", "column-rule", "text-decoration",
    "text-emphasis"].map String.toList

/-- A name without the vendor mark `-vendor-` at its front. -/
def withoutVendor (name : Text) : Text :=
  match name with
  | '-' :: rest =>
    match rest.dropWhile (· != '-') with
    | [] => name
    | _ :: standard => standard
  | _ => name

/-- A family's own name, or that name followed by a hyphen. -/
def inFamily (name family : Text) : Bool :=
  name == family || (family ++ ['-']).isPrefixOf name

/-- Whether values of a property may hold colours; those of custom properties are left alone. -/
def carriesColor (property : Text) : Bool :=
  let name := Text.trim property
  if isCustom name then false
  else
    let name := withoutVendor (Text.lower name)
    colorProperties.contains name || colorFamilies.any (inFamily name)

end StyleSheet.Declaration
