import StyleSheet.Body
import StyleSheet.Declaration
import StyleSheet.Value

namespace StyleSheet

namespace Declaration

/-- The property and the value of a declaration that may hold colours. -/
def colorParts? (declaration : Text) : Option (Text × Text) :=
  (parts? declaration).filter fun (property, _) => carriesColor property

def literals (declaration : Text) : List Text :=
  match colorParts? declaration with
  | none => []
  | some (_, value) => Value.tokens value

/-- Rewrites the value behind a colour-carrying property; any other text stays. -/
def recolor (f : Text → Text) (declaration : Text) : Text :=
  match colorParts? declaration with
  | none => declaration
  | some (property, value) => property ++ ':' :: Value.rewrite f value

theorem append_of_parts? {declaration property value : Text}
    (h : parts? declaration = some (property, value)) :
    property ++ ':' :: value = declaration := by
  have spell := declaration.takeWhile_append_dropWhile (p := (· != ':'))
  unfold parts? at h
  split at h
  next => cases h
  next c rest eq =>
    have colon := List.head?_dropWhile_not (· != ':') declaration
    cases h
    rw [eq] at spell colon
    rwa [bne_eq_false_iff_eq.mp colon] at spell

theorem recolor_of_literals_eq_nil (f : Text → Text) {declaration : Text}
    (h : literals declaration = []) : recolor f declaration = declaration := by
  unfold literals at h
  unfold recolor
  split at h
  next => rfl
  next property value eq =>
    have parts := (Option.filter_eq_some_iff.mp eq).1
    rw [Value.rewrite_of_tokens_eq_nil f h, append_of_parts? parts]

end Declaration

namespace Body

def literals (body : Text) : List Text :=
  (split body).flatMap Declaration.literals

def recolor (f : Text → Text) (body : Text) : Text :=
  join ((split body).map (Declaration.recolor f))

theorem recolor_of_literals_eq_nil (f : Text → Text) {body : Text} (h : literals body = []) :
    recolor f body = body := by
  have keep : (split body).map (Declaration.recolor f) = (split body).map id := by
    apply List.map_congr_left
    intro declaration mem
    exact Declaration.recolor_of_literals_eq_nil f (List.flatMap_eq_nil_iff.mp h _ mem)
  rw [recolor, keep, List.map_id, split, join_splitFrom]

end Body

end StyleSheet
