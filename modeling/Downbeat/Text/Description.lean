import Downbeat.Text.Quoted

/-!
# Descriptions of values

Values are described in reports by the name of their type and their named parts in braces,
as in `Box { width: 2, label: "a" }`, and optional ones by `Some` and `None`.
-/

namespace Downbeat.Text

/-- The description of a value with named parts. -/
def described (name : String) (parts : List (String × String)) : String :=
  name ++ " \x7b " ++ String.intercalate ", " (parts.map fun (key, text) => key ++ ": " ++ text) ++
    " \x7d"

/-- The description of an optional value. -/
def describedOption {α : Type} (text : α → String) : Option α → String
  | none => "None"
  | some x => "Some(" ++ text x ++ ")"

end Downbeat.Text
