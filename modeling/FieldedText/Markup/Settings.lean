/-
FieldedText/Markup/Settings.lean

The settings of a document, and how its directives change them.

The directives of a document are applied line by line, in order, to the
settings that a caller starts from; a list template changes nothing.
-/
import FieldedText.Markup.Directive
import FieldedText.Text.Lines

namespace FieldedText

/-- How a document hides its lines, frames its values, and shows missing data. -/
structure Settings where
  comment : Comment
  /-- The delimiter around values; when unset, the text around them frames them. -/
  delimiter : Delimiter
  /-- What is rendered for a field that the data does not define. -/
  missing : Text
  deriving DecidableEq

namespace Directive

/-- The directives on some lines, of which the first has the given number, each with the number of
its line. One line that is not well formed is an error for all of them. -/
def ofLines (line : Nat) : List Text → Except Error (List (Nat × Directive))
  | [] => .ok []
  | raw :: lines => do
    let found ← find line (Text.plain raw)
    let later ← ofLines (line + 1) lines
    match found with
    | none => return later
    | some directive => return (line, directive) :: later

/-- The directives of a document, each with the number of its line. -/
def ofDocument (document : Text) : Except Error (List (Nat × Directive)) :=
  ofLines 1 (Text.lines document)

end Directive

namespace Settings

/-- The settings that hold unless a caller or a document chooses others. -/
def standard : Settings := ⟨.standard, .unset, "UNKNOWN".toList⟩

/-- The settings after a directive. A side of the delimiter changes that side alone, and an empty
value unsets it. -/
def apply (settings : Settings) : Directive → Settings
  | .comment framing => { settings with comment := framing }
  | .delimiterStart start => { settings with delimiter := { settings.delimiter with start } }
  | .delimiterStop stop => { settings with delimiter := { settings.delimiter with stop } }
  | .delimiterPair delimiter => { settings with delimiter }
  | .listTemplate _ => settings

/-- The settings after some directives, which stand on the given lines. -/
def applyAll (settings : Settings) (found : List (Nat × Directive)) : Settings :=
  found.foldl (fun settings (_, directive) => settings.apply directive) settings

/-- The settings after the directives of a document, all of them: every part of the document is
then worked on with the settings at its end. -/
def scan (settings : Settings) (document : Text) : Except Error Settings :=
  (Directive.ofDocument document).map settings.applyAll

end Settings

end FieldedText
