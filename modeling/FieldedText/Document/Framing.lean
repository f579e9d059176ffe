/-
FieldedText/Document/Framing.lean

The delimiters that can frame a placeholder's value, given the text around it.

The configured delimiter comes first, if the text around the placeholder begins
and ends with it.  The other is the text around the placeholder itself, on its
line and up to the placeholders beside it.  A delimiter without a start needs
the placeholder to begin its line, one without a stop needs it to end its line,
and one with neither needs it to be all there is but a line end.
-/
import FieldedText.Markup.Template
import FieldedText.Text.Lines

namespace FieldedText

/-- A placeholder of a template and the text around it. All the text is needed to tell lines, and
the text between it and its neighbours to tell what can frame its value. -/
structure Surroundings where
  placeholder : Placeholder
  /-- All the text before the placeholder. -/
  before : Text
  /-- The text before it, back to the placeholder before. -/
  lead : Text
  /-- The text after it, up to the next placeholder. -/
  follow : Text
  /-- All the text after the placeholder. -/
  after : Text
  deriving DecidableEq

namespace Surroundings

/-- The rest of a line, without its line end. -/
def lineRest (text : Text) : Text :=
  let rest := text.takeWhile (· != '\n')
  (Text.before? ['\r'] rest).getD rest

/-- The text before the placeholder on its line, back to the placeholder before. A placeholder on
the same line ends it, since its value is not known. -/
def lineLead (around : Surroundings) : Text := Text.afterLast '\n' around.lead

/-- The text after the placeholder on its line, up to the next placeholder. -/
def lineFollow (around : Surroundings) : Text := around.follow.take (lineRest around.after).length

/-- Whether the placeholder begins its line. -/
def beginsLine (around : Surroundings) : Bool := Delimiter.atLineStart around.before

/-- Whether the placeholder ends its line. -/
def endsLine (around : Surroundings) : Bool := lineRest around.after = []

/-- Whether the placeholder is all there is, but for a line end. Then its value is the whole text,
and no delimiter is needed. -/
def isAlone (around : Surroundings) : Bool :=
  around.before = [] &&
    (around.after = [] || around.after = ['\n'] || around.after = ['\r', '\n'])

/-- The line of the placeholder. -/
def wholeLine (around : Surroundings) : Text :=
  Text.afterLast '\n' around.before ++ around.placeholder.token ++ lineRest around.after

/-- Whether a delimiter with these sides finds a value in the placeholder's place. A side that is
not set has to be the end of the line or of the text on that side. -/
def admits (around : Surroundings) (delimiter : Delimiter) : Bool :=
  match delimiter.start, delimiter.stop with
  | [], [] => around.isAlone
  | _, [] => around.endsLine
  | [], _ => around.beginsLine
  | _, _ => true

/-- The delimiter that the text around the placeholder is. -/
def textual (around : Surroundings) : Delimiter := ⟨around.lineLead, around.lineFollow⟩

/-- Whether a configured delimiter stands around the placeholder: the text beside it ends with the
start and begins with the stop. -/
def hasConfigured (around : Surroundings) (configured : Delimiter) : Bool :=
  configured.isSet && (Text.before? configured.start around.lineLead).isSome &&
    (Text.after? configured.stop around.lineFollow).isSome && around.admits configured

/-- The delimiters that can frame the value, in order of preference: the configured one if it
stands there, then the text around the placeholder, unless that is the same one. -/
def delimiters (around : Surroundings) (configured : Delimiter) : List Delimiter :=
  let preferred := if around.hasConfigured configured then [configured] else []
  if around.admits around.textual && around.textual ∉ preferred then
    preferred ++ [around.textual]
  else preferred

/-- The delimiters that can frame the value, of which there has to be one. Without one no value
could ever be found again, whatever the data is. -/
def candidates (around : Surroundings) (configured : Delimiter) (line : Nat) :
    Except Error (List Delimiter) :=
  match around.delimiters configured with
  | [] =>
    .error (.grammar (line + around.before.lineFeeds)
      (.ambiguousDelimiter around.placeholder.name) (some around.wholeLine))
  | delimiters => .ok delimiters

end Surroundings

end FieldedText
