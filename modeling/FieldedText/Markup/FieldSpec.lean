/-
FieldedText/Markup/FieldSpec.lean

Field specs: where one value of a block sits.

A spec is a name and the delimiter that frames the value.  It is written as a
token: the bare name between double braces when the delimiter is unset, else
the name, a colon, and a pattern in which a marker stands for the value.

    name
    name:pattern="start%sstop"

Nothing is escaped in a pattern.  It is read up to the first marker and from
there to the first quote with closing braces, all on one line, so a start that
holds the marker, or a stop that holds the quote with the braces, is not read
back as it was written.  A header is a run of tokens with white space around
them; what does not begin like a token is a complaint about the text up to the
next closing braces.
-/
import FieldedText.Markup.Delimiter

namespace FieldedText

/-- A field's name and the delimiter of its value. A header holds one for each value of its block,
in the order of the values. -/
structure FieldSpec where
  name : Name
  delimiter : Delimiter
  deriving DecidableEq

/-! ### The signs of the markup -/

namespace Sign

/-- The braces that open a token. -/
def opening : Text := ['{', '{']

/-- The braces that close a token. -/
def closing : Text := ['}', '}']

/-- What stands between a name and its pattern. -/
def pattern : Text := ":pattern=\"".toList

/-- The place of the value in a pattern. -/
def marker : Text := ['%', 's']

/-- What closes a token with a pattern. -/
def patternClosing : Text := ['"', '}', '}']

end Sign

namespace FieldSpec

/-- The characters of names: no brace, colon, quote or white space. -/
def isNameChar (c : Char) : Bool :=
  c != '{' && c != '}' && c != ':' && c != '"' && !Text.isSpace c

/-- The token of a spec. Nothing in the pattern is escaped, and so not every spec is read back
from its token. -/
def token (spec : FieldSpec) : Text :=
  if spec.delimiter.isSet then
    Sign.opening ++ spec.name ++ Sign.pattern ++ spec.delimiter.start ++ Sign.marker ++
      spec.delimiter.stop ++ Sign.patternClosing
  else
    Sign.opening ++ spec.name ++ Sign.closing

/-- The name at the beginning of a text, if there is one, and what follows. The name is as long as
it can be, and not empty. -/
def readName? (text : Text) : Option (Name × Text) :=
  match text.takeWhile isNameChar with
  | [] => none
  | name => some (name, text.dropWhile isNameChar)

/-- A text without line feeds. -/
def oneLine? (text : Text) : Option Text := if '\n' ∈ text then none else some text

/-- The spec whose token is exactly the given text. The pattern is all between the first marker
and the braces at the very end, so that the stop may hold a quote with braces here. -/
def ofToken? (token : Text) : Option FieldSpec := do
  let inner ← Text.after? Sign.opening token
  let (name, rest) ← readName? inner
  if rest = Sign.closing then
    return ⟨name, .unset⟩
  let framed ← Text.after? Sign.pattern rest
  let (start, last) ← Text.cut? Sign.marker framed
  let stop ← Text.before? Sign.patternClosing last
  return ⟨name, ← oneLine? start, ← oneLine? stop⟩

/-- The spec whose token a text begins with, and what follows the token. The stop ends at the
first quote with braces, since another token may follow. -/
def read? (text : Text) : Option (FieldSpec × Text) := do
  let inner ← Text.after? Sign.opening text
  let (name, rest) ← readName? inner
  match Text.after? Sign.closing rest with
  | some rest => return (⟨name, .unset⟩, rest)
  | none =>
    let framed ← Text.after? Sign.pattern rest
    let (start, last) ← Text.cut? Sign.marker framed
    let (stop, rest) ← Text.cut? Sign.patternClosing last
    return (⟨name, ← oneLine? start, ← oneLine? stop⟩, rest)

/-- The spec of a token that stands by itself. -/
def ofToken (token : Text) : Except Error FieldSpec :=
  match ofToken? token with
  | some spec => .ok spec
  | none => .error (.grammar 0 .malformedField (some token))

/-! ### Headers -/

/-- The text up to and including the first closing braces; all of it when there are none. This is
what a complaint shows of a header that cannot be read. -/
def suspect (text : Text) : Text :=
  match Text.cut? Sign.closing text with
  | some (head, _) => head ++ Sign.closing
  | none => text

/-- The specs of a header on the given line, after passing over the first `passed` characters,
which belong to a token already read. Counting them down keeps the recursion on the text. -/
def scanHeader (line : Nat) : Nat → Text → Except Error (List FieldSpec)
  | _, [] => .ok []
  | passed + 1, _ :: text => scanHeader line passed text
  | 0, c :: text =>
    if Text.isSpace c then scanHeader line 0 text
    else
      match read? (c :: text) with
      | none => .error (.grammar line .malformedField (some (suspect (c :: text))))
      | some (spec, rest) => (scanHeader line (text.length - rest.length) text).map (spec :: ·)

/-- The specs of a header: tokens with white space before, between and after them. -/
def ofHeader (line : Nat) (inner : Text) : Except Error (List FieldSpec) := scanHeader line 0 inner

end FieldSpec

end FieldedText
