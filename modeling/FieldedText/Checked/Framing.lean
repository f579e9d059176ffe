/-
FieldedText/Checked/Framing.lean

The delimiters that can frame a placeholder's value, with checked accesses.

The text beside a placeholder is sliced between four offsets: the ends of the
placeholder, the nearer of the end of the placeholder before and the beginning of the
line, and the nearer of the beginning of the next placeholder and the end of the line,
where a carriage return that ends the line is left out.
-/
import FieldedText.Checked.Access
import FieldedText.Document.Framing

namespace FieldedText.Checked

/-- A placeholder of a text. -/
structure Place where
  name : Name
  extent : Extent
  deriving DecidableEq

/-- The placeholders of a template that begins at the given offset. The offsets are sums of the
lengths of the pieces before them. -/
def placesFrom : Nat → List Hole → List Place
  | _, [] => []
  | offset, hole :: holes =>
    let start := offset + hole.lead.byteLength
    let stop := start + hole.placeholder.token.byteLength
    ⟨hole.placeholder.name, ⟨start, stop⟩⟩ :: placesFrom stop holes

/-- The placeholders of a text. -/
def placesOf (text : Text) : List Place := placesFrom 0 (Template.ofText text).holes

/-- The offset at which the line with the given offset begins: behind the last line feed before
the offset. -/
def lineStart (text : Text) (offset : Nat) : Run Nat := do
  let head ← sliceTo text offset
  match lastIndexOf? '\n' head with
  | none => return 0
  | some index => return index + 1

/-- The offset at which the line with the given offset ends, without its line end. Only a carriage
return right before the line feed, or at the end of the text, belongs to the line end. -/
def lineStop (text : Text) (offset : Nat) : Run Nat := do
  let tail ← sliceFrom text offset
  let stop := ((indexOf? ['\n'] tail).map (offset + ·)).getD text.byteLength
  let line ← sliceTo text stop
  if (Text.before? ['\r'] line).isSome then minus stop 1 else return stop

/-- Where the text before a placeholder begins: on its line, behind the placeholder before. The
line may begin before or behind that placeholder, hence the greater of the two. -/
def leadStart (places : List Place) (lineStart : Nat) : Nat → Run Nat
  | 0 => return lineStart
  | previous + 1 => do return max (← element places previous).extent.stop lineStart

/-- Where the text after a placeholder ends: on its line, before the next placeholder. There may
be no next one, and then this is the end of the line. -/
def followStop (places : List Place) (lineStop i : Nat) : Nat :=
  match places[i + 1]? with
  | none => lineStop
  | some next => min next.extent.start lineStop

/-- Whether a delimiter with these sides finds a value in the place of a placeholder. -/
def admits (text : Text) (places : List Place) (extent line : Extent) (delimiter : Delimiter) :
    Run Bool :=
  match delimiter.start, delimiter.stop with
  | [], [] =>
    if places.length = 1 && extent.start = 0 then do
      let tail ← sliceFrom text extent.stop
      return tail = [] || tail = ['\n'] || tail = ['\r', '\n']
    else return false
  | _, [] => return extent.stop = line.stop
  | [], _ => return extent.start = line.start
  | _, _ => return true

/-- The configured delimiter, when it stands around a placeholder and finds a value in its place. -/
def preferred (text : Text) (places : List Place) (extent line : Extent) (lead follow : Text)
    (configured : Delimiter) : Run (List Delimiter) :=
  if configured.isSet && (Text.before? configured.start lead).isSome &&
      (Text.after? configured.stop follow).isSome then do
    return if ← admits text places extent line configured then [configured] else []
  else .ok []

/-- The delimiters that can frame the value of the placeholder with the given position, of which
there has to be one. Every slice here is between two of the offsets of the placeholder, its
neighbours and its line. -/
def framings (text : Text) (places : List Place) (i : Nat) (configured : Delimiter) (line : Nat) :
    Run (List Delimiter) := do
  let place ← element places i
  let extent := place.extent
  let ends : Extent := ⟨← lineStart text extent.start, ← lineStop text extent.stop⟩
  let lead ← slice text (← leadStart places ends.start i) extent.start
  let follow ← slice text extent.stop (followStop places ends.stop i)
  let preferred ← preferred text places extent ends lead follow configured
  let textual : Delimiter := ⟨lead, follow⟩
  let admitted ← admits text places extent ends textual
  let delimiters :=
    if admitted && textual ∉ preferred then preferred ++ [textual] else preferred
  -- the complaint shows the whole line, which is sliced only now
  if delimiters = [] then do
    let before ← sliceTo text extent.start
    let whole ← slice text ends.start ends.stop
    .error (.error (.grammar (line + before.lineFeeds) (.ambiguousDelimiter place.name)
      (some whole)))
  else return delimiters

end FieldedText.Checked
