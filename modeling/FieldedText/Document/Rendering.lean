/-
FieldedText/Document/Rendering.lean

Rendering: data put into a template.

A block of a template with placeholders becomes the block with their values in
place, under a header that says how to find each value again.  A block whose
placeholders belong to a list is kept as a list template on a hidden line, and
followed by one block for each entry of the list.  All else is copied.
-/
import FieldedText.Data.Listing
import FieldedText.Document.Body
import FieldedText.Document.Framing
import FieldedText.Document.ListTemplate
import FieldedText.Document.Segment
import FieldedText.Markup.Settings

namespace FieldedText

namespace Document

/-- The text that stands for the value at a path. A record has no text of its own, and is rendered
as missing data is. -/
def renderedValue (settings : Settings) (values : Record) (path : Text) : Text :=
  match values.scalarAt? path with
  | some scalar => scalar.shown
  | none => settings.missing

/-- The slots of the placeholders that follow `before` in a template. What can frame a value is
decided here, from the template alone; the data has no say in it. -/
def slotsFrom (settings : Settings) (values : Record) (line : Nat) (tail : Text) :
    Text → List Hole → Except Error (List Slot)
  | _, [] => .ok []
  | before, hole :: holes => do
    let around : Surroundings := {
      placeholder := hole.placeholder
      before := before ++ hole.lead
      lead := hole.lead
      follow := match holes with
        | [] => tail
        | next :: _ => next.lead
      after := Template.text ⟨holes, tail⟩ }
    let candidates ← around.candidates settings.delimiter line
    let name := hole.placeholder.name
    let slots ← slotsFrom settings values line tail
      (before ++ hole.lead ++ hole.placeholder.token) holes
    return ⟨hole.lead, name, renderedValue settings values name, candidates⟩ :: slots

/-- The body that a text with placeholders becomes. -/
def renderedBody (settings : Settings) (values : Record) (line : Nat) (text : Text) :
    Except Error Body :=
  let template := Template.ofText text
  (slotsFrom settings values line template.tail [] template.holes).map fun slots =>
    ⟨slots, template.tail⟩

/-- A text with placeholders, of which the first line has the given number, as a header and a
body. The body is verified with the values in it, and the specs that find them are the header. -/
def renderText (settings : Settings) (values : Record) (line : Nat) (text : Text) :
    Except Error Text := do
  let body ← renderedBody settings values line text
  let specs ← body.verify settings.comment line
  return settings.comment.wrap (Text.join [' '] (specs.map FieldSpec.token)) ++ body.text

/-- A template's text with the names of one entry in its placeholders. -/
def entryText (ordinal : Name) (text : Text) : Text :=
  ((Template.ofText text).rename (ListTemplate.entryName ordinal)).text

/-- What stands between the entries of a list, to leave one line blank: the line feed of the last
line is not written twice. -/
def entryGap (text : Text) : Text :=
  match text.getLast? with
  | some '\n' => ['\n']
  | _ => ['\n', '\n']

/-- A list template with an entry for each ordinal of the list at a path. The separator of the
template's block ends the list, also when it has no entry. -/
def renderList (settings : Settings) (values : Record) (line : Nat) (text path separator : Text) :
    Except Error Text := do
  let entries ← (values.ordinalsAt path).mapM fun ordinal =>
    renderText settings values line (entryText ordinal text)
  return Text.join (entryGap text) entries ++ separator

/-- A block of a template with the data in it. Without placeholders it is copied; with those of a
list it is kept on a hidden line, from which the list can be rendered anew. -/
def renderBlock (settings : Settings) (values : Record) (block : Block) : Except Error Text :=
  match (Template.ofText block.text).names with
  | [] => .ok block.raw
  | names => do
    match ← ListTemplate.listPath block.textLine names with
    | none => return (← renderText settings values block.textLine block.text) ++ block.separator
    | some path =>
      return Directive.listLine settings.comment block.text ++
        (← renderList settings values block.textLine block.text path block.separator)

/-- A segment of a template with the data in it. -/
def renderSegment (settings : Settings) (values : Record) : Segment → Except Error Text
  | .directive _ raw _ => .ok raw
  | .block block => renderBlock settings values block

/-- The document that a template becomes with the data in it. An error of the segmentation is met
behind the segments before it, since they are rendered first. -/
def render (settings : Settings) (values : Record) (template : Text) : Except Error Text := do
  let settings ← settings.scan template
  let segmentation := Segmentation.ofText settings.comment template
  let texts ← segmentation.segments.mapM (renderSegment settings values)
  segmentation.complete
  return texts.flatten

end Document

end FieldedText
