/-
FieldedText/Checked/Document.lean

The three pipelines, with checked accesses.

Rendering, reading and revision are put together here from the checked parts in the
way that they are put together elsewhere from the others.  A document is worked on
segment by segment, so that a fault in it is met after all that stands before it.
-/
import FieldedText.Checked.Body
import FieldedText.Checked.Framing
import FieldedText.Checked.Segment
import FieldedText.Document.Reading
import FieldedText.Document.Revision

namespace FieldedText.Checked

/-! ### Storing -/

/-- The record with an empty record under a name that holds no record. After it the name holds a
record, which is what the next step relies on. -/
def withScope (r : Record) (name : Name) : Record :=
  match r.get? name with
  | some (.record _) => r
  | some (.scalar _) => r.insert name (.record [])
  | none => r.insert name (.record [])

/-- A change made to the record at the end of a way of names; what is missing on the way is made,
and a scalar on the way gives place. Finding no record under a name after `withScope` would be a
panic. -/
def changeScope (change : Record → Record) (r : Record) : List Name → Run Record
  | [] => .ok (change r)
  | name :: names =>
    let r := withScope r name
    match r.get? name with
    | some (.record inner) => do
      return r.insert name (.record (← changeScope change inner names))
    | _ => .error (.panic .scope)

/-- The record with a value stored at a path. -/
def put (r : Record) (path : Text) (value : Value) : Run Record :=
  changeScope (fun scope => scope.insert (Path.last path) value) r (Path.parentScope path)

/-! ### Rendering -/

/-- A placeholder with its position, as a value that may be framed by what is around it, and the
value that takes its place. The position is what its neighbours are found by. -/
def supply (settings : Settings) (values : Record) (line : Nat) (text : Text)
    (places : List Place) : Place × Nat → Run (Placed × Text)
  | (place, i) => do
    let candidates ← framings text places i settings.delimiter line
    return (⟨place.name, candidates, place.extent⟩,
      Document.renderedValue settings values place.name)

/-- A text with placeholders, of which the first line has the given number, as a header and a
body. The placeholders go through `fill` as values do in a revision. -/
def renderText (settings : Settings) (values : Record) (line : Nat) (text : Text) : Run Text := do
  let places := placesOf text
  let (body, placed) ← fill text (supply settings values line text places) 0 [] places.zipIdx
  let specs ← verify settings.comment line body placed
  return settings.comment.wrap (Text.join [' '] (specs.map FieldSpec.token)) ++ body

/-- A list template with an entry for each ordinal of the list at a path. -/
def renderList (settings : Settings) (values : Record) (line : Nat) (text path separator : Text) :
    Run Text := do
  let entries ← (values.ordinalsAt path).mapM fun ordinal =>
    renderText settings values line (Document.entryText ordinal text)
  return Text.join (Document.entryGap text) entries ++ separator

/-- A block of a template with the data in it. -/
def renderBlock (settings : Settings) (values : Record) (block : Block) : Run Text :=
  match (placesOf block.text).map Place.name with
  | [] => .ok block.raw
  | names => do
    match ← prefixFrom block.textLine none names with
    | none => return (← renderText settings values block.textLine block.text) ++ block.separator
    | some path =>
      return Directive.listLine settings.comment block.text ++
        (← renderList settings values block.textLine block.text path block.separator)

/-- A segment of a template with the data in it. -/
def renderSegment (settings : Settings) (values : Record) : Segment → Run Text
  | .directive _ raw _ => .ok raw
  | .block block => renderBlock settings values block

/-- The document that a template becomes with the data in it. -/
def render (settings : Settings) (values : Record) (template : Text) : Run Text := do
  let settings ← scan settings template
  let segmentation := Segmentation.ofText settings.comment template
  let texts ← segmentation.segments.mapM (renderSegment settings values)
  segmentation.complete
  return texts.flatten

/-! ### Reading -/

/-- The data of a block. -/
def readBlock (block : Block) : Run Record := do
  let placed ← locateAll block.text 0 block.specs
  placed.foldlM (fun values found => do
    let value ← slice block.text found.extent.start found.extent.stop
    put values found.name (.scalar (.text value))) []

/-- Data with that of one more segment. -/
def readSegment (values : Record) : Segment → Run Record
  | .directive _ _ _ => .ok values
  | .block block =>
    if block.specs = [] then .ok values
    else do return values.merge (← readBlock block)

/-- The data of a document. -/
def read (settings : Settings) (document : Text) : Run Record := do
  let settings ← scan settings document
  let segmentation := Segmentation.ofText settings.comment document
  let values ← segmentation.segments.foldlM readSegment []
  segmentation.complete
  return values

/-! ### Revision -/

/-- The section that a list template begins, if its placeholders belong to a list. -/
def sectionOf (template : Text) (line : Nat) : Run (Option ListSection) := do
  let path ← prefixFrom line none ((placesOf template).map Place.name)
  return path.map fun path => ⟨template, path, line, none, []⟩

/-- A list, rendered anew. -/
def renderedSection (settings : Settings) (values : Record) (list : ListSection) : Run Text := do
  let (separator, blanks) := list.ending
  let entries ← renderList settings values list.line list.template list.path separator
  return entries ++ blanks.flatMap Block.raw

/-- A block with new values in it. -/
def reviseBlock (settings : Settings) (values : Record) (block : Block) : Run Text :=
  if block.specs = [] then .ok block.raw
  else do
    let found ← locateAll block.text 0 block.specs
    let (body, placed) ← fill block.text (renew (Document.revisedValue values)) 0 [] found
    let _ ← verify settings.comment block.textLine body placed
    return block.headerText ++ body ++ block.separator

/-- The text of an open section, if there is one. -/
def closeSection (settings : Settings) (values : Record) : Option ListSection → Run Text
  | none => .ok []
  | some list => renderedSection settings values list

/-- The section that a directive opens, if it opens one. -/
def openSection : Directive → Nat → Run (Option ListSection)
  | .listTemplate template, line => sectionOf template line
  | _, _ => .ok none

/-- The text of the segments that follow, after a section that may be open;
`failure` is the fault behind the last of them. -/
def reviseFrom (settings : Settings) (values : Record) (failure : Run Unit) :
    Option ListSection → List Segment → Run Text
  | current, [] => do
    failure
    closeSection settings values current
  | current, .directive directive raw line :: segments => do
    let list ← closeSection settings values current
    let next ← openSection directive line
    let later ← reviseFrom settings values failure next segments
    return list ++ raw ++ later
  | current, .block block :: segments =>
    match current.bind fun list => list.take? block with
    | some list => reviseFrom settings values failure (some list) segments
    | none => do
      let list ← closeSection settings values current
      let revised ← reviseBlock settings values block
      let later ← reviseFrom settings values failure none segments
      return list ++ revised ++ later

/-- A document with new data in it. -/
def revise (settings : Settings) (values : Record) (document : Text) : Run Text := do
  let settings ← scan settings document
  let segmentation := Segmentation.ofText settings.comment document
  reviseFrom settings values segmentation.complete none segmentation.segments

end FieldedText.Checked
