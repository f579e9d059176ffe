/-
FieldedText/Document/Revision.lean

Revision: new data put into a document that is already rendered.

In a block with a header the values that its specs find are replaced, and every
other character stays.  After a list template the blocks of the list's entries,
and the blank lines among and after them, are taken out, up to the first block
that is no entry; in their place the list is rendered anew.  The blank line that
ended the last entry, or else the first blank line after the template, ends the
new list as well, and blank lines beyond it stay.
-/
import FieldedText.Document.Rendering

namespace FieldedText

/-- A list in a document, from its template up to the first block that is not its own. Of the
entries nothing is kept but what ended the last one, since they are rendered anew. -/
structure ListSection where
  /-- The text that entries are rendered from. -/
  template : Text
  /-- The path of the list. -/
  path : Text
  /-- The number of the template's line. -/
  line : Nat
  /-- The separator of the last entry, if there is one. -/
  separator : Option Text
  /-- The blank blocks after the last entry. -/
  blanks : List Block
  deriving DecidableEq

namespace ListSection

/-- The section that a list template begins, if its placeholders belong to a list. -/
def ofTemplate (template : Text) (line : Nat) : Except Error (Option ListSection) := do
  let path ← ListTemplate.listPath line (Template.ofText template).names
  return path.map fun path => ⟨template, path, line, none, []⟩

/-- What a field's name says beyond the path of the list, if it is a name in the list. For the
list at the empty path that is the whole name. -/
def nameWithin? (list : ListSection) (name : Name) : Option Text :=
  if list.path = [] then some name else Text.after? (list.path ++ ['.']) name

/-- Whether a field is one of an entry of the list: the first name beyond the list's path is an
ordinal. Whether the list has that ordinal is not asked, since entries may have been removed from
the data. -/
def ownsField (list : ListSection) (name : Name) : Bool :=
  match list.nameWithin? name with
  | none => false
  | some rest => Name.isOrdinal (rest.takeWhile (· != '.'))

/-- Whether a block is an entry of the list. One field is enough, as an entry may hold fields from
outside the list as well. -/
def owns (list : ListSection) (block : Block) : Bool :=
  block.specs.any fun spec => list.ownsField spec.name

/-- The section with one more entry in it. Blank blocks before the entry stood among the entries,
and are dropped. -/
def withEntry (list : ListSection) (block : Block) : ListSection :=
  { list with separator := some block.separator, blanks := [] }

/-- The section with one more blank block in it. Whether it stays is known only when the section
ends. -/
def withBlank (list : ListSection) (block : Block) : ListSection :=
  { list with blanks := list.blanks ++ [block] }

/-- The section with one more block in it, if the block belongs there. -/
def take? (list : ListSection) (block : Block) : Option ListSection :=
  if list.owns block then some (list.withEntry block)
  else if block.isEmpty then some (list.withBlank block)
  else none

/-- What ends the list, and the blank blocks that stay after it. A list without entries is ended
by the first blank block after its template. -/
def ending (list : ListSection) : Text × List Block :=
  match list.separator, list.blanks with
  | some separator, blanks => (separator, blanks)
  | none, [] => ([], [])
  | none, blank :: blanks => (blank.separator, blanks)

/-- The list, rendered anew from its template and the data at hand, as it would be rendered in a
template. -/
def rendered (list : ListSection) (settings : Settings) (values : Record) : Except Error Text := do
  let (separator, blanks) := list.ending
  let entries ← Document.renderList settings values list.line list.template list.path separator
  return entries ++ blanks.flatMap Block.raw

end ListSection

namespace Document

/-- The text that a value is replaced by. Missing data empties the value, and does not bring in
the words for missing data, which belong to a template. -/
def revisedValue (values : Record) (path : Text) : Text :=
  match values.scalarAt? path with
  | some scalar => scalar.shown
  | none => []

/-- A block with new values in it. The specs of its header are not written again, since the values
have to be found by the specs that are there. -/
def reviseBlock (settings : Settings) (values : Record) (block : Block) : Except Error Text :=
  if block.specs = [] then .ok block.raw
  else do
    let body := (Body.locate [] block.specs block.text).fill (revisedValue values)
    let _ ← body.verify settings.comment block.textLine
    return block.headerText ++ body.text ++ block.separator

/-- The text of an open section, if there is one. -/
def closeSection (settings : Settings) (values : Record) : Option ListSection → Except Error Text
  | none => .ok []
  | some list => list.rendered settings values

/-- The section that a directive opens, if it opens one. -/
def openSection : Directive → Nat → Except Error (Option ListSection)
  | .listTemplate template, line => ListSection.ofTemplate template line
  | _, _ => .ok none

/-- The text of the segments that follow, after a section that may be open; `failure` is the error
behind the last of them. A section is closed by any segment that does not belong to it, and its
text goes before that segment. -/
def reviseFrom (settings : Settings) (values : Record) (failure : Except Error Unit) :
    Option ListSection → List Segment → Except Error Text
  | current, [] => do
    failure
    closeSection settings values current
  | current, .directive directive raw line :: segments => do
    let list ← closeSection settings values current
    let next ← openSection directive line
    let later ← reviseFrom settings values failure next segments
    return list ++ raw ++ later
  | current, .block block :: segments =>
    match current.bind fun list => list.take? block with
    | some list => reviseFrom settings values failure (some list) segments
    | none => do
      let list ← closeSection settings values current
      let revised ← reviseBlock settings values block
      let later ← reviseFrom settings values failure none segments
      return list ++ revised ++ later

/-- A document with new data in it. The settings are those that the document's own directives
give, as they are when it is read. -/
def revise (settings : Settings) (values : Record) (document : Text) : Except Error Text := do
  let settings ← settings.scan document
  let segmentation := Segmentation.ofText settings.comment document
  reviseFrom settings values segmentation.complete none segmentation.segments

end Document

end FieldedText
