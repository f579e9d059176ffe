/-
FieldedText/Document/Reading.lean

Reading: the data that a document holds.

Each block with a header gives a record of the values that its specs find in
its text; these records are merged in the order of the document.
-/
import FieldedText.Data.Merge
import FieldedText.Data.Path
import FieldedText.Document.Body
import FieldedText.Document.Segment
import FieldedText.Markup.Settings

namespace FieldedText

namespace Document

/-- The data of a block: each value as text, stored at the path that is its field's name. A later
value of the same name takes the place of an earlier one. -/
def readBlock (block : Block) : Record :=
  (Body.locate [] block.specs block.text).slots.foldl
    (fun r slot => r.put slot.name (.scalar (.text slot.value))) []

/-- Data with that of one more segment. The records of blocks are merged, so that the fields of
one record may come from several blocks. -/
def readSegment (values : Record) : Segment → Record
  | .directive _ _ _ => values
  | .block block => if block.specs = [] then values else values.merge (readBlock block)

/-- The data of a document. A line that is not well formed leaves nothing to be read, even of the
blocks before it. -/
def read (settings : Settings) (document : Text) : Except Error Record := do
  let settings ← settings.scan document
  let segmentation := Segmentation.ofText settings.comment document
  segmentation.complete
  return segmentation.segments.foldl readSegment []

end Document

end FieldedText
