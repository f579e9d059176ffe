/-
FieldedText/Document/Segment.lean

Documents cut into segments: blocks, and the lines of directives.

Lines are taken one after the other into the block that is open.  A blank line
closes it and is its separator; a directive or a header closes it, if there is
anything in it, with no separator.  The first line that is not well formed ends
the segmentation, and what that line would have closed is not a segment either.
-/
import FieldedText.Document.Block
import FieldedText.Document.Line
import FieldedText.Text.Lines

namespace FieldedText

/-- A part of a document. -/
inductive Segment where
  | block (block : Block)
  /-- A directive, its line with the line end, and the line's number. -/
  | directive (directive : Directive) (raw : Text) (line : Nat)
  deriving DecidableEq

/-- The segments of a document, and the error that ended them early, if one did. Both are kept,
since what stands before an error may be worked on first. -/
structure Segmentation where
  segments : List Segment
  failure : Option Error
  deriving DecidableEq

namespace Segment

/-- The segment as it stands in its document. -/
def raw : Segment → Text
  | block b => b.raw
  | directive _ raw _ => raw

/-- The open block as a segment, closed on the given line. A block with no line of its own begins
there, and consists of its separator alone. -/
def closing (current : Block) (line : Nat) (separator : Text) : Segment :=
  block ((current.beginAt line).close separator)

/-- The open block as a segment without a separator, if there is anything in it. Between two lines
of markup there is nothing, and no segment. -/
def flushing (current : Block) (line : Nat) : List Segment :=
  if current.isEmpty then [] else [closing current line []]

/-- What one more line closes, and the block that is open after it. This is the step of the
segmentation; only a directive can close two segments, the open block and itself. -/
def feed (comment : Comment) (line : Nat) (current : Block) (raw : Text) :
    Except Error (List Segment × Block) := do
  match ← LineKind.ofLine comment line raw with
  | .blank => return ([closing current line raw], .empty)
  | .directive found => return (flushing current line ++ [directive found raw line], .empty)
  | .header => return (flushing current line, ← Block.ofHeader comment line raw)
  | .prose => return ([], ← (current.beginAt line).append raw)

end Segment

namespace Segmentation

/-- The segments that lines make from the given line on, with a block open. At the end of the
lines the open block is closed, and after an error nothing more is. -/
def ofLines (comment : Comment) (line : Nat) (current : Block) : List Text → Segmentation
  | [] => ⟨Segment.flushing current line, none⟩
  | raw :: lines =>
    match Segment.feed comment line current raw with
    | .error e => ⟨[], some e⟩
    | .ok (closed, next) =>
      let later := ofLines comment (line + 1) next lines
      { later with segments := closed ++ later.segments }

/-- The segments of a document. -/
def ofText (comment : Comment) (document : Text) : Segmentation :=
  ofLines comment 1 .empty (Text.lines document)

/-- The segments as they stand in the document. -/
def raw (segmentation : Segmentation) : Text := segmentation.segments.flatMap Segment.raw

/-- The segments, unless an error ended them. -/
def complete (segmentation : Segmentation) : Except Error Unit :=
  match segmentation.failure with
  | none => .ok ()
  | some e => .error e

end Segmentation

end FieldedText
