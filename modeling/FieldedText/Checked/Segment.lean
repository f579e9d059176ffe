/-
FieldedText/Checked/Segment.lean

Documents cut into segments, with checked accesses.

The lines go into the open block one after the other, and a block that is closed
panics when it is given more text.  A document is cut as far as its lines are read
without a fault.
-/
import FieldedText.Checked.Markup
import FieldedText.Document.Segment

namespace FieldedText.Checked

/-- The block that begins with a header line. -/
def blockOfHeader (comment : Comment) (line : Nat) (header : Text) : Run Block :=
  match comment.strip? header with
  | none => .error (.error (.grammar line .headerOutsideComment (some header)))
  | some inner => do
    let specs ← headerFrom line inner 0
    return { Block.empty with header, specs, line }

/-- The block with more text. In the segmentation the open block is never closed, so that this
cannot panic there. -/
def append (block : Block) (more : Text) : Run Block :=
  if block.closed then .error (.panic .closedBlock)
  else .ok { block with text := block.text ++ more }

/-- What one more line closes, and the block that is open after it. Only a header and prose can
fail here, besides the kind of the line. -/
def feed (comment : Comment) (line : Nat) (current : Block) (raw : Text) :
    Run (List Segment × Block) := do
  match ← lineKind comment line raw with
  | .blank => return ([Segment.closing current line raw], .empty)
  | .directive found =>
    return (Segment.flushing current line ++ [Segment.directive found raw line], .empty)
  | .header => return (Segment.flushing current line, ← blockOfHeader comment line raw)
  | .prose => return ([], ← append (current.beginAt line) raw)

/-- The segments of a document, and the fault that ended them early, if one did. -/
structure Segmentation where
  segments : List Segment
  failure : Option Fault

namespace Segmentation

/-- The segments that lines make from the given line on, with a block open. -/
def ofLines (comment : Comment) (line : Nat) (current : Block) : List Text → Segmentation
  | [] => ⟨Segment.flushing current line, none⟩
  | raw :: lines =>
    match feed comment line current raw with
    | .error fault => ⟨[], some fault⟩
    | .ok (closed, next) =>
      let later := ofLines comment (line + 1) next lines
      { later with segments := closed ++ later.segments }

/-- The segments of a document. -/
def ofText (comment : Comment) (document : Text) : Segmentation :=
  ofLines comment 1 .empty (Text.lines document)

/-- The segments, unless a fault ended them. -/
def complete (segmentation : Segmentation) : Run Unit :=
  match segmentation.failure with
  | none => .ok ()
  | some fault => .error fault

end Segmentation

end FieldedText.Checked
