/-
FieldedText/Document/Segmenter.lean

Segments one at a time.

A segmenter gives the segments of a document when it is asked for them, and takes
no more lines of the document than it needs to.  One line may close two segments, so
that what is closed waits until it is asked for.  An empty line after the last one
closes the block that is open at the end.  After a line that is not well formed a
segmenter gives the error, and then nothing more; what was closed by that line is
dropped.
-/
import FieldedText.Document.Segment

namespace FieldedText

/-- A segmenter between two calls. The lines it took are gone from it but for the open block and
what waits to be given. -/
structure Segmenter where
  comment : Comment
  /-- The lines that were not taken yet. -/
  lines : List Text
  /-- The open block. -/
  current : Block
  /-- The segments that were closed and not given yet. -/
  ready : List Segment
  /-- The number of the line that was taken last. -/
  line : Nat
  failed : Bool
  deriving DecidableEq

namespace Segmenter

/-- The segmenter of a document, before the first call. The empty line behind the document stands
for its end; no line of a document is empty, so it cannot be taken for one. -/
def ofText (comment : Comment) (document : Text) : Segmenter :=
  ⟨comment, Text.lines document ++ [[]], .empty, [], 0, false⟩

/-- What one more line closes, and the block that is open after it; the line may be the empty one
behind the document. -/
def feed (comment : Comment) (line : Nat) (current : Block) (raw : Text) :
    Except Error (List Segment × Block) :=
  if raw = [] then .ok (Segment.flushing current line, .empty)
  else Segment.feed comment line current raw

/-- Takes lines until one of them closes a segment, or is not well formed. -/
def advance (comment : Comment) (line : Nat) (current : Block) :
    List Text → Option (Except Error Segment) × Segmenter
  | [] => (none, ⟨comment, [], current, [], line, false⟩)
  | raw :: lines =>
    match feed comment (line + 1) current raw with
    | .error e => (some (.error e), ⟨comment, lines, .empty, [], line + 1, true⟩)
    | .ok ([], next) => advance comment (line + 1) next lines
    | .ok (segment :: ready, next) =>
      (some (.ok segment), ⟨comment, lines, next, ready, line + 1, false⟩)

/-- The next segment, or the error, or nothing, and the segmenter after that. What is ready is
given before a line is taken, and after the error nothing is. -/
def next (segmenter : Segmenter) : Option (Except Error Segment) × Segmenter :=
  match segmenter.ready with
  | segment :: ready => (some (.ok segment), { segmenter with ready })
  | [] =>
    if segmenter.failed then (none, segmenter)
    else advance segmenter.comment segmenter.line segmenter.current segmenter.lines

/-- What the call with the given number gives, counted from zero. -/
def call (segmenter : Segmenter) : Nat → Option (Except Error Segment)
  | 0 => segmenter.next.1
  | k + 1 => segmenter.next.2.call k

end Segmenter

end FieldedText
