/-
FieldedText/Markup/Comment.lean

Comment framing: the texts that hide a line from a reader.

The lines of markup that a reader should not see, headers and directives, are
written between the start and the stop of a comment.  White space around the
line, and at the ends of the framing texts, does not count when a line is taken
out of its frame.  A framed line that holds both opening and closing braces is
a header.
-/
import FieldedText.Markup.FieldSpec

namespace FieldedText

/-- The texts around a hidden line. Either may be empty or begin and end in white space, which
counts when a line is written and not when it is read. -/
structure Comment where
  start : Text
  stop : Text
  deriving DecidableEq

namespace Comment

/-- The framing in force unless a document chooses its own. -/
def standard : Comment := ⟨"<!--".toList, "-->".toList⟩

/-- A text framed as a whole hidden line. The framing texts are written as they are, white space
included, so that the frame is seen in the document as it was chosen. -/
def wrap (comment : Comment) (inner : Text) : Text :=
  comment.start ++ inner ++ comment.stop ++ ['\n']

/-- A line taken out of its frame. The start and the stop are taken off one after the other, and
so may not overlap in the line. -/
def strip? (comment : Comment) (line : Text) : Option Text := do
  let rest ← Text.after? (Text.trim comment.start) (Text.trim line)
  Text.before? (Text.trim comment.stop) rest

/-- Whether a line is a header: framed, with opening and closing braces in it. Whether specs can
be read from it is asked later, and then a line that has none is a complaint. -/
def isHeader (comment : Comment) (line : Text) : Bool :=
  match comment.strip? line with
  | none => false
  | some inner => Text.has Sign.opening inner && Text.has Sign.closing inner

end Comment

end FieldedText
