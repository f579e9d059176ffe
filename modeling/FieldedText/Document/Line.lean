/-
FieldedText/Document/Line.lean

What a line is to a document.

A line that holds nothing but white space is blank.  Any other line with a
directive on it is that directive's line, and a line that is none of these and
is framed as a header is a header.  All other lines are prose.  A line on which
a directive is begun but not well formed has no kind, and the complaint about
it is the answer.
-/
import FieldedText.Markup.Directive

namespace FieldedText

/-- The kinds of lines. They exclude each other, and each line of a document has one or is an
error. -/
inductive LineKind where
  | blank
  | directive (directive : Directive)
  | header
  | prose
  deriving DecidableEq

namespace LineKind

/-- The kind of a line, which may have its line end, under a comment framing. Directives go before
headers, so that a list template that holds a header is one directive. -/
def ofLine (comment : Comment) (line : Nat) (raw : Text) : Except Error LineKind :=
  let content := Text.content raw
  if content.isBlank then .ok .blank
  else
    match Directive.find line content with
    | .error e => .error e
    | .ok (some found) => .ok (.directive found)
    | .ok none => .ok (if comment.isHeader content then .header else .prose)

/-- Whether a line is prose. A line that is not well formed is not, so that a value can no more
make one than it can make a header. -/
def isProse (comment : Comment) (line : Nat) (raw : Text) : Bool :=
  match ofLine comment line raw with
  | .ok .prose => true
  | _ => false

end LineKind

end FieldedText
