/-
FieldedText/Document/Block.lean

Blocks: the paragraphs of a document, each with the header that describes it.

A block is made of a header line, if it has one, lines of text, and a separator,
which is the blank line that ended it or nothing; put together these are the
block as it stands in the document (`Block.raw`).  A block that has been closed
takes no more text.
-/
import FieldedText.Markup.Comment

namespace FieldedText

/-- A header and the text under it. Either may be missing: a block without a header is a paragraph
of prose, one without text a header that describes nothing. -/
structure Block where
  /-- The header line, with its line end. -/
  header : Option Text
  /-- The specs that the header holds. -/
  specs : List FieldSpec
  text : Text
  separator : Text
  /-- The number of the line that the block begins on; zero while it has none. -/
  line : Nat
  closed : Bool
  deriving DecidableEq

namespace Block

/-- A block with nothing in it. -/
def empty : Block := ⟨none, [], [], [], 0, false⟩

/-- The block that begins with a header line. Its text is still to come, on the lines behind the
header. -/
def ofHeader (comment : Comment) (line : Nat) (header : Text) : Except Error Block :=
  match comment.strip? header with
  | none => .error (.grammar line .headerOutsideComment (some header))
  | some inner =>
    (FieldSpec.ofHeader line inner).map fun specs => { empty with header, specs, line }

/-- The block with more text. A closed block takes none, which is an error that no pipeline meets.
-/
def append (block : Block) (more : Text) : Except Error Block :=
  if block.closed then .error .closedBlock else .ok { block with text := block.text ++ more }

/-- The block, ended by a separator. -/
def close (block : Block) (separator : Text) : Block := { block with separator, closed := true }

/-- The block, with the line that it begins on if it has none yet. So the number of a block is
that of its first line, however many follow. -/
def beginAt (block : Block) (line : Nat) : Block :=
  if block.line = 0 then { block with line } else block

/-- Whether a block has neither specs nor text. -/
def isEmpty (block : Block) : Bool := block.specs = [] && block.text = []

/-- The number of the first line of text, which is the line after the header if there is one. -/
def textLine (block : Block) : Nat := if block.header.isSome then block.line + 1 else block.line

/-- The header line, or nothing. -/
def headerText (block : Block) : Text := block.header.getD []

/-- The block as it stands in its document. -/
def raw (block : Block) : Text := block.headerText ++ block.text ++ block.separator

end Block

end FieldedText
