/-
FieldedText/Text/Lines.lean

Lines.  A line keeps its line feed, so that the lines of a text put together
are the text (`flatten_lines`); only the last line may be without one.

Two shorter forms of a line are in use.  Its *content* is the line without the
carriage returns and line feeds at its end.  Its *plain* form is without its
line feed and without one carriage return before that, and so keeps a carriage
return that ends the text.
-/
import FieldedText.Text.Search

namespace FieldedText.Text

/-- The lines of a text, each with its line feed. No line is empty, and the empty text has none; a
carriage return alone ends no line. -/
def lines : Text → List Text
  | [] => []
  | c :: text =>
    if c = '\n' then ['\n'] :: lines text
    else
      match lines text with
      | [] => [[c]]
      | line :: rest => (c :: line) :: rest

theorem flatten_lines (text : Text) : (lines text).flatten = text := by
  induction text with
  | nil => rfl
  | cons c text ih =>
    rw [lines]
    by_cases h : c = '\n'
    · simp [h, ih]
    · cases hl : lines text with
      | nil =>
        rw [hl] at ih
        simp only [List.flatten_nil] at ih
        simp [h, ← ih]
      | cons l ls =>
        rw [hl] at ih
        simpa [h] using ih

/-- Whether a character ends lines. -/
def isLineEnd (c : Char) : Bool := c == '\n' || c == '\r'

/-- A line without the carriage returns and line feeds at its end, however many there are. This is
the form that a line's kind is told from. -/
def content (line : Text) : Text := trimEndBy isLineEnd line

/-- A line without its line feed, and without one carriage return before it. This is the form that
directives are looked for in when a document is scanned for its settings. -/
def plain (line : Text) : Text :=
  match line.reverse with
  | '\n' :: '\r' :: rest => rest.reverse
  | '\n' :: rest => rest.reverse
  | _ => line

/-- The number of line feeds in a text, which is what the numbers of lines are counted by. -/
def lineFeeds (text : Text) : Nat := text.count '\n'

@[simp] theorem lineFeeds_append (s t : Text) : lineFeeds (s ++ t) = lineFeeds s + lineFeeds t := by
  simp [lineFeeds]

end FieldedText.Text
