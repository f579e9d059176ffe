/-
FieldedText/Text/Blank.lean

White space, trimming, and blank text.

White space is the property of that name of the Unicode standard: the five
controls from tab to carriage return, the space, the next-line control, the
no-break space and the spaces, separators and joiners of the later blocks,
twenty-five characters in all.  The zero-width space and the byte order mark
are not among them.
-/
import FieldedText.Text.Search

namespace FieldedText.Text

/-- The characters with the property White_Space. Names, headers, blank lines and the trimming of
scalars all go by this one set. -/
def isSpace (c : Char) : Bool :=
  let n := c.toNat
  (0x09 ≤ n && n ≤ 0x0D) || n == 0x20 || n == 0x85 || n == 0xA0 || n == 0x1680 ||
    (0x2000 ≤ n && n ≤ 0x200A) || n == 0x2028 || n == 0x2029 || n == 0x202F || n == 0x205F ||
    n == 0x3000

/-- The text without the white space at its beginning. -/
def trimStart (text : Text) : Text := text.dropWhile isSpace

/-- The text without the white space at its end. -/
def trimEnd (text : Text) : Text := trimEndBy isSpace text

/-- The text without the white space at both ends. -/
def trim (text : Text) : Text := trimEnd (trimStart text)

/-- Whether a text holds nothing but white space. The empty text does, and so does a line of which
only the line end is left. -/
def isBlank (text : Text) : Bool := text.all isSpace

end FieldedText.Text
