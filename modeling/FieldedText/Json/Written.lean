/-
FieldedText/Json/Written.lean

JSON trees as text, with no white space.

In a string a double quote, a backslash and the controls before the space are
escaped, five of these controls by a letter and the others by four hexadecimal
digits; every other character stands for itself.
-/
import FieldedText.Json.Tree
import FieldedText.Text.Quoted

namespace FieldedText

namespace Json

/-- One character as it stands in a string. Only what has to be escaped is, and so other alphabets
stand as they are. -/
def stringChar (c : Char) : Text :=
  match c with
  | '"' => ['\\', '"']
  | '\\' => ['\\', '\\']
  | '\x08' => ['\\', 'b']
  | '\t' => ['\\', 't']
  | '\n' => ['\\', 'n']
  | '\x0c' => ['\\', 'f']
  | '\r' => ['\\', 'r']
  | _ =>
    if c.toNat < 0x20 then
      let digits := Text.hexDigits c.toNat
      ['\\', 'u'] ++ List.replicate (4 - digits.length) '0' ++ digits
    else [c]

/-- A text as a string. -/
def stringText (content : Text) : Text := ['"'] ++ content.flatMap stringChar ++ ['"']

namespace Tree

/-- The word for a tree that holds no data. -/
def nullText : Text := "null".toList

mutual

/-- The text of a tree. -/
def written : Tree → Text
  | null => nullText
  | truth b => Scalar.truthText b
  | integer n => intText n
  | float x => (x.jsonText? .double).getD nullText
  | text content => stringText content
  | array items => ['['] ++ Text.join [','] (writtenItems items) ++ [']']
  | object entries => ['\x7b'] ++ Text.join [','] (writtenEntries entries) ++ ['\x7d']

/-- The texts of an array's items. -/
def writtenItems : List Tree → List Text
  | [] => []
  | item :: items => item.written :: writtenItems items

/-- The texts of an object's entries. -/
def writtenEntries : List (Name × Tree) → List Text
  | [] => []
  | (name, tree) :: entries => (stringText name ++ [':'] ++ tree.written) :: writtenEntries entries

end

end Tree

/-- A record as JSON. -/
def ofRecord (r : Record) : Text := (Tree.ofValue (.record r)).written

end Json

end FieldedText
