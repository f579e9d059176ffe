/-
FieldedText/Data/Shown.lean

The text of values, for a reader.

A scalar shows as its own text.  A record shows as its entries between
parentheses, in the order of a listing of their names, and so the text does not
hang on the order in which entries were stored.
-/
import FieldedText.Data.Order
import FieldedText.Data.Value

namespace FieldedText

namespace Record

/-- Shown values with their names, as one text. The entries are sorted first, so that records of
the same data show alike. -/
def parenthesised (shown : List (Name × Text)) : Text :=
  let listed := sort (fun a b => Name.listedLe a.1 b.1) shown
  ['('] ++ Text.join [','] (listed.map fun (name, value) => name ++ ['='] ++ value) ++ [')']

end Record

namespace Value

mutual

/-- The text of a value. -/
def shown : Value → Text
  | scalar s => s.shown
  | record r => Record.parenthesised (shownEntries r)

/-- The entries of a record with their values shown. -/
def shownEntries : List (Name × Value) → List (Name × Text)
  | [] => []
  | (name, value) :: r => (name, value.shown) :: shownEntries r

end

end Value

namespace Record

/-- The text of a record. -/
def shown (r : Record) : Text := (Value.record r).shown

end Record

end FieldedText
