/-
FieldedText/Json/Tree.lean

JSON trees, and the records that they hold.

A value is stored as the tree of its kind: records as objects in their own
order, numbers and truth values as themselves, and every other scalar as its
text; a number that is not finite has no tree but null.  Read back, arrays are
lists, and null is absent data: it leaves the ordinal of an element unused, and
it neither stores an entry nor takes away an earlier one of its name.
-/
import FieldedText.Binding.Datum
import FieldedText.Binding.Visit

namespace FieldedText

namespace Json

/-- A JSON tree. Objects keep the order of their entries, and may hold a key twice, as the text
that they come from may. -/
inductive Tree where
  | null
  | truth (b : Bool)
  | integer (n : Int)
  | float (x : Binary)
  | text (content : Text)
  | array (items : List Tree)
  | object (entries : List (Name × Tree))

namespace Tree

/-! ### Values as trees -/

/-- The tree of a scalar. A number that is not finite has no tree but null; all that has no kind
of its own in JSON is text. -/
def ofScalar : Scalar → Tree
  | .integer n => integer n.toInt
  | .float (.finite negative significand exponent) => float (.finite negative significand exponent)
  | .float _ => null
  | .truth b => truth b
  | s => text s.shown

mutual

/-- The tree of a value. -/
def ofValue : Value → Tree
  | .scalar s => ofScalar s
  | .record r => object (ofEntries r)

/-- The trees of entries. -/
def ofEntries : List (Name × Value) → List (Name × Tree)
  | [] => []
  | (name, value) :: r => (name, ofValue value) :: ofEntries r

end

/-! ### Trees as values -/

/-- The type of an integer in a tree: without a sign if it needs none. So it is shown to a reader
as a type that holds it. -/
def integerType (n : Int) : IntegerType := if 0 ≤ n then .u64 else .i64

mutual

/-- A tree as it is shown to a reader that asks for no type. -/
def visit : Tree → Visit
  | null => .unit
  | truth b => .truth b
  | integer n => .integer (integerType n) n
  | float x => .float .double x
  | text content => .text content
  | array items => .sequence (visitItems items) items.length
  | object entries => .map (visitEntries entries) entries.length

/-- The items of an array as they are shown. -/
def visitItems : List Tree → List Visit
  | [] => []
  | item :: items => item.visit :: visitItems items

/-- The entries of an object as they are shown. -/
def visitEntries : List (Name × Tree) → List (Visit × Visit)
  | [] => []
  | (name, tree) :: entries => (.text name, tree.visit) :: visitEntries entries

end

/-- The value that a tree holds, unless it is null. It is what a reader that asks for no type
makes of the tree. -/
def toValue? (tree : Tree) : Option Value := tree.visit.value?

/-- The record that a tree holds. Scalars and null are no record, and an array is a list, which is
one. -/
def toRecord (tree : Tree) : Except Error Record :=
  match tree.toValue? with
  | some (.record r) => .ok r
  | some (.scalar s) => .error (.json (BindingFault.notAMap s.kind).wording)
  | none => .error (.json "invalid type: null, expected a scalar, a sequence or a map".toList)

/-! ### Trees as typed data -/

mutual

/-- A tree as typed data. -/
def toDatum : Tree → Datum
  | null => .unit
  | truth b => .truth b
  | integer n => .integer (integerType n) n
  | float x => .float .double x
  | text content => .text content
  | array items => .sequence (itemData items)
  | object entries => .map (entryData entries)

/-- The items of an array as typed data. -/
def itemData : List Tree → List Datum
  | [] => []
  | item :: items => toDatum item :: itemData items

/-- The entries of an object as typed data. -/
def entryData : List (Name × Tree) → List (Datum × Datum)
  | [] => []
  | (name, tree) :: entries => (.text name, toDatum tree) :: entryData entries

end

end Tree

end Json

end FieldedText
