/-
FieldedText/Data/Scalar.lean

Scalars: the single values that fields hold.

A scalar keeps the kind of the data it came from.  A document only ever shows
its text, and a document read back gives text alone, so the text of a scalar is
what every later stage works on.
-/
import FieldedText.Number.Written
import FieldedText.Time.Instant

namespace FieldedText

/-- A single value. Its kind is that of the data it came from, and is lost in a document, which
shows its text. -/
inductive Scalar where
  | text (content : Text)
  | integer (n : Int64)
  | float (x : Binary)
  | truth (b : Bool)
  | char (c : Char)
  | instant (time : Instant)
  | url (address : Text)
  deriving DecidableEq

namespace Scalar

/-- The word for a scalar's kind. -/
def kind : Scalar → Name
  | text _ => "text".toList
  | integer _ => "integer".toList
  | float _ => "float".toList
  | truth _ => "boolean".toList
  | char _ => "character".toList
  | instant _ => "date-time".toList
  | url _ => "url".toList

/-- The word for a truth value. -/
def truthText (b : Bool) : Text := if b then "true".toList else "false".toList

/-- The truth value that a word stands for. The two words are the only ones, in lower case. -/
def readTruth? (text : Text) : Option Bool :=
  if text = truthText true then some true
  else if text = truthText false then some false
  else none

/-- The text of a scalar. -/
def shown : Scalar → Text
  | text content => content
  | integer n => intText n.toInt
  | float x => x.text .double
  | truth b => truthText b
  | char c => [c]
  | instant time => time.text
  | url address => address

/-- An integer: text when sixty-four bits with a sign do not hold it. As text it is shown in the
same way and loses no digit. -/
def ofInt (n : Int) : Scalar :=
  if IntegerType.i64.holds n then integer (Int64.ofInt n) else text (intText n)

/-- The scalar as text. -/
def flattened (scalar : Scalar) : Scalar := .text scalar.shown

/-- The scalar as typed programs pass it on, which write instants and addresses
as text. -/
def plain : Scalar → Scalar
  | instant time => (instant time).flattened
  | url address => (url address).flattened
  | s => s

/-- Whether two scalars are the same data: of one kind, and equal in it. Floating-point numbers
are equal as numbers, so that a NaN is not even equal to itself. -/
def equal : Scalar → Scalar → Bool
  | float x, float y => x.equal y
  | a, b => a = b

@[simp] theorem shown_flattened (scalar : Scalar) : scalar.flattened.shown = scalar.shown := rfl

end Scalar

end FieldedText
