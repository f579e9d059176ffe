/-
FieldedText/Number/Decimal.lean

Whole numbers in decimal, written and read.

A natural number is written with no leading zeros.  Any non-empty run of ASCII
digits is read as one, leading zeros included.  An integer type is read with an
optional sign, a minus only where the type is signed, and only within the
bounds of the type.
-/
import FieldedText.Text.Search

namespace FieldedText

/-- A number in decimal. -/
def natText (n : Nat) : Text := Nat.toDigits 10 n

/-- An integer in decimal, with a minus when it is negative. -/
def intText (n : Int) : Text :=
  match n with
  | .ofNat n => natText n
  | .negSucc n => '-' :: natText (n + 1)

/-- The value of an ASCII digit. -/
def digitValue (c : Char) : Nat := c.toNat - '0'.toNat

/-- The number that a run of digits stands for. Leading zeros do not count, and the empty run
stands for zero. -/
def digitsValue (digits : Text) : Nat := digits.foldl (fun n c => 10 * n + digitValue c) 0

/-- Whether a text is a non-empty run of ASCII digits. Digits of other scripts are none here. -/
def isDigits (text : Text) : Bool := text ≠ [] && text.all Char.isDigit

/-- The number that a text stands for, when it is a run of digits. -/
def readNat? (text : Text) : Option Nat :=
  if isDigits text then some (digitsValue text) else none

/-- The types of integers: signed or not, and their number of bits. -/
structure IntegerType where
  signed : Bool
  bits : Nat
  deriving DecidableEq

namespace IntegerType

/-- The least number of the type. -/
def least (type : IntegerType) : Int :=
  if type.signed then -((Nat.pow 2 (type.bits - 1) : Nat) : Int) else 0

/-- The number after the greatest one of the type, so that the numbers of a type are those from
the least up to, and not including, the bound. -/
def bound (type : IntegerType) : Int :=
  (Nat.pow 2 (if type.signed then type.bits - 1 else type.bits) : Nat)

/-- Whether a number is one of the type. -/
def holds (type : IntegerType) (n : Int) : Bool := type.least ≤ n && n < type.bound

/-- The name of the type: a letter for its sign, and its number of bits. -/
def name (type : IntegerType) : Text := (if type.signed then 'i' else 'u') :: natText type.bits

/-- The number that a text stands for, sign included. A sign without digits behind it stands for
none. -/
def readSigned? (type : IntegerType) : Text → Option Int
  | '+' :: digits => (readNat? digits).map Int.ofNat
  | '-' :: digits => if type.signed then (readNat? digits).map fun n => -Int.ofNat n else none
  | digits => (readNat? digits).map Int.ofNat

/-- The number of the type that a text stands for. -/
def read? (type : IntegerType) (text : Text) : Option Int := do
  let n ← type.readSigned? text
  if type.holds n then some n else none

/-- The signed type of sixty-four bits. -/
def i64 : IntegerType := ⟨true, 64⟩

/-- The unsigned type of sixty-four bits. -/
def u64 : IntegerType := ⟨false, 64⟩

end IntegerType

end FieldedText
