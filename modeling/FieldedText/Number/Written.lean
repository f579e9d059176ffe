/-
FieldedText/Number/Written.lean

Floating-point numbers as text.

Written plainly, a number has the fewest digits that identify it, all of its
zeros, no exponent, and no point unless there is something behind it; halfway
between two such decimals it is written as the greater one.  In JSON a number
always has a point or an exponent, and it is written with an exponent when its
first digit stands left of the sixteenth place before the point or right of the
fifth place after it; halfway between two decimals it is written as the one with
an even last digit.

Read, a number is an optional sign and either digits, with a point among them
or an exponent behind them if need be, or the word for infinity or NaN in
letters of either case.
-/
import FieldedText.Number.Shortest

namespace FieldedText

namespace Binary

/-! ### Writing -/

/-- A sign and what it stands before. -/
def signed (negative : Bool) (text : Text) : Text := if negative then '-' :: text else text

/-- A decimal with all its zeros and no exponent; `point` is what follows the digits of a whole
number. A number below one has a zero before its point. -/
def positional (point : Text) (d : Decimal) : Text :=
  let digits := natText d.digits
  if 0 ≤ d.exponent then digits ++ List.replicate d.exponent.toNat '0' ++ point
  else
    let places := (-d.exponent).toNat
    if places < digits.length then
      digits.take (digits.length - places) ++ ['.'] ++ digits.drop (digits.length - places)
    else
      ['0', '.'] ++ List.replicate (places - digits.length) '0' ++ digits

/-- A decimal with one digit before the point and an exponent, which always has a sign. With one
digit in all there is no point. -/
def scientific (d : Decimal) : Text :=
  let digits := natText d.digits
  let exponent := d.exponent + digits.length - 1
  let sign := if exponent < 0 then '-' else '+'
  digits.take 1 ++ (if digits.length = 1 then [] else '.' :: digits.drop 1) ++ ['e', sign] ++
    natText exponent.natAbs

/-- A number of a format, written plainly. -/
def text (format : Format) : Binary → Text
  | .nan => "NaN".toList
  | .infinite negative => signed negative "inf".toList
  | .finite negative m q => signed negative (positional [] (shortest .up format m q))

/-- A number of a format in JSON, which has no word for what is not finite. -/
def jsonText? (format : Format) : Binary → Option Text
  | .finite negative m q =>
    let d := shortest .even format m q
    let leading := d.exponent + (natText d.digits).length - 1
    some (signed negative
      (if -5 ≤ leading ∧ leading < 16 then positional ['.', '0'] d else scientific d))
  | _ => none

/-! ### Reading -/

/-- An exponent: an optional sign and digits. -/
def readExponent? (text : Text) : Option Int := IntegerType.i64.readSigned? text

/-- Digits with a point among them, if there is one, and an exponent of the last digit. The point
may stand before the first digit or behind the last, but not alone. -/
def readMantissa? (text : Text) : Option Decimal :=
  let whole := text.takeWhile Char.isDigit
  match text.dropWhile Char.isDigit with
  | [] => (readNat? whole).map fun n => ⟨n, 0⟩
  | '.' :: places =>
    if places.all Char.isDigit then
      (readNat? (whole ++ places)).map fun n => ⟨n, -(places.length : Int)⟩
    else none
  | _ => none

/-- A decimal without a sign. The first mark of an exponent splits the text; a second one is no
digit of the exponent, and nothing is read. -/
def readDecimal? (text : Text) : Option Decimal :=
  let isMark (c : Char) : Bool := c == 'e' || c == 'E'
  let mantissa := text.takeWhile fun c => !isMark c
  match text.dropWhile fun c => !isMark c with
  | [] => readMantissa? mantissa
  | _ :: exponent => do
    let d ← readMantissa? mantissa
    let e ← readExponent? exponent
    return ⟨d.digits, d.exponent + e⟩

/-- The number of a format nearest to a decimal. A decimal far outside the range of every format
is moved to its edge first, so that no power of ten grows with the exponent written in a text. -/
def nearest (format : Format) (negative : Bool) (d : Decimal) : Binary :=
  let size := d.exponent + (natText d.digits).length
  if d.digits = 0 ∨ size < -400 then .finite negative 0 format.lowest
  else if 400 < size then .infinite negative
  else ofDecimal format negative d.digits d.exponent

/-- A number without a sign, in a format. The words count in letters of either case, and the sign
of a NaN does not count. -/
def readUnsigned? (format : Format) (negative : Bool) (text : Text) : Option Binary :=
  let word := text.map Char.toLower
  if word = "inf".toList ∨ word = "infinity".toList then some (.infinite negative)
  else if word = "nan".toList then some .nan
  else (readDecimal? text).map (nearest format negative)

/-- The number of a format that a text stands for. -/
def read? (format : Format) : Text → Option Binary
  | '+' :: text => readUnsigned? format false text
  | '-' :: text => readUnsigned? format true text
  | text => readUnsigned? format false text

end Binary

end FieldedText
