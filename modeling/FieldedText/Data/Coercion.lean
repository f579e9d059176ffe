/-
FieldedText/Data/Coercion.lean

Values taken as a whole number, a number, a truth value or a text.

A scalar of the kind asked for gives what it holds; any other scalar is read
from its text, less the white space around it.  A record is none of these.
-/
import FieldedText.Data.Value
import FieldedText.Error

namespace FieldedText

namespace Value

/-- The complaint that a scalar does not hold what was expected. -/
def mismatch (expected : Text) (scalar : Scalar) : Error :=
  .typeMismatch expected (scalar.kind ++ [' '] ++ accented scalar.shown)

/-- What a scalar gives that holds it, or whose text is read as it. The kinds that are parsed
differ in these two readings alone. -/
def coerced {α : Type} (expected : Text) (direct? : Scalar → Option α) (read? : Text → Option α) :
    Value → Except Error α
  | scalar s =>
    match direct? s with
    | some x => .ok x
    | none =>
      match read? s.shown.trim with
      | some x => .ok x
      | none => .error (mismatch expected s)
  | record _ => .error (.typeMismatch expected "map".toList)

/-- A value as a whole number of sixty-four bits. -/
def toInteger : Value → Except Error Int :=
  coerced "integer".toList
    (fun | .integer n => some n.toInt | _ => none)
    IntegerType.i64.read?

/-- A value as a number. An integer is rounded to the nearest one, if it is not one itself. -/
def toFloat : Value → Except Error Binary :=
  coerced "float".toList
    (fun | .float x => some x | .integer n => some (.ofInt .double n.toInt) | _ => none)
    (Binary.read? .double)

/-- A value as a truth value. -/
def toTruth : Value → Except Error Bool :=
  coerced "boolean".toList (fun | .truth b => some b | _ => none) Scalar.readTruth?

/-- A value as text. Every scalar has a text, so that only a record is refused. -/
def toText : Value → Except Error Text
  | scalar s => .ok s.shown
  | record _ => .error (.typeMismatch "text".toList "map".toList)

end Value

end FieldedText
