/-
FieldedText/Number/Binary.lean

Binary floating point, exactly.

A format is given by its precision and by the least and the greatest exponent
of a last place.  A finite number is a significand times a power of two; the
numbers of a format have either a significand of full precision or the least
exponent.  Every operation rounds an exact quotient once, to the nearest
number, a tie going to the even significand, and beyond the greatest number to
infinity (`Binary.ofQuotient`).
-/

namespace FieldedText

/-- A binary format. Its numbers are the significands of at most this precision times the powers
between the two exponents. -/
structure Format where
  /-- The number of bits of a significand. -/
  precision : Nat
  /-- The exponent of the last place of the smallest numbers. -/
  lowest : Int
  /-- The exponent of the last place of the greatest numbers. -/
  highest : Int
  deriving DecidableEq

namespace Format

/-- Sixty-four bits. -/
def double : Format := ⟨53, -1074, 971⟩

/-- Thirty-two bits. -/
def single : Format := ⟨24, -149, 104⟩

end Format

/-- A binary floating-point number. The two zeros are numbers of significand zero, and there is
one NaN only. -/
inductive Binary where
  | nan
  | infinite (negative : Bool)
  /-- The significand times two to the exponent, with a sign. -/
  | finite (negative : Bool) (significand : Nat) (exponent : Int)
  deriving DecidableEq

namespace Binary

/-- A quotient rounded to the nearest natural number, a tie to the even one. It is compared with
the half by doubling the remainder, so that nothing is rounded on the way. -/
def divideToEven (num den : Nat) : Nat :=
  let quotient := num / den
  let twice := 2 * (num % den)
  if twice < den then quotient
  else if den < twice then quotient + 1
  else quotient + quotient % 2

/-- The number of a format nearest to a quotient of natural numbers. The exponent is estimated
from the lengths of the two numbers, and corrected by one where that is too low. -/
def ofQuotient (format : Format) (negative : Bool) (num den : Nat) : Binary :=
  if num = 0 then .finite negative 0 format.lowest
  else
    -- one of the two powers is always that of exponent zero
    let scale (q : Int) : Nat × Nat := (num * Nat.pow 2 (-q).toNat, den * Nat.pow 2 q.toNat)
    let size : Int := (num.log2 : Int) - (den.log2 : Int)
    let low := max format.lowest (size - format.precision)
    let (n, d) := scale low
    let q := if Nat.pow 2 format.precision ≤ n / d then low + 1 else low
    let (n, d) := scale q
    let m := divideToEven n d
    -- rounding may carry into one more bit, and then the significand is a power of two
    let (m, q) := if m = Nat.pow 2 format.precision then (m / 2, q + 1) else (m, q)
    if format.highest < q then .infinite negative else .finite negative m q

/-- A whole number in a format. -/
def ofInt (format : Format) (n : Int) : Binary := ofQuotient format (n < 0) n.natAbs 1

/-- A decimal in a format: the digits times ten to the exponent. The quotient is exact, whatever
the exponent is, and rounded once. -/
def ofDecimal (format : Format) (negative : Bool) (digits : Nat) (exponent : Int) : Binary :=
  ofQuotient format negative (digits * Nat.pow 10 exponent.toNat) (Nat.pow 10 (-exponent).toNat)

/-- A number of one format in another. -/
def toFormat (format : Format) : Binary → Binary
  | .nan => .nan
  | .infinite negative => .infinite negative
  | .finite negative m q =>
    ofQuotient format negative (m * Nat.pow 2 q.toNat) (Nat.pow 2 (-q).toNat)

/-- The number that sixty-four bits stand for: a sign, eleven bits of exponent
and fifty-two bits of significand. -/
def ofBits (bits : UInt64) : Binary :=
  let negative := bits >>> 63 == 1
  let exponent := ((bits >>> 52) &&& 0x7FF).toNat
  let fraction := (bits &&& 0xFFFFFFFFFFFFF).toNat
  if exponent = 0x7FF then if fraction = 0 then .infinite negative else .nan
  else if exponent = 0 then .finite negative fraction Format.double.lowest
  else .finite negative (Nat.pow 2 52 + fraction) (Format.double.lowest + exponent - 1)

/-- Equality of numbers: a NaN equals nothing, and the two zeros are equal. Finite numbers are
compared at the smaller of the two exponents. -/
def equal : Binary → Binary → Bool
  | .infinite a, .infinite b => a == b
  | .finite a m p, .finite b n q =>
    (m == 0 && n == 0) ||
      (a == b && m * Nat.pow 2 (p - min p q).toNat == n * Nat.pow 2 (q - min p q).toNat)
  | _, _ => false

end Binary

end FieldedText
