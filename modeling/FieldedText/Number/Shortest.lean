/-
FieldedText/Number/Shortest.lean

The fewest decimal digits that read back to a binary number.

A finite number has an exact decimal expansion: a natural number, `expansion`,
over a power of ten.  The reals that round to it form an interval around it,
ends included exactly when the significand is even.  For one digit, two digits
and so on the number's two neighbours on that decimal grid are tested against
the interval; the first grid with a neighbour inside decides the number of
digits, and of two neighbours inside the nearer is taken; when both are as near,
a rule for ties decides.  All of it is arithmetic on natural numbers in units of
the last place of the expansion.
-/
import FieldedText.Number.Binary
import FieldedText.Number.Decimal

namespace FieldedText

/-- A decimal: digits times ten to the exponent. -/
structure Decimal where
  digits : Nat
  exponent : Int
  deriving DecidableEq

/-- Which of two decimals is taken when a number lies halfway between them. -/
inductive Tie where
  /-- The greater one. -/
  | up
  /-- The one with an even last digit. -/
  | even
  deriving DecidableEq

namespace Decimal

/-- A digit less at the end for each zero there, at most as many as the fuel. The number of digits
is fuel enough. -/
def stripZeros : Nat → Decimal → Decimal
  | 0, d => d
  | fuel + 1, d =>
    if d.digits ≠ 0 ∧ d.digits % 10 = 0 then stripZeros fuel ⟨d.digits / 10, d.exponent + 1⟩ else d

end Decimal

namespace Binary

/-- The places after the point in the exact expansion. -/
def places (q : Int) : Nat := (-q).toNat

/-- What one unit of the significand is in units of the expansion's last place. -/
def unit (q : Int) : Nat := Nat.pow 2 q.toNat * Nat.pow 5 (places q)

/-- Whether a decimal, four times it in units of the expansion's last place, rounds to the number
with significand `m` and exponent `q`. Four times, because the interval below a power of two is
half as wide as that above, and its end a quarter of a unit away. -/
def readsBack (format : Format) (m : Nat) (q : Int) (quadruple : Nat) : Bool :=
  let narrow := m = Nat.pow 2 (format.precision - 1) ∧ format.lowest < q
  let low := (if narrow then 4 * m - 1 else 4 * m - 2) * unit q
  let high := (4 * m + 2) * unit q
  if m % 2 = 0 then low ≤ quadruple && quadruple ≤ high
  else low < quadruple && quadruple < high

/-- The one of two neighbours on a grid that is nearer to an expansion between
them, of which the lower one is given. -/
def nearer (tie : Tie) (expansion grid below : Nat) : Nat :=
  let down := expansion - below * grid
  let up := (below + 1) * grid - expansion
  if down < up ∨ (down = up ∧ tie = .even ∧ below % 2 = 0) then below else below + 1

/-- The shortest decimal among those with the given unit in the last place, if one of the two
neighbours of the expansion rounds to the number. No other decimal on the grid is nearer, so that
the two are enough. -/
def onGrid? (tie : Tie) (format : Format) (m : Nat) (q : Int) (grid : Nat) : Option Nat :=
  let expansion := m * unit q
  let below := expansion / grid
  let above := below + 1
  match readsBack format m q (4 * (below * grid)), readsBack format m q (4 * (above * grid)) with
  | true, true => some (nearer tie expansion grid below)
  | true, false => some below
  | false, true => some above
  | false, false => none

/-- The first decimal found on the grids with `k + 1`, `k`, … places of the expansion left out.
The last of them is the expansion itself, which reads back. -/
def firstOnGrids (tie : Tie) (format : Format) (m : Nat) (q : Int) : Nat → Decimal
  | 0 => ⟨m * unit q, -(places q : Int)⟩
  | k + 1 =>
    match onGrid? tie format m q (Nat.pow 10 (k + 1)) with
    | some digits => ⟨digits, (k + 1 : Int) - places q⟩
    | none => firstOnGrids tie format m q k

/-- The fewest digits that read back to a significand and an exponent, with no zero at their end.
Zero has no first digit to begin from, and is given as it is. -/
def shortest (tie : Tie) (format : Format) (m : Nat) (q : Int) : Decimal :=
  if m = 0 then ⟨0, 0⟩
  else
    let length := (natText (m * unit q)).length
    (firstOnGrids tie format m q length).stripZeros length

end Binary

end FieldedText
