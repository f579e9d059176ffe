/-
FieldedText/Checked/Access.lean

Texts addressed by byte offsets, with every access checked.

Elsewhere a text is cut in pieces and never addressed by numbers, so that nothing
can be out of place.  A program over UTF-8 text has offsets only: it slices a text
between two of them, begins a search at one, and asks for members of lists by their
position.  Each such access has a condition, and a program that does not meet it
panics.  A checked program is written with offsets and says in its result whether it
panics; an error that it reports is a different outcome.
-/
import FieldedText.Error

namespace FieldedText

/-- What a program asks for that is not there. Each cause is the condition of one kind of access,
so that a program is free of panics when it meets the condition of each access it makes. -/
inductive Panic where
  /-- A part of a text whose ends are within characters, outside the text, or in the wrong order. -/
  | slice
  /-- A search begun outside the text. -/
  | search
  /-- Members of a list past its end. -/
  | index
  /-- A difference below zero. -/
  | difference
  /-- A round of a loop in which nothing is read. -/
  | standstill
  /-- Text added to a block that is closed. -/
  | closedBlock
  /-- A scope that holds no record. -/
  | scope
  deriving DecidableEq

/-- Why a checked program has no result. -/
inductive Fault where
  | error (error : Error)
  | panic (panic : Panic)
  deriving DecidableEq

/-- The outcome of a checked program: a result, an error that it reports, or a panic. -/
abbrev Run (α : Type) := Except Fault α

/-- A part of a text, by the byte offsets of its ends. -/
structure Extent where
  start : Nat
  stop : Nat
  deriving DecidableEq

namespace Checked

variable {α : Type}

/-- The outcome of a checked program that does not panic. It is how steps without any access are
taken over as they are. -/
def done (outcome : Except Error α) : Run α := outcome.mapError .error

/-! ### Texts -/

/-- A text cut at an offset that is at one of its ends or between two of its characters. Nothing
is given for an offset within a character, which is where a slice panics. -/
def cutAt? : Nat → Text → Option (Text × Text)
  | 0, text => some ([], text)
  | _ + 1, [] => none
  | n + 1, c :: text =>
    if c.utf8Size ≤ n + 1 then
      (cutAt? (n + 1 - c.utf8Size) text).map fun (head, rest) => (c :: head, rest)
    else none

/-- The text up to an offset. -/
def sliceTo (text : Text) (stop : Nat) : Run Text :=
  match cutAt? stop text with
  | some (head, _) => .ok head
  | none => .error (.panic .slice)

/-- The text from an offset on. -/
def sliceFrom (text : Text) (start : Nat) : Run Text :=
  match cutAt? start text with
  | some (_, rest) => .ok rest
  | none => .error (.panic .slice)

/-- The text between two offsets. The order of the offsets is a condition of its own: ends in the
wrong order panic, even where both are between characters. -/
def slice (text : Text) (start stop : Nat) : Run Text :=
  if start ≤ stop then do
    let rest ← sliceFrom text start
    sliceTo rest (stop - start)
  else .error (.panic .slice)

/-- The offset of the first occurrence of a mark. -/
def indexOf? (mark text : Text) : Option Nat :=
  (Text.cut? mark text).map fun (head, _) => head.byteLength

/-- The offset of the last occurrence of a character: the one in the rest of the text, and only
without one there the first character. -/
def lastIndexOf? (mark : Char) : Text → Option Nat
  | [] => none
  | c :: text =>
    match lastIndexOf? mark text with
    | some index => some (c.utf8Size + index)
    | none => if c = mark then some 0 else none

/-! ### Lists and numbers -/

/-- The member at a position, which has to be before the end. -/
def element (xs : List α) (i : Nat) : Run α :=
  match xs[i]? with
  | some x => .ok x
  | none => .error (.panic .index)

/-- The members before a position, which may be the one past the last. -/
def elementsTo (xs : List α) (i : Nat) : Run (List α) :=
  if i ≤ xs.length then .ok (xs.take i) else .error (.panic .index)

/-- The difference of two natural numbers. -/
def minus (a b : Nat) : Run Nat := if b ≤ a then .ok (a - b) else .error (.panic .difference)

end Checked

end FieldedText
