/-
FieldedText/Data/Listing.lean

Lists, which are records with ordinals for names.

A list's entries are those of its ordinals, in their order, whatever other
names the record holds.  An entry is added under the ordinal after the largest
one, so that removing entries changes no ordinal of those that stay.
-/
import FieldedText.Data.Order
import FieldedText.Data.Path

namespace FieldedText

namespace Record

/-! ### Reading -/

/-- The ordinals of a record, in order. They may have gaps and leading zeros, and are names like
any others. -/
def ordinals (r : Record) : List Name := sort Name.ordinalLe (r.names.filter Name.isOrdinal)

/-- The values under the ordinals of a record, in their order. -/
def elements (r : Record) : List Value := r.ordinals.filterMap r.get?

/-- Whether a record is a list: not empty, and all its names ordinals. -/
def isList (r : Record) : Bool := r ≠ [] && r.names.all Name.isOrdinal

/-- The ordinals of the record at a path. -/
def ordinalsAt (r : Record) (path : Text) : List Name :=
  match r.recordAt? path with
  | some scope => scope.ordinals
  | none => []

/-- The records among the elements of the record at a path. -/
def recordsAt (r : Record) (path : Text) : List Record :=
  match r.recordAt? path with
  | some scope => scope.elements.filterMap Value.record?
  | none => []

/-- The records among all the values of a record. -/
def records (r : Record) : List Record := r.filterMap fun entry => entry.2.record?

/-! ### Adding -/

/-- The ordinals that count when the next one is chosen: those of at most sixty-four bits. Longer
ones are names of entries all the same. -/
def counted (r : Record) : List Nat :=
  (r.names.filter Name.isOrdinal).filterMap fun name =>
    if digitsValue name < Nat.pow 2 64 then some (digitsValue name) else none

/-- The ordinal of the next entry: the one after the largest, or zero. Gaps are not filled, so
that an entry never takes the name of one that was removed before the last. -/
def nextOrdinal (r : Record) : Name :=
  match r.counted.max? with
  | some largest => natText (largest + 1)
  | none => natText 0

/-- The record with a value under the next ordinal. -/
def push (r : Record) (value : Value) : Record := r.insert r.nextOrdinal value

/-- The ordinal that a value added to the list at a path gets. -/
def addedOrdinal (r : Record) (path : Text) : Name := (r.scopeAt (Path.scope path)).nextOrdinal

/-- The record with a value added to the list at a path. The list is made if it is not there, and
it may hold other names than ordinals. -/
def add (r : Record) (path : Text) (value : Value) : Record :=
  r.changeScope (fun scope => scope.push value) (Path.scope path)

/-- The record with a value added to a list that is already at the path, and
the value's ordinal. -/
def addWithin? (r : Record) (path : Text) (value : Value) : Option (Name × Record) := do
  let names := if path = [] then [] else Path.names path
  let scope ← r.inner? names
  let changed ← r.changeInner? (fun scope => scope.push value) names
  return (scope.nextOrdinal, changed)

/-- A list of values, in which an absent one leaves its ordinal unused. So the ordinal of an
element is its position, whatever is absent before it. -/
def ofElements (values : List (Option Value)) : Record :=
  fill 0 values
where
  /-- The entries from the given ordinal on. -/
  fill (ordinal : Nat) : List (Option Value) → Record
    | [] => []
    | none :: values => fill (ordinal + 1) values
    | some value :: values => (natText ordinal, value) :: fill (ordinal + 1) values

end Record

end FieldedText
