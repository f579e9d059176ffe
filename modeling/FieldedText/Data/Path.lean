/-
FieldedText/Data/Path.lean

Dotted paths into nested records.

A path is a text; its names stand between its dots, and a text without a dot
is a path of one name.  Reading follows the names through records.  Storing
makes the records on its way, and puts one in place of a scalar that it meets;
removing leaves every record in place, empty or not.

A name in a path may be empty.  Reading takes an empty name like any other.
The record that holds the place of a path is addressed by the path's text up to
its last dot, and the record addressed by the empty text is the whole one;
where records are made on the way, one dot at the end of that text makes no
record of its own.
-/
import FieldedText.Data.Value

namespace FieldedText

namespace Path

/-- The names of a path; there is always at least one. -/
def names (path : Text) : List Name := Text.splitOn '.' path

/-- Names without an empty one at their end. A single one is dropped, not a run of them. -/
def withoutFinalEmpty : List Name → List Name
  | [] => []
  | [[]] => []
  | name :: names => name :: withoutFinalEmpty names

/-- The names of the records that are made on the way to a scope. -/
def scope (path : Text) : List Name := withoutFinalEmpty (names path)

/-- The names of the records that are made on the way to a path's last name. Here an empty name at
the end is dropped, as it is not when the path is read. -/
def parentScope (path : Text) : List Name := withoutFinalEmpty (names path).dropLast

/-- The names of the record that is looked for as the one with the path's last name. A single
empty name is the empty path, which is that of the whole record. -/
def parent (path : Text) : List Name :=
  match (names path).dropLast with
  | [[]] => []
  | names => names

/-- The last name of a path. -/
def last (path : Text) : Name := Text.afterLast '.' path

end Path

namespace Record

/-! ### Reading -/

/-- The value at the end of a way of names, of which there is at least one. A scalar on the way
ends it, and so does a name that is not there. -/
def follow? (r : Record) : List Name → Option Value
  | [] => none
  | [name] => r.get? name
  | name :: names =>
    match r.get? name with
    | some (.record inner) => follow? inner names
    | _ => none

/-- The record at the end of a way of names, possibly this one. -/
def inner? (r : Record) : List Name → Option Record
  | [] => some r
  | name :: names =>
    match r.get? name with
    | some (.record inner) => inner? inner names
    | _ => none

/-- The value at a path. -/
def lookup (r : Record) (path : Text) : Option Value := r.follow? (Path.names path)

/-- The scalar at a path. -/
def scalarAt? (r : Record) (path : Text) : Option Scalar := (r.lookup path).bind Value.scalar?

/-- The record at a path; the empty path is that of this record. -/
def recordAt? (r : Record) (path : Text) : Option Record :=
  if path = [] then some r else (r.lookup path).bind Value.record?

/-- Whether there is a value at a path. -/
def contains (r : Record) (path : Text) : Bool := (r.lookup path).isSome

/-! ### Changing -/

/-- The record under a name; an empty one if there is none. A scalar counts as none, since storing
puts a record in its place. -/
def scopeUnder (r : Record) (name : Name) : Record :=
  match r.get? name with
  | some (.record inner) => inner
  | _ => []

/-- The record that storing finds or makes at the end of a way of names. -/
def scopeAt (r : Record) : List Name → Record
  | [] => r
  | name :: names => scopeAt (r.scopeUnder name) names

/-- A change made to the record at the end of a way of names; what is missing on the way is made,
and a scalar on the way gives place. All that is beside the way stays. -/
def changeScope (change : Record → Record) (r : Record) : List Name → Record
  | [] => change r
  | name :: names => r.insert name (.record (changeScope change (r.scopeUnder name) names))

/-- A change made to the record at the end of a way of names, if it is there. Nothing is made on
the way. -/
def changeInner? (change : Record → Record) (r : Record) : List Name → Option Record
  | [] => some (change r)
  | name :: names =>
    match r.get? name with
    | some (.record inner) =>
      (changeInner? change inner names).map fun changed => r.insert name (.record changed)
    | _ => none

/-- The record with a value stored at a path. What is at the path already gives place, record or
scalar. -/
def put (r : Record) (path : Text) (value : Value) : Record :=
  r.changeScope (fun scope => scope.insert (Path.last path) value) (Path.parentScope path)

/-- The value at a path and the record without it, if there is one. A record that becomes empty by
it stays. -/
def remove? (r : Record) (path : Text) : Option (Value × Record) := do
  let parent ← r.inner? (Path.parent path)
  let value ← parent.get? (Path.last path)
  let rest ← r.changeInner? (fun scope => scope.erase (Path.last path)) (Path.parent path)
  return (value, rest)

end Record

end FieldedText
