/-
FieldedText/Binding/Visit.lean

What a typed reader is shown, values shown as they are, and values made of what
is shown.

A reader that asks for no type is shown a scalar as what it is, instants and
addresses as text; a list as a sequence of its elements, in the order of their
ordinals; and any other record as a map, in its own order.  A reader that makes
a value of what it is shown stores the elements of a sequence under their
positions and the entries of a map under their names.  What is shown as nothing
is absent: an absent element leaves its position unused, and an absent entry is
not stored.
-/
import FieldedText.Data.Listing

namespace FieldedText

/-- Data as a typed reader is shown it. A number is shown as one of a certain type, and a
collection together with the number of elements that was announced. -/
inductive Visit where
  | truth (b : Bool)
  | integer (type : IntegerType) (n : Int)
  | float (format : Format) (x : Binary)
  | char (c : Char)
  | text (content : Text)
  | instant (time : Instant)
  | url (address : Text)
  | value (v : Value)
  | record (r : Record)
  /-- A field of an optional type that is not there. -/
  | nothing
  | unit
  /-- Data that is passed over. -/
  | ignored
  | something (visit : Visit)
  | newtype (visit : Visit)
  /-- The elements that were read, and how many were announced. -/
  | sequence (items : List Visit) (announced : Nat)
  /-- The entries, and how many were announced. -/
  | map (entries : List (Visit × Visit)) (announced : Nat)
  | struct (fields : List (Name × Visit))
  | variant (variant : Name) (content : Visit)

namespace Scalar

/-- A scalar as what it is. -/
def visit : Scalar → Visit
  | integer n => .integer .i64 n.toInt
  | float x => .float .double x
  | truth b => .truth b
  | char c => .char c
  | s => .text s.shown

end Scalar

namespace Record

/-- Things under names, in the order of the ordinals. Things under other names are not left out,
since only lists are shown in this order. -/
def inOrdinalOrder {α : Type} (entries : List (Name × α)) : List α :=
  (sort (fun a b => Name.ordinalLe a.1 b.1) entries).map Prod.snd

end Record

namespace Value

mutual

/-- A value as what it is. -/
def visit : Value → Visit
  | scalar s => s.visit
  | record r =>
    if Record.isList r then .sequence (Record.inOrdinalOrder (visitEntries r)) r.length
    else .map ((visitEntries r).map fun (name, shown) => (.text name, shown)) r.length

/-- The entries of a record with their values as what they are. -/
def visitEntries : List (Name × Value) → List (Name × Visit)
  | [] => []
  | (name, value) :: r => (name, value.visit) :: visitEntries r

end

end Value

namespace Visit

mutual

/-- The value that a reader makes of what it is shown, unless it is shown nothing. It asks for no
type, and what is shown to a reader that asks for one is not among it. -/
def value? : Visit → Option Value
  | truth b => some (.scalar (.truth b))
  | integer _ n => some (.scalar (.ofInt n))
  | float _ x => some (.scalar (.float x))
  | char c => some (.scalar (.char c))
  | text content => some (.scalar (.text content))
  | something visit => visit.value?
  | sequence items _ => some (.record (Record.ofElements (itemValues items)))
  | map entries _ => some (.record (storeEntries [] entries))
  | _ => none

/-- The values of the elements of a sequence, absent ones in their places. -/
def itemValues : List Visit → List (Option Value)
  | [] => []
  | item :: items => item.value? :: itemValues items

/-- A record with the entries of a map stored in it, which have texts for keys. -/
def storeEntries (r : Record) : List (Visit × Visit) → Record
  | [] => r
  | (text name, content) :: entries => storeEntries (r.insertSome name content.value?) entries
  | _ :: entries => storeEntries r entries

end

end Visit

end FieldedText
