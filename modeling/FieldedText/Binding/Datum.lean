/-
FieldedText/Binding/Datum.lean

Typed data, and the values that it becomes.

A datum is data as a typed program holds it.  Sequences and tuples become lists,
with the ordinals of their positions; maps and structures become records; a
variant becomes its name, with its content under that name if it has one.
Absent data is left out: an absent element leaves its ordinal unused, and an
absent field or map value is not stored.
-/
import FieldedText.Data.Listing
import FieldedText.Error

namespace FieldedText

/-- The two halves of a map's entry, where a map announces them one by one. A value then belongs
to the key announced last. -/
inductive Half where
  | key
  | value
  deriving DecidableEq

/-- Data of a typed program. -/
inductive Datum where
  | truth (b : Bool)
  | integer (type : IntegerType) (n : Int)
  | float (format : Format) (x : Binary)
  | char (c : Char)
  | text (content : Text)
  | bytes (content : List UInt8)
  | instant (time : Instant)
  | url (address : Text)
  | value (v : Value)
  /-- Optional data that is not there. -/
  | nothing
  /-- Data of a type that has one value only. -/
  | unit
  /-- Optional data that is there. -/
  | something (datum : Datum)
  /-- Data wrapped in a type of its own. -/
  | newtype (datum : Datum)
  | unitVariant (variant : Name)
  | newtypeVariant (variant : Name) (datum : Datum)
  | sequence (items : List Datum)
  /-- A tuple, whether its type has a name or not. -/
  | tuple (items : List Datum)
  | tupleVariant (type variant : Name) (items : List Datum)
  | map (entries : List (Datum × Datum))
  /-- A map whose keys and values are announced one by one. -/
  | halves (parts : List (Half × Datum))
  | struct (fields : List (Name × Datum))
  | structVariant (type variant : Name) (fields : List (Name × Datum))

namespace Value

mutual

/-- A value with its instants and addresses as text. -/
def plain : Value → Value
  | scalar s => scalar s.plain
  | record r => record (plainEntries r)

/-- Entries with the instants and addresses in their values as text. -/
def plainEntries : List (Name × Value) → Record
  | [] => []
  | (name, value) :: r => (name, value.plain) :: plainEntries r

end

/-- The key that a value is: a scalar's text. Records are no keys, and absent data is none either.
-/
def keyText : Option Value → Except Error Name
  | some (scalar s) => .ok s.shown
  | _ => .error (.unsupported .compoundKey)

end Value

namespace Datum

mutual

/-- The value that a datum becomes, unless it is absent. Optional data and data wrapped in a type
of its own leave no trace: they become what their content becomes. -/
def encode : Datum → Except Error (Option Value)
  | truth b => .ok (some (.scalar (.truth b)))
  | integer type n =>
    if 64 < type.bits then .error (.binding (.wideInteger type.name))
    else .ok (some (.scalar (.ofInt n)))
  | float _ x => .ok (some (.scalar (.float (x.toFormat .double))))
  | char c => .ok (some (.scalar (.char c)))
  | text content => .ok (some (.scalar (.text content)))
  | bytes content =>
    .ok (some (.record (Record.ofElements
      (content.map fun b => some (.scalar (.integer (Int64.ofInt b.toNat)))))))
  | instant time => .ok (some (.scalar (.text time.zuluText)))
  | url address => .ok (some (.scalar (.text address)))
  | value v => .ok (some v.plain)
  | nothing => .ok none
  | unit => .ok none
  | something datum => datum.encode
  | newtype datum => datum.encode
  | unitVariant variant => .ok (some (.scalar (.text variant)))
  | newtypeVariant variant datum => do
    match ← datum.encode with
    | some content => return some (.record [(variant, content)])
    | none => return some (.scalar (.text variant))
  | sequence items => do return some (.record (Record.ofElements (← encodeItems items)))
  | tuple items => do return some (.record (Record.ofElements (← encodeItems items)))
  | tupleVariant type variant _ => .error (.unsupported (.tupleVariant type variant))
  | map entries => do return some (.record (← encodeEntries [] entries))
  | halves parts => do return some (.record (← encodeHalves [] none parts))
  | struct fields => do return some (.record (← encodeFields [] fields))
  | structVariant type variant _ => .error (.unsupported (.structVariant type variant))

/-- The values of a sequence, absent ones in their places. The places are kept so that an element
after an absent one has the ordinal of its position. -/
def encodeItems : List Datum → Except Error (List (Option Value))
  | [] => .ok []
  | item :: items => do
    let value ← item.encode
    let values ← encodeItems items
    return value :: values

/-- A record with the entries of a map stored in it. A key that comes twice is stored in its first
place, with its last value. -/
def encodeEntries (r : Record) : List (Datum × Datum) → Except Error Record
  | [] => .ok r
  | (key, datum) :: entries => do
    let name ← Value.keyText (← key.encode)
    let content ← datum.encode
    encodeEntries (r.insertSome name content) entries

/-- A record with the halves of a map's entries stored in it, a value under the
key that was announced last and is not used yet. -/
def encodeHalves (r : Record) (pending : Option Name) : List (Half × Datum) → Except Error Record
  | [] => .ok r
  | (.key, key) :: parts => do
    let name ← Value.keyText (← key.encode)
    encodeHalves r (some name) parts
  | (.value, datum) :: parts =>
    match pending with
    | none => .error (.binding .valueWithoutKey)
    | some name => do
      let content ← datum.encode
      encodeHalves (r.insertSome name content) none parts

/-- A record with the fields of a structure stored in it. -/
def encodeFields (r : Record) : List (Name × Datum) → Except Error Record
  | [] => .ok r
  | (name, datum) :: fields => do
    let content ← datum.encode
    encodeFields (r.insertSome name content) fields

end

/-- The record that a datum becomes, which has to be a record: only a record can stand for a whole
document. -/
def toRecord (datum : Datum) : Except Error Record := do
  match ← datum.encode with
  | some (.record r) => return r
  | some (.scalar s) => throw (.unsupported (.topLevel s.kind))
  | none => throw (.unsupported (.topLevel "unit".toList))

end Datum

end FieldedText
