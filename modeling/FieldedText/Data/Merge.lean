/-
FieldedText/Data/Merge.lean

Merging one record into another.

Records that meet under one name are merged in turn; of any other two values
that meet, the incoming one stays.  The names of the record merged into keep
their places, and new names follow in the order of the incoming record.
-/
import FieldedText.Data.Value

namespace FieldedText

mutual

/-- An incoming value, after it has met the value that was there. Only two records are merged; a
record that meets a scalar, or a scalar that meets anything, takes its place. -/
def Value.mergedInto (existing : Option Value) : Value → Value
  | .scalar s => .scalar s
  | .record incoming =>
    match existing with
    | some (.record entries) => .record (Record.merge entries incoming)
    | _ => .record incoming

/-- A record with another one merged into it, entry by entry. A name that is there keeps its
place. -/
def Record.merge (r : Record) : Record → Record
  | [] => r
  | (name, value) :: incoming =>
    Record.merge (r.insert name (value.mergedInto (r.get? name))) incoming

end

end FieldedText
