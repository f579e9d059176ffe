/-
FieldedText/Binding/Shape.lean

The types that a reader asks for, and values read as them.

A typed request is met from the text of a scalar, whatever its kind: numbers and
truth values are parsed from it, less the white space around it.  A sequence or
a tuple takes the ordinal entries of a record in their order, and passes over
the others; a structure passes over the names that it does not know.  A variant
is the text of a scalar, or the only name of a record that holds its content.
-/
import FieldedText.Binding.Visit
import FieldedText.Error

namespace FieldedText

mutual

/-- A type that is asked for. A shape is what a typed reader tells of itself beforehand; what it
is given back is a `Visit`. -/
inductive Shape where
  /-- Whatever is there. -/
  | any
  /-- Nothing: what is there is passed over. -/
  | ignored
  | truth
  | integer (type : IntegerType)
  | float (format : Format)
  | char
  | text
  /-- A type that has one value only, with a name or not. -/
  | unit
  | optional (shape : Shape)
  | newtype (shape : Shape)
  | sequence (shape : Shape)
  /-- A tuple, whether its type has a name or not. -/
  | tuple (shapes : List Shape)
  | map (keys contents : Shape)
  /-- A map whose reader asks for a value before any key. -/
  | valueFirst (keys contents : Shape)
  | struct (fields : List (Name × Shape))
  | enumeration (variants : List (Name × VariantShape))
  | instant
  | url
  | value
  | record

/-- The content of a variant that is asked for. Variants with several fields are asked for as
well, and refused. -/
inductive VariantShape where
  | unit
  | newtype (shape : Shape)
  | tuple
  | struct

end

/-- The name and the content of a variant. -/
structure Variant where
  name : Name
  content : Option Value

namespace Value

/-- The complaint about a value where another kind was expected. It names the kind of the value
and not its text. -/
def unexpected (expected : Text) : Value → Error
  | scalar s => .typeMismatch expected s.kind
  | record _ => .typeMismatch expected "map".toList

/-- What is read from a scalar's text, less the white space around it. The complaint shows the
text with that white space, as it stands in the data. -/
def parsed {α : Type} (expected : Text) (read? : Text → Option α) : Value → Except Error α
  | scalar s =>
    match read? s.shown.trim with
    | some x => .ok x
    | none => .error (.typeMismatch expected (accented s.shown))
  | record _ => .error (.typeMismatch expected "map".toList)

/-- The text of a value, which has to be a scalar. -/
def asText : Value → Except Error Text
  | scalar s => .ok s.shown
  | record _ => .error (.typeMismatch "string".toList "map".toList)

/-- The character that a value's text is. White space is not taken off here, since a character may
be white space itself. -/
def asChar : Value → Except Error Char
  | scalar s =>
    match s.shown with
    | [c] => .ok c
    | content => .error (.typeMismatch "char".toList (accented content))
  | record _ => .error (.typeMismatch "char".toList "map".toList)

/-- The instant that a value's text is. -/
def asInstant (v : Value) : Except Error Instant := do
  let content ← v.asText
  match Instant.read content with
  | .ok time => return time
  | .error fault => throw (.binding (.noInstant fault))

/-- Whether a text begins with the scheme of an address: a letter, then letters,
digits, pluses, minuses and dots, up to a colon. -/
def hasScheme : Text → Bool
  | [] => false
  | c :: rest =>
    c.isAlpha &&
      (rest.dropWhile fun c => c.isAlphanum || c ∈ ['+', '-', '.']).head? == some ':'

/-- The address that a value's text is. -/
def asAddress (v : Value) : Except Error Text := do
  let content ← v.asText
  if hasScheme content then return content else throw (.binding (.noAddress content))

/-- The record that a value is, where something else was expected of a scalar. -/
def asRecord (expected : Text) : Value → Except Error Record
  | record r => .ok r
  | v => .error (v.unexpected expected)

/-- The value that a reader makes of a value: what it is shown is stored anew, so that ordinals
begin at zero and instants become text. -/
def reread (v : Value) : Except Error Value :=
  match v.visit.value? with
  | some w => .ok w
  | none => .error (.binding (.other
    "invalid type: unit value, expected a scalar, a sequence or a map".toList))

/-- The record that a reader makes of a value. -/
def rereadRecord (v : Value) : Except Error Record := do
  match ← v.reread with
  | record r => return r
  | scalar s => throw (.binding (.notAMap s.kind))

/-- The variant that a value is. A scalar is the name of one without content; a record has to hold
one name, that of the variant. -/
def asVariant : Value → Except Error Variant
  | scalar s => .ok ⟨s.shown, none⟩
  | record [(name, content)] => .ok ⟨name, some content⟩
  | record _ => .error (.typeMismatch "enum".toList "map with several keys".toList)

end Value

/-- The word for a format of binary numbers. -/
def Format.name (format : Format) : Name :=
  if format = .single then "f32".toList else "f64".toList

namespace Shape

/-- Whether data of a shape may be missing. -/
def isOptional : Shape → Bool
  | optional _ => true
  | _ => false

/-- The fields of a structure in their order, from those that were read. A field that is not there
is nothing if its type is optional, and an error otherwise. -/
def assemble (found : List (Name × Visit)) :
    List (Name × Shape) → Except Error (List (Name × Visit))
  | [] => .ok []
  | (name, shape) :: fields => do
    let visit ←
      match found.lookup name with
      | some visit => pure visit
      | none => if shape.isOptional then pure .nothing else throw (.binding (.missingField name))
    let visits ← assemble found fields
    return (name, visit) :: visits

mutual

/-- A value read as a type. The recursion is on the shape, so that a reader only ever looks as
deep into a value as its type goes. -/
def decode : Shape → Value → Except Error Visit
  | any, v => .ok v.visit
  | ignored, _ => .ok .ignored
  | truth, v => (v.parsed "bool".toList Scalar.readTruth?).map .truth
  | integer type, v => (v.parsed type.name type.read?).map (.integer type)
  | float format, v => (v.parsed format.name (Binary.read? format)).map (.float format)
  | char, v => v.asChar.map .char
  | text, v => v.asText.map .text
  | unit, _ => .ok .unit
  | optional shape, v => (decode shape v).map .something
  | newtype shape, v => (decode shape v).map .newtype
  | sequence shape, v => do
    let r ← v.asRecord "sequence".toList
    let items ← r.elements.mapM fun element => decode shape element
    return .sequence items r.elements.length
  | tuple shapes, v => do
    let r ← v.asRecord "sequence".toList
    let items ← decodeTuple shapes shapes.length 0 r.elements
    return .sequence items r.elements.length
  | map keys contents, v => do
    let r ← v.asRecord "map".toList
    let entries ← r.mapM fun (name, element) => do
      let key ← decode keys (.scalar (.text name))
      let content ← decode contents element
      return (key, content)
    return .map entries r.length
  | valueFirst _ _, v => do
    let _ ← v.asRecord "map".toList
    throw (.binding .valueBeforeKey)
  | struct fields, v => do
    let r ← v.asRecord "map".toList
    let found ← r.mapM fun (name, element) =>
      match decodeField fields name element with
      | none => .ok none
      | some visit => visit.map fun visit => some (name, visit)
    let visits ← assemble (found.filterMap id) fields
    return .struct visits
  | enumeration variants, v => do
    let variant ← v.asVariant
    match decodeVariant variants variant with
    | some content => return .variant variant.name (← content)
    | none => throw (.binding (.unknownVariant variant.name (variants.map Prod.fst)))
  | instant, v => v.asInstant.map .instant
  | url, v => v.asAddress.map .url
  | value, v => v.reread.map .value
  | record, v => v.rereadRecord.map .record

/-- The elements of a tuple of the given size, after so many that were read. Elements beyond the
size are not read, and fewer are an error. -/
def decodeTuple : List Shape → Nat → Nat → List Value → Except Error (List Visit)
  | [], _, _, _ => .ok []
  | _ :: _, size, count, [] => .error (.binding (.tooShort count size))
  | shape :: shapes, size, count, v :: values => do
    let visit ← decode shape v
    let visits ← decodeTuple shapes size (count + 1) values
    return visit :: visits

/-- A field of a structure, if the structure knows its name. A name that it does not know is
passed over, whatever is under it. -/
def decodeField : List (Name × Shape) → Name → Value → Option (Except Error Visit)
  | [], _, _ => none
  | (known, shape) :: fields, name, v =>
    if known = name then some (decode shape v) else decodeField fields name v

/-- The content of a variant, if it is one of those known. -/
def decodeVariant : List (Name × VariantShape) → Variant → Option (Except Error Visit)
  | [], _ => none
  | (known, shape) :: variants, variant =>
    if known = variant.name then some (decodeContent shape variant.content)
    else decodeVariant variants variant

/-- The content of a variant. -/
def decodeContent : VariantShape → Option Value → Except Error Visit
  | .unit, none => .ok .unit
  | .unit, some _ =>
    .error (.typeMismatch "unit variant".toList "variant with a value".toList)
  | .newtype shape, some v => decode shape v
  | .newtype _, none => .error (.typeMismatch "newtype variant".toList "unit variant".toList)
  | .tuple, _ => .error (.unsupported .tupleVariants)
  | .struct, _ => .error (.unsupported .structVariants)

end

end Shape

end FieldedText
