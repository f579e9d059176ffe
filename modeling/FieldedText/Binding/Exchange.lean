/-
FieldedText/Binding/Exchange.lean

Typed data carried by whole documents, and documents as bytes.
-/
import FieldedText.Binding.Datum
import FieldedText.Binding.Shape
import FieldedText.Document.Reading
import FieldedText.Document.Revision

namespace FieldedText

/-- A text as bytes. -/
def encodeBytes (text : Text) : List UInt8 := (String.ofList text).toUTF8.data.toList

/-- The text that bytes stand for, if they are the UTF-8 of one. -/
def decodeBytes? (bytes : List UInt8) : Option Text :=
  (String.fromUTF8? ⟨bytes.toArray⟩).map String.toList

/-- What is wrong with bytes that stand for no text. -/
def invalidBytes : Text := "stream did not contain valid UTF-8".toList

namespace Document

/-- A template with typed data in it. -/
def ofDatum (datum : Datum) (template : Text) : Except Error Text := do
  let values ← datum.toRecord
  render .standard values template

/-- A template with typed data in it, which has to fit into so many bytes. The limit is that of
the place the document is written to, and counts bytes, not characters. -/
def ofDatumWithin (limit : Nat) (datum : Datum) (template : Text) : Except Error Text := do
  let document ← ofDatum datum template
  if limit < (encodeBytes document).length then
    throw (.io "failed to write whole buffer".toList)
  else
    return document

/-- A document with new typed data in it. -/
def reviseWith (datum : Datum) (document : Text) : Except Error Text := do
  let values ← datum.toRecord
  revise .standard values document

/-- The data of a document, read as a type. A document holds text alone, so that every number is
parsed from its text again. -/
def readAs (shape : Shape) (document : Text) : Except Error Visit := do
  let values ← read .standard document
  shape.decode (.record values)

/-- The data of a document given as bytes, read as a type. -/
def readBytesAs (shape : Shape) (bytes : List UInt8) : Except Error Visit :=
  match decodeBytes? bytes with
  | some document => readAs shape document
  | none => .error (.io invalidBytes)

end Document

end FieldedText
