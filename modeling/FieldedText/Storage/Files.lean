/-
FieldedText/Storage/Files.lean

Rendering, reading and revising files.

A result is written to a temporary file beside its target, which then takes the
target's name, and while a file is revised a temporary copy of it is kept.  Any
call to the system may fail, for the reason that `Faults` gives or for one that
the store gives; whatever happens, no temporary file stays.

How temporary files are named is not said here: it is a parameter, which is
`Naming.numbered` unless another naming is given.
-/
import FieldedText.Binding.Exchange
import FieldedText.Storage.Store

namespace FieldedText

/-- The calls to the system that can fail. Deleting a temporary file is not among them, since
whatever becomes of it is not reported. -/
inductive SystemCall where
  | makeCopy
  | writeCopy
  | makeResult
  | writeResult
  | flushResult
  | renameResult
  deriving DecidableEq

/-- The calls that fail whatever the store is, each with a reason. Theorems speak of all of them,
so that a pipeline is seen at each of its exits. -/
abbrev Faults := SystemCall → Option Text

/-- No call fails but for what the store is. -/
def Faults.none : Faults := fun _ => Option.none

namespace Store

/-- A call to the system. A fault goes before what the store would answer. -/
def call {α : Type} (faults : Faults) (name : SystemCall) (result : Except Text α) :
    Except Text α :=
  match faults name with
  | some reason => .error reason
  | none => result

/-- The text of the file at a path. -/
def readText (store : Store) (path : Text) : Except Error Text :=
  match store.readFile path with
  | .error reason => .error (.read path reason)
  | .ok content =>
    match decodeBytes? content with
    | some text => .ok text
    | none => .error (.read path invalidBytes)

/-- The store with a temporary file filled and given the name of its target. The renaming is the
one step in which the target changes. -/
def fillAndRename (store : Store) (faults : Faults) (temporary : Location) (path content : Text) :
    Except Text Store := do
  let written ← call faults .writeResult
    (.ok (store.set temporary (.file (encodeBytes content))))
  let flushed ← call faults .flushResult (.ok written)
  call faults .renameResult (flushed.rename temporary path)

/-- Puts a text into the file at a path in one step. If a call fails the temporary file is deleted
and the target is as it was. -/
def replaceFile (store : Store) (naming : Naming) (faults : Faults) (path content : Text) :
    Except Error Unit × Store :=
  match call faults .makeResult (store.makeTemporary naming (parentPath path)) with
  | .error reason => (.error (.write path reason), store)
  | .ok (temporary, begun) =>
    match begun.fillAndRename faults temporary path content with
    | .error reason => (.error (.write path reason), begun.delete temporary)
    | .ok renamed => (.ok (), renamed)

/-- Renders the template in one file into another file. Nothing is written before the whole
document is there. -/
def renderFile (store : Store) (faults : Faults) (values : Record) (template path : Text)
    (naming : Naming := .numbered) : Except Error Unit × Store :=
  match store.readText template >>= Document.render .standard values with
  | .error e => (.error e, store)
  | .ok document => store.replaceFile naming faults path document

/-- The data of the document in a file. -/
def readData (store : Store) (path : Text) : Except Error Record :=
  store.readText path >>= Document.read .standard

/-- Revises a document beside its copy. The copy holds the old document while the new one is put
in its place. -/
def reviseBesideCopy (store : Store) (naming : Naming) (faults : Faults) (copy : Location)
    (path old : Text) (values : Record) : Except Error Unit × Store :=
  match call faults .writeCopy (.ok (store.set copy (.file (encodeBytes old)))) with
  | .error reason => (.error (.write (Text.join ['/'] copy) reason), store)
  | .ok copied =>
    match Document.revise .standard values old with
    | .error e => (.error e, copied)
    | .ok document => copied.replaceFile naming faults path document

/-- Revises the document in a file. The copy is deleted in the end, whatever the result is. -/
def reviseFile (store : Store) (faults : Faults) (path : Text) (values : Record)
    (naming : Naming := .numbered) : Except Error Unit × Store :=
  match store.readText path with
  | .error e => (.error e, store)
  | .ok old =>
    match call faults .makeCopy (store.makeTemporary naming (parentPath path)) with
    | .error reason => (.error (.write path reason), store)
    | .ok (copy, begun) =>
      let (result, after) := begun.reviseBesideCopy naming faults copy path old values
      (result, after.delete copy)

end Store

end FieldedText
