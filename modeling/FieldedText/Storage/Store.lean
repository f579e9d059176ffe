/-
FieldedText/Storage/Store.lean

Files and directories under a working directory.

A store is a list of entries at locations; a location is the list of names on
the way from the working directory.  That is a directory itself, and above it
there are directories only, whose locations are runs of double dots.  A path is
resolved name by name: every name but the last has to be that of a directory,
and so has the last one when a slash follows it.  A path without characters, with
a null character, or too long as a whole or in one of its names leads nowhere.  The
calls of a store fail with the words of the system.
-/
import FieldedText.Data.Order
import FieldedText.Text.Search

namespace FieldedText

/-- The names on the way to a file or a directory. -/
abbrev Location := List Name

namespace Location

/-- The name that leads to the directory above. -/
def upwards : Name := ['.', '.']

/-- Whether a location is that of the working directory or of one above it. These are directories
without being entries of the store. -/
def isBase (location : Location) : Bool := location.all fun name => name = upwards

/-- The location of the directory above. Above the working directory each step adds a double dot,
so that no way up ends. -/
def above (location : Location) : Location :=
  if isBase location then location ++ [upwards] else location.dropLast

end Location

/-- What there can be at a location. -/
inductive Entry where
  | file (content : List UInt8)
  | directory
  deriving DecidableEq

/-- Files and directories. The calls put an entry into a directory only, which is an entry itself
or a base. -/
structure Store where
  entries : List (Location × Entry)
  deriving DecidableEq

/-- A way to name temporary files: the name for a new file in a directory of a store. -/
abbrev Naming := Store → Location → Name

namespace Naming

/-- The name of the temporary file with a number. -/
def numberedName (n : Nat) : Name := ".tmp".toList ++ natText n

/-- Temporary files are numbered, and a new one gets the first number that is free in its
directory.  One of as many numbers as there are entries, and one more, always is. -/
def numbered : Naming := fun store directory =>
  (((List.range (store.entries.length + 1)).map numberedName).find? fun name =>
    (store.entries.lookup (directory ++ [name])).isNone).getD (numberedName 0)

end Naming

/-! ### The words of the system -/

namespace SystemText

def notFound : Text := "No such file or directory (os error 2)".toList

def notADirectory : Text := "Not a directory (os error 20)".toList

def isADirectory : Text := "Is a directory (os error 21)".toList

def nameTooLong : Text := "File name too long (os error 36)".toList

def nullCharacter : Text := "file name contained an unexpected NUL byte".toList

end SystemText

namespace Store

/-- A store with nothing in it. -/
def empty : Store := ⟨[]⟩

/-- What there is at a location. The bases are directories in every store. -/
def find? (store : Store) (location : Location) : Option Entry :=
  if Location.isBase location then some .directory else store.entries.lookup location

/-- The store with something put at a location, in place of what is there. What is at the other
locations stays, in its order. -/
def set (store : Store) (location : Location) (entry : Entry) : Store :=
  if (store.entries.lookup location).isSome then
    ⟨store.entries.map fun (place, old) => (place, if place = location then entry else old)⟩
  else ⟨store.entries ++ [(location, entry)]⟩

/-- The store with nothing at a location. -/
def delete (store : Store) (location : Location) : Store :=
  ⟨store.entries.filter fun entry => entry.1 ≠ location⟩

/-! ### Paths -/

/-- The greatest number of bytes in a name. -/
def longestName : Nat := 255

/-- The greatest number of bytes in a path. -/
def longestPath : Nat := 4095

/-- The location that the names of a path lead to from another one. A name that is empty or a dot
stays where it is, but only in a directory. -/
def walk (store : Store) : Location → List Name → Except Text Location
  | location, [] => .ok location
  | location, name :: names =>
    match store.find? location with
    | none => .error SystemText.notFound
    | some (.file _) => .error SystemText.notADirectory
    | some .directory =>
      if name = [] ∨ name = ['.'] then walk store location names
      else if name = Location.upwards then walk store (Location.above location) names
      else if longestName < Text.byteLength name then .error SystemText.nameTooLong
      else walk store (location ++ [name]) names

/-- The location that a path leads to. Whether there is something at it is not asked, only at
those on the way. -/
def locate (store : Store) (path : Text) : Except Text Location :=
  if '\x00' ∈ path then .error SystemText.nullCharacter
  else if path = [] then .error SystemText.notFound
  else if longestPath < Text.byteLength path then .error SystemText.nameTooLong
  else store.walk [] (Text.splitOn '/' path)

/-- The path of the directory that holds the file at a path, by its text alone. Names that lead
nowhere are dropped first, so that a slash at the end does not count. -/
def parentPath (path : Text) : Text :=
  match ((Text.splitOn '/' path).filter fun name => name ≠ [] ∧ name ≠ ['.']).dropLast with
  | [] => ['.']
  | names => Text.join ['/'] names

/-! ### Calls -/

/-- The content of the file at a path. -/
def readFile (store : Store) (path : Text) : Except Text (List UInt8) := do
  let location ← store.locate path
  match store.find? location with
  | some (.file content) => return content
  | some .directory => throw SystemText.isADirectory
  | none => throw SystemText.notFound

/-- The store with a file at a path. -/
def writeFile (store : Store) (path : Text) (content : List UInt8) : Except Text Store := do
  let location ← store.locate path
  match store.find? location with
  | some .directory => throw SystemText.isADirectory
  | _ => return store.set location (.file content)

/-- The store with directories at the names on a way from a location. -/
def makeWay (store : Store) : Location → List Name → Except Text Store
  | _, [] => .ok store
  | location, name :: names =>
    if name = [] ∨ name = ['.'] then makeWay store location names
    else if name = Location.upwards then makeWay store (Location.above location) names
    else
      let next := location ++ [name]
      match store.find? next with
      | some (.file _) => .error SystemText.notADirectory
      | some .directory => makeWay store next names
      | none => makeWay (store.set next .directory) next names

/-- The store with a directory at a path, and with those on the way to it. -/
def makeDirectory (store : Store) (path : Text) : Except Text Store :=
  store.makeWay [] (Text.splitOn '/' path)

/-- The names in the directory at a path, sorted. -/
def list (store : Store) (path : Text) : Except Text (List Name) := do
  let location ← store.locate path
  match store.find? location with
  | none => throw SystemText.notFound
  | some (.file _) => throw SystemText.notADirectory
  | some .directory =>
    let inside := store.entries.filterMap fun entry =>
      if entry.1.dropLast = location then entry.1.getLast? else none
    return sort Name.codeLe inside

/-- The store with a temporary file in the directory at a path, and the file's location.  The name
of the file is the one that the naming gives; nothing here looks whether it is free. -/
def makeTemporary (store : Store) (naming : Naming) (path : Text) :
    Except Text (Location × Store) := do
  let directory ← store.locate path
  match store.find? directory with
  | none => throw SystemText.notFound
  | some (.file _) => throw SystemText.notADirectory
  | some .directory =>
    let location := directory ++ [naming store directory]
    return (location, store.set location (.file []))

/-- The store with a file moved to a path, in place of the file that is there. A directory does
not give place, and then nothing is moved. -/
def rename (store : Store) (location : Location) (path : Text) : Except Text Store := do
  let target ← store.locate path
  match store.find? location, store.find? target with
  | none, _ => throw SystemText.notFound
  | some _, some .directory => throw SystemText.isADirectory
  | some entry, _ => return (store.delete location).set target entry

end Store

end FieldedText
