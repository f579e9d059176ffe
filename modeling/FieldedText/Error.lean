/-
FieldedText/Error.lean

Everything that can go wrong, as causes; the wording is in one place,
`Error.message`.

A complaint about a line of markup carries the number of the line and, as a
rule, the text complained about, which the message shows on a line of its own
without the white space at its end.  The other errors are about an argument,
about data that does not have the type asked for, and about files.  One error
is a misuse of this library and no pipeline ever returns it: text added to a
block that has been closed.
-/
import FieldedText.Text.Blank
import FieldedText.Text.Quoted
import FieldedText.Time.Instant

namespace FieldedText

/-- What is wrong with an argument. The value that would break its block is given with the field
and the line, so that the message can say which text to change. -/
inductive Misfit where
  /-- A pair of delimiters that is not two characters long. -/
  | pairLength (pair : Text)
  /-- A value that would end or split the block it stands in. -/
  | breaksBlock (field : Name) (line : Nat) (content : Text)
  /-- Any other objection, in words. -/
  | other (wording : Text)
  deriving DecidableEq

/-- What is wrong with a line of markup. A cause carries the names and texts that its message
shows; how they are put into words is said in `Complaint.wording`. -/
inductive Complaint where
  | malformedField
  | headerOutsideComment
  | unknownDirective
  | misfit (cause : Misfit)
  | nestedLists
  | differentLists (first second : Text)
  | ambiguousDelimiter (field : Name)
  | unreadableValue (field : Name)
  /-- Any other complaint, in words. -/
  | other (wording : Text)
  deriving DecidableEq

/-- What is wrong with data that is bound to a type, beyond a plain mismatch. These faults arise
between a typed program and its data, and no document has to be involved. -/
inductive BindingFault where
  | missingField (field : Name)
  | tooShort (count expected : Nat)
  | unknownVariant (variant : Name) (known : List Name)
  | valueBeforeKey
  | valueWithoutKey
  /-- An integer of a type wider than sixty-four bits. -/
  | wideInteger (type : Name)
  | notAMap (kind : Name)
  /-- A text that is no instant. -/
  | noInstant (fault : Instant.Fault)
  /-- A text that is no address, since it has no scheme. -/
  | noAddress (content : Text)
  /-- Any other fault, in words. -/
  | other (wording : Text)
  deriving DecidableEq

/-- A type that has no place in the data model, which has scalars, and records under names that
are texts, and nothing else. -/
inductive Unsupported where
  | tupleVariant (type variant : Name)
  | structVariant (type variant : Name)
  | tupleVariants
  | structVariants
  | compoundKey
  /-- Data that is not a map where a whole document is asked for. -/
  | topLevel (kind : Name)
  /-- Any other type, in words. -/
  | other (wording : Text)
  deriving DecidableEq

inductive Error where
  /-- A line of markup is wrong. -/
  | grammar (line : Nat) (complaint : Complaint) (context : Option Text)
  | argument (misfit : Misfit)
  /-- Data of another kind was expected. -/
  | typeMismatch (expected found : Text)
  | unsupported (type : Unsupported)
  | binding (fault : BindingFault)
  | io (wording : Text)
  | read (path wording : Text)
  | write (path wording : Text)
  /-- A JSON tree cannot hold the data asked for. -/
  | json (wording : Text)
  /-- Text was added to a block that had been closed. -/
  | closedBlock
  deriving DecidableEq

/-- Whether two outcomes are the same. With it a whole run, error included, can be compared by
evaluation. -/
instance decidableEqExcept {ε α : Type} [DecidableEq ε] [DecidableEq α] : DecidableEq (Except ε α)
  | .ok a, .ok b => decidable_of_iff (a = b) (by simp)
  | .error e, .error f => decidable_of_iff (e = f) (by simp)
  | .ok _, .error _ => isFalse nofun
  | .error _, .ok _ => isFalse nofun

/-! ### Wording -/

/-- A text between grave accents, as messages set off names and values. -/
def accented (text : Text) : Text := ['\x60'] ++ text ++ ['\x60']

namespace Misfit

def wording : Misfit → Text
  | pairLength pair =>
    "delimiter pair must be exactly 2 characters, got ".toList ++ pair.quoted
  | breaksBlock field line content =>
    "value of field ".toList ++ accented field ++ " would break its block at line ".toList ++
      natText line ++ ": ".toList ++ content.quoted
  | other text => text

def message (misfit : Misfit) : Text := "Invalid argument: ".toList ++ misfit.wording

end Misfit

namespace Complaint

def wording : Complaint → Text
  | malformedField => "malformed field spec".toList
  | headerOutsideComment => "header is not a comment line".toList
  | unknownDirective => "unrecognised directive".toList
  | misfit cause => cause.message
  | nestedLists => "nested list markers are not supported".toList
  | differentLists first second =>
    "list placeholders must share one prefix, found ".toList ++ accented first ++ " and ".toList ++
      accented second
  | ambiguousDelimiter field => "ambiguous delimiter for field ".toList ++ accented field
  | unreadableValue field =>
    "value of field ".toList ++ accented field ++
      " cannot be read back through the text around it".toList
  | other text => text

end Complaint

namespace BindingFault

/-- The names that were to choose from, as a message lists them. -/
def choices : List Name → Text
  | [] => "there are no variants".toList
  | [a] => "expected ".toList ++ accented a
  | [a, b] => "expected ".toList ++ accented a ++ " or ".toList ++ accented b
  | names => "expected one of ".toList ++ Text.join ", ".toList (names.map accented)

def wording : BindingFault → Text
  | missingField field => "missing field ".toList ++ accented field
  | tooShort count expected =>
    "invalid length ".toList ++ natText count ++ ", expected ".toList ++ natText expected ++
      " elements".toList
  | unknownVariant variant known =>
    "unknown variant ".toList ++ accented variant ++ ", ".toList ++ choices known
  | valueBeforeKey => "next_value_seed called before next_key_seed".toList
  | valueWithoutKey => "serialize_value called without serialize_key".toList
  | wideInteger type => type ++ " is not supported".toList
  | notAMap kind => "invalid type: ".toList ++ kind ++ ", expected a map".toList
  | noInstant fault => fault.wording
  | noAddress content =>
    "relative URL without a base: ".toList ++ content.quoted
  | other text => text

end BindingFault

namespace Unsupported

def wording : Unsupported → Text
  | tupleVariant type variant =>
    "tuple variant ".toList ++ type ++ "::".toList ++ variant
  | structVariant type variant =>
    "struct variant ".toList ++ type ++ "::".toList ++ variant
  | tupleVariants => "tuple variants".toList
  | structVariants => "struct variants".toList
  | compoundKey => "map keys must be scalars".toList
  | topLevel kind => "top-level ".toList ++ kind ++ " (expected a struct or map)".toList
  | other text => text

end Unsupported

namespace Error

/-- The text of an error, for a reader. -/
def message : Error → Text
  | grammar line complaint context =>
    "Grammar error at line ".toList ++ natText line ++ ": ".toList ++ complaint.wording ++
      match context with
      | none => []
      | some text => "\n  ".toList ++ text.trimEnd
  | argument misfit => misfit.message
  | typeMismatch expected found =>
    "Type mismatch: expected ".toList ++ expected ++ ", found ".toList ++ found
  | unsupported type => "Unsupported type: ".toList ++ type.wording
  | binding fault => "Error: ".toList ++ fault.wording
  | io text => "IO error: ".toList ++ text
  | read path text => "Failed to read ".toList ++ path ++ ": ".toList ++ text
  | write path text => "Failed to write ".toList ++ path ++ ": ".toList ++ text
  | json text => text
  | closedBlock => "append_text on a terminated block".toList

end Error

end FieldedText
