/-
FieldedText/Checked/Body.lean

The values in a text by their extents, with checked accesses.

Specs find values one after the other, each search beginning where the value before
it ends.  A text with other values is put together from what stands between the
extents of the old ones, and the extents of the new ones are recorded; before it is
written, its lines are compared with these, and each value is looked for again.
-/
import FieldedText.Checked.Markup
import FieldedText.Document.Body

namespace FieldedText.Checked

variable {α : Type}

/-- A value in a text. Where a slot holds the text before its value, this holds the offsets of the
value in all the text. -/
structure Placed where
  name : Name
  /-- The delimiters that may frame the value, in order of preference. -/
  candidates : List Delimiter
  extent : Extent
  deriving DecidableEq

/-! ### Finding values -/

/-- The extent of the value that a delimiter finds from an offset on. The search may only begin
between characters, and the offsets that it gives are of the whole text again. -/
def locateAt (delimiter : Delimiter) (text : Text) (start : Nat) : Run (Option Extent) :=
  match cutAt? start text with
  | none => .error (.panic .search)
  | some (before, rest) =>
    .ok ((delimiter.locate? before rest).map fun (lead, value, _) =>
      ⟨start + lead.byteLength, start + lead.byteLength + value.byteLength⟩)

/-- The values that specs find in a text from an offset on; a spec that finds none is passed
over. -/
def locateAll (text : Text) : Nat → List FieldSpec → Run (List Placed)
  | _, [] => .ok []
  | start, spec :: specs => do
    match ← locateAt spec.delimiter text start with
    | none => locateAll text start specs
    | some extent =>
      return ⟨spec.name, [spec.delimiter], extent⟩ :: (← locateAll text extent.stop specs)

/-- A text with other values in it, and their extents: what follows the first `copied` bytes of
the text is added to `body`, with a new value for each item. Two lengths run along, that of the
old text copied and that of the new one built. -/
def fill (text : Text) (replace : α → Run (Placed × Text)) :
    Nat → Text → List α → Run (Text × List Placed)
  | copied, body, [] => do return (body ++ (← sliceFrom text copied), [])
  | copied, body, item :: items => do
    let (placed, value) ← replace item
    let lead ← slice text copied placed.extent.start
    let start := Text.byteLength (body ++ lead)
    let stop := Text.byteLength (body ++ lead ++ value)
    let (filled, later) ← fill text replace placed.extent.stop (body ++ lead ++ value) items
    return (filled, { placed with extent := ⟨start, stop⟩ } :: later)

/-- A value that was found, and the one that takes its place. -/
def renew (change : Name → Text) (found : Placed) : Run (Placed × Text) :=
  .ok (found, change found.name)

/-! ### Values that are found again -/

/-- Whether a value touches the text between two offsets, ends included. -/
def touches (start stop : Nat) (placed : Placed) : Bool :=
  placed.extent.start ≤ stop && start ≤ placed.extent.stop

/-- No line that a value touches is anything but prose, among lines of which the first has the
given number and begins at the given offset. The name in the complaint is asked for by the
position of the value. -/
def checkLines (comment : Comment) (placed : List Placed) : Nat → Nat → List Text → Run Unit
  | _, _, [] => .ok ()
  | line, start, raw :: lines => do
    let stop := start + raw.byteLength
    if ← isProse comment line raw then checkLines comment placed (line + 1) stop lines
    else
      match placed.findIdx? (touches start stop) with
      | none => checkLines comment placed (line + 1) stop lines
      | some i => do
        let name ← element (placed.map Placed.name) i
        .error (.error (.argument (.breaksBlock name line (Text.content raw))))

/-- The first delimiter that finds a value at the given extent. Nothing but the extent is
compared, since the text between the offsets is then the value. -/
def choose? (body : Text) (start : Nat) (extent : Extent) : List Delimiter → Run (Option Delimiter)
  | [] => .ok none
  | delimiter :: delimiters => do
    if (← locateAt delimiter body start) = some extent then return some delimiter
    else choose? body start extent delimiters

/-- For each value the first of its delimiters that finds it again. The complaint slices the text
twice, up to the value for its line and the value itself. -/
def chooseFrom (line : Nat) (body : Text) : Nat → List Placed → Run (List FieldSpec)
  | _, [] => .ok []
  | start, placed :: later => do
    match ← choose? body start placed.extent placed.candidates with
    | some delimiter =>
      return ⟨placed.name, delimiter⟩ :: (← chooseFrom line body placed.extent.stop later)
    | none => do
      let before ← sliceTo body placed.extent.start
      let value ← slice body placed.extent.start placed.extent.stop
      .error (.error (.grammar (line + before.lineFeeds) (.unreadableValue placed.name)
        (some value)))

/-- The specs of a body that may be written, of which the first line has the given number. -/
def verify (comment : Comment) (line : Nat) (body : Text) (placed : List Placed) :
    Run (List FieldSpec) := do
  checkLines comment placed line 0 (Text.lines body)
  chooseFrom line body 0 placed

end FieldedText.Checked
