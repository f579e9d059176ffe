/-
FieldedText/Document/Body.lean

Bodies: the text of a block, cut at the values in it.

A body is a list of slots and a tail; a slot is a value with its field's name,
the text before it back to the value before, and the delimiters that may frame
it.  A text that is read is cut where the specs of its header find values, each
searching on from the end of the value found last (`text_locate`).

Before a body is written it is verified.  No line that a value touches may be
anything but prose, or the body would not be one block any more; and each value
has to be found again, with exactly its place and extent, by one of its
delimiters.  The delimiters that do so are the specs of the body's header.
-/
import FieldedText.Document.Line
import FieldedText.Text.Lines

namespace FieldedText

/-- A value in a body. -/
structure Slot where
  /-- The text before the value, back to the value before it. -/
  lead : Text
  name : Name
  value : Text
  /-- The delimiters that may frame the value, in order of preference. -/
  candidates : List Delimiter
  deriving DecidableEq

/-- A text cut at its values, in the order in which they stand. The text before a value goes with
it, back to the value before. -/
structure Body where
  slots : List Slot
  tail : Text
  deriving DecidableEq

/-- The place of a value in a text, in characters. Both ends are measured from the beginning of
the body. -/
structure Span where
  name : Name
  start : Nat
  stop : Nat
  deriving DecidableEq

namespace Slot

/-- The text of a slot. -/
def text (slot : Slot) : Text := slot.lead ++ slot.value

end Slot

namespace Body

/-- The text that is cut. -/
def text (body : Body) : Text := body.slots.flatMap Slot.text ++ body.tail

/-! ### Finding values -/

/-- A text that follows `before`, cut where specs find values; a spec that finds none is passed
over. Each search begins at the end of the value found last, so that neighbours may share the text
between them. -/
def locate (before : Text) : List FieldSpec → Text → Body
  | [], text => ⟨[], text⟩
  | spec :: specs, text =>
    match spec.delimiter.locate? before text with
    | none => locate before specs text
    | some (lead, value, rest) =>
      let later := locate (before ++ lead ++ value) specs rest
      { later with slots := ⟨lead, spec.name, value, [spec.delimiter]⟩ :: later.slots }

/-- Cutting loses nothing. -/
theorem text_locate (before : Text) (specs : List FieldSpec) (t : Text) :
    (locate before specs t).text = t := by
  -- By induction on the specs: what one of them finds is a cut of the text that is left, and the
  -- others work on the last piece of it.
  induction specs generalizing before t with
  | nil => simp [locate, text]
  | cons spec specs ih =>
    rw [locate]
    split
    · exact ih before t
    · rename_i lead value rest h
      have hlater := ih (before ++ lead ++ value) rest
      simp only [text, List.flatMap_cons, Slot.text, List.append_assoc] at hlater ⊢
      rw [hlater, ← Delimiter.locate?_append h]
      simp

/-- The body with other values. The text around them and the delimiters stay, and so two bodies
filled from one differ in values alone. -/
def fill (body : Body) (value : Name → Text) : Body :=
  { body with slots := body.slots.map fun slot => { slot with value := value slot.name } }

/-! ### One block -/

/-- The places of the values of slots that begin at the given place. -/
def spansFrom : Nat → List Slot → List Span
  | _, [] => []
  | place, slot :: slots =>
    let start := place + slot.lead.length
    let stop := start + slot.value.length
    ⟨slot.name, start, stop⟩ :: spansFrom stop slots

/-- The places of the values. -/
def spans (body : Body) : List Span := spansFrom 0 body.slots

/-- Whether a value touches the text between two places, ends included. A value that ends where a
line begins touches that line, since it could be continued there. -/
def touches (start stop : Nat) (span : Span) : Bool := span.start ≤ stop && start ≤ span.stop

/-- No line that a value touches is anything but prose, among lines of which the first has the
given number and begins at the given place. The error names the first such line and the first
value that touches it. -/
def checkLines (comment : Comment) (spans : List Span) : Nat → Nat → List Text → Except Error Unit
  | _, _, [] => .ok ()
  | line, place, raw :: lines =>
    let rest := checkLines comment spans (line + 1) (place + raw.length) lines
    if LineKind.isProse comment line raw then rest
    else
      match spans.find? (touches place (place + raw.length)) with
      | some span => .error (.argument (.breaksBlock span.name line (Text.content raw)))
      | none => rest

/-- The body stays one block, whatever its values are. Lines that no value touches are not looked
at: they were lines of the block before. -/
def checkBlock (body : Body) (comment : Comment) (line : Nat) : Except Error Unit :=
  checkLines comment body.spans line 0 (Text.lines body.text)

/-! ### Values that are found again -/

/-- Whether a delimiter finds a slot's value again, between the text before the slot and the text
after the value: the same value, and in the same place. -/
def findsAgain (before : Text) (slot : Slot) (after : Text) (delimiter : Delimiter) : Bool :=
  delimiter.locate? before (slot.lead ++ slot.value ++ after) = some (slot.lead, slot.value, after)

/-- For each slot the first of its delimiters that finds its value again. The text after the value
is the new one, with the new values of the slots that follow. -/
def specsFrom (line : Nat) (before tail : Text) : List Slot → Except Error (List FieldSpec)
  | [] => .ok []
  | slot :: slots =>
    match slot.candidates.find? (findsAgain before slot (Body.text ⟨slots, tail⟩)) with
    | none =>
      .error (.grammar (line + (before ++ slot.lead).lineFeeds) (.unreadableValue slot.name)
        (some slot.value))
    | some delimiter =>
      (specsFrom line (before ++ slot.lead ++ slot.value) tail slots).map
        (⟨slot.name, delimiter⟩ :: ·)

/-- The specs that find every value of the body again. -/
def specs (body : Body) (line : Nat) : Except Error (List FieldSpec) :=
  specsFrom line [] body.tail body.slots

/-- The specs of a body that may be written, of which the first line has the given number. That
the body stays one block is checked first, and its error goes before that of a value that is not
found. -/
def verify (body : Body) (comment : Comment) (line : Nat) : Except Error (List FieldSpec) :=
  match body.checkBlock comment line with
  | .error e => .error e
  | .ok () => body.specs line

end Body

end FieldedText
