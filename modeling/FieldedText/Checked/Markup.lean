/-
FieldedText/Checked/Markup.lean

Lines of markup, read with checked accesses.

The comment directive is the one kind of directive whose parts are sliced out of
its line.  A header is read by a loop that holds one offset: white space is passed
over, a token is read, and the offset moves behind the token.  The path of a list is
joined from the first parts of a name.
-/
import FieldedText.Checked.Access
import FieldedText.Document.Line
import FieldedText.Document.ListTemplate
import FieldedText.Markup.Settings

namespace FieldedText.Checked

/-! ### Directives -/

/-- The directive on a line, given without its line end, if there is one. The framing of a comment
directive is what is before and behind the token. -/
def directive (line : Nat) (content : Text) : Run (Option Directive) :=
  match Directive.findList? content with
  | some block => .ok (some (.listTemplate block))
  | none =>
    match indexOf? Directive.commentToken content with
    | some index => do
      let start ← sliceTo content index
      let stop ← sliceFrom content (index + Directive.commentToken.byteLength)
      return some (.comment ⟨start, stop⟩)
    | none => done (Directive.find line content)

/-- The settings after the directives on some lines, of which the first has the given number. They
are applied while the lines are read, not after. -/
def scanLines (settings : Settings) (line : Nat) : List Text → Run Settings
  | [] => .ok settings
  | raw :: lines => do
    match ← directive line (Text.plain raw) with
    | none => scanLines settings (line + 1) lines
    | some found => scanLines (settings.apply found) (line + 1) lines

/-- The settings after the directives of a document. -/
def scan (settings : Settings) (document : Text) : Run Settings :=
  scanLines settings 1 (Text.lines document)

/-- The kind of a line, which may have its line end, under a comment framing. -/
def lineKind (comment : Comment) (line : Nat) (raw : Text) : Run LineKind :=
  let content := Text.content raw
  if content.isBlank then .ok .blank
  else do
    match ← directive line content with
    | some found => return .directive found
    | none => return if comment.isHeader content then .header else .prose

/-- Whether a line is prose; one that is not well formed is not. -/
def isProse (comment : Comment) (line : Nat) (raw : Text) : Run Bool :=
  match lineKind comment line raw with
  | .ok kind => .ok (kind = .prose)
  | .error (.error _) => .ok false
  | .error (.panic p) => .error (.panic p)

/-! ### Headers -/

/-- The text up to and including the first closing braces; all of it when there are none. -/
def suspect (text : Text) : Run Text :=
  match indexOf? Sign.closing text with
  | some index => sliceTo text (index + Sign.closing.byteLength)
  | none => .ok text

/-- The specs of a header from an offset on. Each round reads a token, and so the offset moves; a
round that does not move it would go on for ever, and is a panic. -/
def headerFrom (line : Nat) (inner : Text) (pos : Nat) : Run (List FieldSpec) := do
  let rest ← sliceFrom inner pos
  let space ← minus rest.byteLength (Text.trimStart rest).byteLength
  if _h : inner.byteLength ≤ pos + space then return []
  else do
    let text ← sliceFrom inner (pos + space)
    match FieldSpec.read? text with
    | none => .error (.error (.grammar line .malformedField (some (← suspect text))))
    | some (spec, after) =>
      let next := pos + space + (text.byteLength - after.byteLength)
      -- a token that takes no room would be read again and again
      if _h : pos + space < next then return spec :: (← headerFrom line inner next)
      else .error (.panic .standstill)
termination_by inner.byteLength - pos

/-! ### List templates -/

/-- The path of the list that a name with an asterisk belongs to, if it has one. The asterisk is
found by its position, and the path is joined from the parts before that. -/
def prefixOf (line : Nat) (name : Name) : Run (Option Text) :=
  let parts := Text.splitOn '.' name
  match parts.findIdx? (· = ListTemplate.marker) with
  | none => .ok none
  | some position =>
    if (parts.drop (position + 1)).any (· = ListTemplate.marker) then
      .error (.error (.grammar line .nestedLists (some name)))
    else do return some (Text.join ['.'] (← elementsTo parts position))

/-- The path of the list that some names belong to, if one of them does; the
names before them belong to the list at `known`, if to any. -/
def prefixFrom (line : Nat) (known : Option Text) : List Name → Run (Option Text)
  | [] => .ok known
  | name :: names => do
    match known, ← prefixOf line name with
    | known, none => prefixFrom line known names
    | none, some found => prefixFrom line (some found) names
    | some first, some found =>
      if first = found then prefixFrom line (some found) names
      else .error (.error (.grammar line (.differentLists first found) (some name)))

end FieldedText.Checked
