/-
FieldedText/Markup/Directive.lean

Directives: tokens that configure how a document is read, and that keep the
text a list is rendered from.

A directive may stand anywhere on its line.  The kinds are looked for in a
fixed order: a list template first, then the comment directive, whose framing
is the text around it, then a delimiter directive; a line on which one of the
two markers stands with nothing well formed behind it is a complaint.

A list template holds a block of text on one line, in quotes.  Quotes,
backslashes and the two line ends are escaped in it by a backslash, and nothing
else is (`Escape.decode_encode`).
-/
import FieldedText.Markup.Comment

namespace FieldedText

/-! ### A block of text on one line -/

namespace Escape

/-- One character of a block as it stands on a directive's line. -/
def encodeChar (c : Char) : Text :=
  match c with
  | '\\' => ['\\', '\\']
  | '"' => ['\\', '"']
  | '\n' => ['\\', 'n']
  | '\r' => ['\\', 'r']
  | _ => [c]

/-- A block as it stands on a directive's line. What comes out has no line feed, no carriage
return, and no quote without a backslash before it. -/
def encode (block : Text) : Text := block.flatMap encodeChar

/-- The character that a letter after a backslash stands for; an unknown
letter stands for itself and the backslash. -/
def decodeLetter (c : Char) : Text :=
  match c with
  | '\\' => ['\\']
  | '"' => ['"']
  | 'n' => ['\n']
  | 'r' => ['\r']
  | _ => ['\\', c]

/-- The block that stands on a directive's line. A backslash and the character behind it are read
together, so that an escaped backslash escapes nothing. -/
def decode : Text → Text
  | '\\' :: c :: rest => decodeLetter c ++ decode rest
  | c :: rest => c :: decode rest
  | [] => []

theorem decode_cons {c : Char} (h : c ≠ '\\') (rest : Text) :
    decode (c :: rest) = c :: decode rest := by
  rw [decode.eq_def]
  split
  · rename_i heq
    exact absurd (List.cons.inj heq).1 h
  · rename_i heq
    obtain ⟨rfl, rfl⟩ := List.cons.inj heq
    rfl
  · rename_i heq
    cases heq

/-- **A block is read back from its directive as it was written there.** -/
theorem decode_encode (block : Text) : decode (encode block) = block := by
  -- An escape is read as one step of `decode`; a character that is not escaped is no backslash,
  -- and passes by itself.
  induction block with
  | nil => rfl
  | cons c block ih =>
    have hcons : encode (c :: block) = encodeChar c ++ encode block := List.flatMap_cons
    rw [hcons]
    unfold encodeChar
    split
    · simp [decode, decodeLetter, ih]
    · simp [decode, decodeLetter, ih]
    · simp [decode, decodeLetter, ih]
    · simp [decode, decodeLetter, ih]
    · rename_i h _ _ _
      rw [List.singleton_append, decode_cons h, ih]

end Escape

/-! ### Directives -/

inductive Directive where
  /-- The comment framing from here on is the text around the token. -/
  | comment (framing : Comment)
  /-- The start of the delimiter around values; empty to unset it. -/
  | delimiterStart (start : Text)
  /-- The stop of the delimiter around values; empty to unset it. -/
  | delimiterStop (stop : Text)
  /-- Both sides of the delimiter around values. -/
  | delimiterPair (delimiter : Delimiter)
  /-- The text that each entry of the list after it is rendered from. -/
  | listTemplate (block : Text)
  deriving DecidableEq

namespace Directive

/-- The token of the comment directive. -/
def commentToken : Text := "\x7b@template.comment\x7d\x7d".toList

/-- What every configuration directive begins with. -/
def templateMarker : Text := "\x7b@template.".toList

/-- What every list template begins with. -/
def listMarker : Text := "\x7b@list-template".toList

/-- What a delimiter directive begins with. -/
def delimiterOpening : Text := "\x7b@template.delimiter.".toList

/-- What the text of a list template comes after. -/
def listOpening : Text := "\x7b@list-template=\"".toList

/-- The escaped text up to the quote that closes it, when closing braces follow the quote. A quote
behind a backslash does not close, and a backslash at the end of a line escapes nothing. -/
def escapedText? : Text → Option Text
  | [] => none
  | '"' :: rest => (Text.after? Sign.closing rest).map fun _ => []
  | '\\' :: '\n' :: _ => none
  | '\\' :: c :: rest => (escapedText? rest).map fun text => '\\' :: c :: text
  | ['\\'] => none
  | c :: rest => (escapedText? rest).map (c :: ·)

/-- The block of the first well-formed list template on a line. An opening with no well-formed
text behind it is passed over, and the search goes on behind its first character. -/
def findList? : Text → Option Text
  | [] => none
  | c :: text =>
    match (Text.after? listOpening (c :: text)).bind escapedText? with
    | some escaped => some (Escape.decode escaped)
    | none => findList? text

/-- The side or sides that a delimiter directive sets. -/
inductive Side where
  | start | stop | pair
  deriving DecidableEq

/-- The word for a side, and what follows it up to the opening quote. -/
def readSide? (text : Text) : Option (Side × Text) :=
  match Text.after? "start:\"".toList text with
  | some rest => some (.start, rest)
  | none =>
    match Text.after? "end:\"".toList text with
    | some rest => some (.stop, rest)
    | none => (Text.after? "pair:\"".toList text).map fun rest => (.pair, rest)

/-- The delimiter directive that a text begins with: its side and its value, which is all up to
the first quote with closing braces and may hold quotes by themselves. -/
def readDelimiter? (text : Text) : Option (Side × Text) := do
  let rest ← Text.after? delimiterOpening text
  let (side, quoted) ← readSide? rest
  let (value, _) ← Text.cut? Sign.patternClosing quoted
  return (side, ← FieldSpec.oneLine? value)

/-- The first well-formed delimiter directive on a line. As with list templates, one that is not
well formed does not end the search. -/
def findDelimiter? : Text → Option (Side × Text)
  | [] => none
  | c :: text =>
    match readDelimiter? (c :: text) with
    | some found => some found
    | none => findDelimiter? text

/-- The directive of a delimiter's side, which stands on the given line. Only a pair can be wrong,
when it is not two characters long. -/
def ofSide (line : Nat) (content : Text) : Side → Text → Except Error Directive
  | .start, value => .ok (.delimiterStart value)
  | .stop, value => .ok (.delimiterStop value)
  | .pair, value =>
    match Delimiter.ofPair value with
    | .ok delimiter => .ok (.delimiterPair delimiter)
    | .error _ => .error (.grammar line (.misfit (.pairLength value)) (some content))

/-- The directive on a line, given without its line end, if there is one. The kinds are tried in a
fixed order, so that a list template may hold the text of any other directive. -/
def find (line : Nat) (content : Text) : Except Error (Option Directive) :=
  match findList? content with
  | some block => .ok (some (.listTemplate block))
  | none =>
    match Text.cut? commentToken content with
    | some (start, stop) => .ok (some (.comment ⟨start, stop⟩))
    | none =>
      match findDelimiter? content with
      | some (side, value) => (ofSide line content side value).map some
      | none =>
        if Text.has templateMarker content || Text.has listMarker content then
          .error (.grammar line .unknownDirective (some content))
        else
          .ok none

/-- The hidden line that keeps a block as a list template. The block stands on it in its escaped
form, since a directive is one line. -/
def listLine (comment : Comment) (block : Text) : Text :=
  comment.wrap (listOpening ++ Escape.encode block ++ Sign.patternClosing)

end Directive

end FieldedText
