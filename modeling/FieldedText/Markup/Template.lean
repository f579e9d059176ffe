/-
FieldedText/Markup/Template.lean

Placeholders, and a text cut at them.

A placeholder is a name between double braces, with white space allowed around
the name.  The placeholders of a text are found from left to right without
overlap; cutting the text there gives the literal text before each, the
placeholder as it was written, and a tail, and loses nothing
(`Template.text_ofText`).
-/
import FieldedText.Markup.FieldSpec

namespace FieldedText

/-- A placeholder: the name of a field, and how it was written. White space around the name is
part of how it was written only. -/
structure Placeholder where
  token : Text
  name : Name
  deriving DecidableEq

namespace Placeholder

/-- The placeholder of a name, without white space. -/
def ofName (name : Name) : Placeholder := ⟨Sign.opening ++ name ++ Sign.closing, name⟩

/-- The placeholder that a text begins with, and what follows it. The name may not be empty, and
white space within it ends it. -/
def read? (text : Text) : Option (Placeholder × Text) := do
  let inner ← Text.after? Sign.opening text
  let (name, more) ← FieldSpec.readName? (Text.trimStart inner)
  let rest ← Text.after? Sign.closing (Text.trimStart more)
  return (⟨Sign.opening ++ inner.takeWhile Text.isSpace ++ name ++ more.takeWhile Text.isSpace ++
    Sign.closing, name⟩, rest)

theorem eq_append_of_readName? {t name more : Text}
    (h : FieldSpec.readName? t = some (name, more)) : t = name ++ more := by
  unfold FieldSpec.readName? at h
  split at h
  · cases h
  · simp only [Option.some.injEq, Prod.mk.injEq] at h
    obtain ⟨rfl, rfl⟩ := h
    exact (List.takeWhile_append_dropWhile).symm

/-- A placeholder is written at the beginning of the text it is read from. -/
theorem eq_append_of_read? {t rest : Text} {found : Placeholder}
    (h : read? t = some (found, rest)) : t = found.token ++ rest := by
  simp only [read?, Option.bind_eq_bind, Option.bind_eq_some_iff] at h
  obtain ⟨inner, h₁, ⟨name, more⟩, h₂, last, h₃, h₄⟩ := h
  cases h₄
  -- the white space on either side of the name is what trimming takes away
  have hinner : inner = inner.takeWhile Text.isSpace ++ Text.trimStart inner :=
    (List.takeWhile_append_dropWhile).symm
  have hmore : more = more.takeWhile Text.isSpace ++ Text.trimStart more :=
    (List.takeWhile_append_dropWhile).symm
  rw [eq_append_of_readName? h₂] at hinner
  rw [Text.after?_eq_some_iff.1 h₃] at hmore
  rw [Text.after?_eq_some_iff.1 h₁]
  calc Sign.opening ++ inner
      = Sign.opening ++ (inner.takeWhile Text.isSpace ++ (name ++
          (more.takeWhile Text.isSpace ++ (Sign.closing ++ rest)))) := by
        rw [← hmore]
        exact congrArg _ hinner
    _ = _ := by simp

end Placeholder

/-- A placeholder with the literal text before it, back to the one before. -/
structure Hole where
  lead : Text
  placeholder : Placeholder
  deriving DecidableEq

/-- A text cut at its placeholders. The text before a placeholder goes with it, so that only the
tail stands by itself. -/
structure Template where
  holes : List Hole
  tail : Text
  deriving DecidableEq

namespace Template

/-- The text of a hole: what is before the placeholder, and the placeholder. -/
def holeText (hole : Hole) : Text := hole.lead ++ hole.placeholder.token

/-- The text that was cut. -/
def text (template : Template) : Text := template.holes.flatMap holeText ++ template.tail

/-- The names of the placeholders, in order. -/
def names (template : Template) : List Name := template.holes.map fun hole => hole.placeholder.name

/-- The template with a character before it: before the first hole, or in the tail if there is no
hole. -/
def push (c : Char) (template : Template) : Template :=
  match template.holes with
  | [] => { template with tail := c :: template.tail }
  | hole :: holes => { template with holes := { hole with lead := c :: hole.lead } :: holes }

@[simp] theorem text_push (c : Char) (template : Template) :
    (template.push c).text = c :: template.text := by
  unfold push
  split <;> rename_i h <;> simp [text, holeText, h]

/-- The template of a text, after passing over the first `passed` characters,
which belong to a placeholder already read. -/
def scan : Nat → Text → Template
  | _, [] => ⟨[], []⟩
  | passed + 1, _ :: text => scan passed text
  | 0, c :: text =>
    match Placeholder.read? (c :: text) with
    | none => (scan 0 text).push c
    | some (found, rest) =>
      let template := scan (text.length - rest.length) text
      { template with holes := ⟨[], found⟩ :: template.holes }

/-- The template of a text: the text cut at its placeholders. -/
def ofText (text : Text) : Template := scan 0 text

/-- Cutting loses nothing. -/
theorem text_scan (passed : Nat) (t : Text) : (scan passed t).text = t.drop passed := by
  -- By induction on the text, for any number of characters that are passed over.
  induction t generalizing passed with
  | nil => cases passed <;> rfl
  | cons c t ih =>
    cases passed with
    | succ passed => simpa [scan] using ih passed
    | zero =>
      rw [scan]
      split
      · simp [ih]
      -- a placeholder was read here: its token is not empty, so that the scan passes over the
      -- rest of the token and the hypothesis applies behind it
      · rename_i found rest h
        have split := Placeholder.eq_append_of_read? h
        have hlen : (c :: t).length = (found.token ++ rest).length := congrArg _ split
        have htok : found.token ≠ [] := by
          intro e
          have hread := h
          simp only [Placeholder.read?, Option.bind_eq_bind, Option.bind_eq_some_iff] at hread
          obtain ⟨_, _, _, _, _, _, hc⟩ := hread
          cases hc
          simp [Sign.opening] at e
        obtain ⟨d, tok, hd⟩ := List.exists_cons_of_ne_nil htok
        rw [hd, List.cons_append, List.cons.injEq] at split
        obtain ⟨rfl, rfl⟩ := split
        have passed : (tok ++ rest).length - rest.length = tok.length := by simp
        simp only [text, List.flatMap_cons, holeText, List.nil_append, List.append_assoc]
        rw [passed]
        have := ih tok.length
        simp only [text, List.drop_left] at this
        rw [this, hd]
        simp

/-- Cutting a text at its placeholders and putting the pieces together again gives the text. -/
theorem text_ofText (t : Text) : (ofText t).text = t := text_scan 0 t

/-- The template with every name changed, and no white space in its placeholders. The literal text
between them stays as it is. -/
def rename (change : Name → Name) (template : Template) : Template :=
  { template with
    holes := template.holes.map fun hole =>
      { hole with placeholder := .ofName (change hole.placeholder.name) } }

end Template

end FieldedText
