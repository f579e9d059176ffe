/-
FieldedText/Markup/Delimiter.lean

Delimiters, and where they find a value in running text.

A delimiter is a pair of texts that frame a value; either may be empty, and
then that side is unset.  The four shapes search in four ways.

    start  stop    the value
    set    set     between the first start and the first stop after it
    set    -       from the last start on a line to the end of that line
    -      set     from the beginning of a line to the first stop on it
    -      -       the whole text, less its final line end

A search runs through the text that is left, and knows the text that went
before it, since a line may only begin, and the whole text may only be taken,
where nothing or a line feed went before.  What it finds is an `Occurrence`:
the searched text cut into five pieces that make it up again
(`Delimiter.text_of_search?`).
-/
import FieldedText.Error
import FieldedText.Text.Lines

namespace FieldedText

/-- The texts before and after a value; an empty one is unset. Which sides are set decides how a
value is searched for. -/
structure Delimiter where
  start : Text
  stop : Text
  deriving DecidableEq

/-- A searched text, cut where a value was found in it. The five pieces are kept, and not only the
value, so that what was passed over and what is left can be searched and copied. -/
structure Occurrence where
  /-- The text passed over. -/
  skipped : Text
  /-- The text matched before the value. -/
  opening : Text
  value : Text
  /-- The text matched after the value. -/
  closing : Text
  /-- The text that was not searched any more. -/
  rest : Text
  deriving DecidableEq

namespace Occurrence

/-- The text that was searched. -/
def text (found : Occurrence) : Text :=
  found.skipped ++ found.opening ++ found.value ++ found.closing ++ found.rest

/-- The same find, with more text passed over before it. -/
def skip (more : Text) (found : Occurrence) : Occurrence :=
  { found with skipped := more ++ found.skipped }

@[simp] theorem text_skip (more : Text) (found : Occurrence) :
    (found.skip more).text = more ++ found.text := by
  simp [skip, text]

/-! ### Both sides set -/

/-- The text between the first `start` and the first `stop` after it. There is no second try: a
start without a stop behind it finds nothing. -/
def between? (start stop text : Text) : Option Occurrence := do
  let (skipped, inner) ← Text.cut? start text
  let (value, rest) ← Text.cut? stop inner
  return { skipped, opening := start, value, closing := stop, rest }

theorem text_of_between? {start stop t : Text} {found : Occurrence}
    (h : between? start stop t = some found) : found.text = t := by
  simp only [between?, Option.bind_eq_bind, Option.bind_eq_some_iff] at h
  obtain ⟨⟨skipped, inner⟩, h₁, ⟨value, rest⟩, h₂, h₃⟩ := h
  cases h₃
  have hinner : inner = value ++ stop ++ rest := Text.cut?_append h₂
  simp [text, Text.cut?_append h₁, hinner]

/-! ### The rest of a line -/

/-- A line's rest as a value: it holds no carriage return but possibly one at
the end of the line, which is not part of the value. -/
def lineRest? (text : Text) : Option Occurrence :=
  -- the value ends at the first line end, which has to be that of the line
  let value := text.takeWhile fun c => !Text.isLineEnd c
  match text.dropWhile fun c => !Text.isLineEnd c with
  | [] => some ⟨[], [], value, [], []⟩
  | '\n' :: rest => some ⟨[], [], value, [], '\n' :: rest⟩
  | '\r' :: [] => some ⟨[], [], value, ['\r'], []⟩
  | '\r' :: '\n' :: rest => some ⟨[], [], value, ['\r'], '\n' :: rest⟩
  | _ => none

theorem text_of_lineRest? {t : Text} {found : Occurrence} (h : lineRest? t = some found) :
    found.text = t := by
  have split := List.takeWhile_append_dropWhile (p := fun c => !Text.isLineEnd c) (l := t)
  unfold lineRest? at h
  simp only at h
  split at h <;> simp only [Option.some.injEq, reduceCtorEq] at h <;> subst h <;>
    rename_i e <;> rw [e] at split <;> simpa [text] using split

/-- The value after the last `start` on the line that the text begins with. The search goes to the
end of the line first and takes the start that it meets last, so that what is before it counts as
matched. -/
def afterStart? (start : Text) : Text → Option Occurrence
  | [] => none
  | c :: text =>
    match (if c = '\n' then none else afterStart? start text) with
    | some found => some { found with opening := c :: found.opening }
    | none => do
      let inner ← Text.after? start (c :: text)
      let found ← lineRest? inner
      return { found with opening := start }

theorem afterStart?_eq {start t : Text} {found : Occurrence}
    (h : afterStart? start t = some found) : found.skipped = [] ∧ found.text = t := by
  -- By induction on the line. A find further on the line gets one more character before it; a
  -- find right here is the start and the rest of the line.
  induction t generalizing found with
  | nil => simp [afterStart?] at h
  | cons c t ih =>
    rw [afterStart?] at h
    split at h
    · rename_i later hl
      split at hl
      · cases hl
      · have hlater := ih hl
        cases h
        refine ⟨hlater.1, ?_⟩
        have := hlater.2
        simp only [text, hlater.1, List.nil_append] at this ⊢
        simpa using this
    · simp only [Option.bind_eq_bind, Option.bind_eq_some_iff] at h
      obtain ⟨inner, hi, rest, hr, hf⟩ := h
      cases hf
      -- the rest of a line is found without anything passed over or matched before it
      have hs : rest.skipped = [] ∧ rest.opening = [] := by
        unfold lineRest? at hr
        simp only at hr
        split at hr <;> simp only [Option.some.injEq, reduceCtorEq] at hr <;> subst hr <;>
          exact ⟨rfl, rfl⟩
      refine ⟨hs.1, ?_⟩
      have ht := text_of_lineRest? hr
      simp only [text, hs.1, hs.2, List.nil_append] at ht ⊢
      rw [Text.after?_eq_some_iff.1 hi]
      simpa using ht

/-! ### The beginning of a line -/

/-- The text before the first `stop` that begins on the line that the text begins with. Where the
stop begins counts, and it may itself run over the end of the line. -/
def untilStop? (stop : Text) : Text → Option Occurrence
  | [] => (Text.after? stop []).map fun rest => ⟨[], [], [], stop, rest⟩
  | c :: text =>
    match Text.after? stop (c :: text) with
    | some rest => some ⟨[], [], [], stop, rest⟩
    | none =>
      if c = '\n' then none
      else (untilStop? stop text).map fun found => { found with value := c :: found.value }

theorem untilStop?_eq {stop t : Text} {found : Occurrence} (h : untilStop? stop t = some found) :
    found.skipped = [] ∧ found.opening = [] ∧ found.text = t := by
  induction t generalizing found with
  | nil =>
    simp only [untilStop?, Option.map_eq_some_iff, Text.after?_eq_some_iff] at h
    obtain ⟨rest, hr, rfl⟩ := h
    simp [text, hr]
  | cons c t ih =>
    rw [untilStop?] at h
    split at h
    · rename_i rest hr
      cases h
      simp [text, Text.after?_eq_some_iff.1 hr]
    · split at h
      · cases h
      · simp only [Option.map_eq_some_iff] at h
        obtain ⟨later, hl, rfl⟩ := h
        obtain ⟨h₁, h₂, h₃⟩ := ih hl
        refine ⟨h₁, h₂, ?_⟩
        simp only [text, h₁, h₂, List.nil_append] at h₃ ⊢
        simpa using h₃

/-! ### From line to line -/

/-- The first find of `attempt` among the places where a line begins; the place where the text
begins counts as well when `fresh`. The attempts themselves do not move on. -/
def onSomeLine? (attempt : Text → Option Occurrence) : Bool → Text → Option Occurrence
  | fresh, [] => if fresh then attempt [] else none
  | fresh, c :: text =>
    match (if fresh then attempt (c :: text) else none) with
    | some found => some found
    | none => (onSomeLine? attempt (c == '\n') text).map (skip [c])

theorem text_of_onSomeLine? {attempt : Text → Option Occurrence}
    (ha : ∀ {t found}, attempt t = some found → found.text = t) {fresh : Bool} {t : Text}
    {found : Occurrence} (h : onSomeLine? attempt fresh t = some found) : found.text = t := by
  -- What is passed over goes before the five pieces of the find, one character after the other.
  induction t generalizing fresh found with
  | nil =>
    rw [onSomeLine?] at h
    split at h
    · exact ha h
    · cases h
  | cons c t ih =>
    rw [onSomeLine?] at h
    split at h
    · rename_i f hf
      cases h
      split at hf
      · exact ha hf
      · cases hf
    · simp only [Option.map_eq_some_iff] at h
      obtain ⟨f, hf, rfl⟩ := h
      simp [ih hf]

/-! ### The whole text -/

/-- The whole text as a value, less its final line end, which may be a line feed, a carriage
return, or both. -/
def whole (text : Text) : Occurrence :=
  match text.reverse with
  | '\n' :: '\r' :: value => ⟨[], [], value.reverse, ['\r', '\n'], []⟩
  | '\n' :: value => ⟨[], [], value.reverse, ['\n'], []⟩
  | '\r' :: value => ⟨[], [], value.reverse, ['\r'], []⟩
  | _ => ⟨[], [], text, [], []⟩

theorem text_whole (t : Text) : (whole t).text = t := by
  unfold whole
  split <;> rename_i e <;> (try have e := congrArg List.reverse e) <;> simp_all [text]

end Occurrence

namespace Delimiter

/-- The delimiter with neither side set. -/
def unset : Delimiter := ⟨[], []⟩

/-- Whether at least one side is set. -/
def isSet (delimiter : Delimiter) : Bool := delimiter.start ≠ [] || delimiter.stop ≠ []

/-- The delimiter of two characters, the one before and the one after a value. Any other length is
an error, and characters are counted here, not bytes. -/
def ofPair : Text → Except Error Delimiter
  | [start, stop] => .ok ⟨[start], [stop]⟩
  | pair => .error (.argument (.pairLength pair))

/-- Whether a line begins after the text `before`. The beginning of the text is the beginning of a
line. -/
def atLineStart (before : Text) : Bool :=
  match before.getLast? with
  | none => true
  | some c => c == '\n'

/-- The first value that the delimiter frames in `text`, which follows `before`. A delimiter with
a start alone may begin anywhere, since its value only has to end with the line. -/
def search? (delimiter : Delimiter) (before text : Text) : Option Occurrence :=
  match delimiter.start, delimiter.stop with
  | [], [] => if before = [] then some (.whole text) else none
  | start, [] => Occurrence.onSomeLine? (Occurrence.afterStart? start) true text
  | [], stop => Occurrence.onSomeLine? (Occurrence.untilStop? stop) (atLineStart before) text
  | start, stop => Occurrence.between? start stop text

/-- The five pieces of a find are the text that was searched, for each of the four shapes.
Whatever a search does, nothing of the text is lost by it. -/
theorem text_of_search? {delimiter : Delimiter} {before t : Text} {found : Occurrence}
    (h : delimiter.search? before t = some found) : found.text = t := by
  unfold search? at h
  split at h
  · split at h
    · cases h
      exact Occurrence.text_whole t
    · cases h
  · exact Occurrence.text_of_onSomeLine? (fun h => (Occurrence.afterStart?_eq h).2) h
  · exact Occurrence.text_of_onSomeLine? (fun h => (Occurrence.untilStop?_eq h).2.2) h
  · exact Occurrence.text_of_between? h

/-- Where the value begins and ends, as the text up to it, the value, and the text after it. What
was matched after the value is searched again for the next one. -/
def locate? (delimiter : Delimiter) (before text : Text) : Option (Text × Text × Text) :=
  (delimiter.search? before text).map fun found =>
    (found.skipped ++ found.opening, found.value, found.closing ++ found.rest)

theorem locate?_append {delimiter : Delimiter} {before t lead value rest : Text}
    (h : delimiter.locate? before t = some (lead, value, rest)) : lead ++ value ++ rest = t := by
  simp only [locate?, Option.map_eq_some_iff, Prod.mk.injEq] at h
  obtain ⟨found, hf, rfl, rfl, rfl⟩ := h
  simpa [Occurrence.text] using text_of_search? hf

end Delimiter

end FieldedText
