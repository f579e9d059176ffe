/-
FieldedText/Text/Search.lean

Text as a list of characters, and the search for a literal mark in it.

A position in a text is never a number here: to find something is to cut the
text in two, and what a search returns are the pieces.  Nothing can then fall
between characters or outside the text, and every search comes with one law
that says how its pieces make up the text again (`after?_eq_some_iff`,
`before?_eq_some_iff`, `cut?_append`).
-/

namespace FieldedText

/-- A text: its characters, first to last. -/
abbrev Text := List Char

/-- A name: of a field, of a key, of a type. -/
abbrev Name := Text

namespace Text

/-! ### Marks at the ends of a text -/

/-- What follows `mark` in a text that begins with it. -/
def after? : Text → Text → Option Text
  | [], text => some text
  | _ :: _, [] => none
  | m :: mark, c :: text => if m = c then after? mark text else none

theorem after?_eq_some_iff {mark text rest : Text} :
    after? mark text = some rest ↔ text = mark ++ rest := by
  induction mark generalizing text with
  | nil => simp [after?]
  | cons m mark ih =>
    cases text with
    | nil => simp [after?]
    | cons c text =>
      by_cases h : m = c
      · simp [after?, h, ih]
      · simp [after?, h, Ne.symm h]

@[simp] theorem after?_append (mark rest : Text) : after? mark (mark ++ rest) = some rest :=
  after?_eq_some_iff.2 rfl

/-- What comes before `mark` in a text that ends with it: the same search on the reversed texts,
so that its law follows from that of `after?`. -/
def before? (mark text : Text) : Option Text :=
  (after? mark.reverse text.reverse).map List.reverse

theorem before?_eq_some_iff {mark text rest : Text} :
    before? mark text = some rest ↔ text = rest ++ mark := by
  simp only [before?, Option.map_eq_some_iff, after?_eq_some_iff]
  constructor
  · rintro ⟨r, h, rfl⟩
    have := congrArg List.reverse h
    simpa using this
  · rintro rfl
    exact ⟨rest.reverse, by simp, by simp⟩

/-! ### The first occurrence of a mark -/

/-- The text before and the text after the first occurrence of `mark`. The empty mark occurs at
the beginning of every text, the empty one included. -/
def cut? (mark : Text) : Text → Option (Text × Text)
  | [] => (after? mark []).map fun rest => ([], rest)
  | c :: text =>
    match after? mark (c :: text) with
    | some rest => some ([], rest)
    | none => (cut? mark text).map fun (head, rest) => (c :: head, rest)

theorem cut?_append {mark text head rest : Text} (h : cut? mark text = some (head, rest)) :
    text = head ++ mark ++ rest := by
  -- By induction on the text that is searched: either the mark stands right here, or the head
  -- gets the character that was passed over.
  induction text generalizing head with
  | nil =>
    simp only [cut?, Option.map_eq_some_iff, Prod.mk.injEq, after?_eq_some_iff] at h
    obtain ⟨r, h, rfl, rfl⟩ := h
    simpa using h
  | cons c text ih =>
    rw [cut?] at h
    split at h
    · rename_i r hr
      simp only [Option.some.injEq, Prod.mk.injEq] at h
      obtain ⟨rfl, rfl⟩ := h
      simpa using after?_eq_some_iff.1 hr
    · simp only [Option.map_eq_some_iff, Prod.mk.injEq] at h
      obtain ⟨⟨u, v⟩, hu, rfl, rfl⟩ := h
      simpa using ih hu

/-- Whether `mark` occurs somewhere in the text. -/
def has (mark text : Text) : Bool := (cut? mark text).isSome

/-! ### Pieces between single characters -/

/-- The pieces of a text between the occurrences of a character; there is
always at least one. -/
def splitOn (mark : Char) : Text → List Text
  | [] => [[]]
  | c :: text =>
    if c = mark then [] :: splitOn mark text
    else
      match splitOn mark text with
      | [] => [[c]]
      | piece :: pieces => (c :: piece) :: pieces

/-- The pieces with a separator between each two. No separator stands before the first piece or
behind the last one. -/
def join (separator : Text) (pieces : List Text) : Text :=
  (pieces.intersperse separator).flatten

theorem splitOn_ne_nil (mark : Char) (text : Text) : splitOn mark text ≠ [] := by
  cases text with
  | nil => simp [splitOn]
  | cons c text =>
    rw [splitOn]
    split
    · simp
    · split <;> simp

/-- Nothing is lost by splitting: the pieces joined by the character are the text. -/
theorem join_splitOn (mark : Char) (text : Text) : join [mark] (splitOn mark text) = text := by
  -- The first piece takes the characters up to the mark, so the list of pieces is never empty,
  -- and a new first piece is joined to the others by the mark.
  induction text with
  | nil => rfl
  | cons c text ih =>
    rw [splitOn]
    by_cases h : c = mark
    · cases hs : splitOn mark text with
      | nil => exact absurd hs (splitOn_ne_nil mark text)
      | cons p ps =>
        rw [hs] at ih
        simpa [h, join] using ih
    · cases hs : splitOn mark text with
      | nil => exact absurd hs (splitOn_ne_nil mark text)
      | cons p ps =>
        rw [hs] at ih
        cases ps with
        | nil => simpa [h, join] using ih
        | cons q qs => simpa [h, join] using ih

/-! ### Characters at the end -/

/-- The text without the characters at its end that satisfy `p`, as many as there are. -/
def trimEndBy (p : Char → Bool) (text : Text) : Text :=
  (text.reverse.dropWhile p).reverse

/-- The part of a text after its last occurrence of a character; all of it
when there is none. -/
def afterLast (mark : Char) (text : Text) : Text :=
  (text.reverse.takeWhile (· != mark)).reverse

/-! ### Size -/

/-- The number of bytes of a text in UTF-8. Only limits on sizes and the programs with checked
accesses count in bytes. -/
def byteLength (text : Text) : Nat := text.foldl (fun size c => size + c.utf8Size) 0

end Text

end FieldedText
