/-
FieldedText/Proofs/Header.lean

Headers: when the line that is written for some specs is read as those specs.

A token pastes the texts of its delimiter as they are.  It is read back when the
start does not hold the marker and the stop does not hold what closes a pattern
(`FieldSpec.Readable`); every spec that is ever read from a header is of this
kind, so the condition is not only enough but needed (`ofHeader_tokens_iff`).

The line is a header line when it is unmarked (`is_header_headerLine_iff`).  Its
framing cannot get in the way of that: white space at the ends of the framing
texts stays in the header and is passed over there (`strip?_wrap`).
-/
import FieldedText.Proofs.Grammar
import FieldedText.Proofs.Line

namespace FieldedText

namespace FieldSpec

variable {n : Nat} {specs : List FieldSpec}

/-! ### Tokens in a row -/

/-- The tokens of some specs with a space between each two. The space is not needed for reading
them, as each token ends where it is closed. -/
def tokens (specs : List FieldSpec) : Text := Text.join [' '] (specs.map token)

theorem tokens_cons_cons (spec next : FieldSpec) (specs : List FieldSpec) :
    tokens (spec :: next :: specs) = spec.token ++ ' ' :: tokens (next :: specs) := by
  simp [tokens, Text.join]

theorem tokens_singleton (spec : FieldSpec) : tokens [spec] = spec.token := by
  simp [tokens, Text.join]

/-- **Written specs are read back from a header exactly when each of them is readable.** One that
is not takes the rest of the header with it, or is cut short. -/
theorem ofHeader_tokens_iff {a b : Text} (ha : ∀ c ∈ a, Text.isSpace c = true)
    (hb : ∀ c ∈ b, Text.isSpace c = true) (hw : ∀ spec ∈ specs, Writable spec) :
    ofHeader n (a ++ tokens specs ++ b) = .ok specs ↔ ∀ spec ∈ specs, Readable spec := by
  constructor
  -- whatever is read from a header is readable, these specs as well
  · exact readable_of_ofHeader
  · intro hr
    rw [ofHeader, List.append_assoc, scanHeader_append_of_space ha]
    induction specs with
    | nil => exact scanHeader_of_space hb
    | cons spec specs ih =>
      have hspec : ∀ rest, read? (spec.token ++ rest) = some (spec, rest) :=
        read?_token (hw spec (List.mem_cons_self ..)) (hr spec (List.mem_cons_self ..))
      cases specs with
      | nil =>
        rw [tokens_singleton, scanHeader_of_read? (hspec b), scanHeader_of_space hb]
        rfl
      | cons next specs =>
        have hlater := ih (fun s hs => hw s (List.mem_cons_of_mem spec hs))
          (fun s hs => hr s (List.mem_cons_of_mem spec hs))
        have hspace : ∀ c ∈ [' '], Text.isSpace c = true :=
          List.forall_mem_singleton.2 (by decide)
        rw [tokens_cons_cons, List.append_assoc, scanHeader_of_read? (hspec _), List.cons_append,
          ← List.singleton_append, scanHeader_append_of_space hspace, hlater]
        rfl

/-- The tokens of at least one spec are something between braces. -/
theorem tokens_eq (h : specs ≠ []) :
    ∃ inner, tokens specs = Sign.opening ++ inner ++ Sign.closing := by
  induction specs with
  | nil => exact absurd rfl h
  | cons spec specs ih =>
    obtain ⟨u, hu⟩ := token_eq spec
    cases specs with
    | nil => exact ⟨u, by rw [tokens_singleton, hu]⟩
    | cons next specs =>
      obtain ⟨v, hv⟩ := ih (by simp)
      refine ⟨u ++ Sign.closing ++ ' ' :: Sign.opening ++ v, ?_⟩
      rw [tokens_cons_cons, hu, hv]
      simp

/-- Tokens have no white space around them. -/
theorem trim_tokens (specs : List FieldSpec) : Text.trim (tokens specs) = tokens specs := by
  by_cases h : specs = []
  · rw [h]
    rfl
  · obtain ⟨inner, hinner⟩ := tokens_eq h
    have hopen : Text.isSpace '{' = false := by decide
    have hclose : Text.isSpace '}' = false := by decide
    have hstart : Text.trimStart (tokens specs) = tokens specs := by
      rw [hinner]
      exact Text.trimStart_append_of_not_space hopen [] _
    have hends : tokens specs = Sign.opening ++ inner ++ ['}'] ++ '}' :: [] := by
      rw [hinner]
      simp [Sign.closing]
    rw [Text.trim, hstart, hends, Text.trimEnd_append_of_not_space hclose]
    rfl

theorem Writable.not_mem_token {spec : FieldSpec} (h : Writable spec) : '\n' ∉ spec.token := by
  have hname : '\n' ∉ spec.name := h.isName.not_mem (by decide)
  have hsigns : '\n' ∉ Sign.opening ∧ '\n' ∉ Sign.closing ∧ '\n' ∉ Sign.pattern ∧
      '\n' ∉ Sign.marker ∧ '\n' ∉ Sign.patternClosing := by decide
  cases hset : spec.delimiter.isSet with
  | true =>
    rw [token_of_isSet hset]
    simp only [List.mem_append, not_or]
    exact ⟨⟨⟨⟨⟨⟨hsigns.1, hname⟩, hsigns.2.2.1⟩, h.start⟩, hsigns.2.2.2.1⟩, h.stop⟩,
      hsigns.2.2.2.2⟩
  | false =>
    rw [token_of_not_isSet hset]
    simp only [List.mem_append, not_or]
    exact ⟨⟨hsigns.1, hname⟩, hsigns.2.1⟩

/-- The tokens of specs that have one stand within a line. -/
theorem not_mem_tokens (h : ∀ spec ∈ specs, Writable spec) : '\n' ∉ tokens specs := by
  induction specs with
  | nil => simp [tokens, Text.join]
  | cons spec specs ih =>
    obtain ⟨hspec, hspecs⟩ := List.forall_mem_cons.1 h
    cases specs with
    | nil =>
      rw [tokens_singleton]
      exact hspec.not_mem_token
    | cons next specs =>
      rw [tokens_cons_cons, List.mem_append, List.mem_cons, not_or, not_or]
      exact ⟨hspec.not_mem_token, by decide, ih hspecs⟩

end FieldSpec

/-! ### The frame of a header -/

namespace Comment

/-- The hidden line that is written for some specs. -/
def headerLine (comment : Comment) (specs : List FieldSpec) : Text :=
  comment.wrap (FieldSpec.tokens specs)

/-- A framed text is taken out of its frame trimmed, but with some white space around it. That is
the white space at the inner ends of the framing texts. -/
theorem strip?_wrap (comment : Comment) (inner : Text) :
    ∃ a b, (∀ c ∈ a, Text.isSpace c = true) ∧ (∀ c ∈ b, Text.isSpace c = true) ∧
      comment.strip? (comment.wrap inner) = some (a ++ Text.trim inner ++ b) := by
  obtain ⟨a, ha, haspace⟩ := Text.trim_append comment.start (inner ++ comment.stop)
  obtain ⟨b, hb, hbspace⟩ := Text.trim_append inner comment.stop
  -- the line loses at its ends what the frame that is looked for has lost there
  have htrim : Text.trim (comment.wrap inner) =
      Text.trim comment.start ++ (a ++ Text.trim inner ++ b ++ Text.trim comment.stop) := by
    rw [wrap, Text.trim_append_of_space (List.forall_mem_singleton.2 (by decide)),
      List.append_assoc, ha, hb]
    simp only [List.append_assoc]
  refine ⟨a, b, haspace, hbspace, ?_⟩
  rw [strip?, htrim]
  simp only [Text.after?_append, Option.bind_eq_bind, Option.bind_some]
  exact Text.before?_eq_some_iff.2 rfl

variable {comment : Comment} {specs : List FieldSpec}

/-- A framed line with braces in it is the trimmed frame around them, within white space. -/
theorem isHeader_iff {line : Text} :
    comment.isHeader line = true ↔ ∃ a inner b,
      line = a ++ Text.trim comment.start ++ (inner ++ (Text.trim comment.stop ++ b)) ∧
        (∀ c ∈ a, Text.isSpace c = true) ∧ (∀ c ∈ b, Text.isSpace c = true) ∧
        Sign.opening <:+: inner ∧ Sign.closing <:+: inner := by
  constructor
  -- the line is white space around what it is trimmed to, and that was taken apart at the frame
  · intro h
    obtain ⟨a, b, hline, ha, hb⟩ := Text.exists_eq_trim line
    rw [isHeader] at h
    cases hstrip : comment.strip? line with
    | none =>
      rw [hstrip] at h
      cases h
    | some inner =>
      rw [hstrip] at h
      simp only [Bool.and_eq_true, Text.has_iff] at h
      simp only [strip?, Option.bind_eq_bind, Option.bind_eq_some_iff] at hstrip
      obtain ⟨rest, hrest, hinner⟩ := hstrip
      refine ⟨a, inner, b, ?_, ha, hb, h⟩
      rw [hline, Text.after?_eq_some_iff.1 hrest, Text.before?_eq_some_iff.1 hinner]
      simp only [List.append_assoc]
  -- trimming the line takes the white space around it, and possibly some of what is within the
  -- frame when a side of the frame is empty
  · rintro ⟨a, inner, b, rfl, ha, hb, hopening, hclosing⟩
    generalize hstart : Text.trim comment.start = start
    generalize hstop : Text.trim comment.stop = stop
    obtain ⟨d, hd, -⟩ := Text.trim_append start (inner ++ stop)
    obtain ⟨e, he, -⟩ := Text.trim_append inner stop
    have htrim : Text.trim (a ++ start ++ (inner ++ (stop ++ b))) =
        Text.trim comment.start ++ (d ++ Text.trim inner ++ e ++ Text.trim comment.stop) := by
      calc Text.trim (a ++ start ++ (inner ++ (stop ++ b)))
          = Text.trim (a ++ (start ++ (inner ++ stop)) ++ b) := by
            simp only [List.append_assoc]
        _ = Text.trim (start ++ (inner ++ stop)) := by
            rw [Text.trim_append_of_space hb, Text.trim_space_append ha]
        _ = _ := by
            rw [hd, he, ← hstart, ← hstop, Text.trim_trim, Text.trim_trim]
            simp only [List.append_assoc]
    have hstrip : comment.strip? (a ++ start ++ (inner ++ (stop ++ b))) =
        some (d ++ Text.trim inner ++ e) := by
      rw [strip?, htrim]
      simp only [Text.after?_append, Option.bind_eq_bind, Option.bind_some]
      exact Text.before?_eq_some_iff.2 rfl
    -- the braces can be seen, so they are not trimmed off
    have hin : ∀ {m : Text}, m ≠ [] → m.any Text.isSpace = false → m <:+: inner →
        m <:+: d ++ Text.trim inner ++ e :=
      fun hm hvisible h => ((Text.infix_trim_iff hm hvisible).2 h).trans ⟨d, e, rfl⟩
    rw [isHeader, hstrip]
    simp only [Bool.and_eq_true, Text.has_iff]
    exact ⟨hin (by decide) (by decide) hopening, hin (by decide) (by decide) hclosing⟩

/-- **A header's line is a header line exactly when it is unmarked.** It has braces, from its
tokens, and so only a directive on it could make it something else. -/
theorem is_header_headerLine_iff (h : specs ≠ []) :
    LineKind.Is comment (comment.headerLine specs) .header ↔
      Directive.Unmarked (comment.headerLine specs) := by
  obtain ⟨inner, hinner⟩ := FieldSpec.tokens_eq h
  rw [LineKind.is_header_iff]
  constructor
  · exact fun h => h.2.1
  · intro hu
    obtain ⟨a, b, -, -, hstrip⟩ := comment.strip?_wrap (FieldSpec.tokens specs)
    rw [FieldSpec.trim_tokens, hinner] at hstrip
    refine ⟨?_, hu, ?_⟩
    · rw [headerLine, hinner, wrap, Text.isBlank]
      simp [Sign.opening, Text.isSpace]
    · have hopen : Sign.opening <:+: a ++ (Sign.opening ++ inner ++ Sign.closing) ++ b :=
        ⟨a, inner ++ Sign.closing ++ b, by simp⟩
      have hclose : Sign.closing <:+: a ++ (Sign.opening ++ inner ++ Sign.closing) ++ b :=
        ⟨a ++ Sign.opening ++ inner, b, by simp⟩
      rw [isHeader, headerLine, hinner, hstrip]
      simp only [Text.has_iff.2 hopen, Text.has_iff.2 hclose, Bool.and_self]

/-- **The specs that a header's line was written for are read from it exactly when each of
them is readable.** -/
theorem ofHeader_headerLine_iff {n : Nat} (hw : ∀ spec ∈ specs, FieldSpec.Writable spec) :
    (∃ inner, comment.strip? (comment.headerLine specs) = some inner ∧
      FieldSpec.ofHeader n inner = .ok specs) ↔ ∀ spec ∈ specs, FieldSpec.Readable spec := by
  obtain ⟨a, b, ha, hb, hstrip⟩ := comment.strip?_wrap (FieldSpec.tokens specs)
  rw [headerLine, hstrip, FieldSpec.trim_tokens]
  simp only [Option.some.injEq, exists_eq_left', FieldSpec.ofHeader_tokens_iff ha hb hw]

/-! ### Unmarked headers -/

theorem unmarked_opening_append_iff {name : Name} :
    Directive.Unmarked (Sign.opening ++ name) ↔ Directive.Unmarked ('{' :: name) := by
  constructor
  · intro h
    exact h.of_isInfix (List.suffix_cons '{' _).isInfix
  · intro h m hm hin
    obtain ⟨m', rfl, -, -⟩ := hm.eq_cons
    rw [Sign.opening, List.cons_append, List.cons_append, List.nil_append,
      List.infix_cons_iff] at hin
    rcases hin with hin | hin
    · -- the second brace of the opening is no at sign
      have hbrace := (List.cons_prefix_cons.1 (List.cons_prefix_cons.1 hin).2).1
      cases hbrace
    · exact h _ hm hin

/-- A name is no directive's if it does not begin with an at sign. -/
theorem unmarked_brace_cons {name : Name} (hname : FieldSpec.IsName name)
    (hat : name.head? ≠ some '@') : Directive.Unmarked ('{' :: name) := by
  intro m hm hin
  obtain ⟨m', rfl, -, -⟩ := hm.eq_cons
  rcases List.infix_cons_iff.1 hin with hin | hin
  · obtain ⟨rest, hrest⟩ := (List.cons_prefix_cons.1 hin).2
    rw [← hrest] at hat
    exact hat rfl
  · exact Text.not_infix_of_not_mem (List.mem_cons_self ..) (hname.not_mem (by decide)) hin

/-- **A token has a mark only in its name, at the beginning, and in its pattern.** The signs
between these are in neither mark, and no mark reaches across them. -/
theorem unmarked_token_iff {spec : FieldSpec} :
    Directive.Unmarked spec.token ↔ Directive.Unmarked ('{' :: spec.name) ∧
      Directive.Unmarked spec.delimiter.start ∧ Directive.Unmarked spec.delimiter.stop := by
  -- The token is taken apart at its signs. Without a delimiter there are only the name and the
  -- closing braces.
  cases hset : spec.delimiter.isSet with
  | false =>
    have htoken : spec.token = Sign.opening ++ spec.name ++ '}' :: ['}'] := by
      rw [FieldSpec.token_of_not_isSet hset]
      rfl
    have hnil : Directive.Unmarked [] := Directive.unmarked_of_not_mem (by simp)
    have hclose : Directive.Unmarked ['}'] := Directive.unmarked_of_not_mem (by decide)
    have hunset := FieldSpec.isSet_eq_false_iff.1 hset
    rw [htoken, Directive.unmarked_append_cons_iff (by decide), unmarked_opening_append_iff,
      hunset, Delimiter.unset]
    simp only [hnil, hclose, and_true]
  | true =>
    have hpattern : Sign.pattern = ':' :: ("pattern=".toList ++ ['"']) := by decide
    have hword : Directive.Unmarked "pattern=".toList :=
      Directive.unmarked_of_not_mem (by decide)
    have hclose : Directive.Unmarked ['}', '}'] := Directive.unmarked_of_not_mem (by decide)
    have htoken : spec.token = Sign.opening ++ spec.name ++ ':' :: ("pattern=".toList ++
        '"' :: (spec.delimiter.start ++ '%' :: ('s' :: (spec.delimiter.stop ++
          '"' :: ['}', '}'])))) := by
      rw [FieldSpec.token_of_isSet hset, hpattern]
      simp only [Sign.marker, Sign.patternClosing, List.append_assoc, List.cons_append,
        List.nil_append]
    rw [htoken, Directive.unmarked_append_cons_iff (by decide),
      Directive.unmarked_append_cons_iff (by decide),
      Directive.unmarked_append_cons_iff (by decide), Directive.unmarked_cons_iff (by decide),
      Directive.unmarked_append_cons_iff (by decide), unmarked_opening_append_iff]
    simp only [hword, hclose, true_and, and_true]

theorem unmarked_tokens_iff :
    Directive.Unmarked (FieldSpec.tokens specs) ↔
      ∀ spec ∈ specs, Directive.Unmarked spec.token := by
  induction specs with
  | nil =>
    have hnil : Directive.Unmarked (FieldSpec.tokens []) :=
      Directive.unmarked_of_not_mem (by decide)
    simp [hnil]
  | cons spec specs ih =>
    rw [List.forall_mem_cons, ← ih]
    cases specs with
    | nil =>
      have hnil : Directive.Unmarked (FieldSpec.tokens []) :=
        Directive.unmarked_of_not_mem (by decide)
      rw [FieldSpec.tokens_singleton]
      simp [hnil]
    | cons next specs =>
      rw [FieldSpec.tokens_cons_cons, Directive.unmarked_append_cons_iff (by decide)]

/-- **A header's line has a mark only in its frame and in its tokens.** -/
theorem unmarked_headerLine_iff (h : specs ≠ []) :
    Directive.Unmarked (comment.headerLine specs) ↔ Directive.Unmarked comment.start ∧
      Directive.Unmarked comment.stop ∧ ∀ spec ∈ specs, Directive.Unmarked spec.token := by
  obtain ⟨inner, hinner⟩ := FieldSpec.tokens_eq h
  have htokens : FieldSpec.tokens specs = '{' :: ('{' :: (inner ++ ['}'])) ++ '}' :: [] := by
    rw [hinner]
    simp [Sign.opening, Sign.closing]
  have hline : comment.headerLine specs = comment.start ++
      '{' :: ('{' :: (inner ++ ['}']) ++ '}' :: (comment.stop ++ '\n' :: [])) := by
    rw [headerLine, wrap, htokens]
    simp
  have hnil : Directive.Unmarked [] := Directive.unmarked_of_not_mem (by simp)
  rw [← unmarked_tokens_iff, hline, htokens, Directive.unmarked_append_brace_iff,
    ← List.cons_append, Directive.unmarked_append_cons_iff (by decide),
    Directive.unmarked_append_cons_iff (by decide), Directive.unmarked_append_cons_iff (by decide)]
  simp only [hnil, and_true]
  exact and_congr_right fun _ => and_comm

end Comment

end FieldedText
