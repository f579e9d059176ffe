/-
FieldedText/Proofs/Grammar.lean

The grammar of headers, and that it is what is read.

A token is a name between braces, or a name with a pattern (`HeaderToken`); a
header is a run of tokens with white space before, between and after them
(`HeaderText`).  Both are texts that can be written down, and both carry what
must hold of their parts: that the start of a delimiter does not hold the marker,
and the stop not what closes a pattern, so that each of them ends where it is
seen to end.

A text is read as a header exactly when it is one (`ofHeader_eq_ok_iff`), it is
one in one way only (`HeaderText.text_injective`), and any other text is
complained about (`ofHeader_eq_error_iff`).
-/
import Mathlib.Logic.Function.Basic
import FieldedText.Markup.FieldSpec
import FieldedText.Proofs.Lines

namespace FieldedText

namespace FieldSpec

variable {n k : Nat} {t rest : Text} {spec : FieldSpec} {specs : List FieldSpec}

/-! ### Names -/

/-- A name that a token can hold: not empty, and made of characters of names. No such character
ends a token or begins a pattern. -/
def IsName (name : Name) : Prop := name ≠ [] ∧ ∀ c ∈ name, isNameChar c = true

theorem isSpace_eq_false_of_isNameChar {c : Char} (h : isNameChar c = true) :
    Text.isSpace c = false := by
  simp only [isNameChar, Bool.and_eq_true, Bool.not_eq_true'] at h
  exact h.2

theorem IsName.not_mem {name : Name} (h : IsName name) {c : Char} (hc : isNameChar c = false) :
    c ∉ name := by
  intro hmem
  rw [h.2 c hmem] at hc
  cases hc

theorem readName?_eq (t : Text) :
    readName? t = if t.takeWhile isNameChar = [] then none
      else some (t.takeWhile isNameChar, t.dropWhile isNameChar) := by
  unfold readName?
  cases t.takeWhile isNameChar <;> rfl

/-- A name is read up to the first character that is not one of names. -/
theorem readName?_append {name : Name} (h : IsName name) {c : Char} (hc : isNameChar c = false)
    (rest : Text) : readName? (name ++ c :: rest) = some (name, c :: rest) := by
  have htake : (name ++ c :: rest).takeWhile isNameChar = name := by
    rw [List.takeWhile_append_of_pos h.2, List.takeWhile_cons_of_neg (by simp [hc]),
      List.append_nil]
  have hdrop : (name ++ c :: rest).dropWhile isNameChar = c :: rest := by
    rw [List.dropWhile_append_of_pos h.2, List.dropWhile_cons_of_neg (by simp [hc])]
  rw [readName?_eq, htake, hdrop, if_neg h.1]

/-- What is read is a name, and the text begins with it. -/
theorem of_readName? {name : Name} (h : readName? t = some (name, rest)) :
    IsName name ∧ t = name ++ rest := by
  rw [readName?_eq] at h
  split at h
  · cases h
  · rename_i hne
    simp only [Option.some.injEq, Prod.mk.injEq] at h
    obtain ⟨rfl, rfl⟩ := h
    exact ⟨⟨hne, List.all_eq_true.1 List.all_takeWhile⟩, List.takeWhile_append_dropWhile.symm⟩

/-! ### Tokens -/

/-- A spec that has a token: its name is one, and its delimiter is within a line. -/
structure Writable (spec : FieldSpec) : Prop where
  isName : IsName spec.name
  start : '\n' ∉ spec.delimiter.start
  stop : '\n' ∉ spec.delimiter.stop

/-- A spec whose token is read as it was written: the marker comes after the start, and the stop
is over where the token is closed. The start may end with a part of the marker all the same. -/
structure Readable (spec : FieldSpec) : Prop where
  start : ¬ Sign.marker <:+: spec.delimiter.start
  stop : ¬ Sign.patternClosing <:+: spec.delimiter.stop

theorem isSet_eq_false_iff {delimiter : Delimiter} :
    delimiter.isSet = false ↔ delimiter = .unset := by
  obtain ⟨start, stop⟩ := delimiter
  simp [Delimiter.isSet, Delimiter.unset]

theorem oneLine?_eq_some_iff {u : Text} : oneLine? t = some u ↔ '\n' ∉ t ∧ u = t := by
  unfold oneLine?
  split
  · simp_all
  · simp_all [eq_comm]

theorem token_of_isSet (h : spec.delimiter.isSet = true) :
    spec.token = Sign.opening ++ spec.name ++ Sign.pattern ++ spec.delimiter.start ++
      Sign.marker ++ spec.delimiter.stop ++ Sign.patternClosing := by
  rw [token, if_pos h]

theorem token_of_not_isSet (h : spec.delimiter.isSet = false) :
    spec.token = Sign.opening ++ spec.name ++ Sign.closing := by
  rw [token, if_neg (by simp [h])]

/-- Every token is something between braces. -/
theorem token_eq (spec : FieldSpec) :
    ∃ inner, spec.token = Sign.opening ++ inner ++ Sign.closing := by
  cases h : spec.delimiter.isSet with
  | true =>
    refine ⟨spec.name ++ Sign.pattern ++ spec.delimiter.start ++ Sign.marker ++
      spec.delimiter.stop ++ ['"'], ?_⟩
    simp [token_of_isSet h, Sign.closing, Sign.patternClosing]
  | false => exact ⟨spec.name, token_of_not_isSet h⟩

/-- A bare name between braces is read back, whatever follows it. -/
theorem read?_bare {name : Name} (h : IsName name) (rest : Text) :
    read? (Sign.opening ++ name ++ Sign.closing ++ rest) = some (⟨name, .unset⟩, rest) := by
  -- the name is followed by the closing at once
  have hname : readName? (name ++ '}' :: ('}' :: rest)) = some (name, '}' :: ('}' :: rest)) :=
    readName?_append h (by decide) _
  have hclose : Text.after? Sign.closing ('}' :: ('}' :: rest)) = some rest :=
    Text.after?_append Sign.closing rest
  rw [List.append_assoc, List.append_assoc]
  simp only [read?, Text.after?_append, Option.bind_eq_bind, Option.bind_some]
  rw [show Sign.closing ++ rest = '}' :: ('}' :: rest) from rfl, hname]
  simp only [Option.bind_some, hclose]
  rfl

/-- The token of a spec with its pattern, which a spec without a delimiter may be written with as
well. So a spec may have two tokens, and a token has one spec. -/
def framedToken (spec : FieldSpec) : Text :=
  Sign.opening ++ spec.name ++ Sign.pattern ++ spec.delimiter.start ++ Sign.marker ++
    spec.delimiter.stop ++ Sign.patternClosing

/-- A bare name is closed where a pattern begins. -/
theorem framedToken_ne_bare (spec : FieldSpec) :
    spec.framedToken ≠ Sign.opening ++ spec.name ++ Sign.closing := by
  intro h
  simp only [framedToken, List.append_assoc] at h
  have hclosing := List.append_cancel_left (List.append_cancel_left h)
  cases (List.cons.inj hclosing).1

theorem framedToken_append (spec : FieldSpec) (rest : Text) :
    spec.framedToken ++ rest = Sign.opening ++ (spec.name ++ (Sign.pattern ++
      (spec.delimiter.start ++ Sign.marker ++
        (spec.delimiter.stop ++ Sign.patternClosing ++ rest)))) := by
  simp only [framedToken, List.append_assoc]

theorem readName?_append_pattern {name : Name} (h : IsName name) (rest : Text) :
    readName? (name ++ (Sign.pattern ++ rest)) = some (name, Sign.pattern ++ rest) := by
  have hpattern : Sign.pattern = ':' :: Sign.pattern.tail := by decide
  rw [hpattern]
  exact readName?_append h (by decide) _

/-- A name with a pattern is read back, whatever follows it. -/
theorem read?_framedToken (hw : Writable spec) (hr : Readable spec) (rest : Text) :
    read? (spec.framedToken ++ rest) = some (spec, rest) := by
  obtain ⟨name, start, stop⟩ := spec
  -- the start ends at the first marker, the stop at the first closing
  have hclose (u : Text) : Text.after? Sign.closing (Sign.pattern ++ u) = none := rfl
  have hstart : Text.cut? Sign.marker (start ++ Sign.marker ++
      (stop ++ Sign.patternClosing ++ rest)) = some (start, stop ++ Sign.patternClosing ++ rest) :=
    Text.cut?_append_mark (by decide) hr.start
  have hstop : Text.cut? Sign.patternClosing (stop ++ Sign.patternClosing ++ rest) =
      some (stop, rest) :=
    Text.cut?_append_mark (by decide) hr.stop
  rw [framedToken_append]
  simp only [read?, Text.after?_append, Option.bind_eq_bind, Option.bind_some,
    readName?_append_pattern hw.isName, hclose, hstart, hstop,
    oneLine?_eq_some_iff.2 ⟨hw.start, rfl⟩, oneLine?_eq_some_iff.2 ⟨hw.stop, rfl⟩]
  rfl

/-- **A token is read back, whatever follows it.** -/
theorem read?_token (hw : Writable spec) (hr : Readable spec) (rest : Text) :
    read? (spec.token ++ rest) = some (spec, rest) := by
  cases hset : spec.delimiter.isSet with
  | false =>
    obtain ⟨name, delimiter⟩ := spec
    have hunset : delimiter = .unset := isSet_eq_false_iff.1 hset
    subst hunset
    rw [token_of_not_isSet hset]
    exact read?_bare hw.isName rest
  | true =>
    rw [token_of_isSet hset]
    exact read?_framedToken hw hr rest

end FieldSpec

/-! ### What is read -/

/-- A token that can stand in a header: a name by itself, or one with a pattern, of which the
sides are on one line and do not hold the marks that end them. What must hold of the parts is part
of the token, so that there is no token that is not one. -/
inductive HeaderToken where
  | bare (name : Name) (isName : FieldSpec.IsName name)
  | framed (spec : FieldSpec) (writable : spec.Writable) (readable : spec.Readable)

namespace HeaderToken

/-- The token as it is written. -/
def text : HeaderToken → Text
  | bare name _ => Sign.opening ++ name ++ Sign.closing
  | framed spec _ _ => spec.framedToken

/-- The spec that a token is for. -/
def spec : HeaderToken → FieldSpec
  | bare name _ => ⟨name, .unset⟩
  | framed spec _ _ => spec

variable {t rest : Text} {found : FieldSpec}

theorem writable (token : HeaderToken) : token.spec.Writable := by
  cases token with
  | bare name isName =>
    exact ⟨isName, by simp [spec, Delimiter.unset], by simp [spec, Delimiter.unset]⟩
  | framed spec writable readable => exact writable

theorem readable (token : HeaderToken) : token.spec.Readable := by
  cases token with
  | bare name isName =>
    exact ⟨by simp [spec, Delimiter.unset, Sign.marker],
      by simp [spec, Delimiter.unset, Sign.patternClosing]⟩
  | framed spec writable readable => exact readable

theorem read?_text_append (token : HeaderToken) (rest : Text) :
    FieldSpec.read? (token.text ++ rest) = some (token.spec, rest) := by
  cases token with
  | bare name isName => exact FieldSpec.read?_bare isName rest
  | framed spec writable readable => exact FieldSpec.read?_framedToken writable readable rest

/-- What is read is a token that the text begins with. Each step of the reader has cut the text
once, and the cuts put together are the token. -/
theorem of_read? (h : FieldSpec.read? t = some (found, rest)) :
    ∃ token : HeaderToken, token.spec = found ∧ t = token.text ++ rest := by
  simp only [FieldSpec.read?, Option.bind_eq_bind, Option.bind_eq_some_iff] at h
  obtain ⟨inner, hinner, ⟨name, more⟩, hname, h⟩ := h
  obtain ⟨hisName, hinnerText⟩ := FieldSpec.of_readName? hname
  have hread : t = Sign.opening ++ (name ++ more) := by
    rw [Text.after?_eq_some_iff.1 hinner, hinnerText]
  -- either the name is closed at once, or a pattern follows it
  split at h
  · rename_i last hlast
    cases h
    refine ⟨bare name hisName, rfl, ?_⟩
    have hmore : more = Sign.closing ++ rest := Text.after?_eq_some_iff.1 hlast
    rw [hread, hmore]
    simp [text]
  · simp only [Option.bind_eq_some_iff, FieldSpec.oneLine?_eq_some_iff] at h
    obtain ⟨framed, hframed, ⟨_, last⟩, hstart, ⟨_, after⟩, hstop, start, ⟨hs, rfl⟩, stop,
      ⟨ht, rfl⟩, h⟩ := h
    cases h
    have hmore : more = Sign.pattern ++ framed := Text.after?_eq_some_iff.1 hframed
    have hlast : last = stop ++ Sign.patternClosing ++ after := Text.cut?_append hstop
    have htext : t = FieldSpec.framedToken ⟨name, ⟨start, stop⟩⟩ ++ after := by
      rw [hread, hmore, Text.cut?_append hstart, hlast]
      simp [FieldSpec.framedToken]
    -- both sides were cut at the first mark after them, so neither holds it
    exact ⟨HeaderToken.framed ⟨name, ⟨start, stop⟩⟩ ⟨hisName, hs, ht⟩
      ⟨Text.not_infix_of_cut? (by decide) hstart, Text.not_infix_of_cut? (by decide) hstop⟩,
      rfl, htext⟩

/-- **A spec is read from a text exactly when the text begins with a token of the spec.** -/
theorem read?_eq_some_iff :
    FieldSpec.read? t = some (found, rest) ↔
      ∃ token : HeaderToken, token.spec = found ∧ t = token.text ++ rest := by
  constructor
  · exact of_read?
  · rintro ⟨token, rfl, rfl⟩
    exact token.read?_text_append rest

/-- Every token begins with a brace. -/
theorem text_eq_cons (token : HeaderToken) : ∃ more, token.text = '{' :: more := by
  cases token with
  | bare name isName => exact ⟨'{' :: (name ++ Sign.closing), rfl⟩
  | framed spec writable readable =>
    refine ⟨'{' :: (spec.name ++ Sign.pattern ++ spec.delimiter.start ++ Sign.marker ++
      spec.delimiter.stop ++ Sign.patternClosing), ?_⟩
    simp [text, FieldSpec.framedToken, Sign.opening]

/-- A token that stands by itself is parsed, and as the spec that is read from it in a header. -/
theorem ofToken?_text (token : HeaderToken) : FieldSpec.ofToken? token.text = some token.spec := by
  -- By itself a token is parsed from both of its ends, in a header from its beginning. For a
  -- token of the grammar both find the same sides.
  cases token with
  | bare name isName =>
    have hname : FieldSpec.readName? (name ++ Sign.closing) = some (name, Sign.closing) :=
      FieldSpec.readName?_append isName (by decide) ['}']
    rw [text, List.append_assoc]
    simp only [FieldSpec.ofToken?, Text.after?_append, Option.bind_eq_bind, Option.bind_some, hname]
    rfl
  | framed found writable readable =>
    obtain ⟨name, start, stop⟩ := found
    have hne (u : Text) : Sign.pattern ++ u ≠ Sign.closing := fun h => by
      cases (List.cons.inj h).1
    have hstart : Text.cut? Sign.marker (start ++ Sign.marker ++ (stop ++ Sign.patternClosing)) =
        some (start, stop ++ Sign.patternClosing) :=
      Text.cut?_append_mark (by decide) readable.start
    have hstop : Text.before? Sign.patternClosing (stop ++ Sign.patternClosing) = some stop :=
      Text.before?_eq_some_iff.2 rfl
    have htext := FieldSpec.framedToken_append ⟨name, ⟨start, stop⟩⟩ []
    rw [List.append_nil, List.append_nil] at htext
    rw [text, htext]
    simp only [FieldSpec.ofToken?, Text.after?_append, Option.bind_eq_bind, Option.bind_some,
      FieldSpec.readName?_append_pattern writable.isName, if_neg (hne _), hstart, hstop,
      FieldSpec.oneLine?_eq_some_iff.2 ⟨writable.start, rfl⟩,
      FieldSpec.oneLine?_eq_some_iff.2 ⟨writable.stop, rfl⟩]
    rfl

/-- Two tokens that begin the same text are the same. -/
theorem eq_of_text_append {a b : HeaderToken} {u v : Text} (h : a.text ++ u = b.text ++ v) :
    a = b ∧ u = v := by
  -- Both are read from one text, so that they have one spec and leave one rest; and of the two
  -- tokens that a spec may have only one is this long.
  have hread : some (a.spec, u) = some (b.spec, v) := by
    rw [← a.read?_text_append u, h, b.read?_text_append v]
  obtain ⟨hspec, rfl⟩ := Prod.mk.inj (Option.some.inj hread)
  have htext : a.text = b.text := List.append_cancel_right h
  refine ⟨?_, rfl⟩
  cases a with
  | bare name isName =>
    cases b with
    | bare name' isName' => simpa [spec] using hspec
    | framed spec' writable readable =>
      subst hspec
      exact absurd htext.symm (FieldSpec.framedToken_ne_bare _)
  | framed spec' writable readable =>
    cases b with
    | bare name isName =>
      subst hspec
      exact absurd htext (FieldSpec.framedToken_ne_bare _)
    | framed spec'' writable' readable' => simpa [spec] using hspec

end HeaderToken

namespace FieldSpec

variable {n k : Nat} {t rest : Text} {spec : FieldSpec} {specs : List FieldSpec}

/-- What is read begins with a brace, and what follows it is an end of the text. -/
theorem eq_append_of_read? (h : read? t = some (spec, rest)) :
    ∃ read, t = '{' :: (read ++ rest) := by
  obtain ⟨token, -, rfl⟩ := HeaderToken.of_read? h
  obtain ⟨more, hmore⟩ := token.text_eq_cons
  exact ⟨more, by rw [hmore, List.cons_append]⟩

/-! ### Headers -/

theorem scanHeader_eq_drop (n passed : Nat) (t : Text) :
    scanHeader n passed t = scanHeader n 0 (t.drop passed) := by
  induction t generalizing passed with
  | nil => cases passed <;> simp [scanHeader]
  | cons c t ih =>
    cases passed with
    | zero => rfl
    | succ passed => rw [scanHeader, ih, List.drop_succ_cons]

theorem scanHeader_append_of_space {ws : Text} (hws : ∀ c ∈ ws, Text.isSpace c = true)
    (t : Text) : scanHeader n 0 (ws ++ t) = scanHeader n 0 t := by
  induction ws with
  | nil => rfl
  | cons c ws ih =>
    rw [List.cons_append, scanHeader, if_pos (hws c (List.mem_cons_self ..))]
    exact ih fun d hd => hws d (List.mem_cons_of_mem c hd)

theorem scanHeader_of_space {ws : Text} (hws : ∀ c ∈ ws, Text.isSpace c = true) :
    scanHeader n 0 ws = .ok [] := by
  have h := scanHeader_append_of_space (n := n) hws []
  rw [List.append_nil] at h
  rw [h, scanHeader]

/-- A header that begins with a token is that token's spec and the header after it. -/
theorem scanHeader_of_read? (h : read? t = some (spec, rest)) :
    scanHeader n 0 t = (scanHeader n 0 rest).map (spec :: ·) := by
  obtain ⟨read, rfl⟩ := eq_append_of_read? h
  rw [scanHeader, if_neg (by decide), h]
  simp only [List.length_append, Nat.add_sub_cancel]
  rw [scanHeader_eq_drop, List.drop_left]

end FieldSpec

/-- White space, or nothing. -/
abbrev Space := { ws : Text // ∀ c ∈ ws, Text.isSpace c = true }

/-- A text that can stand in the frame of a header: tokens with white space before each of them
and behind the last. White space may be missing, also between two tokens. -/
inductive HeaderText where
  | last (ws : Space)
  | token (ws : Space) (first : HeaderToken) (more : HeaderText)

namespace HeaderText

open FieldSpec (ofHeader)

/-- The text as it is written. -/
def text : HeaderText → Text
  | last ws => ws.1
  | token ws first more => ws.1 ++ (first.text ++ more.text)

/-- The specs of the tokens, in their order. -/
def specs : HeaderText → List FieldSpec
  | last _ => []
  | token _ first more => first.spec :: more.specs

variable {n : Nat} {t u v : Text} {found : List FieldSpec}

theorem writable_readable_of_mem {spec : FieldSpec} {header : HeaderText}
    (h : spec ∈ header.specs) : spec.Writable ∧ spec.Readable := by
  induction header with
  | last ws => cases h
  | token ws first more ih =>
    rcases List.mem_cons.1 h with rfl | h
    · exact ⟨first.writable, first.readable⟩
    · exact ih h

/-- Every header is read, on every line. -/
theorem ofHeader_text (header : HeaderText) (n : Nat) :
    ofHeader n header.text = .ok header.specs := by
  induction header with
  | last ws => exact FieldSpec.scanHeader_of_space ws.2
  | token ws first more ih =>
    rw [ofHeader] at ih ⊢
    rw [text, FieldSpec.scanHeader_append_of_space ws.2,
      FieldSpec.scanHeader_of_read? (first.read?_text_append _), ih]
    rfl

/-- What is no header is complained about. Together with `ofHeader_text` this says that the two
outcomes are those of the grammar. -/
theorem exists_or_complaint (n : Nat) (t : Text) :
    (∃ header : HeaderText, header.text = t) ∨
      ∃ context, ofHeader n t = .error (.grammar n .malformedField (some context)) := by
  -- By strong induction on the length: white space and one token are taken off, and what follows
  -- is a header or is complained about. The token is not empty, and so the rest is shorter.
  induction hlen : t.length using Nat.strongRecOn generalizing t with
  | ind k ih =>
    obtain ⟨ws, hspace, hsplit, hhead⟩ := Text.trimStart_split t
    have hscan : ofHeader n t = FieldSpec.scanHeader n 0 (Text.trimStart t) := by
      conv => lhs; rw [hsplit, ofHeader, FieldSpec.scanHeader_append_of_space hspace]
    cases hrest : Text.trimStart t with
    | nil =>
      rw [hrest, List.append_nil] at hsplit
      exact .inl ⟨last ⟨ws, hspace⟩, hsplit.symm⟩
    | cons c rest =>
      have hc : Text.isSpace c = false := hhead c (by rw [hrest]; rfl)
      cases hread : FieldSpec.read? (c :: rest) with
      | none =>
        refine .inr ⟨FieldSpec.suspect (c :: rest), ?_⟩
        rw [hscan, hrest, FieldSpec.scanHeader, if_neg (by simp [hc]), hread]
      | some result =>
        obtain ⟨spec, after⟩ := result
        obtain ⟨first, -, htext⟩ := HeaderToken.of_read? hread
        obtain ⟨more, hmore⟩ := first.text_eq_cons
        have hless : after.length < k := by
          rw [← hlen, hsplit, hrest, htext, hmore]
          simp only [List.length_append, List.length_cons]
          omega
        rcases ih after.length hless after rfl with ⟨header, rfl⟩ | ⟨context, hcontext⟩
        · refine .inl ⟨token ⟨ws, hspace⟩ first header, ?_⟩
          rw [text, ← htext, ← hrest, ← hsplit]
        · rw [ofHeader] at hcontext
          refine .inr ⟨context, ?_⟩
          rw [hscan, hrest, FieldSpec.scanHeader_of_read? hread, hcontext]
          rfl

/-- **A text is read as a header exactly when it is one, and its specs are what is read.** -/
theorem ofHeader_eq_ok_iff :
    ofHeader n t = .ok found ↔ ∃ header : HeaderText, header.text = t ∧ header.specs = found := by
  constructor
  · intro h
    rcases exists_or_complaint n t with ⟨header, rfl⟩ | ⟨context, hcontext⟩
    · rw [ofHeader_text, Except.ok.injEq] at h
      exact ⟨header, rfl, h⟩
    · rw [hcontext] at h
      cases h
  · rintro ⟨header, rfl, rfl⟩
    exact header.ofHeader_text n

/-- **Any other text is complained about, and the complaint names its line.** There is no other
error that reading a header ends with. -/
theorem ofHeader_eq_error_iff :
    (∃ context, ofHeader n t = .error (.grammar n .malformedField (some context))) ↔
      ¬ ∃ header : HeaderText, header.text = t := by
  constructor
  · rintro ⟨context, hcontext⟩ ⟨header, rfl⟩
    rw [ofHeader_text] at hcontext
    cases hcontext
  · exact (exists_or_complaint n t).resolve_left

/-! ### One reading -/

theorem space_eq_of_append {ws ws' : Space} (h : ws.1 ++ '{' :: u = ws'.1 ++ '{' :: v) :
    ws = ws' ∧ u = v := by
  have hbrace : ¬ Text.isSpace '{' = true := by decide
  have hspace (ws : Space) (u : Text) : (ws.1 ++ '{' :: u).takeWhile Text.isSpace = ws.1 := by
    rw [List.takeWhile_append_of_pos ws.2, List.takeWhile_cons_of_neg hbrace, List.append_nil]
  have hws : ws.1 = ws'.1 := by rw [← hspace ws u, h, hspace]
  rw [hws] at h
  exact ⟨Subtype.ext hws, (List.cons.inj (List.append_cancel_left h)).2⟩

/-- A header is one in one way: its white space ends where a token begins, and a token is the one
that is read. -/
theorem text_injective : Function.Injective text := by
  intro a b h
  -- By induction on the first header: where it has a token the other has one too, or a brace
  -- would be white space, and the two tokens are the same.
  induction a generalizing b with
  | last ws =>
    cases b with
    | last ws' => exact congrArg last (Subtype.ext h)
    | token ws' first more =>
      obtain ⟨rest, hrest⟩ := first.text_eq_cons
      have hmem : '{' ∈ (last ws).text := by
        rw [h, text, hrest]
        simp
      exact absurd (ws.2 '{' hmem) (by decide)
  | token ws first more ih =>
    obtain ⟨rest, hrest⟩ := first.text_eq_cons
    cases b with
    | last ws' =>
      have hmem : '{' ∈ (last ws').text := by
        rw [← h, text, hrest]
        simp
      exact absurd (ws'.2 '{' hmem) (by decide)
    | token ws' first' more' =>
      obtain ⟨rest', hrest'⟩ := first'.text_eq_cons
      rw [text, text, hrest, hrest', List.cons_append, List.cons_append] at h
      obtain ⟨rfl, htail⟩ := space_eq_of_append h
      have htokens : first.text ++ more.text = first'.text ++ more'.text := by
        rw [hrest, hrest', List.cons_append, List.cons_append, htail]
      obtain ⟨rfl, hmore⟩ := HeaderToken.eq_of_text_append htokens
      rw [ih hmore]

end HeaderText

namespace FieldSpec

variable {n k : Nat} {t : Text} {specs : List FieldSpec}

theorem writable_of_ofHeader (h : ofHeader n t = .ok specs) : ∀ spec ∈ specs, Writable spec := by
  obtain ⟨header, -, rfl⟩ := HeaderText.ofHeader_eq_ok_iff.1 h
  exact fun spec hspec => (HeaderText.writable_readable_of_mem hspec).1

theorem readable_of_ofHeader (h : ofHeader n t = .ok specs) : ∀ spec ∈ specs, Readable spec := by
  obtain ⟨header, -, rfl⟩ := HeaderText.ofHeader_eq_ok_iff.1 h
  exact fun spec hspec => (HeaderText.writable_readable_of_mem hspec).2

/-- The number of a header's line does not matter to its specs. -/
theorem ofHeader_ok_of_ok (h : ofHeader n t = .ok specs) : ofHeader k t = .ok specs :=
  HeaderText.ofHeader_eq_ok_iff.2 (HeaderText.ofHeader_eq_ok_iff.1 h)

end FieldSpec

end FieldedText
