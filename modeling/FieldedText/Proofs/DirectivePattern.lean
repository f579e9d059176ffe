/-
FieldedText/Proofs/DirectivePattern.lean

The expressions of directives, and the line that keeps a list template.

A list template and a delimiter directive are each found by an expression; the
searches for them do the same without one (`findList?_eq`, `findDelimiter?_eq`).
The text of a list template is a greedy run of characters and escaped
characters.  Nothing in the run can be a quote that is not escaped, and so the
run can end in one place only, which is what the search goes by.

A block is kept as a list template on one line.  Whatever stands in the block,
the line is one line, and the block is found on it again, under any framing
that does not itself open a list template (`find_listLine_block`).
-/
import FieldedText.Proofs.DelimiterPattern
import FieldedText.Proofs.Line

namespace FieldedText.Directive

open Pattern

variable {b t u v : Text} {kept : List Capture} {c : Cursor}

/-! ### List templates -/

/-- A character that stands for itself in an escaped text. -/
def isBare (c : Char) : Bool := c != '"' && c != '\\'

/-- A character of an escaped text, or two that stand for one. The two ways exclude each other, so
that a run of these has one reading only. -/
def escapedOne : Pattern := either (one isBare) (seq (mark ['\\']) (one onLine))

/-- A list template. -/
def listPattern : Pattern :=
  seq (mark listOpening) (seq (group 1 (many true escapedOne)) (mark Sign.patternClosing))

theorem ends_escapedOne_bare {x : Char} (hx : isBare x = true) (b t : Text)
    (kept : List Capture) :
    escapedOne.ends ⟨b, x :: t, kept⟩ = [⟨b ++ [x], t, kept⟩] := by
  have hslash : x ≠ '\\' := by
    rintro rfl
    cases hx
  simp [escapedOne, ends, hx, Text.after?, Ne.symm hslash, Cursor.pass]

theorem ends_escapedOne_slash (b : Text) (x : Char) (t : Text) (kept : List Capture) :
    escapedOne.ends ⟨b, '\\' :: x :: t, kept⟩ =
      if x = '\n' then [] else [⟨b ++ ['\\', x], t, kept⟩] := by
  by_cases hx : x = '\n' <;> simp [escapedOne, ends, isBare, Text.after?, Cursor.pass, onLine, hx]

/-- Where a list template ends of which the text began at `opened` and ends at the given place, if
a closing quote with its braces follows. -/
def closed? (opened d : Cursor) : Option Cursor :=
  (Text.after? Sign.patternClosing d.rest).map ((d.keep 1 opened).pass Sign.patternClosing)

theorem closed?_eq_none {x : Char} (hx : x ≠ '"') (b t : Text) (kept : List Capture) :
    closed? c ⟨b, x :: t, kept⟩ = none := by
  simp [closed?, Sign.patternClosing, Text.after?, Ne.symm hx]

/-- The run of an escaped text goes up to the quote that closes it, and then the braces follow, or
nothing matches. -/
theorem findSome?_ends_many_escapedOne (opened : Cursor) (b t : Text) (kept : List Capture) :
    ((many true escapedOne).ends ⟨b, t, kept⟩).findSome? (closed? opened) =
      (escapedText? t).map fun text =>
        ⟨b ++ text ++ Sign.patternClosing, t.drop (text.length + Sign.patternClosing.length),
          ⟨1, opened.before, (b ++ text).drop opened.before.length⟩ :: kept⟩ := by
  -- By the cases of the reader. The run takes one more character or escape wherever it can, and
  -- where it cannot it ends, with the closing quote or without a match; no earlier end has a
  -- quote behind it.
  induction t using escapedText?.induct generalizing b with
  | case1 =>
    have hends : escapedOne.ends ⟨b, [], kept⟩ = [] := by simp [escapedOne, ends, Text.after?]
    rw [ends_many_of_nil true hends]
    rfl
  | case2 rest =>
    have hends : escapedOne.ends ⟨b, '"' :: rest, kept⟩ = [] := by
      simp [escapedOne, ends, isBare, Text.after?]
    have hclosing : Text.after? Sign.patternClosing ('"' :: rest) = Text.after? Sign.closing rest :=
      rfl
    rw [ends_many_of_nil true hends, List.findSome?_singleton, closed?, hclosing, escapedText?]
    cases hrest : Text.after? Sign.closing rest with
    | none => rfl
    | some left =>
      rw [Text.after?_eq_some_iff.1 hrest]
      simp [Sign.closing, Sign.patternClosing, Cursor.pass, Cursor.keep]
  | case3 rest =>
    have hends : escapedOne.ends ⟨b, '\\' :: '\n' :: rest, kept⟩ = [] := by
      rw [ends_escapedOne_slash, if_pos rfl]
    rw [ends_many_of_nil true hends, List.findSome?_singleton, closed?_eq_none (by decide),
      escapedText?, Option.map_none]
  | case4 x rest hx ih =>
    have hends := ends_escapedOne_slash b x rest kept
    rw [if_neg fun h => hx h] at hends
    rw [ends_many_of_singleton hends (by simp only [List.length_cons]; omega),
      List.findSome?_append, ih, List.findSome?_singleton, closed?_eq_none (by decide),
      Option.or_none, escapedText?]
    · cases escapedText? rest with
      | none => rfl
      | some text => simp [Nat.add_right_comm]
    · exact hx
  | case5 =>
    have hends : escapedOne.ends ⟨b, ['\\'], kept⟩ = [] := by
      simp [escapedOne, ends, isBare, Text.after?, Cursor.pass]
    rw [ends_many_of_nil true hends]
    rfl
  | case6 x rest hquote hfeed hslash hlast ih =>
    -- the backslash has its cases above, whatever follows it
    have hne : x ≠ '\\' := by
      rintro rfl
      cases rest with
      | nil => exact hlast rfl rfl
      | cons y rest => exact hslash y rest rfl rfl
    have hx : isBare x = true := by
      simp only [isBare, Bool.and_eq_true, bne_iff_ne]
      exact ⟨fun h => hquote h, hne⟩
    rw [ends_many_of_singleton (ends_escapedOne_bare hx b rest kept) (by simp),
      List.findSome?_append, ih, List.findSome?_singleton, closed?_eq_none fun h => hquote h,
      Option.or_none, escapedText?]
    · cases escapedText? rest with
      | none => rfl
      | some text => simp [Nat.add_right_comm]
    · exact hquote
    · exact hfeed
    · exact hslash
    · exact hlast

/-- The list template that a text begins with. -/
def listAt? (t : Text) : Option Occurrence :=
  (Text.after? listOpening t).bind fun inner => (escapedText? inner).map fun text =>
    ⟨[], listOpening, text, Sign.patternClosing,
      inner.drop (text.length + Sign.patternClosing.length)⟩

theorem at?_listPattern (b t : Text) :
    listPattern.at? b t = (listAt? t).map (Occurrence.cursor b) := by
  rw [at?_eq, listPattern, head?_ends_mark_seq, listAt?]
  cases Text.after? listOpening t with
  | none => rfl
  | some inner =>
    have hclosed : (fun d : Cursor => ((mark Sign.patternClosing).ends
        (d.keep 1 ⟨b ++ listOpening, inner, []⟩)).head?) = closed? ⟨b ++ listOpening, inner, []⟩ :=
      funext fun d => head?_ends_mark _ _
    rw [Option.bind_some, Option.bind_some, Cursor.pass, head?_ends_seq, ends, List.findSome?_map]
    simp only [Function.comp_def, hclosed, findSome?_ends_many_escapedOne]
    cases escapedText? inner with
    | none => rfl
    | some text =>
      simp only [Option.map_some, List.drop_left]
      exact congrArg some (keep_eq_cursor b t listOpening text Sign.patternClosing _)

/-- **A list template is found as its expression finds it**: the first group is its escaped text.
-/
theorem findList?_eq (b t : Text) :
    findList? t = ((listPattern.search? b t).bind fun c => c.capture? 1).map
      fun text => Escape.decode text.value := by
  -- By induction on the line: the opening is here and its text is closed, or both go on by one
  -- character.
  induction t generalizing b with
  | nil =>
    rw [search?, at?_listPattern]
    rfl
  | cons x t ih =>
    have hhere := at?_listPattern b (x :: t)
    rw [findList?]
    cases hopening : Text.after? listOpening (x :: t) with
    | none =>
      rw [listAt?, hopening] at hhere
      rw [search?_cons_of_none hhere, ← ih]
      rfl
    | some inner =>
      rw [Option.bind_some]
      cases htext : escapedText? inner with
      | none =>
        rw [listAt?, hopening, Option.bind_some, htext] at hhere
        rw [search?_cons_of_none hhere, ← ih]
      | some text =>
        rw [listAt?, hopening, Option.bind_some, htext] at hhere
        rw [search?_cons_of_some hhere, Option.bind_some, Occurrence.capture?_cursor]
        rfl

/-! ### Delimiter directives -/

/-- The word for a side. No word begins another one, so that they may be tried in any order. -/
def Side.word : Side → Text
  | .start => "start".toList
  | .stop => "end".toList
  | .pair => "pair".toList

/-- The side that a word is for. -/
def Side.ofWord (word : Text) : Side :=
  if word = "start".toList then .start
  else if word = "end".toList then .stop
  else .pair

theorem Side.ofWord_word (side : Side) : ofWord side.word = side := by
  cases side <;> decide

/-- What stands between the word for a side and its value. -/
def quoting : Text := ":\"".toList

/-- A delimiter directive. -/
def delimiterPattern : Pattern :=
  seq (mark delimiterOpening) (seq
    (group 1 (either (mark Side.start.word) (either (mark Side.stop.word) (mark Side.pair.word))))
    (seq (mark quoting) (seq (group 2 (many false (one onLine))) (mark Sign.patternClosing))))

theorem readSide?_eq_some_iff {side : Side} {rest : Text} :
    readSide? t = some (side, rest) ↔ t = side.word ++ quoting ++ rest := by
  -- word and quotation mark are one literal in the reader, and two in the expression
  have hword (side : Side) : side.word ++ quoting =
      match side with
      | .start => "start:\"".toList
      | .stop => "end:\"".toList
      | .pair => "pair:\"".toList := by
    cases side <;> decide
  rw [hword]
  constructor
  · intro h
    unfold readSide? at h
    split at h
    · rename_i hafter
      cases h
      exact Text.after?_eq_some_iff.1 hafter
    · split at h
      · rename_i hafter
        cases h
        exact Text.after?_eq_some_iff.1 hafter
      · obtain ⟨rest', hafter, h⟩ := Option.map_eq_some_iff.1 h
        cases h
        exact Text.after?_eq_some_iff.1 hafter
  · rintro rfl
    cases side <;> rfl

/-- The value of a delimiter directive, and what follows it. -/
def quoted? (t : Text) : Option (Text × Text) := Text.upTo? Sign.patternClosing t

theorem head?_ends_quoted (b t : Text) (kept : List Capture) :
    ((seq (group 2 (many false (one onLine))) (mark Sign.patternClosing)).ends
      ⟨b, t, kept⟩).head? = (quoted? t).map fun found =>
        ⟨b ++ found.1 ++ Sign.patternClosing, found.2, ⟨2, b, found.1⟩ :: kept⟩ := by
  rw [head?_ends_group_seq, if_neg (by simp), quoted?, Text.upTo?_eq_findSome?,
    List.map_findSome?]
  congr 1
  funext cut
  simp only [Function.comp_apply, head?_ends_mark]
  cases Text.after? Sign.patternClosing cut.2 <;> rfl

/-- No two of the words begin the same text. -/
theorem after?_word_of_ne {side other : Side} (h : side ≠ other) (t : Text) :
    Text.after? side.word (other.word ++ t) = none := by
  cases side <;> cases other <;> first | rfl | exact absurd rfl h

section

variable {α : Type}

/-- What `f` makes of the text behind the word for a side and what quotes its value. -/
def behind? (f : Side → Text → Option α) (t : Text) (side : Side) : Option α :=
  (Text.after? side.word t).bind fun rest => (Text.after? quoting rest).bind (f side)

/-- The side that is read is the only one whose word can be tried: the two other words do not
begin the text, and so give nothing. -/
theorem behind?_eq (f : Side → Text → Option α) (t : Text) :
    (behind? f t .start).or ((behind? f t .stop).or (behind? f t .pair)) =
      (readSide? t).bind fun found => f found.1 found.2 := by
  -- No side's word begins another one's, so at most one of the three alternatives goes on behind
  -- its word.
  cases hread : readSide? t with
  | none =>
    have hnone (side : Side) : behind? f t side = none := by
      rw [behind?, Option.bind_eq_none_iff]
      intro rest hword
      rw [Option.bind_eq_none_iff]
      intro value hquoting
      rw [Text.after?_eq_some_iff] at hword hquoting
      rw [readSide?_eq_some_iff.2 (by rw [hword, hquoting, List.append_assoc])] at hread
      cases hread
    rw [hnone, hnone, hnone]
    rfl
  | some found =>
    obtain ⟨side, rest⟩ := found
    have hother {other : Side} (h : other ≠ side) : behind? f t other = none := by
      rw [behind?, readSide?_eq_some_iff.1 hread, List.append_assoc, after?_word_of_ne h]
      rfl
    have hhere : behind? f t side = f side rest := by
      rw [behind?, readSide?_eq_some_iff.1 hread, List.append_assoc, Text.after?_append,
        Option.bind_some, Text.after?_append, Option.bind_some]
    rw [Option.bind_some]
    cases side with
    | start => rw [hhere, hother (by simp), hother (by simp), Option.or_none, Option.or_none]
    | stop => rw [hhere, hother (by simp), hother (by simp), Option.none_or, Option.or_none]
    | pair => rw [hhere, hother (by simp), hother (by simp), Option.none_or, Option.none_or]

end

/-- The end of what follows the word for a side, if a text begins with the word. -/
def behindWord (q : Pattern) (b t : Text) (kept : List Capture) (side : Side) : Option Cursor :=
  (Text.after? side.word t).bind fun rest =>
    (q.ends ⟨b ++ side.word, rest, ⟨1, b, side.word⟩ :: kept⟩).head?

/-- What follows the word for a side is matched behind each word that the text begins with. -/
theorem head?_ends_sides (q : Pattern) (b t : Text) (kept : List Capture) :
    ((seq (group 1 (either (mark Side.start.word) (either (mark Side.stop.word)
      (mark Side.pair.word)))) q).ends ⟨b, t, kept⟩).head? =
      (behindWord q b t kept .start).or
        ((behindWord q b t kept .stop).or (behindWord q b t kept .pair)) := by
  have hside (side : Side) : (((mark side.word).ends ⟨b, t, kept⟩).map
      fun d => d.keep 1 ⟨b, t, kept⟩).findSome? (fun d => (q.ends d).head?) =
        behindWord q b t kept side := by
    rw [behindWord, ends]
    cases Text.after? side.word t with
    | none => rfl
    | some rest => simp [Cursor.pass, Cursor.keep]
  rw [head?_ends_seq, ends_group, ends_either, ends_either, List.map_append, List.map_append,
    List.findSome?_append, List.findSome?_append, hside, hside, hside]

/-- The delimiter directive that a text begins with, as its match ends. -/
def delimiterEnd? (b t : Text) : Option Cursor :=
  (Text.after? delimiterOpening t).bind fun rest => (readSide? rest).bind fun found =>
    (quoted? found.2).map fun value =>
      ⟨b ++ delimiterOpening ++ found.1.word ++ quoting ++ value.1 ++ Sign.patternClosing, value.2,
        [⟨0, b, delimiterOpening ++ found.1.word ++ quoting ++ value.1 ++ Sign.patternClosing⟩,
          ⟨2, b ++ delimiterOpening ++ found.1.word ++ quoting, value.1⟩,
          ⟨1, b ++ delimiterOpening, found.1.word⟩]⟩

theorem at?_delimiterPattern (b t : Text) : delimiterPattern.at? b t = delimiterEnd? b t := by
  rw [at?_eq, delimiterPattern, head?_ends_mark_seq, delimiterEnd?]
  cases Text.after? delimiterOpening t with
  | none => rfl
  | some rest =>
    -- what is matched behind a word is the quoted value, with the word kept as the first group
    have hvalue (side : Side) : behindWord (seq (mark quoting)
        (seq (group 2 (many false (one onLine))) (mark Sign.patternClosing)))
          (b ++ delimiterOpening) rest [] side =
        behind? (fun side quoted => (quoted? quoted).map fun value =>
          ⟨b ++ delimiterOpening ++ side.word ++ quoting ++ value.1 ++ Sign.patternClosing,
            value.2, [⟨2, b ++ delimiterOpening ++ side.word ++ quoting, value.1⟩,
              ⟨1, b ++ delimiterOpening, side.word⟩]⟩) rest side := by
      simp only [behindWord, behind?, head?_ends_mark_seq, Cursor.pass, head?_ends_quoted]
    rw [Option.bind_some, Option.bind_some, Cursor.pass, head?_ends_sides, hvalue, hvalue, hvalue,
      behind?_eq]
    cases readSide? rest with
    | none => rfl
    | some found =>
      rw [Option.bind_some, Option.bind_some]
      cases quoted? found.2 with
      | none => rfl
      | some value => simp [Cursor.keep]

theorem readDelimiter?_eq (t : Text) :
    readDelimiter? t = (Text.after? delimiterOpening t).bind fun rest =>
      (readSide? rest).bind fun found => (quoted? found.2).map fun value => (found.1, value.1) := by
  unfold readDelimiter? quoted? Text.upTo?
  cases Text.after? delimiterOpening t with
  | none => rfl
  | some rest =>
    simp only [Option.bind_eq_bind, Option.bind_some]
    cases readSide? rest with
    | none => rfl
    | some found =>
      obtain ⟨side, quoted⟩ := found
      simp only [Option.bind_some]
      cases Text.cut? Sign.patternClosing quoted with
      | none => rfl
      | some cut =>
        obtain ⟨value, left⟩ := cut
        simp only [Option.bind_some]
        cases FieldSpec.oneLine? value <;> rfl

/-- The side and the value of a match. -/
def ofMatch? (c : Cursor) : Option (Side × Text) :=
  (c.capture? 1).bind fun side =>
    (c.capture? 2).map fun value => (Side.ofWord side.value, value.value)

/-- A match has both a side and a value. -/
theorem map_delimiterEnd? (b t : Text) :
    (delimiterEnd? b t).map ofMatch? = (readDelimiter? t).map some := by
  rw [delimiterEnd?, readDelimiter?_eq]
  cases Text.after? delimiterOpening t with
  | none => rfl
  | some rest =>
    rw [Option.bind_some, Option.bind_some]
    cases readSide? rest with
    | none => rfl
    | some found =>
      rw [Option.bind_some, Option.bind_some]
      cases quoted? found.2 with
      | none => rfl
      | some value => simp [ofMatch?, Cursor.capture?, Side.ofWord_word]

/-- **A delimiter directive is found as its expression finds it**: its two groups are the side and
the value. -/
theorem findDelimiter?_eq (b t : Text) :
    findDelimiter? t = (delimiterPattern.search? b t).bind ofMatch? := by
  induction t generalizing b with
  | nil =>
    rw [search?, at?_delimiterPattern]
    rfl
  | cons x t ih =>
    have hread := map_delimiterEnd? b (x :: t)
    have hhere := at?_delimiterPattern b (x :: t)
    rw [findDelimiter?]
    cases hend : delimiterEnd? b (x :: t) with
    | none =>
      rw [hend] at hhere hread
      rw [search?_cons_of_none hhere, Option.map_eq_none_iff.1 hread.symm, ← ih]
    | some d =>
      rw [hend] at hhere hread
      obtain ⟨found, hfound, hmatch⟩ := Option.map_eq_some_iff.1 hread.symm
      rw [search?_cons_of_some hhere, hfound, Option.bind_some, ← hmatch]

/-! ### The line of a list template -/

/-- The line that keeps a block, without its line feed. -/
theorem listLine_eq (comment : Comment) (block : Text) :
    listLine comment block = comment.start ++
      (listOpening ++ Escape.encode block ++ Sign.patternClosing) ++ comment.stop ++ ['\n'] := rfl

/-- No line feed is left in a block that is kept on a line, whatever the block is. -/
theorem not_mem_listTemplate (block : Text) :
    '\n' ∉ listOpening ++ Escape.encode block ++ Sign.patternClosing := by
  rw [List.mem_append, List.mem_append, not_or, not_or]
  exact ⟨⟨by decide, not_mem_encode block⟩, by decide⟩

/-- **A block is kept on one line, and found there.** Its line ends where its only line feed is;
and without that, under whatever number, the line is the list template of the block, if the
framing stands within a line and does not open a list template itself. -/
theorem find_listLine_block :
    (∀ block, Escape.decode (Escape.encode block) = block) ∧
      ∀ (comment : Comment) (block : Text), comment.Inline →
        ¬ listOpening <:+: comment.start →
          ∃ line, listLine comment block = line ++ ['\n'] ∧ '\n' ∉ line ∧
            ∀ n, find n line = .ok (some (.listTemplate block)) := by
  refine ⟨Escape.decode_encode, fun comment block hinline hstart => ?_⟩
  refine ⟨_, listLine_eq comment block, ?_, fun n => ?_⟩
  · rw [List.mem_append, List.mem_append, not_or, not_or]
    exact ⟨⟨hinline.start, not_mem_listTemplate block⟩, hinline.stop⟩
  · exact find_listLine hstart ⟨['\n'], (listLine_eq comment block).symm, by simp [Text.isLineEnd]⟩

/-- The block holds what closes a template, escapes, line ends and a comment directive, and the
framing opens a template but for its quote. -/
theorem find_listLine_of_markup :
    Comment.Inline ⟨"\x7b@list-template=".toList, "\"\x7d\x7d".toList⟩ ∧
      ¬ listOpening <:+: "\x7b@list-template=".toList ∧
      ∃ line, listLine ⟨"\x7b@list-template=".toList, "\"\x7d\x7d".toList⟩
          "\"\x7d\x7d \\n\\\r\n\x7b@template.comment\x7d\x7d\\".toList = line ++ ['\n'] ∧
        '\n' ∉ line ∧
        ∀ n, find n line = .ok (some (.listTemplate
          "\"\x7d\x7d \\n\\\r\n\x7b@template.comment\x7d\x7d\\".toList)) := by
  have hinline : Comment.Inline ⟨"\x7b@list-template=".toList, "\"\x7d\x7d".toList⟩ :=
    ⟨by decide, by decide⟩
  have hstart : ¬ listOpening <:+: "\x7b@list-template=".toList :=
    Text.has_eq_false_iff.1 (by decide)
  exact ⟨hinline, hstart, find_listLine_block.2 _ _ hinline hstart⟩

end FieldedText.Directive
