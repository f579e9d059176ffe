/-
FieldedText/Proofs/DelimiterPattern.lean

The expressions that delimiters stand for.

Each of the four shapes of a delimiter has an expression, whose first group is
the value.  The searches for a value do not match expressions; they look for
the sides of the delimiter.  A search finds what its expression finds all the
same, with the same text before, in and behind the match, whatever the sides of
the delimiter are and wherever the search begins (`search?_pattern`).

A run and what follows it match at the first of the cuts of the run behind
which the rest matches; so the proofs say of each of the searches that it finds
the first such cut.
-/
import FieldedText.Markup.FieldSpec
import FieldedText.Proofs.Delimiter
import FieldedText.Proofs.Pattern

namespace FieldedText

open Pattern

variable {before t u v value rest start stop : Text} {kept : List Capture} {c : Cursor}

/-- Any character. -/
def Pattern.any (_ : Char) : Bool := true

/-- Any character that does not end a line. -/
def Pattern.onLine (c : Char) : Bool := c != '\n'

namespace Pattern

/-- The text from a start to the first stop after it. The run between them is lazy, and so it is
the first stop. -/
def between (start stop : Text) : Pattern :=
  seq (mark start) (seq (group 1 (many false (one any))) (mark stop))

/-- The text from the last start on a line to the end of the line.  The greedy run before the
start passes over all starts but the last. -/
def toLineEnd (start : Text) : Pattern :=
  seq (many true (one onLine)) (seq (mark start) (seq (group 1 (many true (one Text.inLine)))
    (seq (maybe (mark ['\r'])) lineEnd)))

/-- The text from the beginning of a line to the first stop on it. -/
def fromLineStart (stop : Text) : Pattern :=
  seq lineStart (seq (group 1 (many false (one onLine))) (mark stop))

/-- The whole text without its final line end. -/
def wholeText : Pattern :=
  seq textStart (seq (group 1 (many false (one any)))
    (seq (maybe (mark ['\r'])) (seq (maybe (mark ['\n'])) textEnd)))

end Pattern

/-- The expression of a delimiter. Its first group is the value, in each of the four shapes. -/
def Delimiter.pattern (delimiter : Delimiter) : Pattern :=
  match delimiter.start, delimiter.stop with
  | [], [] => wholeText
  | start, [] => toLineEnd start
  | [], stop => fromLineStart stop
  | start, stop => between start stop

/-- The end of a find as a match ends there: the match is kept, and the value in it. With this an
expression and a search can be compared as wholes. -/
def Occurrence.cursor (before : Text) (found : Occurrence) : Cursor where
  before := before ++ found.skipped ++ found.opening ++ found.value ++ found.closing
  rest := found.rest
  kept := [⟨0, before ++ found.skipped, found.opening ++ found.value ++ found.closing⟩,
    ⟨1, before ++ found.skipped ++ found.opening, found.value⟩]

theorem Occurrence.cursor_skip (before passed : Text) (found : Occurrence) :
    (found.skip passed).cursor before = found.cursor (before ++ passed) := by
  simp [cursor, skip]

/-- What is found behind a character is matched behind it. -/
theorem Occurrence.map_cursor_skip (before : Text) (x : Char) (found : Option Occurrence) :
    (found.map (skip [x])).map (cursor before) = found.map (cursor (before ++ [x])) := by
  cases found with
  | none => rfl
  | some found => simp [cursor_skip]

/-- The first group of a match is the value. -/
theorem Occurrence.capture?_cursor (before : Text) (found : Occurrence) :
    (found.cursor before).capture? 1 =
      some ⟨1, before ++ (found.skipped ++ found.opening), found.value⟩ := by
  simp [Cursor.capture?, cursor]

/-! ### The searches as first cuts -/

theorem Text.after?_map_mk_cons (mark : Text) (x : Char) (u v : Text) :
    (after? mark v).map (Prod.mk (x :: u)) =
      ((after? mark v).map (Prod.mk u)).map fun cut => (x :: cut.1, cut.2) := by
  rw [Option.map_map]
  rfl

theorem Text.cut?_eq_findSome? (mark t : Text) :
    cut? mark t = (cuts any t).findSome? fun cut => (after? mark cut.2).map (Prod.mk cut.1) := by
  induction t with
  | nil => rw [cut?, cuts, List.findSome?_singleton]
  | cons x t ih =>
    rw [findSome?_cuts_cons (after?_map_mk_cons mark x), ← ih, cut?]
    cases after? mark (x :: t) <;> rfl

theorem FieldSpec.oneLine?_cons {x : Char} (hx : x ≠ '\n') (t : Text) :
    oneLine? (x :: t) = (oneLine? t).map (x :: ·) := by
  unfold oneLine?
  by_cases ht : '\n' ∈ t <;> simp [ht, Ne.symm hx]

/-- What is not behind a start is not behind a later one. -/
theorem Text.cut?_eq_none_of_later {inner passed later : Text}
    (h : start ++ inner = passed ++ (start ++ later)) (hstop : cut? stop inner = none) :
    cut? stop later = none := by
  have hlater : later <:+ start ++ inner := ⟨passed ++ start, by rw [h, List.append_assoc]⟩
  have hinner : inner <:+ start ++ inner := ⟨start, rfl⟩
  have hlength : later.length ≤ inner.length := by
    have hsame := congrArg List.length h
    simp only [List.length_append] at hsame
    omega
  have hsuffix : later <:+ inner := List.suffix_of_suffix_length_le hlater hinner hlength
  rw [cut?_eq_none_iff] at hstop ⊢
  exact fun hin => hstop (hin.trans hsuffix.isInfix)

/-- The text up to the first occurrence of a mark, if that is on the first line, and the text
behind it. This is what a lazy run on a line before a mark comes to. -/
def Text.upTo? (mark t : Text) : Option (Text × Text) :=
  (cut? mark t).bind fun cut => (FieldSpec.oneLine? cut.1).map fun head => (head, cut.2)

theorem Text.upTo?_append {mark head : Text} (h : upTo? mark t = some (head, rest)) :
    t = head ++ mark ++ rest := by
  obtain ⟨⟨first, later⟩, hcut, h⟩ := Option.bind_eq_some_iff.1 h
  obtain ⟨line, hline, h⟩ := Option.map_eq_some_iff.1 h
  obtain ⟨rfl, rfl⟩ := Prod.mk.inj h
  unfold FieldSpec.oneLine? at hline
  split at hline
  · cases hline
  · cases hline
    exact cut?_append hcut

/-- A lazy run on a line goes up to the first occurrence, if that is on the line. -/
theorem Text.upTo?_eq_findSome? (mark t : Text) :
    upTo? mark t =
      (cuts onLine t).findSome? fun cut => (after? mark cut.2).map (Prod.mk cut.1) := by
  unfold upTo?
  -- By induction on the text: the mark is here, or the run takes one more character, which has to
  -- be on the line.
  induction t with
  | nil =>
    rw [cut?, cuts, List.findSome?_singleton]
    cases after? mark [] <;> rfl
  | cons x t ih =>
    rw [findSome?_cuts_cons (after?_map_mk_cons mark x), ← ih, cut?]
    cases after? mark (x :: t) with
    | some rest => rfl
    | none =>
      rw [Option.map_none, Option.none_or]
      by_cases hx : x = '\n'
      · cases cut? mark t <;> simp [hx, onLine, FieldSpec.oneLine?]
      · have hkind : onLine x = true := by simpa [onLine] using hx
        rw [if_pos hkind]
        cases cut? mark t with
        | none => rfl
        | some cut =>
          rw [Option.map_some, Option.bind_some, Option.bind_some, FieldSpec.oneLine?_cons hx]
          cases FieldSpec.oneLine? cut.1 <;> rfl

theorem Text.upTo?_cons (mark : Text) (x : Char) (t : Text) :
    upTo? mark (x :: t) = ((after? mark (x :: t)).map (Prod.mk [])).or
      (if onLine x then (upTo? mark t).map fun cut => (x :: cut.1, cut.2) else none) := by
  rw [upTo?_eq_findSome?, upTo?_eq_findSome?, findSome?_cuts_cons (after?_map_mk_cons mark x)]

namespace Occurrence

theorem untilStop?_eq_findSome? (stop t : Text) :
    untilStop? stop t = (cuts onLine t).findSome? fun cut =>
      (Text.after? stop cut.2).map (Occurrence.mk [] [] cut.1 stop) := by
  induction t with
  | nil => rw [untilStop?, cuts, List.findSome?_singleton]
  | cons x t ih =>
    have hlater (u v : Text) : (Text.after? stop v).map (Occurrence.mk [] [] (x :: u) stop) =
        ((Text.after? stop v).map (Occurrence.mk [] [] u stop)).map
          fun found => { found with value := x :: found.value } := by
      rw [Option.map_map]
      rfl
    rw [findSome?_cuts_cons hlater, ← ih, untilStop?]
    cases Text.after? stop (x :: t) with
    | some rest => rfl
    | none =>
      rw [Option.map_none, Option.none_or]
      by_cases hx : x = '\n' <;> simp [hx, onLine]

/-- The longest cut before a line end is the only one there is. -/
theorem lineRest?_eq_findSome? (t : Text) :
    lineRest? t = (cuts Text.inLine t).reverse.findSome? lineCut? := by
  induction t with
  | nil => rfl
  | cons x t ih =>
    rw [findSome?_reverse_cuts_cons (lineCut?_cons x), ← ih]
    cases hx : Text.inLine x with
    | true =>
      have hhere : lineCut? ([], x :: t) = none := by
        rw [lineCut?, lineTail?_eq_none hx]
        rfl
      rw [if_pos rfl, lineRest?_cons hx, hhere, Option.or_none]
    | false => rw [if_neg (by simp), lineRest?_cons_of_lineEnd hx, Option.none_or]

/-- The rest of a line behind a start that stands at a given place, where what was passed over
counts as matched. -/
def startCut? (start : Text) (cut : Text × Text) : Option Occurrence :=
  ((Text.after? start cut.2).bind lineRest?).map fun found =>
    { found with opening := cut.1 ++ start }

theorem afterStart?_eq_findSome? (hne : start ≠ []) (t : Text) :
    afterStart? start t = (cuts onLine t).reverse.findSome? (startCut? start) := by
  -- The run before the start is greedy, so that its cuts are tried from the longest on; the
  -- search goes to the end of the line first, and comes to the same.
  induction t with
  | nil => simp [afterStart?, cuts, startCut?, Text.after?_nil hne]
  | cons x t ih =>
    have hlater (u v : Text) : startCut? start (x :: u, v) =
        (startCut? start (u, v)).map fun found => { found with opening := x :: found.opening } := by
      rw [startCut?, startCut?, Option.map_map]
      rfl
    have hhere : startCut? start ([], x :: t) = (do
        let inner ← Text.after? start (x :: t)
        let found ← lineRest? inner
        return { found with opening := start }) := by
      simp only [startCut?, Option.bind_eq_bind, List.nil_append]
      cases Text.after? start (x :: t) with
      | none => rfl
      | some inner =>
        rw [Option.bind_some, Option.bind_some]
        cases lineRest? inner <;> rfl
    rw [findSome?_reverse_cuts_cons hlater, ← ih, hhere, afterStart?]
    by_cases hx : x = '\n'
    · simp [hx, onLine]
    · have hkind : onLine x = true := by simpa [onLine] using hx
      rw [if_neg hx, if_pos hkind]
      cases afterStart? start t <;> rfl

/-- Whether a text is a final line end, or nothing. There are four of them, and each ends the
whole text without being part of it. -/
def isFinal (t : Text) : Bool :=
  t = [] || t = ['\n'] || t = ['\r'] || t = ['\r', '\n']

theorem whole_of_isFinal (h : isFinal t = true) : whole t = ⟨[], [], [], t, []⟩ := by
  simp only [isFinal, Bool.or_eq_true, decide_eq_true_eq] at h
  rcases h with ((rfl | rfl) | rfl) | rfl <;> rfl

theorem whole_cons {x : Char} (h : isFinal (x :: t) = false) :
    whole (x :: t) = { whole t with value := x :: (whole t).value } := by
  obtain ⟨u, rfl⟩ : ∃ u, t = u.reverse := ⟨t.reverse, t.reverse_reverse.symm⟩
  unfold whole
  rw [List.reverse_cons, List.reverse_reverse]
  -- by the last two characters of the text, which decide what its final line end is; that end may
  -- take the first character as well when the text is short
  match u with
  | [] =>
    have hx : x ≠ '\n' ∧ x ≠ '\r' := by simpa [isFinal] using h
    simp [hx.1, hx.2]
  | '\n' :: '\r' :: u => simp
  | ['\n'] =>
    have hx : x ≠ '\r' := by simpa [isFinal] using h
    simp [hx]
  | '\n' :: y :: u =>
    by_cases hy : y = '\r' <;> simp [hy]
  | y :: u =>
    by_cases hn : y = '\n'
    · subst hn
      cases u with
      | nil =>
        have hx : x ≠ '\r' := by simpa [isFinal] using h
        simp [hx]
      | cons z u => by_cases hz : z = '\r' <;> simp [hz]
    · by_cases hr : y = '\r' <;> simp [hn, hr]

/-- The whole text as a value that ends at a given place. -/
def wholeCut? (cut : Text × Text) : Option Occurrence :=
  if isFinal cut.2 then some ⟨[], [], cut.1, cut.2, []⟩ else none

/-- The shortest value is the one that leaves the longest line end. -/
theorem whole_eq_findSome? (t : Text) :
    some (whole t) = (cuts any t).findSome? wholeCut? := by
  induction t with
  | nil => rfl
  | cons x t ih =>
    have hlater (u v : Text) : wholeCut? (x :: u, v) =
        (wholeCut? (u, v)).map fun found => { found with value := x :: found.value } := by
      simp only [wholeCut?]
      split <;> rfl
    rw [findSome?_cuts_cons hlater, ← ih]
    cases hx : isFinal (x :: t) with
    | true => rw [whole_of_isFinal hx, wholeCut?, if_pos hx, Option.some_or]
    | false =>
      rw [whole_cons hx, wholeCut?, if_neg (by simp [hx]), Option.none_or]
      rfl

end Occurrence

/-! ### Matches at one place -/

namespace Pattern

open Occurrence

theorem head?_ends_lineTail (b t : Text) (kept : List Capture) :
    ((seq (maybe (mark ['\r'])) lineEnd).ends ⟨b, t, kept⟩).head? =
      (lineTail? t).map fun tail => ⟨b ++ tail.1, tail.2, kept⟩ := by
  rw [head?_ends_maybe_seq, head?_ends_mark_seq]
  cases t with
  | nil => simp [Text.after?, ends, lineTail?]
  | cons x t =>
    by_cases hr : x = '\r'
    · cases htail : t.head?.all (· == '\n') <;>
        simp [Text.after?, ends, lineTail?, Cursor.pass, hr, htail]
    · by_cases hn : x = '\n' <;> simp [Text.after?, ends, lineTail?, hn, hr, Ne.symm hr]

theorem head?_ends_feedTail (b t : Text) (kept : List Capture) :
    ((seq (maybe (mark ['\n'])) textEnd).ends ⟨b, t, kept⟩).head? =
      if t = [] ∨ t = ['\n'] then some ⟨b ++ t, [], kept⟩ else none := by
  rw [head?_ends_maybe_seq, head?_ends_mark_seq]
  cases t with
  | nil => simp [Text.after?, ends]
  | cons x t =>
    by_cases hn : x = '\n'
    · by_cases ht : t = [] <;> simp [Text.after?, ends, Cursor.pass, hn, ht]
    · simp [Text.after?, ends, hn, Ne.symm hn]

theorem head?_ends_finalTail (b t : Text) (kept : List Capture) :
    ((seq (maybe (mark ['\r'])) (seq (maybe (mark ['\n'])) textEnd)).ends ⟨b, t, kept⟩).head? =
      if isFinal t then some ⟨b ++ t, [], kept⟩ else none := by
  rw [head?_ends_maybe_seq, head?_ends_mark_seq, head?_ends_feedTail]
  cases t with
  | nil => simp [Text.after?, isFinal]
  | cons x t =>
    by_cases hr : x = '\r'
    · by_cases ht : t = [] ∨ t = ['\n'] <;>
        simp [Text.after?, head?_ends_feedTail, isFinal, Cursor.pass, hr, ht]
    · simp [Text.after?, isFinal, hr, Ne.symm hr]

/-- What is found at the place where a search is, with nothing passed over before it. -/
theorem keep_eq_cursor (b t opening value closing rest : Text) :
    (⟨b ++ opening ++ value ++ closing, rest, [⟨1, b ++ opening, value⟩]⟩ : Cursor).keep 0
      ⟨b, t, []⟩ = (⟨[], opening, value, closing, rest⟩ : Occurrence).cursor b := by
  simp [Cursor.keep, cursor]

theorem at?_between (start stop b t : Text) :
    (between start stop).at? b t =
      ((Text.after? start t).bind fun inner => (Text.cut? stop inner).map fun cut =>
        (⟨[], start, cut.1, stop, cut.2⟩ : Occurrence)).map (cursor b) := by
  rw [at?_eq, between, head?_ends_mark_seq]
  cases Text.after? start t with
  | none => rfl
  | some inner =>
    rw [Option.bind_some, Option.bind_some, Cursor.pass, head?_ends_group_seq,
      Text.cut?_eq_findSome?, if_neg (by simp), List.map_findSome?, List.map_findSome?,
      List.map_findSome?]
    congr 1
    funext cut
    simp only [Function.comp_apply, head?_ends_mark]
    cases Text.after? stop cut.2 with
    | none => rfl
    | some rest => exact congrArg some (keep_eq_cursor b t start cut.1 stop rest)

theorem at?_fromLineStart (stop b t : Text) :
    (fromLineStart stop).at? b t =
      if Delimiter.atLineStart b then (untilStop? stop t).map (cursor b) else none := by
  -- the beginning of a line is asked for in two forms
  have hstart : b.getLast?.all (· == '\n') = Delimiter.atLineStart b := by
    unfold Delimiter.atLineStart
    cases b.getLast? <;> rfl
  rw [at?_eq, fromLineStart, head?_ends_seq, ends, hstart]
  cases Delimiter.atLineStart b with
  | false => rfl
  | true =>
    rw [if_pos rfl, if_pos rfl, List.findSome?_singleton, head?_ends_group_seq, if_neg (by simp),
      untilStop?_eq_findSome?, List.map_findSome?, List.map_findSome?]
    congr 1
    funext cut
    simp only [Function.comp_apply, head?_ends_mark]
    cases Text.after? stop cut.2 with
    | none => rfl
    | some rest =>
      have h := keep_eq_cursor b t [] cut.1 stop rest
      rw [List.append_nil] at h
      exact congrArg some h

theorem head?_ends_lineRest (b t : Text) :
    ((seq (group 1 (many true (one Text.inLine))) (seq (maybe (mark ['\r'])) lineEnd)).ends
      ⟨b, t, []⟩).head? = (lineRest? t).map fun found =>
        ⟨b ++ found.value ++ found.closing, found.rest, [⟨1, b, found.value⟩]⟩ := by
  rw [head?_ends_group_seq, if_pos rfl, lineRest?_eq_findSome?, List.map_findSome?]
  congr 1
  funext cut
  simp only [head?_ends_lineTail, lineCut?, Function.comp_apply]
  cases lineTail? cut.2 <;> rfl

theorem at?_toLineEnd (hne : start ≠ []) (b t : Text) :
    (toLineEnd start).at? b t = (afterStart? start t).map (cursor b) := by
  rw [at?_eq, toLineEnd, head?_ends_many_seq, if_pos rfl, afterStart?_eq_findSome? hne,
    List.map_findSome?, List.map_findSome?]
  congr 1
  funext cut
  simp only [Function.comp_apply, head?_ends_mark_seq, startCut?]
  cases Text.after? start cut.2 with
  | none => rfl
  | some inner =>
    rw [Option.bind_some, Option.bind_some, Cursor.pass, head?_ends_lineRest]
    cases hrest : lineRest? inner with
    | none => rfl
    | some found =>
      have h := keep_eq_cursor b t (cut.1 ++ start) found.value found.closing found.rest
      simp only [Option.map_some, Option.some.injEq]
      rw [← List.append_assoc b] at h
      rw [h, ← (sides_of_lineRest? hrest).1]

theorem at?_wholeText (b t : Text) :
    wholeText.at? b t = if b = [] then some ((whole t).cursor b) else none := by
  rw [at?_eq, wholeText, head?_ends_seq, ends]
  by_cases hb : b = []
  · rw [if_pos hb, if_pos hb, List.findSome?_singleton, head?_ends_group_seq, if_neg (by simp),
      ← Option.map_some, whole_eq_findSome?, List.map_findSome?, List.map_findSome?]
    congr 1
    funext cut
    simp only [Function.comp_apply, head?_ends_finalTail, wholeCut?]
    split
    · have h := keep_eq_cursor b t [] cut.1 cut.2 []
      rw [List.append_nil] at h
      exact congrArg some h
    · rfl
  · rw [if_neg hb, if_neg hb]
    rfl

/-! ### Matches from place to place -/

theorem search?_between (start stop b t : Text) :
    (between start stop).search? b t = (between? start stop t).map (cursor b) := by
  -- By induction on the text. Where no start is, both go on. Where one is, either a stop follows
  -- it and both are done, or none does, and then no later start has one behind it either.
  induction t generalizing b with
  | nil =>
    rw [search?, at?_between, between?_eq, Text.cut?]
    cases Text.after? start [] <;> rfl
  | cons x t ih =>
    have hhere := at?_between start stop b (x :: t)
    cases hstart : Text.after? start (x :: t) with
    | none =>
      rw [hstart] at hhere
      have hlater : between? start stop (x :: t) = (between? start stop t).map (skip [x]) := by
        rw [between?_eq, between?_eq, Text.cut?, hstart]
        cases Text.cut? start t with
        | none => rfl
        | some outer =>
          rw [Option.map_some, Option.bind_some, Option.bind_some]
          cases Text.cut? stop outer.2 <;> rfl
      rw [search?_cons_of_none hhere, ih, hlater, map_cursor_skip]
    | some inner =>
      rw [hstart, Option.bind_some] at hhere
      have hfound : between? start stop (x :: t) = (Text.cut? stop inner).map fun cut =>
          ⟨[], start, cut.1, stop, cut.2⟩ := by
        rw [between?_eq, Text.cut?, hstart]
        rfl
      rw [hfound]
      cases hstop : Text.cut? stop inner with
      | some cut =>
        rw [hstop] at hhere
        exact search?_cons_of_some hhere
      | none =>
        -- a later start leaves less of the text, in which there is no stop either
        refine search?_eq_none fun passed rest hsplit => ?_
        rw [at?_between]
        cases hafter : Text.after? start rest with
        | none => rfl
        | some later =>
          have hsame : start ++ inner = passed ++ (start ++ later) := by
            rw [← Text.after?_eq_some_iff.1 hstart, hsplit, Text.after?_eq_some_iff.1 hafter]
          rw [Option.bind_some, Text.cut?_eq_none_of_later hsame hstop]
          rfl

theorem atLineStart_concat (b : Text) (x : Char) :
    Delimiter.atLineStart (b ++ [x]) = (x == '\n') := by
  simp [Delimiter.atLineStart]

theorem search?_fromLineStart (stop b t : Text) :
    (fromLineStart stop).search? b t =
      (onSomeLine? (untilStop? stop) (Delimiter.atLineStart b) t).map (cursor b) := by
  -- Both go from place to place. The search is told whether a line begins at the next place, and
  -- the expression finds out by the character before it.
  induction t generalizing b with
  | nil =>
    rw [search?, at?_fromLineStart, onSomeLine?]
    split <;> rfl
  | cons x t ih =>
    have hhere := at?_fromLineStart stop b (x :: t)
    have hlater := ih (b ++ [x])
    rw [atLineStart_concat] at hlater
    rw [onSomeLine?]
    cases hfound : (if Delimiter.atLineStart b then untilStop? stop (x :: t) else none) with
    | some found =>
      have hat : (fromLineStart stop).at? b (x :: t) = some (found.cursor b) := by
        rw [hhere]
        split at hfound
        · rename_i hfresh
          rw [if_pos hfresh, hfound]
          rfl
        · cases hfound
      exact search?_cons_of_some hat
    | none =>
      have hat : (fromLineStart stop).at? b (x :: t) = none := by
        rw [hhere]
        split at hfound
        · rename_i hfresh
          rw [if_pos hfresh, hfound]
          rfl
        · rename_i hfresh
          rw [if_neg hfresh]
      rw [search?_cons_of_none hat, hlater]
      exact (map_cursor_skip b x _).symm

/-- Where a line does not begin, the run before the start was tried from the beginning of the line
already. So trying at every place, as an expression does, finds no more. -/
theorem search?_toLineEnd_of (hne : start ≠ []) {fresh : Bool}
    (hfresh : fresh = false → afterStart? start t = none) (b : Text) :
    (toLineEnd start).search? b t =
      (onSomeLine? (afterStart? start) fresh t).map (cursor b) := by
  -- By induction on the text. A place within a line adds nothing: whatever is found from there
  -- was found from the place before, with more before the start. The hypothesis carries this
  -- along.
  induction t generalizing fresh b with
  | nil =>
    rw [search?, at?_toLineEnd hne, onSomeLine?]
    cases fresh <;> rfl
  | cons x t ih =>
    have hhere := at?_toLineEnd hne b (x :: t)
    rw [onSomeLine?]
    cases hfound : afterStart? start (x :: t) with
    | some found =>
      have hpos : fresh = true := by
        by_contra h
        rw [hfresh (by simpa using h)] at hfound
        cases hfound
      rw [hfound] at hhere
      rw [hpos]
      exact search?_cons_of_some hhere
    | none =>
      rw [hfound] at hhere
      -- had a start been found further on the line, it would have been found from here
      have hlater : (x == '\n') = false → afterStart? start t = none := by
        intro hx
        rw [afterStart?, if_neg (by simpa using hx)] at hfound
        cases ht : afterStart? start t with
        | none => rfl
        | some found =>
          rw [ht] at hfound
          cases hfound
      rw [search?_cons_of_none hhere, ih hlater, ite_self]
      exact (map_cursor_skip b x _).symm

theorem search?_toLineEnd (hne : start ≠ []) (b t : Text) :
    (toLineEnd start).search? b t = (onSomeLine? (afterStart? start) true t).map (cursor b) :=
  search?_toLineEnd_of hne (fun h => Bool.noConfusion h) b

theorem search?_wholeText (b t : Text) :
    wholeText.search? b t = if b = [] then some ((whole t).cursor b) else none := by
  rw [← at?_wholeText]
  exact search?_textStart _ b t

end Pattern

/-- **A delimiter finds what its expression finds**: the same match, kept whole and with the value
in it, at the same place. -/
theorem Delimiter.search?_pattern (delimiter : Delimiter) (before t : Text) :
    delimiter.pattern.search? before t =
      (delimiter.search? before t).map (Occurrence.cursor before) := by
  obtain ⟨start, stop⟩ := delimiter
  cases start with
  | nil =>
    cases stop with
    | nil =>
      rw [pattern, search?, search?_wholeText]
      split <;> rfl
    | cons y stop => exact search?_fromLineStart (y :: stop) before t
  | cons x start =>
    cases stop with
    | nil => exact search?_toLineEnd (by simp) before t
    | cons y stop => exact search?_between (x :: start) (y :: stop) before t

end FieldedText
