/-
FieldedText/Proofs/Directive.lean

When a line holds a directive, and that a list template is found on its line.

All directives, well formed or not, begin with one of two marks.  A text with
neither is *unmarked*, and the search for a directive on a line answers that
there is none exactly when the line is unmarked (`find_eq_ok_none_iff`).  So
whether a line is free of directives can be read off its pieces: a mark holds
one opening brace, at its beginning, and none of the other signs of the markup.

The last section is about the line that keeps a list template.  Its framing may
hold anything but the opening of another list template; then the search finds
the block that was put there, whatever the block is (`find_listLine`).
-/
import FieldedText.Markup.Directive
import FieldedText.Proofs.Lines

namespace FieldedText.Directive

variable {m x y t line : Text} {c : Char}

/-! ### The marks of directives -/

/-- The two texts that directives begin with. Each directive, well formed or not, is known by one
of them. -/
def IsMark (m : Text) : Prop := m = templateMarker ∨ m = listMarker

/-- A mark is an opening brace, an at sign, and letters, dots and dashes. -/
theorem IsMark.eq_cons (h : IsMark m) :
    ∃ m', m = '{' :: '@' :: m' ∧ '{' ∉ '@' :: m' ∧ '@' ∉ m' := by
  rcases h with rfl | rfl
  · exact ⟨templateMarker.drop 2, by decide⟩
  · exact ⟨listMarker.drop 2, by decide⟩

theorem IsMark.inline (h : IsMark m) : Text.Inline m := by
  rcases h with rfl | rfl
  · exact ⟨by decide, by decide⟩
  · exact ⟨by decide, by decide⟩

theorem IsMark.not_mem (h : IsMark m) (hc : c ∉ templateMarker ++ listMarker) : c ∉ m := by
  rw [List.mem_append, not_or] at hc
  rcases h with rfl | rfl
  · exact hc.1
  · exact hc.2

theorem IsMark.not_mem_lineFeed (h : IsMark m) : '\n' ∉ m := h.not_mem (by decide)

/-- A text in which no directive begins. It can be told from the pieces of a text, which a search
for a well-formed directive cannot. -/
def Unmarked (t : Text) : Prop := ∀ m, IsMark m → ¬ m <:+: t

theorem unmarked_iff :
    Unmarked t ↔ Text.has templateMarker t = false ∧ Text.has listMarker t = false := by
  rw [Text.has_eq_false_iff, Text.has_eq_false_iff]
  constructor
  · intro h
    exact ⟨h _ (.inl rfl), h _ (.inr rfl)⟩
  · rintro ⟨h₁, h₂⟩ m (rfl | rfl)
    · exact h₁
    · exact h₂

theorem Unmarked.of_isInfix (h : Unmarked y) (hx : x <:+: y) : Unmarked x :=
  fun m hm hin => h m hm (hin.trans hx)

theorem unmarked_of_not_mem (h : '{' ∉ t) : Unmarked t := by
  intro m hm
  obtain ⟨m', rfl, -, -⟩ := hm.eq_cons
  exact Text.not_infix_of_not_mem (List.mem_cons_self ..) h

/-- No mark reaches across a character that is in neither. -/
theorem unmarked_append_cons_iff (hc : c ∉ templateMarker ++ listMarker) :
    Unmarked (x ++ c :: y) ↔ Unmarked x ∧ Unmarked y := by
  constructor
  · intro h
    exact ⟨h.of_isInfix (List.prefix_append x _).isInfix,
      h.of_isInfix ((List.suffix_cons c y).isInfix.trans (List.suffix_append x _).isInfix)⟩
  · rintro ⟨hx, hy⟩ m hm h
    rw [Text.infix_append_cons_iff (hm.not_mem hc)] at h
    rcases h with h | h
    · exact hx m hm h
    · exact hy m hm h

theorem unmarked_cons_iff (hc : c ≠ '{') : Unmarked (c :: t) ↔ Unmarked t := by
  constructor
  · intro h
    exact h.of_isInfix (List.suffix_cons c t).isInfix
  · intro h m hm hin
    obtain ⟨m', rfl, -, -⟩ := hm.eq_cons
    rw [List.infix_cons_iff] at hin
    rcases hin with hin | hin
    · exact hc (List.cons_prefix_cons.1 hin).1.symm
    · exact h _ hm hin

/-- No mark reaches across the beginning of an opening brace, since a mark has its only brace at
its beginning. -/
theorem unmarked_append_brace_iff :
    Unmarked (x ++ '{' :: y) ↔ Unmarked x ∧ Unmarked ('{' :: y) := by
  constructor
  · intro h
    exact ⟨h.of_isInfix (List.prefix_append x _).isInfix,
      h.of_isInfix (List.suffix_append x _).isInfix⟩
  · rintro ⟨hx, hy⟩ m hm hin
    rcases List.infix_append_iff_ne_nil.1 hin with hin | hin | ⟨s, t, hs, ht, rfl, -, hpre⟩
    · exact hx m hm hin
    · exact hy m hm hin
    · obtain ⟨c, t, rfl⟩ := List.exists_cons_of_ne_nil ht
      obtain rfl := (List.cons_prefix_cons.1 hpre).1
      -- there is no second brace in a mark
      obtain ⟨m', hcons, hbrace, -⟩ := hm.eq_cons
      obtain ⟨d, s, rfl⟩ := List.exists_cons_of_ne_nil hs
      rw [List.cons_append] at hcons
      rw [← (List.cons.inj hcons).2] at hbrace
      exact hbrace (by simp)

theorem unmarked_content_iff : Unmarked (Text.content line) ↔ Unmarked line :=
  forall₂_congr fun _ hm => not_congr (Text.infix_content_iff hm.inline)

theorem unmarked_plain_iff : Unmarked (Text.plain line) ↔ Unmarked line :=
  forall₂_congr fun _ hm => not_congr (Text.infix_plain_iff hm.inline)

/-- A text is unmarked when each of its lines is. -/
theorem unmarked_of_lines (h : ∀ line ∈ Text.lines t, Unmarked line) : Unmarked t := by
  intro m hm hin
  obtain ⟨line, hline, hm'⟩ :=
    Text.exists_line_of_infix hm.not_mem_lineFeed hm.inline.1 hin
  exact h line hline m hm hm'

/-! ### Lines without a directive -/

theorem findList?_eq_none (h : ¬ listOpening <:+: t) : findList? t = none := by
  induction t with
  | nil => rfl
  | cons c t ih =>
    rw [List.infix_cons_iff, not_or] at h
    rw [findList?, Text.after?_eq_none_iff.2 h.1]
    exact ih h.2

theorem readDelimiter?_eq_none (h : ¬ delimiterOpening <+: t) : readDelimiter? t = none := by
  simp [readDelimiter?, Text.after?_eq_none_iff.2 h]

theorem findDelimiter?_eq_none (h : ¬ delimiterOpening <:+: t) : findDelimiter? t = none := by
  induction t with
  | nil => rfl
  | cons c t ih =>
    rw [List.infix_cons_iff, not_or] at h
    rw [findDelimiter?, readDelimiter?_eq_none h.1]
    exact ih h.2

/-- **A line has no directive exactly when it is unmarked.** A line with a mark has a directive,
or is complained about. -/
theorem find_eq_ok_none_iff {n : Nat} : find n t = .ok none ↔ Unmarked t := by
  constructor
  · intro h
    rw [unmarked_iff]
    -- the searches before it found something in every case but the last, which asks for the marks
    unfold find at h
    split at h
    · cases h
    · split at h
      · cases h
      · split at h
        · rename_i side value _
          cases hs : ofSide n t side value <;> rw [hs] at h <;> cases h
        · split at h
          · cases h
          · rename_i hmark
            simpa using hmark
  · intro h
    -- every directive begins with one of the marks, so that without them no search finds any
    have hlist : ¬ listOpening <:+: t := fun hin =>
      h listMarker (.inr rfl) (List.IsInfix.trans (List.IsPrefix.isInfix (by decide)) hin)
    have hcomment : ¬ commentToken <:+: t := fun hin =>
      h templateMarker (.inl rfl) (List.IsInfix.trans (List.IsPrefix.isInfix (by decide)) hin)
    have hdelimiter : ¬ delimiterOpening <:+: t := fun hin =>
      h templateMarker (.inl rfl) (List.IsInfix.trans (List.IsPrefix.isInfix (by decide)) hin)
    obtain ⟨h₁, h₂⟩ := unmarked_iff.1 h
    rw [find, findList?_eq_none hlist, Text.cut?_eq_none_iff.2 hcomment,
      findDelimiter?_eq_none hdelimiter, h₁, h₂]
    rfl

/-- What is found on a line does not depend on the number of the line. -/
theorem find_ok_of_find_ok {n k : Nat} {r : Option Directive} (h : find n t = .ok r) :
    find k t = .ok r := by
  unfold find at h ⊢
  -- the number is in the complaints alone, and what was found is no complaint
  split at h
  · exact h
  · split at h
    · exact h
    · split at h
      · rename_i side value _
        cases side with
        | start => exact h
        | stop => exact h
        | pair =>
          simp only [ofSide] at h ⊢
          split at h
          · exact h
          · cases h
      · split at h
        · cases h
        · rename_i hmark
          rw [if_neg hmark]
          exact h

/-! ### The line of a list template -/

/-- No line feed stands in an escaped text. -/
theorem not_mem_encode (block : Text) : '\n' ∉ Escape.encode block := by
  intro h
  obtain ⟨c, -, hc⟩ := List.mem_flatMap.1 h
  unfold Escape.encodeChar at hc
  split at hc
  · simp at hc
  · simp at hc
  · simp at hc
  · simp at hc
  · rename_i hfeed _
    rw [List.mem_singleton] at hc
    exact hfeed hc.symm

/-- The escaped text of a block ends at the quote that was put after it, since no quote in it is
without a backslash, and no backslash without a character that it escapes. -/
theorem escapedText?_encode (block rest : Text) :
    escapedText? (Escape.encode block ++ (Sign.patternClosing ++ rest)) =
      some (Escape.encode block) := by
  -- By induction on the block, one character of it at a time: an escape is two characters that
  -- are read together, and any other character is read by itself.
  induction block with
  | nil =>
    have hclose : Text.after? Sign.closing (Sign.closing ++ rest) = some rest :=
      Text.after?_append _ _
    show (Text.after? Sign.closing (Sign.closing ++ rest)).map (fun _ => []) = some []
    rw [hclose]
    rfl
  | cons c block ih =>
    have hcons : Escape.encode (c :: block) = Escape.encodeChar c ++ Escape.encode block :=
      List.flatMap_cons
    rw [hcons, List.append_assoc]
    unfold Escape.encodeChar
    split
    · simp [escapedText?, ih]
    · simp [escapedText?, ih]
    · simp [escapedText?, ih]
    · simp [escapedText?, ih]
    -- a character that is not escaped is neither of the two that are read in a special way
    · rename_i hslash hquote _ _
      rw [List.singleton_append, List.singleton_append, escapedText?.eq_def]
      split
      · rename_i e
        cases e
      · rename_i e
        exact absurd (List.cons.inj e).1 hquote
      · rename_i e
        exact absurd (List.cons.inj e).1 hslash
      · rename_i e
        exact absurd (List.cons.inj e).1 hslash
      · rename_i e
        exact absurd (List.cons.inj e).1 hslash
      · rename_i e
        obtain ⟨rfl, rfl⟩ := List.cons.inj e
        rw [ih]
        rfl

/-- The opening of a list template has its only brace at its beginning. -/
theorem listOpening_eq_cons : ∃ m, listOpening = '{' :: m ∧ '{' ∉ m :=
  ⟨listOpening.tail, by decide⟩

theorem findList?_append (hx : ¬ listOpening <:+: x) (block rest : Text) :
    findList? (x ++ (listOpening ++ Escape.encode block ++ Sign.patternClosing ++ rest)) =
      some block := by
  obtain ⟨m, hm, hmem⟩ := listOpening_eq_cons
  -- By induction on what stands before the template. The opening cannot begin there: it would lie
  -- within that text, or its brace would stand a second time in what is left of it.
  induction x with
  | nil =>
    rw [List.nil_append, List.append_assoc, List.append_assoc]
    have hafter : Text.after? listOpening
        (listOpening ++ (Escape.encode block ++ (Sign.patternClosing ++ rest))) = _ :=
      Text.after?_append _ _
    rw [hm, List.cons_append] at hafter ⊢
    rw [findList?, hm, hafter, Option.bind_some, escapedText?_encode]
    simp only [Escape.decode_encode]
  | cons d x ih =>
    rw [List.infix_cons_iff, not_or] at hx
    have hnone : Text.after? listOpening
        (d :: (x ++ (listOpening ++ Escape.encode block ++ Sign.patternClosing ++ rest))) =
          none := by
      rw [Text.after?_eq_none_iff]
      rintro ⟨t, ht⟩
      rw [← List.cons_append, List.append_assoc, List.append_assoc] at ht
      rcases List.append_eq_append_iff.1 ht with ⟨l, hl, -⟩ | ⟨l, hl, hr⟩
      · exact hx.1 ⟨l, hl.symm⟩
      · -- what is left of the opening would begin with its brace
        cases l with
        | nil => exact hx.1 ⟨[], by simpa using hl⟩
        | cons e l =>
          rw [hm, List.cons_append, List.cons_append, List.cons.injEq] at hr
          rw [hm, List.cons_append, List.cons.injEq] at hl
          exact hmem (by simp [hl.2, ← hr.1])
    rw [List.cons_append, findList?, hnone]
    exact ih hx.2

/-- **A list template is read back from its line**, in whatever form the line is looked at: with
its line end, without it, or without line ends at all. List templates are looked for first, so
that nothing in the block can get in the way. -/
theorem find_listLine {comment : Comment} (hstart : ¬ listOpening <:+: comment.start)
    {n : Nat} {block line : Text}
    (hline : ∃ e, line ++ e = listLine comment block ∧ ∀ c ∈ e, Text.isLineEnd c = true) :
    find n line = .ok (some (.listTemplate block)) := by
  obtain ⟨e, he, hends⟩ := hline
  have hlist : ∃ rest, line =
      comment.start ++ (listOpening ++ Escape.encode block ++ Sign.patternClosing ++ rest) := by
    have hwrap : listLine comment block =
        comment.start ++ (listOpening ++ Escape.encode block ++ Sign.patternClosing) ++
          (comment.stop ++ ['\n']) := by
      simp [listLine, Comment.wrap]
    rw [hwrap] at he
    rcases List.append_eq_append_iff.1 he.symm with ⟨l, hl, -⟩ | ⟨l, hl, hr⟩
    · exact ⟨l, by rw [hl, List.append_assoc]⟩
    · -- the braces that close the template are no line end
      cases l.eq_nil_or_concat with
      | inl hnil => exact ⟨[], by rw [List.append_nil, hl, hnil, List.append_nil]⟩
      | inr hcat =>
        obtain ⟨l', d, rfl⟩ := hcat
        have hd : d = '}' := by
          have hlast := congrArg List.getLast? hl
          simp [Sign.patternClosing, List.getLast?_append] at hlast
          exact hlast.symm
        have hend := hends d (by simp [hr])
        rw [hd] at hend
        cases hend
  obtain ⟨rest, rfl⟩ := hlist
  rw [find, findList?_append hstart]

end FieldedText.Directive
