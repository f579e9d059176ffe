/-
FieldedText/Proofs/Lines.lean

Lines of a text that is put together from pieces.

A text is *complete* when it is empty or ends with a line feed: whatever comes
after it begins a line.  The lines of two pieces of which the first is complete
are the lines of the one and then those of the other (`lines_append`), and so a
document that is written piece by piece has the lines of its pieces.

The second part is about the ends of lines.  The content of a line and its plain
form differ from it by carriage returns and line feeds at its end only; those
are white space, and no mark of the markup holds one, so neither trimming nor
the search for such a mark can tell the three forms apart.
-/
import Mathlib.Data.List.TakeWhile
import FieldedText.Proofs.Search
import FieldedText.Text.Blank
import FieldedText.Text.Lines

namespace FieldedText.Text

variable {a b t line : Text} {ls : List Text}

/-! ### Complete texts -/

/-- A text after which a line begins: it is empty or ends with a line feed. This is what a piece
must be for the next one not to run into its last line. -/
def Complete (text : Text) : Prop := ∀ c ∈ text.getLast?, c = '\n'

instance (text : Text) : Decidable text.Complete :=
  match h : text.getLast? with
  | none => isTrue (by simp [Complete, h])
  | some c => decidable_of_iff (c = '\n') (by simp [Complete, h])

theorem complete_nil : Complete [] := by
  simp [Complete]

theorem complete_append_iff (hb : b ≠ []) : Complete (a ++ b) ↔ Complete b := by
  obtain ⟨c, hc⟩ := Option.ne_none_iff_exists'.1 (fun h => hb (List.getLast?_eq_none_iff.1 h))
  simp [Complete, List.getLast?_append, hc]

theorem complete_concat (a : Text) : Complete (a ++ ['\n']) := by
  simp [Complete]

theorem Complete.append (ha : Complete a) (hb : Complete b) : Complete (a ++ b) := by
  by_cases h : b = []
  · rwa [h, List.append_nil]
  · exact (complete_append_iff h).2 hb

theorem Complete.of_append (h : Complete (a ++ b)) : Complete b := by
  by_cases hb : b = []
  · rw [hb]
    exact complete_nil
  · exact (complete_append_iff hb).1 h

/-- A complete text that is not empty is a text and a line feed. -/
theorem Complete.exists_eq (ht : Complete t) (h : t ≠ []) : ∃ u, t = u ++ ['\n'] := by
  refine ⟨t.dropLast, ?_⟩
  have hlast := ht (t.getLast h) (List.getLast?_eq_some_getLast h)
  rw [← hlast, List.dropLast_concat_getLast]

/-- A text that does not end with a line feed. What is written behind it goes on on its last line.
-/
def Unended (text : Text) : Prop := ∀ c ∈ text.getLast?, c ≠ '\n'

theorem unended_nil : Unended [] := by
  simp [Unended]

theorem unended_append_iff (hb : b ≠ []) : Unended (a ++ b) ↔ Unended b := by
  obtain ⟨c, hc⟩ := Option.ne_none_iff_exists'.1 (fun h => hb (List.getLast?_eq_none_iff.1 h))
  simp [Unended, List.getLast?_append, hc]

theorem Unended.of_append (h : Unended (a ++ b)) : Unended b := by
  by_cases hb : b = []
  · rw [hb]
    exact unended_nil
  · exact (unended_append_iff hb).1 h

/-- A text ends with a line feed or not; only the empty one counts as both. -/
theorem unended_iff : Unended t ↔ t = [] ∨ ¬ Complete t := by
  cases hlast : t.getLast? with
  | none =>
    have hnil := List.getLast?_eq_none_iff.1 hlast
    simp [Unended, hnil]
  | some c =>
    have hne : t ≠ [] := by
      rintro rfl
      cases hlast
    simp [Unended, Complete, hlast, hne]

/-! ### Lines -/

/-- A text that is one line: a line feed is nowhere but possibly at its end. -/
def IsLine (line : Text) : Prop := line ≠ [] ∧ '\n' ∉ line.dropLast

instance (line : Text) : Decidable (IsLine line) :=
  inferInstanceAs (Decidable (line ≠ [] ∧ '\n' ∉ line.dropLast))

/-- What the first line of a text is, and what is left after it. With this a proof about lines can
go from one line to the next instead of from character to character. -/
theorem eq_of_lines_eq_cons (h : lines t = line :: ls) :
    IsLine line ∧ (ls ≠ [] → Complete line) ∧ lines ls.flatten = ls := by
  induction t generalizing line with
  | nil => cases h
  | cons c t ih =>
    rw [lines] at h
    -- A line feed is a line by itself; any other character goes to the front of the first line of
    -- what follows, or makes a line of its own at the very end.
    split at h
    · obtain ⟨rfl, rfl⟩ := List.cons.inj h
      refine ⟨by simp [IsLine], fun _ => by simp [Complete], ?_⟩
      rw [flatten_lines]
    · rename_i hc
      cases hl : lines t with
      | nil =>
        rw [hl] at h
        obtain ⟨rfl, rfl⟩ := List.cons.inj h
        exact ⟨by simp [IsLine], fun hne => absurd rfl hne, rfl⟩
      | cons l rest =>
        rw [hl] at h
        obtain ⟨rfl, rfl⟩ := List.cons.inj h
        obtain ⟨⟨hne, hmem⟩, hcomplete, hlines⟩ := ih hl
        refine ⟨⟨by simp, ?_⟩, fun hr => ?_, hlines⟩
        · rw [List.dropLast_cons_of_ne_nil hne, List.mem_cons, not_or]
          exact ⟨fun e => hc e.symm, hmem⟩
        · exact (complete_append_iff (a := [c]) hne).2 (hcomplete hr)

theorem lines_eq_nil_iff : lines t = [] ↔ t = [] := by
  constructor
  · intro h
    rw [← flatten_lines t, h]
    rfl
  · rintro rfl
    rfl

theorem isLine_of_mem_lines (h : line ∈ lines t) : IsLine line := by
  generalize hls : lines t = ls at h
  induction ls generalizing t with
  | nil => cases h
  | cons l ls ih =>
    obtain ⟨hl, -, hrest⟩ := eq_of_lines_eq_cons hls
    rcases List.mem_cons.1 h with rfl | h
    · exact hl
    · exact ih hrest h

theorem lines_cons_of_ne {c : Char} (hc : c ≠ '\n') (hl : lines t = line :: ls) :
    lines (c :: t) = (c :: line) :: ls := by
  rw [lines, if_neg hc, hl]

/-- **The lines of a text that follows a complete one follow its lines.** -/
theorem lines_append (ha : Complete a) (b : Text) : lines (a ++ b) = lines a ++ lines b := by
  induction a with
  | nil => rfl
  | cons c a ih =>
    -- What is left of a complete text is complete too, and it is empty only behind a line feed.
    by_cases hc : c = '\n'
    · have hcomplete : Complete a := by
        by_cases hnil : a = []
        · rw [hnil]
          exact complete_nil
        · exact (complete_append_iff (a := [c]) hnil).1 ha
      rw [List.cons_append, lines, if_pos hc, ih hcomplete, lines, if_pos hc]
      rfl
    · have hnil : a ≠ [] := by
        rintro rfl
        exact hc (ha c (by simp))
      have hcomplete : Complete a := (complete_append_iff (a := [c]) hnil).1 ha
      cases hl : lines a with
      | nil => exact absurd (lines_eq_nil_iff.1 hl) hnil
      | cons l ls =>
        have hab : lines (a ++ b) = l :: (ls ++ lines b) := by
          rw [ih hcomplete, hl]
          rfl
        rw [List.cons_append, lines_cons_of_ne hc hab, lines_cons_of_ne hc hl]
        rfl

/-- A line among the lines of a text begins after a complete text, and ends with a line feed if
anything comes after it. -/
theorem of_lines_eq_append {pre post : List Text} (h : lines t = pre ++ line :: post) :
    t = pre.flatten ++ line ++ post.flatten ∧ Complete pre.flatten ∧ IsLine line ∧
      (post.flatten ≠ [] → Complete line) := by
  induction pre generalizing t with
  | nil =>
    rw [List.nil_append] at h
    obtain ⟨hline, hcomplete, -⟩ := eq_of_lines_eq_cons h
    refine ⟨?_, complete_nil, hline, ?_⟩
    · rw [← flatten_lines t, h]
      rfl
    · intro hpost
      refine hcomplete ?_
      rintro rfl
      exact hpost rfl
  -- the lines before are complete since another line follows each of them
  | cons first pre ih =>
    rw [List.cons_append] at h
    obtain ⟨-, hcomplete, hrest⟩ := eq_of_lines_eq_cons h
    obtain ⟨htext, hpre, hline, hpost⟩ := ih hrest
    refine ⟨?_, ?_, hline, hpost⟩
    · rw [← flatten_lines t, h, List.flatten_cons, htext, List.flatten_cons]
      simp only [List.append_assoc]
    · rw [List.flatten_cons]
      exact (hcomplete (by simp)).append hpre

theorem lines_of_isLine (h : IsLine line) : lines line = [line] := by
  induction line with
  | nil => exact absurd rfl h.1
  | cons c line ih =>
    cases line with
    | nil => by_cases hc : c = '\n' <;> simp [lines, hc]
    | cons d line =>
      have hmem := h.2
      rw [List.dropLast_cons_of_ne_nil (by simp), List.mem_cons, not_or] at hmem
      have htail : IsLine (d :: line) := ⟨by simp, hmem.2⟩
      exact lines_cons_of_ne (fun e => hmem.1 e.symm) (ih htail)

theorem isLine_concat (h : '\n' ∉ t) : IsLine (t ++ ['\n']) := by
  simpa [IsLine] using h

/-- Pieces of which all but the last are complete have the lines of each piece, in order. -/
theorem lines_flatten (h : ∀ text ∈ ls.dropLast, Complete text) :
    lines ls.flatten = ls.flatMap lines := by
  induction ls with
  | nil => rfl
  | cons text ls ih =>
    rw [List.flatten_cons, List.flatMap_cons]
    cases ls with
    | nil => simp
    | cons u ls =>
      rw [List.dropLast_cons_of_ne_nil (by simp)] at h
      rw [lines_append (h text (List.mem_cons_self ..)),
        ih fun v hv => h v (List.mem_cons_of_mem text hv)]

/-- A line that is written after a complete text, and before nothing unless it is complete
itself, is a line of the whole. -/
theorem mem_lines_append (ha : Complete a) (hline : IsLine line) (hc : b ≠ [] → Complete line) :
    line ∈ lines (a ++ line ++ b) := by
  by_cases hb : b = []
  · rw [hb, List.append_nil, lines_append ha, lines_of_isLine hline]
    simp
  · rw [lines_append (ha.append (hc hb)), lines_append ha, lines_of_isLine hline]
    simp

/-- A line feed at the end of a text that has none ends its last line. -/
theorem lines_append_lineFeed (h : t.Unended) (hne : t ≠ []) :
    ∃ pre last, lines t = pre ++ [last] ∧ lines (t ++ ['\n']) = pre ++ [last ++ ['\n']] := by
  induction t with
  | nil => exact absurd rfl hne
  | cons c t ih =>
    by_cases ht : t = []
    · subst ht
      have hc : c ≠ '\n' := h c rfl
      exact ⟨[], [c], by simp [lines, hc], by simp [lines, hc]⟩
    · obtain ⟨pre, last, hlines, hended⟩ := ih (unended_append_iff (a := [c]) ht |>.1 h) ht
      by_cases hc : c = '\n'
      · exact ⟨['\n'] :: pre, last, by simp [lines, hc, hlines], by simp [lines, hc, hended]⟩
      · cases pre with
        | nil =>
          exact ⟨[], c :: last, lines_cons_of_ne hc hlines, lines_cons_of_ne hc hended⟩
        | cons first pre =>
          exact ⟨(c :: first) :: pre, last, lines_cons_of_ne hc hlines,
            lines_cons_of_ne hc hended⟩

/-- A text that occurs in a whole without a line feed occurs in one of its lines. The marks of the
markup are of this kind, so they can be looked for line by line. -/
theorem exists_line_of_infix {m : Text} (hm : '\n' ∉ m) (hne : m ≠ []) (h : m <:+: t) :
    ∃ line ∈ lines t, m <:+: line := by
  generalize hls : lines t = ls
  induction ls generalizing t with
  | nil =>
    rw [lines_eq_nil_iff.1 hls] at h
    exact absurd (List.infix_nil.1 h) hne
  | cons l ls ih =>
    obtain ⟨-, hcomplete, hrest⟩ := eq_of_lines_eq_cons hls
    have htext : t = l ++ ls.flatten := by
      rw [← flatten_lines t, hls]
      rfl
    -- Where a line feed ends the first line, an occurrence lies before it or behind it, since it
    -- holds no line feed itself.
    by_cases hnil : ls = []
    · subst hnil
      rw [htext, List.flatten_nil, List.append_nil] at h
      exact ⟨l, List.mem_cons_self .., h⟩
    · obtain ⟨u, hu⟩ := (hcomplete hnil).exists_eq (by
        rintro rfl
        exact absurd rfl (eq_of_lines_eq_cons hls).1.1)
      rw [htext, hu, List.append_assoc, List.singleton_append, infix_append_cons_iff hm] at h
      rcases h with h | h
      · exact ⟨l, List.mem_cons_self .., hu ▸ h.trans (List.prefix_append u _).isInfix⟩
      · obtain ⟨line, hmem, hin⟩ := ih h hrest
        exact ⟨line, List.mem_cons_of_mem l hmem, hin⟩

/-! ### The ends of lines -/

theorem isSpace_of_isLineEnd {c : Char} (h : isLineEnd c = true) : isSpace c = true := by
  simp only [isLineEnd, Bool.or_eq_true, beq_iff_eq] at h
  rcases h with rfl | rfl <;> decide

/-- A text is what is left of it at its beginning and what is trimmed at its end. -/
theorem trimEndBy_append (p : Char → Bool) (t : Text) :
    ∃ e, t = trimEndBy p t ++ e ∧ ∀ c ∈ e, p c = true := by
  refine ⟨(t.reverse.takeWhile p).reverse, ?_, ?_⟩
  · rw [trimEndBy, ← List.reverse_append, List.takeWhile_append_dropWhile, List.reverse_reverse]
  · intro c hc
    exact List.all_eq_true.1 (List.all_takeWhile (l := t.reverse)) c (List.mem_reverse.1 hc)

theorem content_append (line : Text) :
    ∃ e, line = content line ++ e ∧ ∀ c ∈ e, isLineEnd c = true :=
  trimEndBy_append isLineEnd line

theorem plain_append (line : Text) :
    ∃ e, line = plain line ++ e ∧ ∀ c ∈ e, isLineEnd c = true := by
  unfold plain
  split
  · rename_i rest h
    exact ⟨['\r', '\n'], by simpa using congrArg List.reverse h, by simp [isLineEnd]⟩
  · rename_i rest _ h
    exact ⟨['\n'], by simpa using congrArg List.reverse h, by simp [isLineEnd]⟩
  · exact ⟨[], by simp, by simp⟩

/-- The content of a line is the same with one more line end after it. -/
theorem content_append_lineFeed (line : Text) : content (line ++ ['\n']) = content line := by
  simp [content, trimEndBy, isLineEnd]

/-- The plain form of a line has no line feed. -/
theorem not_mem_plain (h : IsLine line) : '\n' ∉ plain line := by
  have hmem := h.2
  unfold plain
  -- The three cases of the plain form: a carriage return and a line feed are dropped, or a line
  -- feed alone, or nothing. A line has no line feed but at its end, so in the last case there is
  -- none.
  split
  · rename_i rest hrest
    have hline : line = rest.reverse ++ ['\r', '\n'] := by
      simpa using congrArg List.reverse hrest
    rw [hline] at hmem
    simp at hmem
    simpa using hmem
  · rename_i rest _ hrest
    have hline : line = rest.reverse ++ ['\n'] := by
      simpa using congrArg List.reverse hrest
    rw [hline] at hmem
    simpa using hmem
  · rename_i _ hlast
    intro hin
    rw [← List.dropLast_concat_getLast h.1, List.mem_append, List.mem_singleton] at hin
    rcases hin with hin | hin
    · exact hmem hin
    · refine hlast line.dropLast.reverse ?_
      conv => lhs; rw [← List.dropLast_concat_getLast h.1, ← hin]
      simp

/-- A mark that holds no character of a line's end. -/
def Inline (mark : Text) : Prop := mark ≠ [] ∧ mark.any isLineEnd = false

theorem infix_of_append_ends {m e : Text} (hm : Inline m) (he : ∀ c ∈ e, isLineEnd c = true) :
    m <:+: t ++ e ↔ m <:+: t := by
  refine infix_append_left_iff hm.1 fun c hc hmem => ?_
  exact List.any_eq_false.1 hm.2 c hmem (he c hc)

theorem infix_content_iff {m : Text} (hm : Inline m) : m <:+: content line ↔ m <:+: line := by
  obtain ⟨e, he, hends⟩ := content_append line
  conv => rhs; rw [he]
  exact (infix_of_append_ends hm hends).symm

theorem infix_plain_iff {m : Text} (hm : Inline m) : m <:+: plain line ↔ m <:+: line := by
  obtain ⟨e, he, hends⟩ := plain_append line
  conv => rhs; rw [he]
  exact (infix_of_append_ends hm hends).symm

theorem isBlank_eq_false {c : Char} (hc : isSpace c = false) (h : c ∈ t) : isBlank t = false := by
  rw [isBlank, List.all_eq_false]
  exact ⟨c, h, by simp [hc]⟩

theorem isBlank_content (line : Text) : isBlank (content line) = isBlank line := by
  obtain ⟨e, he, hends⟩ := content_append line
  conv => rhs; rw [he, isBlank, List.all_append]
  have hall : e.all isSpace = true :=
    List.all_eq_true.2 fun c hc => isSpace_of_isLineEnd (hends c hc)
  rw [hall, Bool.and_true]
  rfl

/-! ### Trimming -/

theorem trimStart_append (a b : Text) :
    trimStart (a ++ b) = if trimStart a = [] then trimStart b else trimStart a ++ b := by
  unfold trimStart
  rw [List.dropWhile_append]
  simp only [List.isEmpty_iff]

theorem trimEnd_append (a b : Text) :
    trimEnd (a ++ b) = if trimEnd b = [] then trimEnd a else a ++ trimEnd b := by
  unfold trimEnd trimEndBy
  rw [List.reverse_append, List.dropWhile_append]
  simp only [List.isEmpty_iff, List.reverse_eq_nil_iff]
  split
  · rfl
  · rw [List.reverse_append, List.reverse_reverse]

theorem trimEnd_of_space {e : Text} (he : ∀ c ∈ e, isSpace c = true) : trimEnd e = [] := by
  simpa [trimEnd, trimEndBy] using he

theorem trimEnd_append_of_space {e : Text} (he : ∀ c ∈ e, isSpace c = true) (t : Text) :
    trimEnd (t ++ e) = trimEnd t := by
  rw [trimEnd_append, if_pos (trimEnd_of_space he)]

theorem trimEnd_append_of_not_space {c : Char} (hc : isSpace c = false) (a t : Text) :
    trimEnd (a ++ c :: t) = a ++ c :: trimEnd t := by
  have hsingle : trimEnd [c] = [c] := by simp [trimEnd, trimEndBy, hc]
  have hcons : trimEnd (c :: t) = c :: trimEnd t := by
    rw [← List.singleton_append, trimEnd_append, hsingle]
    split
    · rename_i hnil
      rw [hnil]
    · rfl
  rw [trimEnd_append, hcons, if_neg (List.cons_ne_nil _ _)]

theorem trimStart_append_of_not_space {c : Char} (hc : isSpace c = false) (a t : Text) :
    trimStart (a ++ c :: t) = trimStart a ++ c :: t := by
  rw [trimStart_append]
  split
  · rename_i hnil
    rw [hnil, trimStart, List.dropWhile_cons_of_neg (by simp [hc])]
    rfl
  · rfl

theorem trim_append_of_space {e : Text} (he : ∀ c ∈ e, isSpace c = true) (t : Text) :
    trim (t ++ e) = trim t := by
  rw [trim, trimStart_append]
  split
  · rename_i hnil
    have hblank : trimStart e = [] := List.dropWhile_eq_nil_iff.2 he
    rw [trim, hnil, hblank]
  · exact trimEnd_append_of_space he _

theorem trim_content (line : Text) : trim (content line) = trim line := by
  obtain ⟨e, he, hends⟩ := content_append line
  conv => rhs; rw [he]
  exact (trim_append_of_space (fun c hc => isSpace_of_isLineEnd (hends c hc)) _).symm

/-- White space is taken off the beginning of a text, and the next character is none. -/
theorem trimStart_split (t : Text) :
    ∃ ws, (∀ c ∈ ws, isSpace c = true) ∧ t = ws ++ trimStart t ∧
      ∀ c ∈ (trimStart t).head?, isSpace c = false := by
  refine ⟨t.takeWhile isSpace, List.all_eq_true.1 List.all_takeWhile,
    List.takeWhile_append_dropWhile.symm, fun c hc => ?_⟩
  have hhead := List.head?_dropWhile_not isSpace t
  rw [← trimStart, Option.mem_def.1 hc] at hhead
  simpa using hhead

/-- Trimming the beginning as well takes off white space only. -/
theorem trimEnd_eq_append (t : Text) :
    ∃ e, trimEnd t = e ++ trim t ∧ ∀ c ∈ e, isSpace c = true := by
  obtain ⟨ws, hspace, hsplit, -⟩ := trimStart_split t
  have htrim : trimEnd t = if trim t = [] then [] else ws ++ trim t := by
    conv => lhs; rw [hsplit, trimEnd_append, trimEnd_of_space hspace]
    rfl
  by_cases hnil : trim t = []
  · exact ⟨[], by rw [htrim, if_pos hnil, hnil]; rfl, by simp⟩
  · exact ⟨ws, by rw [htrim, if_neg hnil], hspace⟩

/-- Trimming two texts at once takes off less than trimming each of them, by white space between
them. -/
theorem trim_append (a b : Text) :
    ∃ e, trim (a ++ b) = trim a ++ e ++ trim b ∧ ∀ c ∈ e, isSpace c = true := by
  obtain ⟨after, hafter, hafterspace⟩ := trimEndBy_append isSpace (trimStart a)
  obtain ⟨before, hbefore, hbeforespace⟩ := trimEnd_eq_append b
  rw [trim, trimStart_append]
  -- a piece that is blank is trimmed off as a whole; otherwise what was trimmed between the two
  -- is left
  split
  · rename_i hblank
    exact ⟨[], by rw [trim.eq_1 a, hblank]; rfl, by simp⟩
  · rw [trimEnd_append]
    split
    · rename_i hblank
      rw [hblank] at hbefore
      have hnil : trim b = [] := (List.append_eq_nil_iff.1 hbefore.symm).2
      exact ⟨[], by rw [hnil, List.append_nil, List.append_nil, trim], by simp⟩
    · refine ⟨after ++ before, ?_, ?_⟩
      · rw [hbefore]
        conv => lhs; rw [hafter]
        simp [trim, trimEnd]
      · intro c hc
        exact (List.mem_append.1 hc).elim (hafterspace c) (hbeforespace c)

theorem trim_trim (t : Text) : trim (trim t) = trim t := by
  obtain ⟨e, he, hspace⟩ := trimEndBy_append isSpace (trimStart t)
  have hend : trimEnd (trim t) = trim t := by
    have htrim := trimEnd_append_of_space hspace (trim t)
    rw [← htrim]
    exact congrArg trimEnd he.symm
  have hstart : trimStart (trim t) = trim t := by
    cases htrim : trim t with
    | nil => rfl
    | cons c u =>
      obtain ⟨-, -, -, hhead⟩ := trimStart_split t
      have hcons : trimStart t = c :: (u ++ e) := by
        rw [he, ← List.cons_append, ← htrim]
        rfl
      rw [hcons] at hhead
      have hc := hhead c rfl
      rw [trimStart, List.dropWhile_cons_of_neg (by simp [hc])]
  rw [trim, hstart, hend]

/-- White space at the beginning does not count for what is trimmed. -/
theorem trim_space_append {ws : Text} (hws : ∀ c ∈ ws, isSpace c = true) (t : Text) :
    trim (ws ++ t) = trim t := by
  rw [trim, trim, trimStart, List.dropWhile_append_of_pos hws, trimStart]

/-- A text and the white space that is trimmed off it. -/
theorem exists_eq_trim (t : Text) : ∃ a b, t = a ++ trim t ++ b ∧
    (∀ c ∈ a, isSpace c = true) ∧ ∀ c ∈ b, isSpace c = true := by
  obtain ⟨a, ha, hsplit, -⟩ := trimStart_split t
  obtain ⟨b, hb, hspace⟩ := trimEndBy_append isSpace (trimStart t)
  refine ⟨a, b, ?_, ha, hspace⟩
  conv => lhs; rw [hsplit, hb]
  rw [List.append_assoc]
  rfl

/-- Trimming leaves what can be seen of a text. -/
theorem infix_trim_iff {m t : Text} (hm : m ≠ []) (hvisible : m.any isSpace = false) :
    m <:+: trim t ↔ m <:+: t := by
  obtain ⟨a, b, ht, ha, hb⟩ := exists_eq_trim t
  have hspace : ∀ {ws : Text}, (∀ c ∈ ws, isSpace c = true) → ∀ c ∈ ws, c ∉ m := by
    intro ws hws c hc hmem
    exact List.any_eq_false.1 hvisible c hmem (hws c hc)
  constructor
  · intro h
    rw [ht]
    exact h.trans ⟨a, b, rfl⟩
  · intro h
    rw [ht, infix_append_left_iff hm (hspace hb)] at h
    rcases List.infix_append_iff_ne_nil.1 h with h | h | ⟨s, _, hs, -, rfl, hsuffix, -⟩
    · obtain ⟨c, m, rfl⟩ := List.exists_cons_of_ne_nil hm
      exact absurd (List.mem_cons_self ..) (hspace ha c (h.subset (List.mem_cons_self ..)))
    · exact h
    · obtain ⟨c, s, rfl⟩ := List.exists_cons_of_ne_nil hs
      exact absurd (by simp) (hspace ha c (hsuffix.subset (List.mem_cons_self ..)))

end FieldedText.Text
