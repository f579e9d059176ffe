/-
FieldedText/Proofs/Delimiter.lean

Delimiters and the line feed at the end of a text.

A delimiter whose sides hold no line feed never takes the line feed that ends a
text into a value: something is left after every value that it finds there
(`unended_of_locate?`).  Nor can it tell whether a text that does not end
with a line feed is given one (`locate?_append_lineFeed`).  A text may therefore
be ended by a blank line after its values were found in it.
-/
import FieldedText.Markup.Delimiter
import FieldedText.Proofs.Lines

namespace FieldedText

variable {before t lead value rest start stop : Text}

/-- A mark begins a text or not, whatever comes behind a character that is not in the mark. Such a
character keeps the mark from reaching further. -/
theorem Text.after?_append_cons {mark : Text} {c : Char} (hc : c ∉ mark) (t more : Text) :
    Text.after? mark (t ++ c :: more) = (Text.after? mark t).map (· ++ c :: more) := by
  induction mark generalizing t with
  | nil => rfl
  | cons m mark ih =>
    rw [List.mem_cons, not_or] at hc
    cases t with
    | nil => simp [Text.after?, Ne.symm hc.1]
    | cons d t =>
      by_cases h : m = d
      · simp [Text.after?, h, ih hc.2]
      · simp [Text.after?, h]

theorem Text.after?_nil {mark : Text} (hm : mark ≠ []) : Text.after? mark [] = none := by
  cases mark with
  | nil => exact absurd rfl hm
  | cons m mark => rfl

theorem Text.after?_lineFeed {mark : Text} (hm : '\n' ∉ mark) (hne : mark ≠ []) (more : Text) :
    Text.after? mark ('\n' :: more) = none := by
  have h := Text.after?_append_cons hm [] more
  rwa [Text.after?_nil hne] at h

/-- Whether a character does not end lines. -/
def Text.inLine (c : Char) : Bool := !isLineEnd c

namespace Occurrence

/-! ### The rest of a line -/

/-- What may stand between a value and the end of its line, and what follows it: a carriage
return, if the line or the text ends behind it. -/
def lineTail? : Text → Option (Text × Text)
  | [] => some ([], [])
  | c :: t =>
    if c = '\r' ∧ t.head?.all (· == '\n') then some (['\r'], t)
    else if c = '\n' then some ([], c :: t)
    else none

theorem lineTail?_eq_none {c : Char} (h : Text.inLine c = true) (t : Text) :
    lineTail? (c :: t) = none := by
  have hc : c ≠ '\n' ∧ c ≠ '\r' := by simpa [Text.inLine, Text.isLineEnd] using h
  simp [lineTail?, hc.1, hc.2]

/-- The only thing that a carriage return may have behind it is a line feed. -/
theorem lineTail?_append_lineFeed (t more : Text) :
    lineTail? (t ++ '\n' :: more) =
      (lineTail? t).map fun tail => (tail.1, tail.2 ++ '\n' :: more) := by
  cases t with
  | nil => simp [lineTail?]
  | cons c t =>
    have hhead : (t ++ '\n' :: more).head?.all (· == '\n') = t.head?.all (· == '\n') := by
      cases t <;> simp
    rw [List.cons_append, lineTail?, lineTail?, hhead]
    split
    · rfl
    · split <;> rfl

/-- A line's rest as a value that ends at a given place. There is at most one place where it is
one, which is how the search is compared with others that try several. -/
def lineCut? (cut : Text × Text) : Option Occurrence :=
  (lineTail? cut.2).map fun tail => ⟨[], [], cut.1, tail.1, tail.2⟩

theorem lineCut?_cons (c : Char) (u v : Text) :
    lineCut? (c :: u, v) =
      (lineCut? (u, v)).map fun found => { found with value := c :: found.value } := by
  rw [lineCut?, lineCut?, Option.map_map]
  rfl

theorem lineRest?_eq (t : Text) :
    lineRest? t = lineCut? (t.takeWhile Text.inLine, t.dropWhile Text.inLine) := by
  have hkind : (fun c => !Text.isLineEnd c) = Text.inLine := rfl
  unfold lineRest? lineCut?
  simp only [hkind]
  generalize t.dropWhile Text.inLine = v
  match v with
  | [] => rfl
  | c :: v =>
    by_cases hn : c = '\n'
    · rw [hn]
      rfl
    · by_cases hr : c = '\r'
      · rw [hr]
        cases v with
        | nil => rfl
        | cons d v => by_cases hd : d = '\n' <;> simp [lineTail?, hd]
      · simp [lineTail?, hn, hr]

/-- A line's rest is a value and what closes it, with nothing before. -/
theorem sides_of_lineRest? {found : Occurrence} (h : lineRest? t = some found) :
    found.skipped = [] ∧ found.opening = [] := by
  rw [lineRest?_eq, lineCut?] at h
  obtain ⟨tail, -, rfl⟩ := Option.map_eq_some_iff.1 h
  exact ⟨rfl, rfl⟩

theorem lineRest?_cons {c : Char} (hc : Text.inLine c = true) (t : Text) :
    lineRest? (c :: t) =
      (lineRest? t).map fun found => { found with value := c :: found.value } := by
  rw [lineRest?_eq, lineRest?_eq, List.takeWhile_cons_of_pos hc, List.dropWhile_cons_of_pos hc,
    lineCut?_cons]

theorem lineRest?_cons_of_lineEnd {c : Char} (hc : Text.inLine c = false) (t : Text) :
    lineRest? (c :: t) = lineCut? ([], c :: t) := by
  rw [lineRest?_eq, List.takeWhile_cons_of_neg (by simp [hc]),
    List.dropWhile_cons_of_neg (by simp [hc])]

/-! ### Finds in a text that is ended -/

/-- The same find, with more text behind what was not searched any more. Only the last of the five
pieces grows. -/
def extend (more : Text) (found : Occurrence) : Occurrence :=
  { found with rest := found.rest ++ more }

/-- The same find, with a line feed at the end of what was not searched any more. -/
def endLine (found : Occurrence) : Occurrence := { found with rest := found.rest ++ ['\n'] }

/-- What stands on the lines behind does not matter to the rest of a line. -/
theorem lineRest?_append_lineFeed (t more : Text) :
    lineRest? (t ++ '\n' :: more) = (lineRest? t).map (extend ('\n' :: more)) := by
  induction t with
  | nil => simp [lineRest?, Text.isLineEnd, extend]
  | cons c t ih =>
    cases hc : Text.inLine c with
    | true =>
      rw [List.cons_append, lineRest?_cons hc, lineRest?_cons hc, ih]
      cases lineRest? t <;> rfl
    | false =>
      rw [List.cons_append, lineRest?_cons_of_lineEnd hc, lineRest?_cons_of_lineEnd hc, lineCut?,
        lineCut?, ← List.cons_append, lineTail?_append_lineFeed]
      cases lineTail? (c :: t) <;> rfl

theorem afterStart?_append_lineFeed (hs : '\n' ∉ start) (hne : start ≠ []) (t more : Text) :
    afterStart? start (t ++ '\n' :: more) = (afterStart? start t).map (extend ('\n' :: more)) := by
  have hafter (c : Char) (u : Text) : Text.after? start (c :: (u ++ '\n' :: more)) =
      (Text.after? start (c :: u)).map (· ++ '\n' :: more) :=
    Text.after?_append_cons hs (c :: u) more
  -- By induction on the line. The start does not reach over the line feed, and so is found behind
  -- the line or on it just as before; the rest of the line ends at the line feed in any case.
  induction t with
  | nil =>
    simp [afterStart?, Text.after?_lineFeed hs hne]
  | cons c t ih =>
    rw [List.cons_append, afterStart?, afterStart?, ih, hafter]
    by_cases hc : c = '\n'
    · simp only [if_pos hc]
      cases Text.after? start (c :: t) with
      | none => rfl
      | some inner =>
        simp only [Option.map_some, Option.bind_eq_bind, Option.bind_some,
          lineRest?_append_lineFeed]
        cases lineRest? inner <;> rfl
    · simp only [if_neg hc]
      cases afterStart? start t with
      | some found => rfl
      | none =>
        cases Text.after? start (c :: t) with
        | none => rfl
        | some inner =>
          simp only [Option.map_some, Option.map_none, Option.bind_eq_bind, Option.bind_some,
            lineRest?_append_lineFeed]
          cases lineRest? inner <;> rfl

theorem untilStop?_append_lineFeed (hs : '\n' ∉ stop) (hne : stop ≠ []) (t more : Text) :
    untilStop? stop (t ++ '\n' :: more) = (untilStop? stop t).map (extend ('\n' :: more)) := by
  have hafter (c : Char) (u : Text) : Text.after? stop (c :: (u ++ '\n' :: more)) =
      (Text.after? stop (c :: u)).map (· ++ '\n' :: more) :=
    Text.after?_append_cons hs (c :: u) more
  induction t with
  | nil =>
    simp [untilStop?, Text.after?_lineFeed hs hne, Text.after?_nil hne]
  | cons c t ih =>
    rw [List.cons_append, untilStop?, untilStop?, ih, hafter]
    cases Text.after? stop (c :: t) with
    | some rest => rfl
    | none =>
      by_cases hc : c = '\n'
      · simp [hc]
      · simp only [Option.map_none, if_neg hc]
        cases untilStop? stop t <;> rfl

theorem onSomeLine?_append_lineFeed {attempt : Text → Option Occurrence}
    (hattempt : ∀ t, attempt (t ++ ['\n']) = (attempt t).map endLine) (hnil : attempt [] = none)
    (fresh : Bool) (t : Text) :
    onSomeLine? attempt fresh (t ++ ['\n']) = (onSomeLine? attempt fresh t).map endLine := by
  induction t generalizing fresh with
  | nil =>
    -- the empty text and the line feed by itself are tried at the end of the search
    have hline : attempt ['\n'] = none := by
      have h := hattempt []
      rwa [hnil] at h
    simp [onSomeLine?, hline, hnil]
  | cons c t ih =>
    have hc : attempt (c :: (t ++ ['\n'])) = (attempt (c :: t)).map endLine := hattempt (c :: t)
    rw [List.cons_append, onSomeLine?, onSomeLine?, ih, hc]
    have hskip (later : Option Occurrence) : (later.map endLine).map (skip [c]) =
        (later.map (skip [c])).map endLine := by
      cases later <;> rfl
    cases fresh with
    | true => cases attempt (c :: t) <;> simp [hskip]
    | false => simp [hskip]

theorem between?_eq (start stop t : Text) :
    between? start stop t = (Text.cut? start t).bind fun outer =>
      (Text.cut? stop outer.2).map fun inner => ⟨outer.1, start, inner.1, stop, inner.2⟩ := by
  unfold between?
  cases Text.cut? start t with
  | none => rfl
  | some outer =>
    obtain ⟨skipped, inner⟩ := outer
    simp only [Option.bind_eq_bind, Option.bind_some]
    cases Text.cut? stop inner <;> rfl

/-- What a delimiter with both sides finds stays found when more text comes. -/
theorem between?_append {found : Occurrence} (h : between? start stop t = some found)
    (more : Text) :
    between? start stop (t ++ more) = some { found with rest := found.rest ++ more } := by
  simp only [between?, Option.bind_eq_bind, Option.bind_eq_some_iff] at h ⊢
  obtain ⟨⟨skipped, inner⟩, hstart, ⟨value, rest⟩, hstop, h⟩ := h
  cases h
  exact ⟨_, Text.cut?_append_right hstart more, _, Text.cut?_append_right hstop more, rfl⟩

theorem sides_of_whole (t : Text) :
    (whole t).skipped = [] ∧ (whole t).opening = [] ∧ (whole t).rest = [] := by
  unfold whole
  split <;> exact ⟨rfl, rfl, rfl⟩

theorem whole_append_lineFeed (hlast : t.Unended) :
    (whole (t ++ ['\n'])).value = (whole t).value ∧
      (whole (t ++ ['\n'])).closing = (whole t).closing ++ ['\n'] := by
  -- the whole text is looked at from its end, where it has no line feed yet
  have hreverse : (t ++ ['\n']).reverse = '\n' :: t.reverse := by simp
  have hfirst : ∀ c ∈ t.reverse.head?, c ≠ '\n' := by
    rw [List.head?_reverse]
    exact hlast
  unfold whole
  rw [hreverse]
  have hdouble : t = t.reverse.reverse := (List.reverse_reverse t).symm
  generalize t.reverse = u at hfirst hdouble
  subst hdouble
  -- one more line feed ends the text by itself, or with the carriage return that was its last
  -- character
  cases u with
  | nil => exact ⟨rfl, rfl⟩
  | cons c u =>
    have hc : c ≠ '\n' := hfirst c rfl
    by_cases hr : c = '\r'
    · subst hr
      exact ⟨rfl, rfl⟩
    · simp [hc, hr]

/-! ### What is left after a find -/

theorem not_complete_of_not_mem (ht : '\n' ∉ t) (hne : t ≠ []) : ¬ Text.Complete t := by
  intro h
  obtain ⟨u, rfl⟩ := h.exists_eq hne
  exact ht (by simp)

/-- A value up to the end of a line leaves the line feed. -/
theorem not_complete_of_afterStart? (hs : '\n' ∉ start) {found : Occurrence}
    (h : afterStart? start t = some found) (hleft : found.closing ++ found.rest = []) :
    t ≠ [] ∧ ¬ Text.Complete t := by
  -- By induction on the line, to the start that was taken. Nothing is left only where the value
  -- ended with the text, and there no line feed did.
  induction t generalizing found with
  | nil => cases h
  | cons c t ih =>
    refine ⟨by simp, ?_⟩
    rw [afterStart?] at h
    split at h
    -- a find further on: the text from there on ends as the whole one does
    · rename_i later hlater
      split at hlater
      · cases hlater
      · cases h
        obtain ⟨hne, hcomplete⟩ := ih hlater hleft
        exact fun hc => hcomplete ((Text.complete_append_iff (a := [c]) hne).1 hc)
    · simp only [Option.bind_eq_bind, Option.bind_eq_some_iff] at h
      obtain ⟨inner, hinner, later, hlater, h⟩ := h
      cases h
      -- nothing is left only when no line ends in the rest of the text
      refine not_complete_of_not_mem ?_ (by simp)
      have hsplit := List.takeWhile_append_dropWhile (p := fun c => !Text.isLineEnd c) (l := inner)
      have hrest : '\n' ∉ inner := by
        unfold lineRest? at hlater
        simp only at hlater
        split at hlater
        · rename_i hdrop
          rw [hdrop, List.append_nil] at hsplit
          intro hmem
          rw [← hsplit] at hmem
          have hend := List.all_eq_true.1 (List.all_takeWhile (l := inner)) '\n' hmem
          exact absurd hend (by decide)
        all_goals (cases hlater; try cases hleft)
      rw [Text.after?_eq_some_iff.1 hinner, List.mem_append, not_or]
      exact ⟨hs, hrest⟩

theorem left_of_untilStop? (hne : stop ≠ []) {found : Occurrence}
    (h : untilStop? stop t = some found) : found.closing ++ found.rest ≠ [] := by
  induction t generalizing found with
  | nil =>
    rw [untilStop?, Text.after?_nil hne] at h
    cases h
  | cons c t ih =>
    rw [untilStop?] at h
    split at h
    · cases h
      exact List.append_ne_nil_of_left_ne_nil hne _
    · split at h
      · cases h
      · obtain ⟨later, hlater, rfl⟩ := Option.map_eq_some_iff.1 h
        have hleft := ih hlater
        exact hleft

theorem not_complete_of_onSomeLine? {attempt : Text → Option Occurrence}
    (hattempt : ∀ {t found}, attempt t = some found → found.closing ++ found.rest = [] →
      t ≠ [] ∧ ¬ Text.Complete t) {fresh : Bool} {found : Occurrence}
    (h : onSomeLine? attempt fresh t = some found) (hleft : found.closing ++ found.rest = []) :
    t ≠ [] ∧ ¬ Text.Complete t := by
  induction t generalizing fresh found with
  | nil =>
    rw [onSomeLine?] at h
    split at h
    · exact hattempt h hleft
    · cases h
  | cons c t ih =>
    rw [onSomeLine?] at h
    split at h
    · rename_i found' hfound
      cases h
      split at hfound
      · exact hattempt hfound hleft
      · cases hfound
    · obtain ⟨later, hlater, rfl⟩ := Option.map_eq_some_iff.1 h
      obtain ⟨hne, hcomplete⟩ := ih hlater hleft
      exact ⟨by simp, fun hc => hcomplete ((Text.complete_append_iff (a := [c]) hne).1 hc)⟩

theorem not_complete_of_whole (hne : t ≠ []) (h : (whole t).closing ++ (whole t).rest = []) :
    ¬ Text.Complete t := by
  intro hc
  obtain ⟨u, rfl⟩ := hc.exists_eq hne
  unfold whole at h
  rw [List.reverse_append, List.reverse_singleton, List.singleton_append] at h
  cases hu : u.reverse with
  | nil =>
    rw [hu] at h
    cases h
  | cons c v =>
    rw [hu] at h
    by_cases hr : c = '\r'
    · subst hr
      cases h
    · simp [hr] at h

end Occurrence

namespace Delimiter

variable {delimiter : Delimiter}

/-- A delimiter that stands within a line. One that a template's text offers does, as it is taken
from one line; a configured one need not. -/
structure Inline (delimiter : Delimiter) : Prop where
  start : '\n' ∉ delimiter.start
  stop : '\n' ∉ delimiter.stop

/-- **A value that is found in a text is found there when a line feed ends the text.** The text
must not end with one already, since the last line end of a whole text is not part of the value.
-/
theorem locate?_append_lineFeed (hd : delimiter.Inline) (hlast : t.Unended)
    (h : delimiter.locate? before t = some (lead, value, rest)) :
    delimiter.locate? before (t ++ ['\n']) = some (lead, value, rest ++ ['\n']) := by
  obtain ⟨start, stop⟩ := delimiter
  obtain ⟨hstart, hstop⟩ := hd
  simp only [locate?, Option.map_eq_some_iff, Prod.mk.injEq] at h ⊢
  obtain ⟨found, hfound, rfl, rfl, rfl⟩ := h
  -- three of the four searches give the same find with the line feed behind it; the search with
  -- neither side takes the line feed into what closes the value
  have hend (o : Option Occurrence) (ho : o = some found) : o.map Occurrence.endLine =
      some found.endLine := by
    rw [ho]
    rfl
  cases start with
  | nil =>
    cases stop with
    | nil =>
      by_cases hbefore : before = []
      · simp only [search?, if_pos hbefore, Option.some.injEq] at hfound
        subst hfound
        refine ⟨Occurrence.whole (t ++ ['\n']), by simp [search?, hbefore], ?_⟩
        obtain ⟨hvalue, hclosing⟩ := Occurrence.whole_append_lineFeed hlast
        obtain ⟨hskipped, hopening, hrest⟩ := Occurrence.sides_of_whole t
        obtain ⟨hskipped', hopening', hrest'⟩ := Occurrence.sides_of_whole (t ++ ['\n'])
        simp [hvalue, hclosing, hskipped, hopening, hrest, hskipped', hopening', hrest']
      · simp [search?, hbefore] at hfound
    | cons c stop =>
      have hsearch : search? ⟨[], c :: stop⟩ before (t ++ ['\n']) = some found.endLine := by
        rw [← hend _ hfound]
        exact Occurrence.onSomeLine?_append_lineFeed
          (fun u => Occurrence.untilStop?_append_lineFeed hstop (by simp) u []) rfl _ t
      exact ⟨_, hsearch, by simp [Occurrence.endLine]⟩
  | cons c start =>
    cases stop with
    | nil =>
      have hsearch : search? ⟨c :: start, []⟩ before (t ++ ['\n']) = some found.endLine := by
        rw [← hend _ hfound]
        exact Occurrence.onSomeLine?_append_lineFeed
          (fun u => Occurrence.afterStart?_append_lineFeed hstart (by simp) u []) rfl true t
      exact ⟨_, hsearch, by simp [Occurrence.endLine]⟩
    | cons d stop =>
      exact ⟨_, Occurrence.between?_append hfound ['\n'], by simp⟩

/-- **After a value that is found in a complete text something is left**: the stop itself, or the
line feed that ends the text. -/
theorem unended_of_locate? (hd : delimiter.Inline)
    (h : delimiter.locate? before t = some (lead, value, [])) : t.Unended := by
  obtain ⟨start, stop⟩ := delimiter
  obtain ⟨hstart, hstop⟩ := hd
  simp only [locate?, Option.map_eq_some_iff, Prod.mk.injEq] at h
  obtain ⟨found, hfound, -, -, hleft⟩ := h
  rw [Text.unended_iff, or_iff_not_imp_left]
  intro hne
  -- The four shapes leave different things behind the value: with neither side the final line
  -- end, with a stop the stop, and with a start alone the line feed.
  cases start with
  | nil =>
    cases stop with
    | nil =>
      by_cases hbefore : before = []
      · simp only [search?, if_pos hbefore, Option.some.injEq] at hfound
        subst hfound
        exact Occurrence.not_complete_of_whole hne hleft
      · simp [search?, hbefore] at hfound
    | cons c stop =>
      -- a stop that is found is itself left
      have hstopLeft : ∀ {u : Text} {o : Occurrence}, Occurrence.untilStop? (c :: stop) u = some o →
          o.closing ++ o.rest = [] → u ≠ [] ∧ ¬ Text.Complete u :=
        fun ho hnil => absurd hnil (Occurrence.left_of_untilStop? (by simp) ho)
      exact (Occurrence.not_complete_of_onSomeLine? hstopLeft hfound hleft).2
  | cons c start =>
    cases stop with
    | nil =>
      have hstartLeft : ∀ {u : Text} {o : Occurrence},
          Occurrence.afterStart? (c :: start) u = some o →
          o.closing ++ o.rest = [] → u ≠ [] ∧ ¬ Text.Complete u :=
        fun ho hnil => Occurrence.not_complete_of_afterStart? hstart ho hnil
      exact (Occurrence.not_complete_of_onSomeLine? hstartLeft hfound hleft).2
    | cons d stop =>
      -- the stop was found, and it is not empty
      have hclosing : found.closing = d :: stop := by
        simp only [search?, Occurrence.between?, Option.bind_eq_bind,
          Option.bind_eq_some_iff] at hfound
        obtain ⟨_, -, _, -, h⟩ := hfound
        cases h
        rfl
      rw [hclosing] at hleft
      cases hleft

/-- Only where nothing went before is a value found in an empty text, and only by a delimiter
with neither side set. -/
theorem of_locate?_nil (h : delimiter.locate? before [] = some (lead, value, rest)) :
    before = [] ∧ delimiter = .unset := by
  obtain ⟨start, stop⟩ := delimiter
  simp only [locate?, Option.map_eq_some_iff] at h
  obtain ⟨found, hfound, -⟩ := h
  cases start with
  | nil =>
    cases stop with
    | nil =>
      refine ⟨?_, rfl⟩
      by_contra hbefore
      simp [search?, hbefore] at hfound
    | cons c stop =>
      simp [search?, Occurrence.onSomeLine?, Occurrence.untilStop?, Text.after?] at hfound
  | cons c start =>
    cases stop with
    | nil => simp [search?, Occurrence.onSomeLine?, Occurrence.afterStart?] at hfound
    | cons d stop => simp [search?, Occurrence.between?, Text.cut?, Text.after?] at hfound

theorem eq_nil_of_locate?_nil (h : delimiter.locate? before [] = some (lead, value, rest)) :
    before = [] :=
  (of_locate?_nil h).1

/-- With neither side set the value is the whole text. -/
theorem locate?_unset (t : Text) :
    unset.locate? [] t =
      some ([], (Occurrence.whole t).value, (Occurrence.whole t).closing) := by
  obtain ⟨hskipped, hopening, hrest⟩ := Occurrence.sides_of_whole t
  have hsearch : unset.search? [] t = some (Occurrence.whole t) := rfl
  rw [locate?, hsearch, Option.map_some, hskipped, hopening, hrest]
  simp

theorem value_whole_of_locate? {t : Text} (h : unset.locate? [] t = some (lead, value, rest)) :
    (Occurrence.whole t).value = value := by
  rw [locate?_unset] at h
  cases h
  rfl

end Delimiter

end FieldedText
