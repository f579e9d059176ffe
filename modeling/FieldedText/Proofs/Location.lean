/-
FieldedText/Proofs/Location.lean

Where a value is found, said without a search.

The four shapes of a delimiter frame a value in four ways (`Delimiter.Frames`).
Each way speaks of first and last occurrences of a mark in a text or on one of
its lines, and of nothing else: not of how the text is gone through, nor of
expressions.  A delimiter that stands within a line finds a value exactly where
it frames one (`locate?_eq_some_iff`), and there is never more than one such
value (`Frames.unique`).

Whether a value begins on a line and which one it is can be read off the line
alone.  So the search from line to line is described once, for any search that
looks at one line (`onSomeLine?_eq_some`, `onSomeLine?_eq_none`).
-/
import FieldedText.Proofs.CheckedBody
import FieldedText.Proofs.DelimiterPattern

namespace FieldedText

variable {before t u v lead value rest after start stop mark line ending : Text}

/-! ### Occurrences and lines -/

namespace Text

/-- A text cut at the first occurrence of a mark. It is said by comparing it with all other cuts,
and not by how one looks for it. -/
structure FirstAt (mark text head rest : Text) : Prop where
  append : text = head ++ mark ++ rest
  first : ∀ {head' rest'}, text = head' ++ mark ++ rest' → head.length ≤ head'.length

/-- A line of a text between what stands before and behind it. Whatever is before it ends with a
line feed, and so does the line unless it is the last one. -/
structure LineAt (text before line after : Text) : Prop where
  append : text = before ++ line ++ after
  complete : Complete before
  isLine : IsLine line
  ended : after ≠ [] → Complete line

/-- A mark is cut out where it occurs first. -/
theorem firstAt_of_cut? (h : cut? mark t = some (lead, rest)) : FirstAt mark t lead rest := by
  refine ⟨cut?_append h, ?_⟩
  induction t generalizing lead with
  | nil =>
    intro head' rest' _
    simp only [cut?, Option.map_eq_some_iff, Prod.mk.injEq] at h
    obtain ⟨_, _, rfl, _⟩ := h
    exact Nat.zero_le _
  | cons c t ih =>
    intro head' rest' hsplit
    rw [cut?] at h
    -- The mark begins with the first character, or it is looked for in the rest; another cut that
    -- began with the first character would contradict the second case.
    split at h
    · cases h
      exact Nat.zero_le _
    · rename_i hnone
      obtain ⟨⟨head, later⟩, hcut, h⟩ := Option.map_eq_some_iff.1 h
      cases h
      cases head' with
      | nil =>
        rw [List.nil_append] at hsplit
        rw [hsplit, after?_append] at hnone
        cases hnone
      | cons d head' =>
        obtain ⟨rfl, ht⟩ := List.cons.inj hsplit
        exact Nat.succ_le_succ (ih hcut ht)

theorem FirstAt.unique {lead' rest' : Text} (h : FirstAt mark t lead rest)
    (h' : FirstAt mark t lead' rest') : lead = lead' ∧ rest = rest' := by
  have hlength := Nat.le_antisymm (h.first h'.append) (h'.first h.append)
  have happend := h.append.symm.trans h'.append
  rw [List.append_assoc, List.append_assoc] at happend
  obtain ⟨rfl, hrest⟩ := List.append_inj happend hlength
  exact ⟨rfl, List.append_cancel_left hrest⟩

theorem firstAt_iff : FirstAt mark t lead rest ↔ cut? mark t = some (lead, rest) := by
  refine ⟨fun h => ?_, firstAt_of_cut?⟩
  cases hcut : cut? mark t with
  | none => exact absurd ⟨lead, rest, h.append.symm⟩ (cut?_eq_none_iff.1 hcut)
  | some found =>
    obtain ⟨rfl, rfl⟩ := h.unique (firstAt_of_cut? hcut)
    rfl

theorem FirstAt.isInfix (h : FirstAt mark t lead rest) : mark <:+: t := ⟨lead, rest, h.append.symm⟩

namespace LineAt

theorem lines_append (hline : IsLine line) (hended : after ≠ [] → Complete line) :
    lines (line ++ after) = line :: lines after := by
  by_cases hafter : after = []
  · rw [hafter, List.append_nil, lines_of_isLine hline]
    rfl
  · rw [Text.lines_append (hended hafter), lines_of_isLine hline]
    rfl

/-- The lines that a text is cut into are the ones that stand in it. -/
theorem iff_lines : LineAt t before line after ↔
    ∃ pre post, lines t = pre ++ line :: post ∧ pre.flatten = before ∧ post.flatten = after := by
  constructor
  · intro h
    refine ⟨lines before, lines after, ?_, flatten_lines before, flatten_lines after⟩
    rw [h.append, List.append_assoc, Text.lines_append h.complete, lines_append h.isLine h.ended]
  · rintro ⟨pre, post, hlines, rfl, rfl⟩
    obtain ⟨happend, hcomplete, hline, hended⟩ := of_lines_eq_append hlines
    exact ⟨happend, hcomplete, hline, hended⟩

theorem unique {before' line' after' : Text} (h : LineAt t before line after)
    (h' : LineAt t before' line' after') (hlength : before.length = before'.length) :
    before = before' ∧ line = line' ∧ after = after' := by
  have happend := h.append.symm.trans h'.append
  rw [List.append_assoc, List.append_assoc] at happend
  obtain ⟨rfl, hrest⟩ := List.append_inj happend hlength
  have hlines := congrArg lines hrest
  rw [lines_append h.isLine h.ended, lines_append h'.isLine h'.ended] at hlines
  obtain ⟨rfl, -⟩ := List.cons.inj hlines
  exact ⟨rfl, rfl, List.append_cancel_left hrest⟩

/-- The line that a text begins with. -/
theorem exists_first (ht : t ≠ []) : ∃ line after, LineAt t [] line after := by
  cases hlines : lines t with
  | nil => exact absurd (lines_eq_nil_iff.1 hlines) ht
  | cons line post => exact ⟨line, post.flatten, iff_lines.2 ⟨[], post, hlines, rfl, rfl⟩⟩

theorem cons {c : Char} (h : LineAt t before line after) (hc : before = [] → c = '\n') :
    LineAt (c :: t) (c :: before) line after := by
  refine ⟨by rw [h.append, List.cons_append, List.cons_append], ?_, h.isLine, h.ended⟩
  by_cases hbefore : before = []
  · rw [hbefore, hc hbefore]
    exact complete_concat []
  · exact (complete_append_iff (a := [c]) hbefore).2 h.complete

theorem of_cons {c d : Char} (h : LineAt (c :: t) (d :: before) line after) :
    LineAt t before line after ∧ (before = [] → c = '\n') ∧ c = d := by
  obtain ⟨rfl, happend⟩ := List.cons.inj h.append
  refine ⟨⟨happend, Complete.of_append (a := [c]) h.complete, h.isLine, h.ended⟩, ?_, rfl⟩
  rintro rfl
  exact h.complete c rfl

end LineAt

/-- A line feed is the last character of a line. -/
theorem of_not_mem_dropLast_cons {c : Char} (h : '\n' ∉ (c :: t).dropLast) :
    '\n' ∉ t.dropLast ∧ (c = '\n' → t = []) := by
  by_cases ht : t = []
  · rw [ht]
    exact ⟨by simp, fun _ => rfl⟩
  · rw [List.dropLast_cons_of_ne_nil ht, List.mem_cons, not_or] at h
    exact ⟨h.2, fun hc => absurd hc.symm h.1⟩

theorem not_mem_dropLast_of_append (h : '\n' ∉ (u ++ v).dropLast) : '\n' ∉ v.dropLast := by
  by_cases hv : v = []
  · simp [hv]
  · rw [List.dropLast_append_of_ne_nil hv, List.mem_append, not_or] at h
    exact h.2

end Text

namespace Occurrence

/-! ### From line to line -/

section

variable {attempt : Text → Option Occurrence} {fresh : Bool} {found : Occurrence}

/-- What stands on the lines behind a line does not matter to a search on it. -/
theorem attempt_line_append
    (hlocal : ∀ t more, attempt (t ++ '\n' :: more) = (attempt t).map (extend ('\n' :: more)))
    (hline : Text.IsLine line) (hended : after ≠ [] → Text.Complete line) :
    attempt (line ++ after) = (attempt line).map (extend after) := by
  by_cases hafter : after = []
  · rw [hafter, List.append_nil]
    cases attempt line with
    | none => rfl
    | some found => simp [extend]
  · obtain ⟨u, rfl⟩ := (hended hafter).exists_eq hline.1
    rw [List.append_assoc, List.singleton_append, hlocal, hlocal, Option.map_map]
    congr 1
    funext found
    simp [extend]

/-- Where nothing is found, nothing is found on any line. `fresh` says whether a line begins where
the text does, so a line at its very beginning counts only then. -/
theorem onSomeLine?_eq_none
    (hlocal : ∀ t more, attempt (t ++ '\n' :: more) = (attempt t).map (extend ('\n' :: more)))
    (h : onSomeLine? attempt fresh t = none) (hat : Text.LineAt t before line after)
    (hfresh : before = [] → fresh = true) : attempt line = none := by
  -- By induction on the text, since the search goes from character to character. The line is the
  -- one that begins here, or one of the lines of the rest.
  induction t generalizing fresh before with
  | nil =>
    obtain ⟨hleft, -⟩ := List.append_eq_nil_iff.1 hat.append.symm
    exact absurd (List.append_eq_nil_iff.1 hleft).2 hat.isLine.1
  | cons c t ih =>
    rw [onSomeLine?] at h
    cases hhere : (if fresh then attempt (c :: t) else none) with
    | some found =>
      rw [hhere] at h
      cases h
    | none =>
      rw [hhere] at h
      have hlater : onSomeLine? attempt (c == '\n') t = none := by simpa using h
      cases before with
      | nil =>
        rw [if_pos (hfresh rfl), hat.append, List.nil_append,
          attempt_line_append hlocal hat.isLine hat.ended] at hhere
        simpa using hhere
      | cons d before =>
        obtain ⟨hat', hfeed, -⟩ := hat.of_cons
        exact ih hlater hat' fun hnil => by simp [hfeed hnil]

/-- What is found is what is found on the first line on which anything is. -/
theorem onSomeLine?_eq_some
    (hlocal : ∀ t more, attempt (t ++ '\n' :: more) = (attempt t).map (extend ('\n' :: more)))
    (hnil : attempt [] = none) (h : onSomeLine? attempt fresh t = some found) :
    ∃ skipped line after there, Text.LineAt t skipped line after ∧ (skipped = [] → fresh = true) ∧
      attempt line = some there ∧ found = (there.extend after).skip skipped ∧
      ∀ {skipped' line' after' there'}, Text.LineAt t skipped' line' after' →
        (skipped' = [] → fresh = true) → attempt line' = some there' →
          skipped.length ≤ skipped'.length := by
  -- By induction on the text as above. What is found here is on the first line there is; what is
  -- found later is behind one more character, and so is every line that it has to be compared
  -- with.
  induction t generalizing fresh found with
  | nil =>
    rw [onSomeLine?, hnil] at h
    cases fresh <;> cases h
  | cons c t ih =>
    rw [onSomeLine?] at h
    cases hhere : (if fresh then attempt (c :: t) else none) with
    | some there =>
      rw [hhere] at h
      cases h
      obtain ⟨line, after, hat⟩ := Text.LineAt.exists_first (t := c :: t) (by simp)
      cases fresh with
      | false => cases hhere
      | true =>
        rw [if_pos rfl, hat.append, List.nil_append,
          attempt_line_append hlocal hat.isLine hat.ended] at hhere
        obtain ⟨there', hthere, rfl⟩ := Option.map_eq_some_iff.1 hhere
        exact ⟨[], line, after, there', hat, fun _ => rfl, hthere, rfl, fun _ _ _ => Nat.zero_le _⟩
    | none =>
      rw [hhere] at h
      obtain ⟨later, hlater, rfl⟩ := Option.map_eq_some_iff.1 h
      obtain ⟨skipped, line, after, there, hat, hfresh, hthere, rfl, hfirst⟩ := ih hlater
      refine ⟨c :: skipped, line, after, there, hat.cons fun hnil => ?_, ?_, hthere, rfl, ?_⟩
      · simpa using hfresh hnil
      · intro hnil
        cases hnil
      · intro skipped' line' after' there' hat' hfresh' hthere'
        -- a line that begins here would have been found here
        cases skipped' with
        | nil =>
          rw [if_pos (hfresh' rfl), hat'.append, List.nil_append,
            attempt_line_append hlocal hat'.isLine hat'.ended, hthere'] at hhere
          cases hhere
        | cons d skipped' =>
          obtain ⟨hat', hfeed, -⟩ := hat'.of_cons
          exact Nat.succ_le_succ (hfirst hat' (fun hnil => by simp [hfeed hnil]) hthere')

end

/-! ### On one line -/

/-- The texts that a line, or a whole text, may end with. -/
def lineEnds : List Text := [[], ['\n'], ['\r'], ['\r', '\n']]

/-- A value that is the rest of a line behind a start: no carriage return is in it, and all that
follows is a line end, of which a carriage return may be part. -/
structure Opens (start line head value ending : Text) : Prop where
  append : line = head ++ start ++ value ++ ending
  value : ∀ c ∈ value, Text.isLineEnd c = false
  ending : ending ∈ lineEnds

/-- A value and a line end are the rest of a line. -/
theorem lineRest?_append (hvalue : ∀ c ∈ value, Text.isLineEnd c = false)
    (hending : ending ∈ lineEnds) :
    ∃ there, lineRest? (value ++ ending) = some there ∧ there.value = value ∧
      there.closing ++ there.rest = ending := by
  induction value with
  | nil =>
    simp only [lineEnds, List.mem_cons, List.not_mem_nil, or_false] at hending
    rcases hending with rfl | rfl | rfl | rfl <;> exact ⟨_, rfl, rfl, rfl⟩
  | cons c value ih =>
    obtain ⟨hc, hvalue⟩ := List.forall_mem_cons.1 hvalue
    obtain ⟨there, hthere, hvalue', hrest⟩ := ih hvalue
    refine ⟨{ there with value := c :: there.value }, ?_, ?_, hrest⟩
    · rw [List.cons_append, lineRest?_cons (by simp [Text.inLine, hc]), hthere]
      rfl
    · rw [hvalue']

/-- The rest of a line is a value and a line end. -/
theorem of_lineRest? {there : Occurrence} (hline : '\n' ∉ t.dropLast)
    (h : lineRest? t = some there) :
    t = there.value ++ (there.closing ++ there.rest) ∧
      (∀ c ∈ there.value, Text.isLineEnd c = false) ∧
      there.closing ++ there.rest ∈ lineEnds := by
  induction t generalizing there with
  | nil =>
    cases h
    exact ⟨rfl, by simp, by simp [lineEnds]⟩
  | cons c t ih =>
    obtain ⟨hdrop, hlast⟩ := Text.of_not_mem_dropLast_cons hline
    cases hc : Text.inLine c with
    | true =>
      rw [lineRest?_cons hc] at h
      obtain ⟨later, hlater, rfl⟩ := Option.map_eq_some_iff.1 h
      obtain ⟨happend, hvalue, hending⟩ := ih hdrop hlater
      refine ⟨?_, ?_, hending⟩
      · exact congrArg (c :: ·) happend
      · exact List.forall_mem_cons.2 ⟨by simpa [Text.inLine] using hc, hvalue⟩
    | false =>
      rw [lineRest?_cons_of_lineEnd hc, lineCut?, lineTail?] at h
      by_cases hreturn : c = '\r' ∧ t.head?.all (· == '\n')
      · rw [if_pos hreturn] at h
        cases h
        obtain ⟨rfl, hhead⟩ := hreturn
        refine ⟨rfl, by simp, ?_⟩
        -- a line feed behind the carriage return is the end of the line
        cases t with
        | nil => simp [lineEnds]
        | cons d t =>
          obtain rfl : d = '\n' := by simpa using hhead
          rw [(Text.of_not_mem_dropLast_cons hdrop).2 rfl]
          simp [lineEnds]
      · rw [if_neg hreturn] at h
        by_cases hfeed : c = '\n'
        · rw [if_pos hfeed] at h
          cases h
          rw [hlast hfeed, hfeed]
          exact ⟨rfl, by simp, by simp [lineEnds]⟩
        · rw [if_neg hfeed] at h
          cases h

namespace Opens

variable {c : Char} {head : Text}

theorem cons_iff :
    Opens start (c :: line) (c :: head) value ending ↔ Opens start line head value ending := by
  constructor
  · rintro ⟨happend, hvalue, hending⟩
    exact ⟨(List.cons.inj happend).2, hvalue, hending⟩
  · rintro ⟨happend, hvalue, hending⟩
    exact ⟨by rw [happend]; rfl, hvalue, hending⟩

/-- What opens on a line after its first character opens on the rest of the line. -/
theorem of_cons {d : Char} (h : Opens start (c :: line) (d :: head) value ending) :
    Opens start line head value ending := by
  obtain rfl := (List.cons.inj h.append).1
  exact cons_iff.1 h

/-- Nothing opens where no start is. -/
theorem ne_nil (hne : start ≠ []) (h : Opens start line head value ending) : line ≠ [] := by
  rintro rfl
  have happend := h.append.symm
  simp only [List.append_eq_nil_iff] at happend
  exact hne happend.1.1.2

/-- A value and what ends it follow from where the value begins. -/
theorem unique {head' value' ending' : Text} (h : Opens start line head value ending)
    (h' : Opens start line head' value' ending') (hlength : head.length = head'.length) :
    head = head' ∧ value = value' ∧ ending = ending' := by
  have happend := h.append.symm.trans h'.append
  simp only [List.append_assoc] at happend
  obtain ⟨rfl, hmarked⟩ := List.append_inj happend hlength
  have hrest := List.append_cancel_left hmarked
  obtain ⟨there, hthere, rfl, rfl⟩ := lineRest?_append h.value h.ending
  obtain ⟨there', hthere', rfl, rfl⟩ := lineRest?_append h'.value h'.ending
  rw [hrest, hthere', Option.some.injEq] at hthere
  rw [hthere]
  exact ⟨rfl, rfl, rfl⟩

end Opens

/-- Where no value is found on a line, none opens on it. The search looks at the rest of the line
first, which is why it finds the last start. -/
theorem not_opens_of_afterStart? (hne : start ≠ []) (hline : '\n' ∉ line.dropLast)
    (h : afterStart? start line = none) {head : Text} :
    ¬ Opens start line head value ending := by
  induction line generalizing head with
  | nil => exact fun hopens => hopens.ne_nil hne rfl
  | cons c line ih =>
    intro hopens
    obtain ⟨hdrop, hlast⟩ := Text.of_not_mem_dropLast_cons hline
    rw [afterStart?] at h
    split at h
    · cases h
    · rename_i hlater
      -- A value that begins right here would be found by now; one that begins later is excluded
      -- by induction, unless this is the line's end.
      cases head with
      | nil =>
        have hafter : Text.after? start (c :: line) = some (value ++ ending) := by
          rw [Text.after?_eq_some_iff, hopens.append]
          simp
        obtain ⟨there, hthere, -, -⟩ := lineRest?_append hopens.value hopens.ending
        rw [hafter, Option.bind_eq_bind, Option.bind_some, hthere] at h
        cases h
      | cons d head =>
        have hopens' := hopens.of_cons
        have hc : c ≠ '\n' := fun hc => hopens'.ne_nil hne (hlast hc)
        rw [if_neg hc] at hlater
        exact ih hdrop hlater hopens'

/-- What is found on a line is the last value that opens on it. -/
theorem of_afterStart? (hne : start ≠ []) (hline : '\n' ∉ line.dropLast)
    {there : Occurrence} (h : afterStart? start line = some there) :
    ∃ head, there.skipped = [] ∧ there.opening = head ++ start ∧
      Opens start line head there.value (there.closing ++ there.rest) ∧
      ∀ {head' value' ending'}, Opens start line head' value' ending' →
        head'.length ≤ head.length := by
  -- By induction on the line, along the search: what is found in the rest stands behind one more
  -- character; otherwise the value begins right here, and nothing opens further on.
  induction line generalizing there with
  | nil => cases h
  | cons c line ih =>
    obtain ⟨hdrop, hlast⟩ := Text.of_not_mem_dropLast_cons hline
    rw [afterStart?] at h
    split at h
    · rename_i later hlater
      cases h
      have hc : c ≠ '\n' := by
        rintro rfl
        cases hlater
      rw [if_neg hc] at hlater
      obtain ⟨head, hskipped, hopening, hopens, hmost⟩ := ih hdrop hlater
      refine ⟨c :: head, hskipped, ?_, Opens.cons_iff.2 hopens, fun {head' _ _} hopens' => ?_⟩
      · simp only [hopening, List.cons_append]
      · cases head' with
        | nil => exact Nat.zero_le _
        | cons d head' => exact Nat.succ_le_succ (hmost hopens'.of_cons)
    · rename_i hlater
      simp only [Option.bind_eq_bind, Option.bind_eq_some_iff] at h
      obtain ⟨inner, hinner, found, hfound, h⟩ := h
      cases h
      have hcons := Text.after?_eq_some_iff.1 hinner
      have hsuffix : '\n' ∉ inner.dropLast := by
        rw [hcons] at hline
        exact Text.not_mem_dropLast_of_append hline
      obtain ⟨happend, hvalue, hending⟩ := of_lineRest? hsuffix hfound
      -- the value begins here, and any other one would open in the rest, where there is none
      refine ⟨[], (sides_of_lineRest? hfound).1, rfl, ⟨?_, hvalue, hending⟩,
        fun {head' _ _} hopens' => ?_⟩
      · rw [hcons, happend]
        simp
      · cases head' with
        | nil => exact Nat.le_refl _
        | cons d head' =>
          have hopens'' := hopens'.of_cons
          have hc : c ≠ '\n' := fun hc => hopens''.ne_nil hne (hlast hc)
          rw [if_neg hc] at hlater
          exact absurd hopens'' (not_opens_of_afterStart? hne hdrop hlater)

/-- The first stop on a line is the first in it. -/
theorem untilStop?_eq_map_cut? (hne : stop ≠ []) (hline : '\n' ∉ line.dropLast) :
    untilStop? stop line =
      (Text.cut? stop line).map fun cut => ⟨[], [], cut.1, stop, cut.2⟩ := by
  induction line with
  | nil => rw [untilStop?, Text.cut?, Option.map_map]; rfl
  | cons c line ih =>
    obtain ⟨hdrop, hlast⟩ := Text.of_not_mem_dropLast_cons hline
    rw [untilStop?, Text.cut?]
    cases hafter : Text.after? stop (c :: line) with
    | some rest => rfl
    | none =>
      by_cases hc : c = '\n'
      · rw [hlast hc]
        simp [hc, Text.cut?, Text.after?_nil hne]
      · rw [if_neg hc, ih hdrop, Option.map_map, Option.map_map]
        rfl

end Occurrence

namespace Delimiter

open Text Occurrence

/-- The value that a delimiter frames in a text that follows `before`, with the text up to it and
the text behind it. The four constructors are the four shapes of a delimiter, told apart by which
of its sides are set. -/
inductive Frames (delimiter : Delimiter) (before text : Text) : Text → Text → Text → Prop
  /-- Between the first start and the first stop behind it. -/
  | between {skipped inner value rest : Text}
      (hstart : delimiter.start ≠ []) (hstop : delimiter.stop ≠ [])
      (opening : FirstAt delimiter.start text skipped inner)
      (closing : FirstAt delimiter.stop inner value rest) :
      Frames delimiter before text (skipped ++ delimiter.start) value (delimiter.stop ++ rest)
  /-- Behind the last start on the first line on which a value begins, up to the end of it. -/
  | toLineEnd {skipped line after head value ending : Text}
      (hstart : delimiter.start ≠ []) (hstop : delimiter.stop = [])
      (here : LineAt text skipped line after)
      (first : ∀ {skipped' line' after' head' value' ending'},
        LineAt text skipped' line' after' → Opens delimiter.start line' head' value' ending' →
          skipped.length ≤ skipped'.length)
      (opens : Opens delimiter.start line head value ending)
      (last : ∀ {head' value' ending'},
        Opens delimiter.start line head' value' ending' → head'.length ≤ head.length) :
      Frames delimiter before text (skipped ++ head ++ delimiter.start) value (ending ++ after)
  /-- From the beginning of the first whole line with a stop on it, up to the first stop. -/
  | fromLineStart {skipped line after value left : Text}
      (hstart : delimiter.start = []) (hstop : delimiter.stop ≠ [])
      (here : LineAt (before ++ text) (before ++ skipped) line after)
      (first : ∀ {skipped' line' after'},
        LineAt (before ++ text) (before ++ skipped') line' after' → delimiter.stop <:+: line' →
          skipped.length ≤ skipped'.length)
      (closing : FirstAt delimiter.stop line value left) :
      Frames delimiter before text skipped value (delimiter.stop ++ left ++ after)
  /-- All of the text up to its final line end, if nothing stands before it. -/
  | wholeText {value ending : Text}
      (hstart : delimiter.start = []) (hstop : delimiter.stop = []) (hbefore : before = [])
      (append : text = value ++ ending) (final : ending ∈ lineEnds)
      (longest : ∀ {value' ending'}, text = value' ++ ending' → ending' ∈ lineEnds →
        ending'.length ≤ ending.length) :
      Frames delimiter before text [] value ending

variable {delimiter : Delimiter}

theorem atLineStart_iff : atLineStart before = true ↔ Complete before := by
  unfold atLineStart Complete
  cases before.getLast? <;> simp

/-- A line that begins at or behind `before` begins behind a line of what follows, or where
`before` ends when that ends a line. -/
theorem lineAt_append_iff : LineAt (before ++ t) (before ++ u) line after ↔
    LineAt t u line after ∧ (u = [] → atLineStart before = true) := by
  rw [atLineStart_iff]
  constructor
  · intro h
    have happend := h.append
    rw [List.append_assoc, List.append_assoc, List.append_cancel_left_eq] at happend
    refine ⟨⟨by rw [happend, List.append_assoc], h.complete.of_append, h.isLine, h.ended⟩, ?_⟩
    rintro rfl
    simpa using h.complete
  · rintro ⟨h, hbefore⟩
    refine ⟨by rw [h.append]; simp only [List.append_assoc], ?_, h.isLine, h.ended⟩
    by_cases hu : u = []
    · rw [hu, List.append_nil]
      exact hbefore hu
    · exact (complete_append_iff hu).2 h.complete

/-! ### The four shapes -/

theorem isFinal_iff : isFinal ending = true ↔ ending ∈ lineEnds := by
  simp [isFinal, lineEnds, or_assoc]

/-- No longer line end stands at the end of a text than what is left behind it as a value. -/
theorem whole_longest {value' ending' : Text} (happend : t = value' ++ ending')
    (hending : ending' ∈ lineEnds) : ending'.length ≤ (whole t).closing.length := by
  induction t generalizing value' with
  | nil =>
    obtain ⟨-, rfl⟩ := List.append_eq_nil_iff.1 happend.symm
    exact Nat.zero_le _
  | cons c t ih =>
    cases hfinal : isFinal (c :: t) with
    | true =>
      rw [whole_of_isFinal hfinal, happend]
      simp
    | false =>
      rw [whole_cons hfinal]
      cases value' with
      | nil =>
        rw [← isFinal_iff, ← List.nil_append ending', ← happend, hfinal] at hending
        cases hending
      | cons d value' => exact ih (List.cons.inj happend).2

theorem whole_final (t : Text) : (whole t).closing ∈ lineEnds := by
  unfold whole
  split <;> simp [lineEnds]

section

variable {found : Occurrence}

theorem frames_of_between? (hstart : start ≠ []) (hstop : stop ≠ [])
    (h : between? start stop t = some found) :
    Frames ⟨start, stop⟩ before t (found.skipped ++ found.opening) found.value
      (found.closing ++ found.rest) := by
  rw [between?_eq] at h
  obtain ⟨⟨skipped, inner⟩, hopening, h⟩ := Option.bind_eq_some_iff.1 h
  obtain ⟨⟨value, rest⟩, hclosing, rfl⟩ := Option.map_eq_some_iff.1 h
  exact .between hstart hstop (firstAt_of_cut? hopening) (firstAt_of_cut? hclosing)

theorem frames_of_afterStart? (hne : start ≠ []) (hstart : '\n' ∉ start)
    (h : onSomeLine? (afterStart? start) true t = some found) :
    Frames ⟨start, []⟩ before t (found.skipped ++ found.opening) found.value
      (found.closing ++ found.rest) := by
  obtain ⟨skipped, line, after, there, hat, -, hthere, rfl, hfirst⟩ :=
    onSomeLine?_eq_some (afterStart?_append_lineFeed hstart hne) rfl h
  obtain ⟨head, hskipped, hopening, hopens, hmost⟩ := of_afterStart? hne hat.isLine.2 hthere
  have hframes : Frames ⟨start, []⟩ before t (skipped ++ head ++ start) there.value
      (there.closing ++ there.rest ++ after) := by
    refine .toLineEnd hne rfl hat (fun {_ line' _ _ _ _} hat' hopens' => ?_) hopens hmost
    cases hthere' : afterStart? start line' with
    | none => exact absurd hopens' (not_opens_of_afterStart? hne hat'.isLine.2 hthere')
    | some there' => exact hfirst hat' (fun _ => rfl) hthere'
  simpa [extend, skip, hskipped, hopening] using hframes

theorem frames_of_untilStop? (hne : stop ≠ []) (hstop : '\n' ∉ stop)
    (h : onSomeLine? (untilStop? stop) (atLineStart before) t = some found) :
    Frames ⟨[], stop⟩ before t (found.skipped ++ found.opening) found.value
      (found.closing ++ found.rest) := by
  have hnil : untilStop? stop [] = none := by simp [untilStop?, after?_nil hne]
  obtain ⟨skipped, line, after, there, hat, hfresh, hthere, rfl, hfirst⟩ :=
    onSomeLine?_eq_some (untilStop?_append_lineFeed hstop hne) hnil h
  rw [untilStop?_eq_map_cut? hne hat.isLine.2] at hthere
  obtain ⟨⟨value, left⟩, hcut, rfl⟩ := Option.map_eq_some_iff.1 hthere
  have hframes : Frames ⟨[], stop⟩ before t skipped value (stop ++ left ++ after) := by
    refine .fromLineStart rfl hne (lineAt_append_iff.2 ⟨hat, hfresh⟩)
      (fun {_ line' _} hat' hin => ?_) (firstAt_of_cut? hcut)
    obtain ⟨hat', hfresh'⟩ := lineAt_append_iff.1 hat'
    have hthere' := untilStop?_eq_map_cut? hne hat'.isLine.2
    cases hcut' : cut? stop line' with
    | none => exact absurd hin (cut?_eq_none_iff.1 hcut')
    | some cut =>
      rw [hcut'] at hthere'
      exact hfirst hat' hfresh' hthere'
  simpa [extend, skip] using hframes

theorem frames_whole (t : Text) :
    Frames ⟨[], []⟩ [] t ((whole t).skipped ++ (whole t).opening) (whole t).value
      ((whole t).closing ++ (whole t).rest) := by
  obtain ⟨hskipped, hopening, hrest⟩ := sides_of_whole t
  rw [hskipped, hopening, hrest, List.append_nil, List.append_nil]
  refine .wholeText rfl rfl rfl ?_ (whole_final t) whole_longest
  have htext := text_whole t
  rw [text, hskipped, hopening, hrest] at htext
  simpa using htext.symm

end

/-- What a delimiter finds is what it frames. -/
theorem frames_of_locate? (hd : delimiter.Inline)
    (h : delimiter.locate? before t = some (lead, value, rest)) :
    delimiter.Frames before t lead value rest := by
  obtain ⟨start, stop⟩ := delimiter
  simp only [locate?, Option.map_eq_some_iff, Prod.mk.injEq] at h
  obtain ⟨found, hfound, rfl, rfl, rfl⟩ := h
  cases start with
  | nil =>
    cases stop with
    | nil =>
      simp only [search?] at hfound
      split at hfound
      · rename_i hbefore
        cases hfound
        exact hbefore ▸ frames_whole t
      · cases hfound
    | cons d stop => exact frames_of_untilStop? (by simp) hd.stop hfound
  | cons c start =>
    cases stop with
    | nil => exact frames_of_afterStart? (by simp) hd.start hfound
    | cons d stop => exact frames_of_between? (by simp) (by simp) hfound

/-- What a delimiter frames it finds. It is enough that the search finds anything, for what it
finds is framed and only one value is. -/
theorem search?_ne_none_of_frames (hd : delimiter.Inline)
    (h : delimiter.Frames before t lead value rest) : delimiter.search? before t ≠ none := by
  obtain ⟨start, stop⟩ := delimiter
  intro hnone
  -- For each shape, a search that finds nothing excludes the very mark, or line, that frames the
  -- value.
  cases h with
  | between hstart hstop opening closing =>
    obtain ⟨c, start, rfl⟩ := List.exists_cons_of_ne_nil hstart
    obtain ⟨d, stop, rfl⟩ := List.exists_cons_of_ne_nil hstop
    have hbetween : between? (c :: start) (d :: stop) t = none := hnone
    rw [between?_eq, firstAt_iff.1 opening, Option.bind_some, firstAt_iff.1 closing] at hbetween
    cases hbetween
  | toLineEnd hne hunset here _ opens _ =>
    obtain ⟨c, start, rfl⟩ := List.exists_cons_of_ne_nil hne
    obtain rfl : stop = [] := hunset
    have hline := onSomeLine?_eq_none (afterStart?_append_lineFeed hd.start hne) hnone here
      fun _ => rfl
    exact not_opens_of_afterStart? hne here.isLine.2 hline opens
  | fromLineStart hunset hne here _ closing =>
    obtain ⟨d, stop, rfl⟩ := List.exists_cons_of_ne_nil hne
    obtain rfl : start = [] := hunset
    obtain ⟨hat, hfresh⟩ := lineAt_append_iff.1 here
    have hline := onSomeLine?_eq_none (untilStop?_append_lineFeed hd.stop hne) hnone hat hfresh
    rw [untilStop?_eq_map_cut? hne hat.isLine.2, firstAt_iff.1 closing] at hline
    cases hline
  | wholeText hunset hunset' hbefore _ _ _ =>
    obtain rfl : start = [] := hunset
    obtain rfl : stop = [] := hunset'
    rw [search?, if_pos hbefore] at hnone
    cases hnone

/-- **There is no more than one value that a delimiter frames.** -/
theorem Frames.unique {lead' value' rest' : Text} (h : delimiter.Frames before t lead value rest)
    (h' : delimiter.Frames before t lead' value' rest') :
    lead = lead' ∧ value = value' ∧ rest = rest' := by
  -- which side is set says which of the four ways it is
  cases h with
  | between hstart hstop opening closing =>
    cases h' with
    | between _ _ opening' closing' =>
      obtain ⟨rfl, rfl⟩ := opening.unique opening'
      obtain ⟨rfl, rfl⟩ := closing.unique closing'
      exact ⟨rfl, rfl, rfl⟩
    | toLineEnd _ hunset => exact absurd hunset hstop
    | fromLineStart hunset => exact absurd hunset hstart
    | wholeText hunset => exact absurd hunset hstart
  | toLineEnd hstart hstop here first opens last =>
    cases h' with
    | between _ hset => exact absurd hstop hset
    | toLineEnd _ _ here' first' opens' last' =>
      obtain ⟨rfl, rfl, rfl⟩ :=
        here.unique here' (Nat.le_antisymm (first here' opens') (first' here opens))
      obtain ⟨rfl, rfl, rfl⟩ :=
        opens.unique opens' (Nat.le_antisymm (last' opens) (last opens'))
      exact ⟨rfl, rfl, rfl⟩
    | fromLineStart hunset => exact absurd hunset hstart
    | wholeText hunset => exact absurd hunset hstart
  | fromLineStart hstart hstop here first closing =>
    cases h' with
    | between hset => exact absurd hstart hset
    | toLineEnd hset => exact absurd hstart hset
    | fromLineStart _ _ here' first' closing' =>
      have hlength := Nat.le_antisymm (first here' closing'.isInfix) (first' here closing.isInfix)
      obtain ⟨hskipped, rfl, rfl⟩ := here.unique here' (by simp [hlength])
      obtain rfl := List.append_cancel_left hskipped
      obtain ⟨rfl, rfl⟩ := closing.unique closing'
      exact ⟨rfl, rfl, rfl⟩
    | wholeText _ hunset => exact absurd hunset hstop
  | wholeText hstart hstop _ append final longest =>
    cases h' with
    | between hset => exact absurd hstart hset
    | toLineEnd hset => exact absurd hstart hset
    | fromLineStart _ hset => exact absurd hstop hset
    | wholeText _ _ _ append' final' longest' =>
      have hlength := Nat.le_antisymm (longest' append final) (longest append' final')
      obtain ⟨rfl, rfl⟩ := List.append_inj' (append.symm.trans append') hlength
      exact ⟨rfl, rfl, rfl⟩

/-- **A delimiter finds exactly what it frames.** -/
theorem locate?_eq_some_iff (hd : delimiter.Inline) :
    delimiter.locate? before t = some (lead, value, rest) ↔
      delimiter.Frames before t lead value rest := by
  refine ⟨frames_of_locate? hd, fun h => ?_⟩
  obtain ⟨found, hfound⟩ := Option.ne_none_iff_exists'.1 (search?_ne_none_of_frames hd h)
  have hlocate : delimiter.locate? before t =
      some (found.skipped ++ found.opening, found.value, found.closing ++ found.rest) := by
    rw [locate?, hfound, Option.map_some]
  obtain ⟨rfl, rfl, rfl⟩ := h.unique (frames_of_locate? hd hlocate)
  exact hlocate

end Delimiter

/-! ### By byte offsets -/

/-- Where the text of a capture stands, as byte offsets. -/
def Capture.extent (capture : Capture) : Extent where
  start := capture.lead.byteLength
  stop := (capture.lead ++ capture.value).byteLength

/-- **Finding a value is matching an expression, and is a plain search for two texts**: from a
place in a text on, a delimiter finds the extent of the first group of its expression, if that
matches, and it is the extent of the value that the delimiter frames, if there is one. -/
theorem Checked.locateAt_iff_frames {delimiter : Delimiter} (hd : delimiter.Inline)
    (before t : Text) :
    ∃ found, Checked.locateAt delimiter (before ++ t) before.byteLength = .ok found ∧
      found = ((delimiter.pattern.search? before t).bind fun c => c.capture? 1).map
        Capture.extent ∧
      ∀ extent, found = some extent ↔ ∃ lead value rest,
        delimiter.Frames before t lead value rest ∧
          extent = ⟨(before ++ lead).byteLength, (before ++ lead ++ value).byteLength⟩ := by
  refine ⟨_, Checked.locateAt_eq delimiter before t, ?_, fun extent => ?_⟩
  · rw [Delimiter.search?_pattern, Delimiter.locate?]
    cases delimiter.search? before t with
    | none => rfl
    | some found =>
      simp [Occurrence.capture?_cursor, Capture.extent, Text.byteLength_append, Nat.add_assoc]
  · rw [Option.map_eq_some_iff]
    constructor
    · rintro ⟨⟨lead, value, rest⟩, hfound, rfl⟩
      refine ⟨lead, value, rest, (Delimiter.locate?_eq_some_iff hd).1 hfound, ?_⟩
      simp [Text.byteLength_append, Nat.add_assoc]
    · rintro ⟨lead, value, rest, hframes, rfl⟩
      refine ⟨(lead, value, rest), (Delimiter.locate?_eq_some_iff hd).2 hframes, ?_⟩
      simp [Text.byteLength_append, Nat.add_assoc]

/-- On the first of two lines a carriage return stands behind every start; on the second the starts
overlap, and the value begins behind the last of them. -/
theorem Checked.locateAt_overlapping :
    Delimiter.Inline ⟨"aa".toList, []⟩ ∧
      Checked.locateAt ⟨"aa".toList, []⟩ ("é".toList ++ "aaa\rb\naaaa c\r\n".toList)
        (Text.byteLength "é".toList) = .ok (some ⟨12, 14⟩) ∧
      ∃ lead value rest, Delimiter.Frames ⟨"aa".toList, []⟩ "é".toList
          "aaa\rb\naaaa c\r\n".toList lead value rest ∧
        (⟨12, 14⟩ : Extent) = ⟨Text.byteLength ("é".toList ++ lead),
          Text.byteLength ("é".toList ++ lead ++ value)⟩ := by
  have hinline : Delimiter.Inline ⟨"aa".toList, []⟩ := ⟨by decide, by decide⟩
  have hextent : Checked.locateAt ⟨"aa".toList, []⟩
      ("é".toList ++ "aaa\rb\naaaa c\r\n".toList) (Text.byteLength "é".toList) =
        .ok (some ⟨12, 14⟩) := by
    rfl
  obtain ⟨found, hfound, -, hframes⟩ :=
    Checked.locateAt_iff_frames hinline "é".toList "aaa\rb\naaaa c\r\n".toList
  exact ⟨hinline, hextent, (hframes _).1 (Except.ok.inj (hfound.symm.trans hextent))⟩

end FieldedText
