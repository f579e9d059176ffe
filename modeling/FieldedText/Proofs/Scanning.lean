/-
FieldedText/Proofs/Scanning.lean

The scan of a document and its segmentation see the same directives.

A scan takes lines in their plain form and a segmentation takes their content.  The two differ by
carriage returns (`exists_plain_eq`), and these are in no sign of the markup: behind the line of a
directive they change nothing but the end of a framing, which is all that stands behind its token
(`find_append_returns`).  On every line that is well formed the scan then finds what the
segmentation finds (`exists_forall₂_scannedAs`), and so it has nothing to complain about before the
line that ends the segmentation (`exists_isAt_of_scan_error`).

A directive sets a part of the settings to what it says, whatever was set before; what is set last
stays, and so a second scan changes nothing (`applyAll_applyAll`).
-/
import FieldedText.Proofs.Segmenter
import Mathlib.Data.List.Induction

namespace FieldedText

variable {comment : Comment} {settings : Settings} {n k : Nat} {raw t ends mark : Text}
  {ls : List Text} {e : Error} {directive : Directive}

/-! ### More carriage returns -/

namespace Text

theorem prefix_append_left_iff (h : ∀ c ∈ ends, c ∉ mark) : mark <+: t ++ ends ↔ mark <+: t := by
  refine ⟨fun hin => ?_, fun hin => hin.trans (List.prefix_append t ends)⟩
  by_cases hlength : mark.length ≤ t.length
  · exact List.prefix_of_prefix_length_le hin (List.prefix_append t ends) hlength
  · -- else the mark would hold the first of the characters behind the text
    exfalso
    obtain ⟨w, hw⟩ : t <+: mark :=
      List.prefix_of_prefix_length_le (List.prefix_append t ends) hin (by omega)
    cases w with
    | nil => exact hlength (by rw [← hw, List.append_nil])
    | cons c w =>
      rw [← hw, List.prefix_append_right_inj] at hin
      exact h c (hin.subset (List.mem_cons_self ..)) (by simp [← hw])

theorem after?_append_ends (h : ∀ c ∈ ends, c ∉ mark) :
    after? mark (t ++ ends) = (after? mark t).map (· ++ ends) := by
  cases hafter : after? mark t with
  | some rest => rw [after?_eq_some_iff.1 hafter, List.append_assoc, after?_append, Option.map_some]
  | none =>
    rw [after?_eq_none_iff] at hafter
    exact after?_eq_none_iff.2 (mt (prefix_append_left_iff h).1 hafter)

theorem cut?_append_ends (hmark : mark ≠ []) (h : ∀ c ∈ ends, c ∉ mark) :
    cut? mark (t ++ ends) = (cut? mark t).map fun cut => (cut.1, cut.2 ++ ends) := by
  cases hcut : cut? mark t with
  | some cut => exact cut?_append_right hcut ends
  | none =>
    rw [cut?_eq_none_iff] at hcut
    exact cut?_eq_none_iff.2 (mt (infix_append_left_iff hmark h).1 hcut)

/-- The content of a line is the same with more line ends after it. -/
theorem content_append_ends (h : ∀ c ∈ ends, isLineEnd c = true) (t : Text) :
    content (t ++ ends) = content t := by
  have hreverse : ∀ c ∈ ends.reverse, isLineEnd c = true := fun c hc => h c (List.mem_reverse.1 hc)
  rw [content, content, trimEndBy, trimEndBy, List.reverse_append,
    List.dropWhile_append_of_pos hreverse]

/-- **The plain form of a line is its content and carriage returns.** The content is without any,
and the plain form is without the one that belongs to the line end. -/
theorem exists_plain_eq (h : IsLine raw) :
    ∃ ends, plain raw = content raw ++ ends ∧ ∀ c ∈ ends, c = '\r' := by
  obtain ⟨after, hraw, hafter⟩ := plain_append raw
  obtain ⟨ends, hplain, hends⟩ := content_append (plain raw)
  have hcontent : content (plain raw) = content raw := by
    conv => rhs; rw [hraw]
    exact (content_append_ends hafter _).symm
  rw [hcontent] at hplain
  refine ⟨ends, hplain, fun c hc => ?_⟩
  have hfeed : c ≠ '\n' := by
    rintro rfl
    exact not_mem_plain h (by rw [hplain]; exact List.mem_append_right _ hc)
  simpa [isLineEnd, hfeed] using hends c hc

end Text

namespace Directive

/-- A directive as it is found with more carriage returns at the end of its line. Only a framing
goes up to the end of its line; all others end with a sign of the markup. -/
def trailed (ends : Text) : Directive → Directive
  | .comment framing => .comment { framing with stop := framing.stop ++ ends }
  | directive => directive

theorem escapedText?_cons {x : Char} (hquote : x ≠ '"') (hslash : x ≠ '\\') (rest : Text) :
    escapedText? (x :: rest) = (escapedText? rest).map (x :: ·) := by
  rw [escapedText?]
  · exact hquote
  · exact fun _ h => absurd h hslash
  · exact fun _ _ h => absurd h hslash
  · exact fun h => absurd h hslash

/-- No escaped text is closed without a quote. -/
theorem escapedText?_eq_none (h : '"' ∉ t) : escapedText? t = none := by
  fun_induction escapedText? t with
  | case1 => rfl
  | case2 rest => exact absurd (List.mem_cons_self ..) h
  | case3 rest => rfl
  | case4 c rest hfeed ih =>
    rw [ih fun hmem => h (List.mem_cons_of_mem _ (List.mem_cons_of_mem _ hmem)), Option.map_none]
  | case5 => rfl
  | case6 c rest hquote hfeed hslash hlast ih =>
    rw [ih fun hmem => h (List.mem_cons_of_mem _ hmem), Option.map_none]

section

variable (hends : ∀ c ∈ ends, c = '\r')
include hends

/-- A sign without a carriage return holds none of the characters. -/
theorem not_mem_of_returns (hmark : '\r' ∉ mark) : ∀ c ∈ ends, c ∉ mark := by
  intro c hc
  rw [hends c hc]
  exact hmark

theorem not_mem_returns {c : Char} (hc : c ≠ '\r') : c ∉ ends := fun hmem => hc (hends c hmem)

theorem escapedText?_append_returns (t : Text) : escapedText? (t ++ ends) = escapedText? t := by
  have hquote : '"' ∉ ends := not_mem_returns hends (by decide)
  fun_induction escapedText? t with
  | case1 => exact escapedText?_eq_none hquote
  | case2 rest =>
    have hclosing : ∀ c ∈ ends, c ∉ Sign.closing := not_mem_of_returns hends (by decide)
    rw [List.cons_append, escapedText?, Text.after?_append_ends hclosing, Option.map_map]
    rfl
  | case3 rest => rw [List.cons_append, List.cons_append, escapedText?]
  | case4 c rest hfeed ih =>
    rw [List.cons_append, List.cons_append, escapedText?, ih]
    exact hfeed
  | case5 =>
    -- a backslash at the end of the line comes to escape a carriage return
    cases ends with
    | nil => rfl
    | cons c ends =>
      have hfeed : c ≠ '\n' := by
        rw [hends c (List.mem_cons_self ..)]
        decide
      rw [List.mem_cons, not_or] at hquote
      rw [List.singleton_append, escapedText?, escapedText?_eq_none hquote.2, Option.map_none]
      exact hfeed
  | case6 c rest hquote' hfeed hslash hlast ih =>
    have hne : c ≠ '\\' := by
      rintro rfl
      cases rest with
      | nil => exact hlast rfl rfl
      | cons y rest => exact hslash y rest rfl rfl
    rw [List.cons_append, escapedText?_cons hquote' hne, ih]

theorem findList?_append_returns (t : Text) : findList? (t ++ ends) = findList? t := by
  have hopening : ∀ c ∈ ends, c ∉ listOpening := not_mem_of_returns hends (by decide)
  have hescaped : escapedText? ∘ (· ++ ends) = escapedText? :=
    funext (escapedText?_append_returns hends)
  induction t with
  | nil =>
    exact findList?_eq_none (Text.not_infix_of_not_mem (c := '\x7b') (by decide)
      (not_mem_returns hends (by decide)))
  | cons c t ih =>
    rw [List.cons_append, findList?, ← List.cons_append, Text.after?_append_ends hopening,
      Option.bind_map, hescaped, ih]
    rfl

theorem readSide?_append_returns (t : Text) :
    readSide? (t ++ ends) = (readSide? t).map fun found => (found.1, found.2 ++ ends) := by
  have hword (word : Text) (hword : '\r' ∉ word) :=
    Text.after?_append_ends (t := t) (not_mem_of_returns hends hword)
  rw [readSide?, readSide?, hword _ (by decide), hword _ (by decide), hword _ (by decide)]
  cases Text.after? "start:\"".toList t with
  | some rest => rfl
  | none =>
    cases Text.after? "end:\"".toList t with
    | some rest => rfl
    | none => cases Text.after? "pair:\"".toList t <;> rfl

theorem readDelimiter?_append_returns (t : Text) :
    readDelimiter? (t ++ ends) = readDelimiter? t := by
  have hopening : ∀ c ∈ ends, c ∉ delimiterOpening := not_mem_of_returns hends (by decide)
  have hclosing : ∀ c ∈ ends, c ∉ Sign.patternClosing := not_mem_of_returns hends (by decide)
  rw [readDelimiter?, readDelimiter?, Text.after?_append_ends hopening]
  cases Text.after? delimiterOpening t with
  | none => rfl
  | some rest =>
    simp only [Option.map_some, Option.bind_eq_bind, Option.bind_some,
      readSide?_append_returns hends]
    cases readSide? rest with
    | none => rfl
    | some found =>
      simp only [Option.map_some, Option.bind_some,
        Text.cut?_append_ends (by decide) hclosing]
      cases Text.cut? Sign.patternClosing found.2 <;> rfl

theorem findDelimiter?_append_returns (t : Text) :
    findDelimiter? (t ++ ends) = findDelimiter? t := by
  induction t with
  | nil =>
    exact findDelimiter?_eq_none (Text.not_infix_of_not_mem (c := '\x7b') (by decide)
      (not_mem_returns hends (by decide)))
  | cons c t ih =>
    rw [List.cons_append, findDelimiter?, ← List.cons_append, readDelimiter?_append_returns hends,
      ih]
    rfl

/-- **The directive of a line is found with more carriage returns at its end**; only a framing
takes them in. -/
theorem find_append_returns (h : find n t = .ok (some directive)) :
    find n (t ++ ends) = .ok (some (directive.trailed ends)) := by
  have htoken : ∀ c ∈ ends, c ∉ commentToken := not_mem_of_returns hends (by decide)
  -- The four kinds of directives are looked for one after the other, and each search finds the
  -- same with more carriage returns behind the line.
  rw [find] at h ⊢
  rw [findList?_append_returns hends]
  cases hlist : findList? t with
  | some block =>
    rw [hlist] at h
    cases h
    rfl
  | none =>
    rw [hlist] at h
    rw [Text.cut?_append_ends (by decide) htoken]
    cases hcut : Text.cut? commentToken t with
    -- a framing takes them to its end
    | some cut =>
      rw [hcut] at h
      cases h
      rfl
    | none =>
      rw [hcut] at h
      simp only [Option.map_none, findDelimiter?_append_returns hends] at h ⊢
      cases hdelimiter : findDelimiter? t with
      | some found =>
        obtain ⟨side, value⟩ := found
        rw [hdelimiter] at h
        cases side with
        | start =>
          cases h
          rfl
        | stop =>
          cases h
          rfl
        | pair =>
          simp only [ofSide] at h ⊢
          cases hpair : Delimiter.ofPair value with
          | ok delimiter =>
            rw [hpair] at h
            cases h
            rfl
          | error e =>
            rw [hpair] at h
            cases h
      | none =>
        rw [hdelimiter] at h
        simp only at h
        -- without a directive there is nothing to be shown
        split at h <;> cases h

end

/-! ### Lines -/

theorem unmarked_of_isBlank (h : Text.isBlank raw = true) : Unmarked raw := by
  refine unmarked_of_not_mem fun hmem => ?_
  have hspace := List.all_eq_true.1 h '\x7b' hmem
  exact absurd hspace (by decide)

/-- A line that has a kind is scanned without a complaint. -/
theorem exists_find_plain {kind : LineKind} (hline : Text.IsLine raw)
    (h : LineKind.Is comment raw kind) : ∃ found, ∀ n, find n (Text.plain raw) = .ok found := by
  have hnone (hunmarked : Unmarked raw) : ∃ found, ∀ n, find n (Text.plain raw) = .ok found :=
    ⟨none, fun _ => find_eq_ok_none_iff.2 (unmarked_plain_iff.2 hunmarked)⟩
  cases kind with
  | blank => exact hnone (unmarked_of_isBlank (LineKind.is_blank_iff.1 h))
  | header => exact hnone (LineKind.is_header_iff.1 h).2.1
  | prose => exact hnone (LineKind.is_prose_iff.1 h).2.1
  | directive found =>
    obtain ⟨ends, hplain, hends⟩ := Text.exists_plain_eq hline
    refine ⟨some (found.trailed ends), fun n => ?_⟩
    rw [hplain]
    exact find_append_returns hends ((LineKind.find_of_is_directive h).2 n)

theorem ofLines_cons_of_find {found : Option Directive}
    (h : find n (Text.plain raw) = .ok found) :
    ofLines n (raw :: ls) = (ofLines (n + 1) ls).map
      ((found.map fun directive => (n, directive)).toList ++ ·) := by
  rw [ofLines, h]
  cases ofLines (n + 1) ls with
  | error e => rfl
  | ok later => cases found <;> rfl

/-- A complaint is not about a line on which something can be found, or nothing. -/
theorem ofLines_of_cons_eq_error {found : Option Directive}
    (hfind : find n (Text.plain raw) = .ok found) (h : ofLines n (raw :: ls) = .error e) :
    ofLines (n + 1) ls = .error e := by
  rw [ofLines_cons_of_find hfind] at h
  cases hlater : ofLines (n + 1) ls with
  | ok later =>
    rw [hlater] at h
    cases h
  | error e' =>
    rw [hlater] at h
    exact h

/-- A complaint carries the number of one of the lines. -/
theorem exists_isAt_of_ofLines (h : ofLines n ls = .error e) : ∃ m, n ≤ m ∧ e.IsAt m := by
  induction ls generalizing n with
  | nil => cases h
  | cons raw ls ih =>
    cases hfind : find n (Text.plain raw) with
    | error e' =>
      rw [ofLines, hfind] at h
      cases h
      exact ⟨n, Nat.le_refl n, isAt_of_find hfind⟩
    | ok found =>
      obtain ⟨m, hle, hat⟩ := ih (ofLines_of_cons_eq_error hfind h)
      exact ⟨m, by omega, hat⟩

/-- A complaint is not about the lines before it. -/
theorem ofLines_of_append {pre : List Text}
    (hpre : ∀ raw ∈ pre, ∃ found, ∀ n, find n (Text.plain raw) = .ok found)
    (h : ofLines n (pre ++ ls) = .error e) : ofLines (n + pre.length) ls = .error e := by
  induction pre generalizing n with
  | nil => exact h
  | cons raw pre ih =>
    obtain ⟨⟨found, hfind⟩, hpre⟩ := List.forall_mem_cons.1 hpre
    rw [List.length_cons, Nat.add_comm pre.length 1, ← Nat.add_assoc]
    exact ih hpre (ofLines_of_cons_eq_error (hfind n) h)

end Directive

/-! ### Settings -/

namespace Settings

variable {other : Settings} {found : List (Nat × Directive)}

theorem apply_apply (settings : Settings) (directive : Directive) :
    (settings.apply directive).apply directive = settings.apply directive := by
  cases directive <;> rfl

/-- What a directive sets is set again, whatever another directive sets in between. The two
settings may differ in what the first directive sets, and in nothing else. -/
theorem apply_congr (later : Directive) (h : settings.apply directive = other.apply directive) :
    (settings.apply later).apply directive = (other.apply later).apply directive := by
  obtain ⟨comment, ⟨start, stop⟩, missing⟩ := settings
  obtain ⟨comment', ⟨start', stop'⟩, missing'⟩ := other
  cases directive <;> simp only [apply, mk.injEq, Delimiter.mk.injEq] at h <;> cases later <;>
    simp [apply, h]

theorem apply_applyAll_apply (settings : Settings) (directive : Directive)
    (found : List (Nat × Directive)) :
    ((settings.apply directive).applyAll found).apply directive =
      (settings.applyAll found).apply directive := by
  have hrun (x y : Settings) (h : x.apply directive = y.apply directive) :
      (x.applyAll found).apply directive = (y.applyAll found).apply directive := by
    induction found generalizing x y with
    | nil => exact h
    | cons next found ih => exact ih _ _ (apply_congr next.2 h)
  exact hrun _ _ (apply_apply settings directive)

/-- **Directives that are applied once more change nothing.** -/
theorem applyAll_applyAll (settings : Settings) (found : List (Nat × Directive)) :
    (settings.applyAll found).applyAll found = settings.applyAll found := by
  -- the last directive sets what it sets; the rest is as the directives before it leave it
  induction found using List.reverseRecOn with
  | nil => rfl
  | append_singleton found last ih =>
    have hlast (x : Settings) : x.applyAll (found ++ [last]) = (x.applyAll found).apply last.2 := by
      rw [applyAll, List.foldl_append]
      rfl
    rw [hlast, hlast, apply_applyAll_apply, ih]

end Settings

/-! ### Documents -/

namespace Segment

/-- Whether a segment is the line of a directive. -/
def isDirective : Segment → Bool
  | .block _ => false
  | .directive .. => true

/-- What a scan finds on the line of a directive's segment: the same directive, but that a framing
keeps the carriage returns which the line has before its line end. -/
inductive ScannedAs : Segment → Nat × Directive → Prop
  | intro {found : Directive} {raw ends : Text} {line : Nat}
      (plain : Text.plain raw = Text.content raw ++ ends) (returns : ∀ c ∈ ends, c = '\r') :
      ScannedAs (.directive found raw line) (line, found.trailed ends)

theorem filter_flushing (current : Block) (n : Nat) :
    (flushing current n).filter isDirective = [] := by
  unfold flushing
  split <;> rfl

end Segment

namespace Segmentation

open Segment

variable {current : Block} {segments : List Segment}

/-- **The scan of some lines finds the directives that are cut out of them.** By induction on the
lines, along the segmentation, for any open block. -/
theorem exists_forall₂_scannedAs (hopen : current.IsOpen) (hls : ∀ raw ∈ ls, Text.IsLine raw)
    (h : ofLines comment n current ls = ⟨segments, none⟩) :
    ∃ found, Directive.ofLines n ls = .ok found ∧
      List.Forall₂ ScannedAs (segments.filter isDirective) found := by
  induction ls generalizing n current segments with
  | nil =>
    cases h
    exact ⟨[], rfl, by rw [filter_flushing]; exact .nil⟩
  | cons raw ls ih =>
    obtain ⟨hraw, hls⟩ := List.forall_mem_cons.1 hls
    cases hfeed : feed comment n current raw with
    | error e =>
      rw [ofLines, hfeed] at h
      cases h
    | ok step =>
      obtain ⟨closed, next⟩ := step
      rw [ofLines_cons_of_feed hfeed, Segmentation.mk.injEq] at h
      obtain ⟨rfl, hnone⟩ := h
      obtain ⟨found, hfound, hmatch⟩ := ih (hopen.feed hraw hfeed).1 hls (n := n + 1)
        (by rw [← hnone])
      rw [List.filter_append]
      -- only on a directive's line is there anything to be found
      have hplain (hunmarked : Directive.Unmarked raw) (hclosed : closed.filter isDirective = []) :
          ∃ found, Directive.ofLines n (raw :: ls) = .ok found ∧ List.Forall₂ ScannedAs
            (closed.filter isDirective ++
              (ofLines comment (n + 1) next ls).segments.filter isDirective) found := by
        have hfind : Directive.find n (Text.plain raw) = .ok none :=
          Directive.find_eq_ok_none_iff.2 (Directive.unmarked_plain_iff.2 hunmarked)
        refine ⟨found, ?_, by rwa [hclosed]⟩
        rw [Directive.ofLines_cons_of_find hfind, hfound]
        rfl
      rcases feed_cases hopen.closed hfeed with ⟨hblank, rfl, -⟩ | ⟨directive, his, rfl, -⟩ |
        ⟨inner, specs, hheader, -, -, rfl, -⟩ | ⟨hprose, rfl, -⟩
      · exact hplain (Directive.unmarked_of_isBlank hblank) rfl
      · obtain ⟨ends, hraw', hends⟩ := Text.exists_plain_eq hraw
        have hfind : Directive.find n (Text.plain raw) = .ok (some (directive.trailed ends)) := by
          rw [hraw']
          exact Directive.find_append_returns hends ((LineKind.find_of_is_directive his).2 n)
        refine ⟨(n, directive.trailed ends) :: found, ?_, ?_⟩
        · rw [Directive.ofLines_cons_of_find hfind, hfound]
          rfl
        · rw [List.filter_append, filter_flushing]
          exact .cons (.intro hraw' hends) hmatch
      · exact hplain (LineKind.is_header_iff.1 hheader).2.1 (filter_flushing current n)
      · exact hplain (LineKind.is_prose_iff.1 hprose).2.1 rfl

/-- **A scan complains about no line before the one that ends the segmentation.** -/
theorem exists_isAt_of_scan_error {document : Text}
    (h : Directive.ofDocument document = .error e) :
    ∃ n failure k, e.IsAt n ∧ (ofText comment document).failure = some failure ∧
      failure.IsAt k ∧ k ≤ n := by
  have hlines : ∀ raw ∈ Text.lines document, Text.IsLine raw := fun _ => Text.isLine_of_mem_lines
  cases hsegments : ofText comment document with
  | mk segments failure =>
    cases failure with
    | none =>
      obtain ⟨found, hfound, -⟩ :=
        exists_forall₂_scannedAs Block.isOpen_empty hlines hsegments
      rw [Directive.ofDocument, hfound] at h
      cases h
    | some failure =>
      -- the lines before the one that ended the segmentation are well formed, and a scan has
      -- nothing to say of them
      obtain ⟨pre, bad, post, hsplit, hpre, -, hat, -⟩ := (stopped_of_ofText hsegments).line
      rw [Directive.ofDocument, hsplit] at h
      have hfound : ∀ raw ∈ pre, ∃ found, ∀ n, Directive.find n (Text.plain raw) = .ok found := by
        intro raw hraw
        obtain ⟨⟨kind, his⟩, -⟩ := hpre raw hraw
        exact Directive.exists_find_plain (hlines raw (by simp [hsplit, hraw])) his
      obtain ⟨n, hle, hn⟩ :=
        Directive.exists_isAt_of_ofLines (Directive.ofLines_of_append hfound h)
      exact ⟨n, failure, 1 + pre.length, hn, rfl, hat, hle⟩

end Segmentation

/-- **The scan of a document and its segmentation see the same directives.**  When the document is
cut to its end, the scan finds the directives that are cut out of it, on their lines; a complaint
of the scan is not about a line before the one that ends the segmentation; and a scan that goes on
from its own result leaves it as it is. -/
theorem Settings.scan_agrees (comment : Comment) (settings : Settings) (document : Text) :
    (∀ segments, Segmentation.ofText comment document = ⟨segments, none⟩ →
      ∃ found, Directive.ofDocument document = .ok found ∧
        settings.scan document = .ok (settings.applyAll found) ∧
        List.Forall₂ Segment.ScannedAs (segments.filter Segment.isDirective) found) ∧
    (∀ e, settings.scan document = .error e →
      ∃ n failure k, e.IsAt n ∧ (Segmentation.ofText comment document).failure = some failure ∧
        failure.IsAt k ∧ k ≤ n) ∧
    ∀ result, settings.scan document = .ok result → result.scan document = .ok result := by
  refine ⟨fun segments h => ?_, fun e h => ?_, fun result h => ?_⟩
  -- what is cut out is what is scanned, and the settings are the directives applied in order
  · obtain ⟨found, hfound, hmatch⟩ := Segmentation.exists_forall₂_scannedAs
      Block.isOpen_empty (fun _ => Text.isLine_of_mem_lines) h
    refine ⟨found, hfound, ?_, hmatch⟩
    rw [scan, Directive.ofDocument, hfound]
    rfl
  · rw [scan] at h
    cases hfound : Directive.ofDocument document with
    | ok found =>
      rw [hfound] at h
      cases h
    | error e' =>
      rw [hfound] at h
      cases h
      exact Segmentation.exists_isAt_of_scan_error hfound
  · rw [scan] at h ⊢
    cases hfound : Directive.ofDocument document with
    | error e =>
      rw [hfound] at h
      cases h
    | ok found =>
      rw [hfound] at h
      cases h
      -- the directives are those of the document in both scans, and applying them once more
      -- changes nothing
      exact congrArg Except.ok (applyAll_applyAll settings found)

/-- A framing that is scanned with a carriage return, before lines that end in all ways. -/
def returning : Text :=
  "<!-- \x7b@template.comment\x7d\x7d -->\r\r\n\r\n<!--\x7b\x7ba\x7d\x7d-->\r\nx\ny\r".toList

/-- A header that is none, and behind it a directive that is none. -/
def halted : Text := "<!--\x7b\x7ba:b\x7d\x7d-->\nx\n\x7b@template.x\x7d\n".toList

theorem scan_agrees_returning :
    (Segmentation.ofText .standard returning).failure = none ∧
    (∃ found, Directive.ofDocument returning = .ok found ∧
      Settings.standard.scan returning = .ok (Settings.standard.applyAll found) ∧
      (Settings.standard.applyAll found).scan returning =
        .ok (Settings.standard.applyAll found) ∧
      List.Forall₂ Segment.ScannedAs
        ((Segmentation.ofText .standard returning).segments.filter Segment.isDirective) found) ∧
    (Segmentation.ofText .standard returning).segments.filter Segment.isDirective =
      [.directive (.comment ⟨"<!-- ".toList, " -->".toList⟩)
        "<!-- \x7b@template.comment\x7d\x7d -->\r\r\n".toList 1] ∧
    Directive.ofDocument returning =
      .ok [(1, .comment ⟨"<!-- ".toList, " -->\r".toList⟩)] ∧
    Settings.standard.scan halted =
      .error (.grammar 3 .unknownDirective (some "\x7b@template.x\x7d".toList)) ∧
    ∃ n failure k, Error.IsAt n
        (.grammar 3 .unknownDirective (some "\x7b@template.x\x7d".toList)) ∧
      (Segmentation.ofText .standard halted).failure = some failure ∧ failure.IsAt k ∧ k ≤ n := by
  have hfailure : (Segmentation.ofText .standard returning).failure = none := by decide +kernel
  have hhalted : Settings.standard.scan halted =
      .error (.grammar 3 .unknownDirective (some "\x7b@template.x\x7d".toList)) := by decide +kernel
  obtain ⟨hagrees, -, hagain⟩ := Settings.scan_agrees .standard .standard returning
  obtain ⟨found, hfound, hscan, hmatch⟩ := hagrees _ (by rw [← hfailure])
  refine ⟨hfailure, ⟨found, hfound, hscan, hagain _ hscan, hmatch⟩, by decide +kernel,
    by decide +kernel, hhalted, ?_⟩
  exact (Settings.scan_agrees .standard .standard halted).2.1 _ hhalted

end FieldedText
