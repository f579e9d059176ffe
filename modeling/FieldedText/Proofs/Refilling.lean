/-
FieldedText/Proofs/Refilling.lean

Whether a text with placeholders can be filled does not depend on the data.

Filling fails when a value would break its block, or would not be found again.  Once a text
is filled with some data, neither happens with values that can be told from the text, the
framing of comments and the markers of directives (`renderText_fresh`).

The body is one block still: it is cut into the same lines as before, each of which is
touched by a value when it was touched before (`Body.touches_iff`), and what makes a line a
header or a directive's line is in the literal text, so that it was there before as well
(`Body.checkBlock_fill`).  And every value is found again: the delimiter that found the
value before finds the new one (`specsFrom_fresh`), though another delimiter may be
preferred that did not find the old one.
-/
import FieldedText.Proofs.Relocation
import FieldedText.Proofs.Rendering

namespace FieldedText

/-! ### Lines that stay prose -/

namespace Comment

/-- The characters that make a line a header or a directive's line: those of the framing, the
braces, and the markers. A value without any of them cannot turn prose into something else. -/
def signs (comment : Comment) : Text :=
  comment.start ++ comment.stop ++ Sign.opening ++ Sign.closing ++
    Directive.templateMarker ++ Directive.listMarker

end Comment

namespace Body

variable {comment : Comment} {n : Nat} {body line : Body} {value : Name → Text} {avoided : Text}

/-- A line that is framed as a header was framed as one before its values were replaced. -/
theorem isHeader_of_fill (hvalue : line.FreshValues value comment.signs)
    (h : comment.isHeader (line.fill value).text = true) : comment.isHeader line.text = true := by
  obtain ⟨a, inner, b, htext, ha, hb, hopening, hclosing⟩ := Comment.isHeader_iff.1 h
  -- The frame of a header is compared without the white space around it, which takes no
  -- characters to it.
  have htrim : ∀ {t : Text}, t ⊆ comment.signs → Text.trim t ⊆ comment.signs := by
    intro t ht c hc
    obtain ⟨u, v, hsplit, -⟩ := Text.exists_eq_trim t
    refine ht ?_
    rw [hsplit]
    simp [hc]
  have hstart : Text.trim comment.start ⊆ comment.signs :=
    htrim fun c hc => by simp [Comment.signs, hc]
  have hstop : Text.trim comment.stop ⊆ comment.signs :=
    htrim fun c hc => by simp [Comment.signs, hc]
  -- the frame is literal, and the braces are within it whatever the values are
  obtain ⟨rest, rfl, hrest⟩ := exists_append_of_prefix (hvalue.of_mem fun c hc =>
    (List.mem_append.1 hc).imp (ha c) (hstart ·)) htext
  have hvalueRest := (freshValues_append_iff.1 hvalue).2
  obtain ⟨middle, rfl, rfl⟩ := exists_append_of_suffix (hvalueRest.of_mem fun c hc =>
    ((List.mem_append.1 hc).imp (hstop ·) (hb c)).symm) hrest
  have hvalueMiddle := (freshValues_append_iff.1 hvalueRest).1
  refine Comment.isHeader_iff.2 ⟨a, middle.text, b, ?_, ha, hb,
    infix_text (hvalueMiddle.of_subset fun c hc => ?_) hopening,
    infix_text (hvalueMiddle.of_subset fun c hc => ?_) hclosing⟩
  · rw [text_append, text_append]
    rfl
  · simp [Comment.signs, hc]
  · simp [Comment.signs, hc]

/-- **A line of prose stays one** when its values are replaced by fresh ones. -/
theorem prose_fill (hvalue : line.FreshValues value comment.signs)
    (hline : line.text = [] ∨ LineKind.Is comment line.text .prose)
    (hne : (line.fill value).text ≠ []) : LineKind.Is comment (line.fill value).text .prose := by
  by_cases hslots : line.slots = []
  · have hfill : line.fill value = line := by
      obtain ⟨slots, tail⟩ := line
      cases hslots
      rfl
    rw [hfill] at hne ⊢
    exact hline.resolve_left hne
  · -- what makes a line no prose would be in the literal text
    have hunmarked : Directive.Unmarked line.text ∧ comment.isHeader line.text = false := by
      rcases hline with hnil | hprose
      · rw [hnil]
        refine ⟨Directive.unmarked_of_not_mem (by simp), eq_false_of_ne_true fun h => ?_⟩
        obtain ⟨a, inner, b, htext, -, -, hopening, -⟩ := Comment.isHeader_iff.1 h
        simp only [List.nil_eq, List.append_eq_nil_iff] at htext
        rw [htext.2.1] at hopening
        exact absurd hopening (by decide)
      · exact (LineKind.is_prose_iff.1 hprose).2
    obtain ⟨slot, hslot⟩ := List.exists_mem_of_ne_nil _ hslots
    obtain ⟨c, hc⟩ := List.exists_mem_of_ne_nil _ (hvalue slot hslot).ne_nil
    refine LineKind.is_prose_iff.2 ⟨?_, fun m hm hin => hunmarked.1 m hm ?_, ?_⟩
    · exact Text.isBlank_eq_false ((hvalue slot hslot).visible c hc)
        ((isInfix_text_fill_of_mem hslot).subset hc)
    · refine infix_text (hvalue.of_subset fun c hc => ?_) hin
      rcases hm with rfl | rfl <;> simp [Comment.signs, hc]
    · exact eq_false_of_ne_true fun h => by
        rw [isHeader_of_fill hvalue h] at hunmarked
        cases hunmarked.2

/-! ### Blocks that stay blocks -/

theorem mem_text_fill {c : Char} (hold : ∀ slot ∈ body.slots, c ∉ slot.value)
    (value : Name → Text) (h : c ∈ body.text) : c ∈ (body.fill value).text := by
  simp only [text, fill, List.mem_append, List.mem_flatMap, List.mem_map, Slot.text] at h ⊢
  rcases h with ⟨slot, hslot, hc | hc⟩ | hc
  · exact .inl ⟨{ slot with value := value slot.name }, ⟨slot, hslot, rfl⟩, .inl hc⟩
  · exact absurd hc (hold slot hslot)
  · exact .inr hc

/-- A text with other values is a line when it is one with fresh values. -/
theorem isLine_of_fill (hold : ∀ slot ∈ line.slots, '\n' ∉ slot.value)
    (hvalue : line.FreshValues value avoided) (hne : line.text ≠ [])
    (h : Text.IsLine (line.fill value).text) : Text.IsLine line.text := by
  refine ⟨hne, fun hfeed => ?_⟩
  by_cases htail : line.tail = []
  · -- the line feed would be the last character, and so in the tail
    have hmem := mem_text_fill hold value (List.dropLast_subset _ hfeed)
    rw [← List.dropLast_append_getLast h.1, List.mem_append, List.mem_singleton] at hmem
    have hlast := hmem.resolve_left h.2
    have hcomplete : (line.fill value).text.Complete := by
      intro c hc
      rw [List.getLast?_eq_some_getLast h.1, Option.mem_some_iff] at hc
      rw [← hc, ← hlast]
    exact (complete_tail_of_fill hvalue h.1 hcomplete).1 htail
  · -- it would be before the last character with the fresh values as well
    obtain ⟨slots, tail⟩ := line
    have hold' : ∀ slot ∈ slots, '\n' ∉ slot.value := hold
    have hcut : ∀ slots : List Slot, (text ⟨slots, tail⟩).dropLast = text ⟨slots, tail.dropLast⟩ :=
      fun _ => List.dropLast_append_of_ne_nil htail
    rw [hcut] at hfeed
    have hfill : (fill ⟨slots, tail⟩ value).text.dropLast =
        (fill ⟨slots, tail.dropLast⟩ value).text :=
      hcut _
    have hnot := h.2
    rw [hfill] at hnot
    exact hnot (mem_text_fill hold' value hfeed)

/-- **A line is cut out of a body** with what stands before it and behind it. -/
theorem exists_append_line {x l y : Text} (hvalue : body.FreshValues value avoided)
    (h : Text.LineAt (body.fill value).text x l y) :
    ∃ a line c : Body, body = a.append (line.append c) ∧ (a.fill value).text = x ∧
      (line.fill value).text = l ∧ (c.fill value).text = y := by
  have htext := h.append
  rw [List.append_assoc] at htext
  obtain ⟨a, rest, rfl, ha, hrest⟩ :=
    exists_append_complete (fun slot hslot => (hvalue slot hslot).not_mem_lineFeed) h.complete htext
  by_cases hy : y = []
  · rw [hy, List.append_nil] at hrest
    exact ⟨a, rest, ⟨[], []⟩, by rw [append_nil], ha, hrest, hy.symm⟩
  · have hvalueRest := (freshValues_append_iff.1 hvalue).2
    obtain ⟨line, c, rfl, hl, hc⟩ := exists_append_complete
      (fun slot hslot => (hvalueRest slot hslot).not_mem_lineFeed) (h.ended hy) hrest
    exact ⟨a, line, c, rfl, ha, hl, hc⟩

/-- A piece that is a line with fresh values is one with the values that it had. -/
theorem lineAt_of_fill {a c : Body} (hold : ∀ slot ∈ line.slots, '\n' ∉ slot.value)
    (hvalue : (a.append (line.append c)).FreshValues value avoided) (hne : line.text ≠ [])
    (h : Text.LineAt ((a.append (line.append c)).fill value).text (a.fill value).text
      (line.fill value).text (c.fill value).text) :
    Text.LineAt (a.append (line.append c)).text a.text line.text c.text := by
  obtain ⟨hvalueA, hvalueRest⟩ := freshValues_append_iff.1 hvalue
  obtain ⟨hvalueLine, hvalueC⟩ := freshValues_append_iff.1 hvalueRest
  refine ⟨?_, (complete_of_fill hvalueA h.complete).1, isLine_of_fill hold hvalueLine hne h.isLine,
    fun hc => ?_⟩
  · rw [text_append, text_append, List.append_assoc]
  · have hne' : (c.fill value).text ≠ [] := by
      refine text_fill_ne_nil hvalueC ?_
      by_contra hnone
      rw [not_or, not_not, not_not] at hnone
      exact hc (by rw [text, hnone.1, hnone.2]; rfl)
    exact (complete_of_fill hvalueLine (h.ended hne')).1

/-- **A body stays one block** when its values are replaced by fresh ones. -/
theorem checkBlock_fill (hold : ∀ slot ∈ body.slots, '\n' ∉ slot.value)
    (hvalue : body.FreshValues value comment.signs)
    (h : body.checkBlock comment n = .ok ()) : (body.fill value).checkBlock comment n = .ok () := by
  rw [checkBlock, checkLines_eq_ok_iff] at h ⊢
  intro pre l post hlines
  rw [Nat.zero_add]
  -- only a line that a value touches has to be prose, and values touch the same lines as before
  by_cases htouched : ∃ span ∈ (body.fill value).spans,
      touches pre.flatten.length (pre.flatten.length + l.length) span = true
  swap
  · simp only [not_exists, not_and, Bool.not_eq_true] at htouched
    exact .inr htouched
  left
  have hat := Text.LineAt.iff_lines.2 ⟨pre, post, hlines, rfl, rfl⟩
  obtain ⟨a, line, c, rfl, ha, hl, hc⟩ := exists_append_line hvalue hat
  rw [← ha, ← hl, ← hc] at hat
  rw [← ha, ← hl, fill_append, fill_append] at htouched
  obtain ⟨hvalueA, hvalueRest⟩ := freshValues_append_iff.1 hvalue
  -- A line that ends within the body has literal text behind its last value, since no value ends
  -- with a line feed; this is where it can be told which line a value touches.
  have htail := (complete_of_fill hvalueA hat.complete).2
  have htailFill : (a.fill value).slots ≠ [] → (a.fill value).tail ≠ [] :=
    fun hslots => htail fun hnil => hslots (by rw [fill, hnil]; rfl)
  have htouchedLine : Touched line c :=
    (touched_fill_iff value).1 ((touches_iff htailFill).1 htouched)
  rw [← hl]
  refine prose_fill (freshValues_append_iff.1 hvalueRest).1 ?_ hat.isLine.1
  by_cases hnil : line.text = []
  · exact .inl hnil
  right
  -- the line stands in the body with the old values, and is touched there as well
  have holdLine := ((forall_mem_append fun _ old => '\n' ∉ old).1
    ((forall_mem_append fun _ old => '\n' ∉ old).1 hold).2).1
  obtain ⟨pre', post', hlines', hpre, -⟩ :=
    Text.LineAt.iff_lines.1 (lineAt_of_fill holdLine hvalue hnil hat)
  rcases h pre' line.text post' hlines' with hprose | huntouched
  · exact hprose
  · obtain ⟨span, hspan, htouch⟩ := (touches_iff htail).2 htouchedLine
    rw [Nat.zero_add, hpre] at huntouched
    rw [huntouched span hspan] at htouch
    cases htouch

end Body

/-! ### Values that are found again -/

namespace Template

variable {tail : Text} {holes : List Hole}

/-- Behind a placeholder that ends its line the line ends before the next placeholder. -/
theorem exists_ending (htokens : ∀ hole ∈ holes, hole.placeholder.IsToken)
    (h : Surroundings.lineRest (text ⟨holes, tail⟩) = []) :
    ∃ ending ∈ Occurrence.lineEnds, ending <+: leadOf tail holes ∧
      (ending ≠ [] ∧ ending.Complete ∨ holes = [] ∧ tail = ending) := by
  obtain ⟨ending, rest, htext, hending, hended⟩ := Text.lineRest_eq_nil h
  cases holes with
  | nil =>
    have htail : tail = ending ++ rest := htext
    refine ⟨ending, hending, ⟨rest, htail.symm⟩, ?_⟩
    by_cases hrest : rest = []
    · exact .inr ⟨rfl, by rw [htail, hrest, List.append_nil]⟩
    · exact .inl (hended hrest)
  | cons hole holes =>
    obtain ⟨u, hu, -⟩ := (htokens hole (List.mem_cons_self ..)).eq_cons
    have hbrace : '{' ∉ ending := by
      have hends : ∀ e ∈ Occurrence.lineEnds, '{' ∉ e := by decide
      exact hends ending hending
    rw [text_cons, List.append_assoc, hu] at htext
    -- The line end is over before the placeholder begins, since the placeholder begins with a
    -- brace and no line end holds one.
    rcases List.append_eq_append_iff.1 htext with ⟨w, rfl, hrest⟩ | ⟨w, hw, hrest⟩
    · cases w with
      | nil =>
        rw [List.append_nil] at hending hended
        refine ⟨hole.lead, hending, List.prefix_refl _, .inl (hended ?_)⟩
        rw [List.nil_append] at hrest
        simp [← hrest]
      | cons c w =>
        obtain rfl := (List.cons.inj hrest).1
        exact absurd (by simp) hbrace
    · refine ⟨ending, hending, ⟨w, hw.symm⟩, .inl (hended ?_)⟩
      simp [hrest]

/-- A template of which only a line end is left has no placeholder left. -/
theorem holes_eq_nil (htokens : ∀ hole ∈ holes, hole.placeholder.IsToken)
    (h : text ⟨holes, tail⟩ ∈ Occurrence.lineEnds) : holes = [] := by
  cases holes with
  | nil => rfl
  | cons hole holes =>
    obtain ⟨u, hu, -⟩ := (htokens hole (List.mem_cons_self ..)).eq_cons
    have hends : ∀ e ∈ Occurrence.lineEnds, '{' ∉ e := by decide
    refine absurd ?_ (hends _ h)
    rw [text_cons, hu]
    simp

/-- Behind a placeholder no line begins. -/
theorem not_complete_token {p : Placeholder} (h : p.IsToken) : ¬ p.token.Complete := by
  obtain ⟨-, a, b, -, -, htoken⟩ := h
  rw [htoken, ← List.append_assoc, ← List.append_assoc, ← List.append_assoc]
  intro hcomplete
  exact absurd hcomplete.of_append (by decide)

/-- The text around the first of the placeholders that follow `passed`. -/
def around (tail passed : Text) (hole : Hole) (holes : List Hole) : Surroundings where
  placeholder := hole.placeholder
  before := passed ++ hole.lead
  lead := hole.lead
  follow := leadOf tail holes
  after := text ⟨holes, tail⟩

theorem surrounds_around (tail passed : Text) (hole : Hole) (holes : List Hole) :
    Surrounds (passed ++ text ⟨hole :: holes, tail⟩) (around tail passed hole holes) := by
  have hmem : around tail passed hole holes ∈ surroundingsFrom tail passed (hole :: holes) :=
    List.mem_cons_self ..
  exact surrounds_of_mem_surroundingsFrom hmem

end Template

namespace Document

variable {settings : Settings} {values others : Record} {n : Nat} {text out tail template : Text}
  {passed before other : Text} {hole : Hole} {holes : List Hole} {specs : List FieldSpec}
  {delimiter : Delimiter}

/-- The text of a template with data in place of the placeholders that are left. -/
def filledText (settings : Settings) (values : Record) (tail passed : Text) (holes : List Hole) :
    Text :=
  Body.text ⟨(Template.surroundingsFrom tail passed holes).map (slotOf settings values), tail⟩

theorem leadOf_isPrefix (settings : Settings) (values : Record) (passed : Text) :
    Template.leadOf tail holes <+: filledText settings values tail passed holes := by
  cases holes with
  | nil => exact List.prefix_refl _
  | cons hole holes =>
    rw [filledText, Template.surroundingsFrom, List.map_cons, Body.text_cons, List.append_assoc]
    exact List.prefix_append ..

/-- The end of a line that a placeholder ends is literal. -/
theorem exists_ending_filledText (settings : Settings)
    (htokens : ∀ hole ∈ holes, hole.placeholder.IsToken)
    (h : Surroundings.lineRest (Template.text ⟨holes, tail⟩) = []) :
    ∃ ending, ∀ values passed, ∃ rest,
      filledText settings values tail passed holes = ending ++ rest ∧
        Text.EndsLine ending rest := by
  obtain ⟨ending, hending, hprefix, hcases⟩ := Template.exists_ending htokens h
  refine ⟨ending, fun values passed => ?_⟩
  obtain ⟨rest, hrest⟩ := hprefix.trans (leadOf_isPrefix settings values passed)
  refine ⟨rest, hrest.symm, hending, fun hne => ?_⟩
  rcases hcases with hcases | ⟨rfl, rfl⟩
  · exact hcases
  · -- all that is left is the line end
    exact absurd (List.append_right_eq_self.1 hrest) hne

/-- **A fresh value is found again** by a delimiter that finds another value in its place. What a
delimiter finds is what it frames, and its marks are literal text that a fresh value does not
hold. -/
theorem findsAgain_fresh (htemplate : passed ++ Template.text ⟨hole :: holes, tail⟩ = template)
    (htokens : ∀ hole ∈ holes, hole.placeholder.IsToken)
    (hfresh : Text.Fresh template (renderedValue settings others hole.placeholder.name))
    (hpassed : passed.Complete → other = []) (hother : other.Complete → before.Complete)
    (hmem : delimiter ∈ (Template.around tail passed hole holes).delimiters settings.delimiter)
    (h : Body.findsAgain before (slotOf settings values (Template.around tail passed hole holes))
      (filledText settings values tail (passed ++ hole.lead ++ hole.placeholder.token) holes)
      delimiter = true) :
    Body.findsAgain other (slotOf settings others (Template.around tail passed hole holes))
      (filledText settings others tail (passed ++ hole.lead ++ hole.placeholder.token) holes)
      delimiter = true := by
  have hs := Template.surrounds_around tail passed hole holes
  rw [htemplate] at hs
  have hinline := Surroundings.inline_of_mem_delimiters hs hmem
  refine decide_eq_true ((Delimiter.locate?_eq_some_iff hinline).2 ?_)
  refine Surroundings.frames_refill hs hmem hfresh
    ((Delimiter.locate?_eq_some_iff hinline).1 (of_decide_eq_true h)) (leadOf_isPrefix ..)
    (fun hbegins => ?_) hother (fun hends => ?_) fun halone => ?_
  -- a line that begins before the placeholder in the template begins before the value
  · have hbefore : (passed ++ hole.lead).Complete := Delimiter.atLineStart_iff.1 hbegins
    show (other ++ hole.lead).Complete
    by_cases hlead : hole.lead = []
    · rw [hlead, List.append_nil] at hbefore ⊢
      rw [hpassed hbefore]
      exact Text.complete_nil
    · exact (Text.complete_append_iff hlead).2 hbefore.of_append
  -- a line that ends behind the placeholder ends behind the value, with the same line end
  · obtain ⟨ending, hfilled⟩ :=
      exists_ending_filledText settings htokens (of_decide_eq_true hends)
    obtain ⟨rest, hrest, hending⟩ := hfilled values (passed ++ hole.lead ++ hole.placeholder.token)
    obtain ⟨rest', hrest', hending'⟩ :=
      hfilled others (passed ++ hole.lead ++ hole.placeholder.token)
    exact ⟨ending, rest, rest', hrest, hending, hrest', hending'⟩
  -- a placeholder that is all of the template has nothing around it but a line end
  · simp only [Surroundings.isAlone, Bool.and_eq_true, Bool.or_eq_true, decide_eq_true_eq] at halone
    have hnil : passed ++ hole.lead = [] := halone.1
    rw [List.append_eq_nil_iff] at hnil
    refine ⟨hpassed (by rw [hnil.1]; exact Text.complete_nil), ?_⟩
    have hafter : (Template.around tail passed hole holes).after ∈ Occurrence.lineEnds := by
      rcases halone.2 with (hafter | hafter) | hafter <;> rw [hafter] <;> decide
    obtain rfl := Template.holes_eq_nil htokens hafter
    rfl

/-- **Every value is found again** when fresh values take the place of values that are. -/
theorem specsFrom_fresh (htemplate : passed ++ Template.text ⟨holes, tail⟩ = template)
    (htokens : ∀ hole ∈ holes, hole.placeholder.IsToken)
    (hfresh : ∀ hole ∈ holes,
      Text.Fresh template (renderedValue settings others hole.placeholder.name))
    (hpassed : passed.Complete → other = []) (hother : other.Complete → before.Complete)
    (h : Body.specsFrom n before tail
      ((Template.surroundingsFrom tail passed holes).map (slotOf settings values)) = .ok specs) :
    ∃ found, Body.specsFrom n other tail
      ((Template.surroundingsFrom tail passed holes).map (slotOf settings others)) = .ok found := by
  induction holes generalizing passed before other specs with
  | nil => exact ⟨[], rfl⟩
  | cons hole holes ih =>
    obtain ⟨hhole, hholes⟩ := List.forall_mem_cons.1 hfresh
    obtain ⟨htoken, htokens⟩ := List.forall_mem_cons.1 htokens
    obtain ⟨delimiter, later, hfind, hlater, rfl⟩ := Body.specsFrom_cons_eq_ok_iff.1 h
    have hmem := List.mem_of_find?_eq_some hfind
    have hagain :=
      findsAgain_fresh htemplate htokens hhole hpassed hother hmem (List.find?_some hfind)
    obtain ⟨chosen, hchosen⟩ :=
      Option.isSome_iff_exists.1 (List.find?_isSome.2 ⟨delimiter, hmem, hagain⟩)
    have htemplate' : passed ++ hole.lead ++ hole.placeholder.token ++
        Template.text ⟨holes, tail⟩ = template := by
      rw [← htemplate, Template.text_cons]
      simp only [List.append_assoc]
    -- no line begins behind a placeholder, nor behind a fresh value
    obtain ⟨found, hfound⟩ := ih htemplate' htokens hholes
      (fun hcomplete => absurd hcomplete.of_append (Template.not_complete_token htoken))
      (fun hcomplete => absurd hcomplete.of_append
        (Occurrence.not_complete_of_not_mem hhole.not_mem_lineFeed hhole.ne_nil)) hlater
    exact ⟨_, Body.specsFrom_cons_eq_ok_iff.2 ⟨chosen, found, hchosen, hfound, rfl⟩⟩

/-- The body that a text becomes, with other data. -/
theorem fill_renderedBody (settings : Settings) (values others : Record) (text : Text) :
    Body.fill ⟨(Template.ofText text).surroundings.map (slotOf settings values),
        (Template.ofText text).tail⟩ (renderedValue settings others) =
      ⟨(Template.ofText text).surroundings.map (slotOf settings others),
        (Template.ofText text).tail⟩ := by
  rw [Body.fill, List.map_map]
  rfl

/-- Where a placeholder is, braces are part of the text. -/
theorem signs_subset {comment : Comment} {name : Name}
    (h : name ∈ (Template.ofText text).names) :
    comment.signs ⊆ text ++ comment.start ++ comment.stop ++ Directive.templateMarker ++
      Directive.listMarker := by
  obtain ⟨hole, hhole, -⟩ := List.mem_map.1 h
  obtain ⟨-, a, b, -, -, htoken⟩ := ((Template.isCut_ofText text).holes hole hhole).2
  have htext : Template.holeText hole ⊆ text := by
    rw [← Template.text_ofText text, Template.text]
    exact fun c hc => List.mem_append_left _ (List.mem_flatMap.2 ⟨hole, hhole, hc⟩)
  have hclosing : Sign.closing ⊆ text :=
    fun c hc => htext (by simp [Template.holeText, htoken, hc])
  have hopening : Sign.opening ⊆ Directive.templateMarker := by decide
  intro c hc
  simp only [Comment.signs, List.mem_append] at hc ⊢
  rcases hc with ((((hc | hc) | hc) | hc) | hc) | hc
  · exact .inl (.inl (.inl (.inr hc)))
  · exact .inl (.inl (.inr hc))
  · exact .inl (.inr (hopening hc))
  · exact .inl (.inl (.inl (.inl (hclosing hc))))
  · exact .inl (.inr hc)
  · exact .inr hc

/-- **Whether a text can be filled does not depend on the data**, as long as no value has a line
feed: what is filled with some data is filled with any whose values can be told from the text. Of
the old values nothing else is asked; that they were filled in says enough of the text. -/
theorem renderText_fresh (h : renderText settings values n text = .ok out)
    (hlines : ∀ name ∈ (Template.ofText text).names, '\n' ∉ renderedValue settings values name)
    (hfresh : ∀ name ∈ (Template.ofText text).names,
      Text.Fresh (text ++ settings.comment.start ++ settings.comment.stop ++
        Directive.templateMarker ++ Directive.listMarker) (renderedValue settings others name)) :
    ∃ filled, renderText settings others n text = .ok filled := by
  obtain ⟨specs, body, ⟨hbody, hverified⟩, -⟩ := renderText_eq_ok_iff.1 h
  obtain ⟨hoffered, rfl⟩ := renderedBody_eq_ok_iff.1 hbody
  obtain ⟨hcheck, hspecs⟩ := Body.verify_eq_ok_iff.1 hverified
  have hslots : ∀ slot ∈ (Template.ofText text).surroundings.map (slotOf settings values),
      slot.name ∈ (Template.ofText text).names ∧
        slot.value = renderedValue settings values slot.name := by
    intro slot hslot
    obtain ⟨around, haround, rfl⟩ := List.mem_map.1 hslot
    refine ⟨?_, rfl⟩
    rw [Template.names, ← Template.map_name_surroundingsFrom (Template.ofText text).tail []]
    exact List.mem_map_of_mem haround
  have htokens : ∀ hole ∈ (Template.ofText text).holes, hole.placeholder.IsToken :=
    fun hole hhole => ((Template.isCut_ofText text).holes hole hhole).2
  -- the new values leave the text one block
  have hcheck' := Body.checkBlock_fill
    (fun slot hslot => by rw [(hslots slot hslot).2]; exact hlines _ (hslots slot hslot).1)
    (fun slot hslot => (hfresh _ (hslots slot hslot).1).of_subset
      (signs_subset (hslots slot hslot).1)) hcheck
  rw [fill_renderedBody] at hcheck'
  -- and each of them is found again, though perhaps by another delimiter than the old one
  obtain ⟨found, hfound⟩ := specsFrom_fresh
    (Template.text_ofText text) htokens (fun hole hhole =>
      (hfresh _ (List.mem_map_of_mem hhole)).of_subset (by simp)) (fun _ => rfl) id hspecs
  exact ⟨_, renderText_eq_ok_iff.2 ⟨found, _, ⟨renderedBody_eq_ok_iff.2 ⟨hoffered, rfl⟩,
    Body.verify_eq_ok_iff.2 ⟨hcheck', hfound⟩⟩, rfl⟩⟩

/-- A text with a value at the beginning of a line, two between marks of which one stands twice,
and one at the end of a line. -/
def letterText : Text :=
  "\x7b\x7ba\x7d\x7d wrote [\x7b\x7bb\x7d\x7d] or [\x7b\x7bc\x7d\x7d]\nTo: \x7b\x7ba\x7d\x7d".toList

/-- Data in which one value is empty and one could be taken for the text between two values. -/
def letterValues : Record :=
  [(['a'], .scalar (.text ['I'])), (['b'], .scalar (.text "or [".toList)),
    (['c'], .scalar (.text []))]

/-- Data without any character of the text. -/
def letterOthers : Record :=
  [(['a'], .scalar (.text "Zz".toList)), (['b'], .scalar (.text ['Q'])),
    (['c'], .scalar (.text "xx".toList))]

/-- One text is filled with two kinds of data. -/
theorem renderText_fresh_letter :
    (∃ out, renderText .standard letterValues 1 letterText = .ok out) ∧
    (∀ name ∈ (Template.ofText letterText).names,
      '\n' ∉ renderedValue .standard letterValues name) ∧
    (∀ name ∈ (Template.ofText letterText).names,
      Text.Fresh (letterText ++ Settings.standard.comment.start ++ Settings.standard.comment.stop ++
        Directive.templateMarker ++ Directive.listMarker)
        (renderedValue .standard letterOthers name)) ∧
    ∃ filled, renderText .standard letterOthers 1 letterText = .ok filled := by
  have hlines : ∀ name ∈ (Template.ofText letterText).names,
      '\n' ∉ renderedValue .standard letterValues name := by
    decide +kernel
  have hfresh : ∀ name ∈ (Template.ofText letterText).names,
      Text.Fresh (letterText ++ Settings.standard.comment.start ++
        Settings.standard.comment.stop ++ Directive.templateMarker ++ Directive.listMarker)
        (renderedValue .standard letterOthers name) := by
    decide +kernel
  obtain ⟨out, hout⟩ : ∃ out, renderText .standard letterValues 1 letterText = .ok out :=
    ⟨_, by rfl⟩
  exact ⟨⟨out, hout⟩, hlines, hfresh, renderText_fresh hout hlines hfresh⟩

end Document

end FieldedText
