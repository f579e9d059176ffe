/-
FieldedText/Proofs/Headers.lean

Whether a header in a rendered document is read as it was written.

The specs of a text are chosen by trying them on its body, but what the document
carries is their tokens, and the text beside a placeholder is pasted into its token
as it stands.  So it takes a condition for the header to be read as the specs that
were tried, and the condition is exact (`readsAs_headerLine_iff`): the framing and
the names begin no directive, no start holds the marker, and no stop holds what
closes a pattern.  The prose of the template cannot begin a directive in a header,
because it began none in the template (`Rendered.infix_base`).

Every header is a line of the document with its body after it
(`exists_header_of_expands`), so the condition decides about whole documents
(`headers_rendered`).  Prose can violate it, and then a value is lost or the
document cannot be read any more (`misread_header`).
-/
import FieldedText.Document.Reading
import FieldedText.Proofs.Rendered

namespace FieldedText

/-! ### Texts joined by gaps -/

namespace Text

variable {gap piece : Text} {pieces before after : List Text}

/-- What stands before a joined piece is complete if what joins the pieces is. -/
theorem join_eq_append_of_complete (hgap : gap.Complete) (hne : gap ≠ []) :
    ∃ head tail, join gap (before ++ piece :: after) = head ++ piece ++ tail ∧
      head.Complete := by
  obtain ⟨rest, hrest⟩ := join_eq_append gap piece after
  by_cases hnil : before = []
  · exact ⟨[], rest, by rw [hnil, List.nil_append, hrest, List.nil_append], complete_nil⟩
  · refine ⟨join gap before ++ gap, rest, ?_, (complete_append_iff hne).2 hgap⟩
    rw [join_append hnil (by simp), hrest, List.append_assoc _ piece]

theorem complete_join (hgap : gap.Complete) (h : ∀ text ∈ pieces, text.Complete) :
    (join gap pieces).Complete := by
  induction pieces with
  | nil => exact complete_nil
  | cons piece pieces ih =>
    obtain ⟨hpiece, hpieces⟩ := List.forall_mem_cons.1 h
    by_cases hnil : pieces = []
    · rw [hnil, join_singleton]
      exact hpiece
    · rw [join_cons hnil]
      exact (hpiece.append hgap).append (ih hpieces)

end Text

namespace Document

variable {settings scanned : Settings} {values : Record} {text document template : Text}
  {specs : List FieldSpec} {body : Body} {comment : Comment} {block : Block}
  {segment : Segment} {segments new : List Segment} {expanded : List (List Segment)}

theorem complete_entryGap (base : Text) : (entryGap base).Complete ∧ entryGap base ≠ [] := by
  rcases entryGap_cases base with h | h
  · rw [h]
    exact ⟨Text.complete_concat [], by simp⟩
  · rw [h]
    exact ⟨Text.complete_concat ['\n'], by simp⟩

/-! ### Headers that are read -/

/-- A header's line from which some specs are read. It has to be a header to begin with, and not a
directive. -/
structure ReadsAs (comment : Comment) (line : Text) (specs : List FieldSpec) : Prop where
  isHeader : LineKind.Is comment line .header
  specs : ∃ inner, comment.strip? line = some inner ∧ ∀ n, FieldSpec.ofHeader n inner = .ok specs

/-- **Which headers are read as they were written**, among those of specs with unmarked sides. The
condition is on the framing, the names and the sides of the delimiters, each by itself. -/
theorem readsAs_headerLine_iff (hne : specs ≠ [])
    (hwritable : ∀ spec ∈ specs, FieldSpec.Writable spec)
    (hsides : ∀ spec ∈ specs,
      Directive.Unmarked spec.delimiter.start ∧ Directive.Unmarked spec.delimiter.stop) :
    ReadsAs comment (comment.headerLine specs) specs ↔
      Directive.Unmarked comment.start ∧ Directive.Unmarked comment.stop ∧
        ∀ spec ∈ specs, Directive.Unmarked ('{' :: spec.name) ∧
          ¬ Sign.marker <:+: spec.delimiter.start ∧
          ¬ Sign.patternClosing <:+: spec.delimiter.stop := by
  -- the sides are unmarked, so a directive could begin in a token only with the name
  have htokens : (∀ spec ∈ specs, Directive.Unmarked spec.token) ↔
      ∀ spec ∈ specs, Directive.Unmarked ('{' :: spec.name) := by
    refine forall₂_congr fun spec hspec => ?_
    rw [Comment.unmarked_token_iff]
    exact and_iff_left (hsides spec hspec)
  have hheader : LineKind.Is comment (comment.headerLine specs) .header ↔
      Directive.Unmarked comment.start ∧ Directive.Unmarked comment.stop ∧
        ∀ spec ∈ specs, Directive.Unmarked ('{' :: spec.name) := by
    rw [Comment.is_header_headerLine_iff hne, Comment.unmarked_headerLine_iff hne, htokens]
  have hread : (∃ inner, comment.strip? (comment.headerLine specs) = some inner ∧
      FieldSpec.ofHeader 0 inner = .ok specs) ↔ ∀ spec ∈ specs, FieldSpec.Readable spec :=
    Comment.ofHeader_headerLine_iff hwritable
  constructor
  · rintro ⟨hisHeader, inner, hstrip, hspecs⟩
    obtain ⟨hstart, hstop, hnames⟩ := hheader.1 hisHeader
    have hreadable := hread.1 ⟨inner, hstrip, hspecs 0⟩
    exact ⟨hstart, hstop, fun spec hspec => ⟨hnames spec hspec, (hreadable spec hspec).start,
      (hreadable spec hspec).stop⟩⟩
  · rintro ⟨hstart, hstop, hall⟩
    obtain ⟨inner, hstrip, hspecs⟩ := hread.2 fun spec hspec => ⟨(hall spec hspec).2.1,
      (hall spec hspec).2.2⟩
    exact ⟨hheader.2 ⟨hstart, hstop, fun spec hspec => (hall spec hspec).1⟩, inner, hstrip,
      fun n => FieldSpec.ofHeader_ok_of_ok hspecs⟩

/-! ### Headers that are written -/

/-- The texts that are rendered for a block with headers of their own: the block's, or one for
each entry of its list, and none if it is copied. -/
def headedTexts (values : Record) (block : Block) : List Text :=
  match ListTemplate.listPath 0 (blockNames block) with
  | .ok none => if blockNames block = [] then [] else [block.text]
  | .ok (some path) => (values.ordinalsAt path).map fun ordinal => entryText ordinal block.text
  | .error _ => []

/-- A line of a document, with what comes right after it. What comes before it ends a line, so
that it is a line by itself. -/
def LineBefore (document line follow : Text) : Prop :=
  ∃ before after, document = before ++ line ++ (follow ++ after) ∧ before.Complete

theorem LineBefore.append {line follow before : Text} (h : LineBefore document line follow)
    (hbefore : before.Complete) (after : Text) :
    LineBefore (before ++ document ++ after) line follow := by
  obtain ⟨head, tail, rfl, hhead⟩ := h
  exact ⟨before ++ head, tail ++ after, by simp, hbefore.append hhead⟩

theorem LineBefore.mem_lines {line follow : Text} (h : LineBefore document line follow)
    (hline : Text.IsLine line) (hcomplete : line.Complete) : line ∈ Text.lines document := by
  obtain ⟨before, after, rfl, hbefore⟩ := h
  rw [List.append_assoc, Text.lines_append hbefore, Text.lines_append hcomplete,
    Text.lines_of_isLine hline]
  simp

/-- **What a complete segment becomes is complete**, whether or not it can be read. So the
segments of a rendered document begin where lines do. -/
theorem complete_of_expands (h : Expands settings values segment new)
    (hcomplete : segment.raw.Complete) : Text.Complete (new.flatMap Segment.raw) := by
  -- the end of a block is its separator, or the end of its text if it has none
  have hblock {block : Block} {text : Text} (hraw : block.raw.Complete)
      (htext : block.text.Complete → text.Complete) : (text ++ block.separator).Complete := by
    rw [Block.raw] at hraw
    by_cases hsep : block.separator = []
    · rw [hsep, List.append_nil] at hraw ⊢
      exact htext hraw.of_append
    · exact (Text.complete_append_iff hsep).2 hraw.of_append
  cases h with
  | directive found raw line => simpa using hcomplete
  | copied hnames => simpa using hcomplete
  | @filled block specs body hnames hpath hrendered =>
    have hbody := hrendered.complete (variant_refl block.text) hnames
    have hfilled : Text.Complete
        (settings.comment.headerLine specs ++ (body.text ++ block.separator)) :=
      (settings.comment.complete_wrap _).append (hblock hcomplete hbody)
    simpa [Segment.raw] using hfilled
  -- each entry is complete, being rendered from the block's text with other names, and so is what
  -- stands between two of them
  | @list block path entries hpath hentries =>
    have hnames := names_ne_nil_of_listPath hpath
    rw [List.flatMap_cons, raw_entrySegments]
    refine (settings.comment.complete_wrap _).append (hblock hcomplete fun hbase => ?_)
    refine Text.complete_join (complete_entryGap block.text).1 fun piece hpiece => ?_
    obtain ⟨entry, hentry, rfl⟩ := List.mem_map.1 hpiece
    obtain ⟨ordinal, hordinal, hrendered⟩ := exists_of_forall₂_right hentries hentry
    have hvariant := variant_entryText (Record.isOrdinal_of_mem_ordinalsAt hordinal) block.text
    exact (settings.comment.complete_wrap _).append (hrendered.complete hvariant hnames hbase)

/-- **Every text of a block is rendered under a header of its own.** -/
theorem exists_header_of_expands (h : Expands settings values (.block block) new) :
    ∀ text ∈ headedTexts values block, ∃ specs body, Rendered settings values text specs body ∧
      Variant block.text text ∧ blockNames block ≠ [] ∧
      LineBefore (new.flatMap Segment.raw) (settings.comment.headerLine specs) body.text := by
  intro text htext
  -- A block that is filled has one header, at its beginning. The header of an entry stands behind
  -- the entries before it, each of which is ended by a blank line.
  cases h with
  | copied hnames =>
    rw [headedTexts, hnames] at htext
    cases htext
  | @filled _ specs body hnames hpath hrendered =>
    rw [headedTexts, hpath] at htext
    simp only [hnames, if_false, List.mem_singleton] at htext
    subst htext
    exact ⟨specs, body, hrendered, variant_refl block.text, hnames, [], block.separator,
      by simp [Segment.raw], Text.complete_nil⟩
  | @list _ path entries hpath hentries =>
    rw [headedTexts, hpath] at htext
    obtain ⟨ordinal, hordinal, rfl⟩ := List.mem_map.1 htext
    obtain ⟨⟨specs, body⟩, hentry, hrendered⟩ := exists_of_forall₂_left hentries hordinal
    -- the entries before this one end with a gap, which ends a line
    obtain ⟨before, after, rfl⟩ := List.append_of_mem hentry
    obtain ⟨hgap, hgapNe⟩ := complete_entryGap block.text
    refine ⟨specs, body, hrendered,
      variant_entryText (Record.isOrdinal_of_mem_ordinalsAt hordinal) block.text,
      names_ne_nil_of_listPath hpath, ?_⟩
    rw [List.flatMap_cons, raw_entrySegments, List.map_append, List.map_cons]
    obtain ⟨head, tail, hjoin, hhead⟩ := Text.join_eq_append_of_complete hgap hgapNe
    rw [hjoin]
    exact ⟨Directive.listLine settings.comment block.text ++ head, tail ++ block.separator,
      by simp [Segment.raw], (settings.comment.complete_wrap _).append hhead⟩

/-- What a segment becomes stands in the document with something complete before it. -/
theorem exists_expands_of_mem (hchain : Segment.Chain comment segments)
    (h : List.Forall₂ (Expands settings values) segments expanded) (hmem : segment ∈ segments) :
    ∃ new before after, Expands settings values segment new ∧ Text.Complete before ∧
      expanded.flatten.flatMap Segment.raw = before ++ new.flatMap Segment.raw ++ after := by
  induction h with
  | nil => cases hmem
  | @cons first new segments expanded hnew _ ih =>
    cases hchain with
    | cons _ hcomplete _ hrest =>
      -- a segment that another one follows is complete, and what it becomes is complete with it
      rcases List.mem_cons.1 hmem with rfl | hmem
      · exact ⟨new, [], expanded.flatten.flatMap Segment.raw, hnew, Text.complete_nil, by simp⟩
      · obtain ⟨other, before, after, hother, hbefore, heq⟩ := ih hrest hmem
        have hfirst := complete_of_expands hnew (hcomplete (List.ne_nil_of_mem hmem))
        exact ⟨other, new.flatMap Segment.raw ++ before, after, hother, hfirst.append hbefore,
          by simp [heq]⟩

/-! ### Documents -/

/-- **Which headers of a rendered document are read as they were written.** Each text of the
template that is rendered has specs that were verified for its body, and their header is a line of
the document with the body after it. It is read as these specs exactly when the framing and the
names begin no directive, and the text beside the placeholders holds neither the marker before a
value nor what closes a pattern after one. -/
theorem headers_rendered (hrender : render .standard values template = .ok document)
    (hscan : Settings.standard.scan template = .ok scanned)
    (hblock : .block block ∈ (Segmentation.ofText scanned.comment template).segments)
    (htext : text ∈ headedTexts values block) :
    ∃ specs body, renderedBody scanned values 0 text = .ok body ∧
      body.verify scanned.comment 0 = .ok specs ∧
      scanned.comment.headerLine specs ∈ Text.lines document ∧
      LineBefore document (scanned.comment.headerLine specs) body.text ∧
      (ReadsAs scanned.comment (scanned.comment.headerLine specs) specs ↔
        Directive.Unmarked scanned.comment.start ∧ Directive.Unmarked scanned.comment.stop ∧
          ∀ spec ∈ specs, Directive.Unmarked ('{' :: spec.name) ∧
            ¬ Sign.marker <:+: spec.delimiter.start ∧
            ¬ Sign.patternClosing <:+: spec.delimiter.stop) := by
  obtain ⟨scanned', segments, expanded, hscan', hsegments, hexpands, rfl⟩ :=
    render_eq_ok_iff.1 hrender
  obtain rfl : scanned' = scanned := Except.ok.inj (hscan'.symm.trans hscan)
  rw [hsegments] at hblock
  obtain ⟨hchain, -⟩ := Segmentation.chain_of_ofText hsegments
  have hcomment : scanned'.comment.Inline :=
    Settings.inline_of_scans (fun _ hline => Text.isLine_of_mem_lines hline)
      Comment.inline_standard (Settings.scan_eq_ok_iff.1 hscan)
  obtain ⟨new, before, after, hnew, hbefore, hdocument⟩ :=
    exists_expands_of_mem hchain hexpands hblock
  obtain ⟨specs, body, hrendered, hvariant, hnames, hline⟩ :=
    exists_header_of_expands hnew text htext
  have hwritable : ∀ spec ∈ specs, FieldSpec.Writable spec :=
    fun spec hspec => (hrendered.writable spec hspec).1
  have hisLine : Text.IsLine (scanned'.comment.headerLine specs) :=
    Comment.isLine_wrap hcomment (FieldSpec.not_mem_tokens hwritable)
  -- the text beside the placeholders is prose of the template, in which no directive begins
  have hunmarked : Directive.Unmarked block.text := by
    have hsound : block.Sound scanned'.comment := hchain.sound _ hblock
    exact Directive.unmarked_of_lines fun line hline =>
      (LineKind.is_prose_iff.1 (hsound.text line hline)).2.1
  have hinDocument := hline.append hbefore after
  rw [← hdocument] at hinDocument
  refine ⟨specs, body, hrendered.filled, hrendered.verified,
    hinDocument.mem_lines hisLine (scanned'.comment.complete_wrap _), hinDocument,
    readsAs_headerLine_iff (hrendered.specs_ne_nil (hvariant.names_ne_nil hnames)) hwritable ?_⟩
  intro spec hspec
  obtain ⟨hstart, hstop⟩ := hrendered.infix_base hvariant hspec
  exact ⟨hunmarked.of_isInfix hstart, hunmarked.of_isInfix hstop⟩

/-- A header with no sign of the markup in the text beside its value is read as it was written. -/
theorem readsAs_rendered_header :
    render .standard [("who".toList, .scalar (.text "Plato".toList))]
        "By \x7b\x7bwho\x7d\x7d.\n".toList =
      .ok "<!--\x7b\x7bwho:pattern=\"By %s.\"\x7d\x7d-->\nBy Plato.\n".toList ∧
    ReadsAs .standard (Comment.standard.headerLine [⟨"who".toList, "By ".toList, ".".toList⟩])
      [⟨"who".toList, "By ".toList, ".".toList⟩] := by
  have hrender : render .standard [("who".toList, .scalar (.text "Plato".toList))]
      "By \x7b\x7bwho\x7d\x7d.\n".toList =
        .ok "<!--\x7b\x7bwho:pattern=\"By %s.\"\x7d\x7d-->\nBy Plato.\n".toList := by
    decide +kernel
  have hscan : Settings.standard.scan "By \x7b\x7bwho\x7d\x7d.\n".toList = .ok .standard := by
    decide +kernel
  have hblock : .block ⟨none, [], "By \x7b\x7bwho\x7d\x7d.\n".toList, [], 1, true⟩ ∈
      (Segmentation.ofText .standard "By \x7b\x7bwho\x7d\x7d.\n".toList).segments := by
    decide +kernel
  have hspecs : (renderedBody .standard [("who".toList, .scalar (.text "Plato".toList))] 0
      "By \x7b\x7bwho\x7d\x7d.\n".toList >>= fun body => body.verify .standard 0) =
        .ok [⟨"who".toList, "By ".toList, ".".toList⟩] := by
    decide +kernel
  obtain ⟨specs, body, hbody, hverify, -, -, hread⟩ :=
    headers_rendered hrender hscan hblock (List.mem_singleton_self _)
  obtain ⟨other, hother, hchosen⟩ := bind_eq_ok_iff.1 hspecs
  obtain rfl : body = other := Except.ok.inj (hbody.symm.trans hother)
  obtain rfl : specs = _ := Except.ok.inj (hverify.symm.trans hchosen)
  refine ⟨hrender, hread.2 ⟨?_, ?_, ?_⟩⟩
  · exact Directive.unmarked_of_not_mem (by decide)
  · exact Directive.unmarked_of_not_mem (by decide)
  · rw [List.forall_mem_singleton]
    exact ⟨Directive.unmarked_iff.2 (by decide), by decide, by decide⟩

/-- **Prose can make a header that is not read as it was written.**  A marker before the value
moves the pattern, so that nothing is found any more; and what closes a pattern, after the value,
makes a document that cannot be read at all. -/
theorem misread_header :
    (render .standard [("a".toList, .scalar (.text "V".toList))]
        "100%s \x7b\x7ba\x7d\x7d x\n".toList =
      .ok "<!--\x7b\x7ba:pattern=\"100%s %s x\"\x7d\x7d-->\n100%s V x\n".toList ∧
    (renderedBody .standard [("a".toList, .scalar (.text "V".toList))] 0
        "100%s \x7b\x7ba\x7d\x7d x\n".toList >>= fun body => body.verify .standard 0) =
      .ok [⟨"a".toList, "100%s ".toList, " x".toList⟩] ∧
    ¬ ReadsAs .standard "<!--\x7b\x7ba:pattern=\"100%s %s x\"\x7d\x7d-->\n".toList
      [⟨"a".toList, "100%s ".toList, " x".toList⟩] ∧
    read .standard "<!--\x7b\x7ba:pattern=\"100%s %s x\"\x7d\x7d-->\n100%s V x\n".toList =
      .ok []) ∧
    (render .standard [("a".toList, .scalar (.text "V".toList))]
        "\x7b\x7ba\x7d\x7d \"\x7d\x7d x\n".toList =
      .ok "<!--\x7b\x7ba:pattern=\"%s \"\x7d\x7d x\"\x7d\x7d-->\nV \"\x7d\x7d x\n".toList ∧
    read .standard
        "<!--\x7b\x7ba:pattern=\"%s \"\x7d\x7d x\"\x7d\x7d-->\nV \"\x7d\x7d x\n".toList =
      .error (.grammar 1 .malformedField (some "x\"\x7d\x7d".toList))) := by
  refine ⟨⟨by decide +kernel, by decide +kernel, ?_, by decide +kernel⟩, by decide +kernel,
    by decide +kernel⟩
  rintro ⟨-, inner, hstrip, hspecs⟩
  have hinner : Comment.standard.strip?
      "<!--\x7b\x7ba:pattern=\"100%s %s x\"\x7d\x7d-->\n".toList =
        some "\x7b\x7ba:pattern=\"100%s %s x\"\x7d\x7d".toList := by
    decide +kernel
  have hread : FieldSpec.ofHeader 0 "\x7b\x7ba:pattern=\"100%s %s x\"\x7d\x7d".toList =
      .ok [⟨"a".toList, "100".toList, " %s x".toList⟩] := by
    decide +kernel
  obtain rfl := Option.some.inj (hinner.symm.trans hstrip)
  exact absurd (hread.symm.trans (hspecs 0)) (by decide)

end Document

end FieldedText
