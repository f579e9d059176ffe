/-
FieldedText/Proofs/Rendered.lean

A rendered document is cut into what its template became.

Three facts come together for each block that is rendered.  Its header is a
header line, from which the specs are read (`Rendered.isSafe`); its text is
nothing but prose, because its body was checked and the template was prose
(`Rendered.prose`); and it ends with a line feed exactly where the template's
text does (`Rendered.complete`, `Rendered.unended`).  So what a segment becomes
can stand in the document where the segment stood (`replaces_of_expands`), and it
holds no directive that was not there (`scans_of_expands`).

A text in the entry of a list is not a text of the template; it differs from one
in the names of its placeholders only (`Variant`), and these never matter.
-/
import FieldedText.Proofs.Rendering
import FieldedText.Proofs.Settings

namespace FieldedText

/-- A framing within a line that holds no opening brace, and so begins no markup of its own. A
brace in it could make markup together with what is framed. -/
structure Comment.Unbraced (comment : Comment) : Prop extends Comment.Inline comment where
  start_brace : '{' ∉ comment.start
  stop_brace : '{' ∉ comment.stop

theorem Comment.unbraced_standard : Comment.standard.Unbraced :=
  ⟨Comment.inline_standard, by decide, by decide⟩

namespace Template

/-- The body whose values are the placeholders as they were written. With it a template can be
compared with what is rendered from it, line by line. -/
def asBody (template : Template) : Body :=
  ⟨template.holes.map fun hole =>
    ⟨hole.lead, hole.placeholder.name, hole.placeholder.token, []⟩, template.tail⟩

theorem text_asBody (template : Template) : template.asBody.text = template.text := by
  obtain ⟨holes, tail⟩ := template
  induction holes with
  | nil => rfl
  | cons hole holes ih =>
    have hcons : Body.text (asBody ⟨hole :: holes, tail⟩) =
        hole.lead ++ hole.placeholder.token ++ Body.text (asBody ⟨holes, tail⟩) :=
      Body.text_cons _ _ _
    rw [hcons, ih, text_cons]

theorem map_lead_asBody (template : Template) :
    template.asBody.slots.map Slot.lead = template.surroundings.map Surroundings.lead := by
  rw [surroundings, map_lead_surroundingsFrom, asBody, List.map_map]
  rfl

/-- A complete text with a placeholder in it has something after its last placeholder. -/
theorem complete_tail {t : Text} (h : t.Complete) (hnames : (ofText t).names ≠ []) :
    (ofText t).tail ≠ [] ∧ (ofText t).tail.Complete := by
  have htext := text_ofText t
  have hcut := isCut_ofText t
  generalize ofText t = template at htext hcut hnames
  obtain ⟨holes, tail⟩ := template
  have htail : tail ≠ [] := by
    rintro rfl
    -- the text would end with the brace of its last placeholder
    have hholes : holes ≠ [] := by
      rintro rfl
      exact hnames rfl
    obtain ⟨before, hole, rfl⟩ := List.eq_nil_or_concat holes |>.resolve_left hholes
    obtain ⟨-, a, b, -, -, htoken⟩ := (hcut.holes hole (by simp)).2
    rw [← htext] at h
    have hlast := h '}' (by simp [text, holeText, htoken, Sign.closing])
    exact absurd hlast (by decide)
  refine ⟨htail, ?_⟩
  rw [← htext] at h
  exact h.of_append

end Template

namespace Document

variable {settings : Settings} {values : Record} {n : Nat} {text base : Text}
  {specs : List FieldSpec} {body : Body} {comment : Comment}

/-! ### Variants of a text -/

/-- A text that differs from another one in the names of its placeholders only; and none of them
begins with an at sign that did not before. The text of an entry is one of the list's template,
and each template is one of itself. -/
structure Variant (base text : Text) : Prop where
  sides : (Template.ofText text).surroundings.map (fun around => (around.lead, around.follow)) =
    (Template.ofText base).surroundings.map fun around => (around.lead, around.follow)
  tail : (Template.ofText text).tail = (Template.ofText base).tail
  names : (∀ name ∈ (Template.ofText base).names, name.head? ≠ some '@') →
    ∀ name ∈ (Template.ofText text).names, name.head? ≠ some '@'

theorem variant_refl (base : Text) : Variant base base := ⟨rfl, rfl, id⟩

/-- The template of an entry is that of the list with the names of the entry. -/
theorem ofText_entryText {ordinal : Name} (ho : Name.isOrdinal ordinal = true) (base : Text) :
    Template.ofText (entryText ordinal base) =
      (Template.ofText base).rename (ListTemplate.entryName ordinal) :=
  Template.ofText_rename (Template.isCut_ofText base) fun _ hname =>
    ListTemplate.isName_entryName ho
      (Template.isName_of_mem_names (Template.isCut_ofText base) hname)

theorem names_entryText {ordinal : Name} (ho : Name.isOrdinal ordinal = true) (base : Text) :
    (Template.ofText (entryText ordinal base)).names =
      (Template.ofText base).names.map (ListTemplate.entryName ordinal) := by
  rw [ofText_entryText ho, Template.names_rename]

theorem variant_entryText {ordinal : Name} (ho : Name.isOrdinal ordinal = true) (base : Text) :
    Variant base (entryText ordinal base) := by
  refine ⟨?_, ?_, ?_⟩
  · rw [ofText_entryText ho]
    exact Template.map_sides_surroundings_rename _ _
  · rw [ofText_entryText ho]
    rfl
  · intro hbase name hname hat
    rw [names_entryText ho] at hname
    obtain ⟨old, hold, rfl⟩ := List.mem_map.1 hname
    have hne := (Template.isName_of_mem_names (Template.isCut_ofText base) hold).1
    exact hbase old hold (ListTemplate.head_entryName ho hne hat)

theorem Variant.leads (h : Variant base text) :
    (Template.ofText text).surroundings.map Surroundings.lead =
      (Template.ofText base).surroundings.map Surroundings.lead := by
  have hfst := congrArg (List.map Prod.fst) h.sides
  rw [List.map_map, List.map_map] at hfst
  exact hfst

/-- Every placeholder of a variant has the literal text beside it that one of the base has. -/
theorem Variant.exists_around (h : Variant base text) {other : Surroundings}
    (hother : other ∈ (Template.ofText text).surroundings) :
    ∃ around ∈ (Template.ofText base).surroundings,
      other.lead = around.lead ∧ other.follow = around.follow := by
  have hsides : (other.lead, other.follow) ∈
      (Template.ofText base).surroundings.map fun around => (around.lead, around.follow) := by
    rw [← h.sides]
    exact List.mem_map_of_mem hother
  obtain ⟨around, haround, heq⟩ := List.mem_map.1 hsides
  obtain ⟨hlead, hfollow⟩ := Prod.mk.inj heq
  exact ⟨around, haround, hlead.symm, hfollow.symm⟩

/-! ### Rendered texts -/

namespace Rendered

theorem slots_eq (h : Rendered settings values text specs body) :
    body.slots = (Template.ofText text).surroundings.map (slotOf settings values) := by
  rw [(renderedBody_eq_ok_iff.1 h.filled).2]

theorem tail_eq (h : Rendered settings values text specs body) :
    body.tail = (Template.ofText text).tail := by
  rw [(renderedBody_eq_ok_iff.1 h.filled).2]

theorem specsFrom (h : Rendered settings values text specs body) :
    Body.specsFrom 0 [] body.tail body.slots = .ok specs :=
  (Body.verify_eq_ok_iff.1 h.verified).2

/-- The specs have the names of the placeholders, in order. -/
theorem names_eq (h : Rendered settings values text specs body) :
    specs.map FieldSpec.name = (Template.ofText text).names := by
  rw [(Body.chosen_of_specsFrom h.specsFrom).names, h.slots_eq, List.map_map]
  exact Template.map_name_surroundingsFrom _ _ _

theorem specs_ne_nil (h : Rendered settings values text specs body)
    (hnames : (Template.ofText text).names ≠ []) : specs ≠ [] := by
  rintro rfl
  exact hnames h.names_eq.symm

/-- Each spec is that of a placeholder, with a delimiter that was offered for it. -/
theorem exists_around (h : Rendered settings values text specs body) {spec : FieldSpec}
    (hspec : spec ∈ specs) :
    ∃ around ∈ (Template.ofText text).surroundings, spec.name = around.placeholder.name ∧
      spec.delimiter ∈ around.delimiters settings.delimiter := by
  have hchosen := Body.chosen_of_specsFrom h.specsFrom
  rw [h.slots_eq] at hchosen
  obtain ⟨slot, hslot, hname, hdelimiter⟩ := exists_of_forall₂_right hchosen hspec
  obtain ⟨around, haround, rfl⟩ := List.mem_map.1 hslot
  exact ⟨around, haround, hname, hdelimiter⟩

/-- A spec that is chosen for a text can be written, and stands within a line. -/
theorem writable (h : Rendered settings values text specs body) :
    ∀ spec ∈ specs, FieldSpec.Writable spec ∧ spec.delimiter.Inline := by
  intro spec hspec
  obtain ⟨around, haround, hname, hdelimiter⟩ := h.exists_around hspec
  have hinline := Surroundings.inline_of_mem_delimiters
    (Template.surrounds_of_mem haround) hdelimiter
  have hmem : spec.name ∈ (Template.ofText text).names := by
    rw [← h.names_eq]
    exact List.mem_map_of_mem hspec
  have hisName := Template.isName_of_mem_names (Template.isCut_ofText text) hmem
  exact ⟨⟨hisName, hinline.start, hinline.stop⟩, hinline⟩

/-- The sides of every spec stand in the template that the text is a variant of. -/
theorem infix_base (h : Rendered settings values text specs body) (hvariant : Variant base text)
    {spec : FieldSpec} (hspec : spec ∈ specs) :
    spec.delimiter.start <:+: base ∧ spec.delimiter.stop <:+: base := by
  obtain ⟨other, hother, -, hdelimiter⟩ := h.exists_around hspec
  obtain ⟨around, haround, hlead, hfollow⟩ := hvariant.exists_around hother
  have hsurrounds := Template.surrounds_of_mem haround
  rw [Template.text_ofText] at hsurrounds
  exact Surroundings.infix_of_mem_delimiters hsurrounds hlead hfollow hdelimiter

/-- **Every spec of a legible template is safe**, in every variant of the text. -/
theorem isSafe (h : Rendered settings values text specs body) (hvariant : Variant base text)
    (hlegible : (Template.ofText base).Legible) (hunmarked : Directive.Unmarked base) :
    ∀ spec ∈ specs, spec.IsSafe := by
  intro spec hspec
  obtain ⟨other, hother, hname, hdelimiter⟩ := h.exists_around hspec
  have hmem : spec.name ∈ (Template.ofText text).names := by
    rw [← h.names_eq]
    exact List.mem_map_of_mem hspec
  have hisName := Template.isName_of_mem_names (Template.isCut_ofText text) hmem
  have hat := hvariant.names hlegible.names spec.name hmem
  obtain ⟨around, haround, hlead, hfollow⟩ := hvariant.exists_around hother
  have hsurrounds := Template.surrounds_of_mem haround
  rw [Template.text_ofText] at hsurrounds
  exact Surroundings.isSafe_of_mem_delimiters hsurrounds hunmarked (hlegible.lines around haround)
    (Template.surrounds_of_mem hother) hlead hfollow hisName hat hdelimiter

/-- **A rendered body is prose where the text is**, whatever the values are. -/
theorem prose (h : Rendered settings values text specs body) (hvariant : Variant base text)
    (hbase : ∀ line ∈ Text.lines base, LineKind.Is settings.comment line .prose) :
    ∀ line ∈ Text.lines body.text, LineKind.Is settings.comment line .prose := by
  have hcheck := (Body.verify_eq_ok_iff.1 h.verified).1
  -- the literal texts are those of the template, whose lines are prose; so the check is exact
  have hleads : body.slots.map Slot.lead =
      (Template.ofText base).asBody.slots.map Slot.lead := by
    rw [h.slots_eq, Template.map_lead_asBody, ← hvariant.leads, List.map_map]
    rfl
  have htail : body.tail = (Template.ofText base).asBody.tail := by
    rw [h.tail_eq, hvariant.tail]
    rfl
  rw [← Template.text_ofText base, ← Template.text_asBody] at hbase
  exact (Body.checkBlock_eq_ok_iff hleads htail hbase).1 hcheck

theorem complete (h : Rendered settings values text specs body) (hvariant : Variant base text)
    (hnames : (Template.ofText base).names ≠ []) (hbase : base.Complete) : body.text.Complete := by
  obtain ⟨hne, hcomplete⟩ := Template.complete_tail hbase hnames
  have htail : body.tail = (Template.ofText base).tail := by
    rw [h.tail_eq, hvariant.tail]
  rw [Body.text, htail]
  exact (Text.complete_append_iff hne).2 hcomplete

theorem unended (h : Rendered settings values text specs body) (hvariant : Variant base text)
    (hnames : (Template.ofText text).names ≠ []) (hbase : ¬ base.Complete) :
    body.text.Unended := by
  have htail : body.tail = (Template.ofText base).tail := by
    rw [h.tail_eq, hvariant.tail]
  -- without a tail the text ends with the last value, and a line feed there would not be found
  by_cases hnil : body.tail = []
  · have hslots : body.slots ≠ [] := by
      intro hslots
      have hnone := (Body.chosen_of_specsFrom h.specsFrom).names
      rw [hslots, h.names_eq] at hnone
      exact hnames hnone
    have hspecs := h.specsFrom
    rw [hnil] at hspecs
    have hunended := Body.unended_of_specsFrom hspecs (fun spec hspec => (h.writable spec hspec).2)
      hslots
    have htext : body.text = Body.text ⟨body.slots, []⟩ := by rw [← hnil]
    rw [htext]
    exact hunended
  · have hnot : ¬ body.tail.Complete := by
      intro hcomplete
      refine hbase ?_
      rw [← Template.text_ofText base, Template.text, ← htail]
      exact (Text.complete_append_iff hnil).2 hcomplete
    exact (Text.unended_append_iff hnil).2 (Text.unended_iff.2 (.inr hnot))

end Rendered

/-! ### Blocks that are written -/

/-- **A written block is sound**: its header is read as its specs, its text is prose, and its
separator is the blank line of the block in whose place it stands. -/
theorem sound_filled {separator : Text} (hcomment : comment.Unbraced) (hne : specs ≠ [])
    (hsafe : ∀ spec ∈ specs, spec.IsSafe)
    (hprose : ∀ line ∈ Text.lines text, LineKind.Is comment line .prose)
    (hseparator : separator = [] ∨
      Text.IsLine separator ∧ Text.isBlank separator = true ∧ text.Complete) :
    (filled comment specs text separator).Sound comment := by
  have hwritable : ∀ spec ∈ specs, FieldSpec.Writable spec :=
    fun spec hspec => (hsafe spec hspec).writable
  -- nothing in the header line makes a directive, neither the frame nor a token, and so it is a
  -- header
  have hheader : LineKind.Is comment (comment.headerLine specs) .header :=
    (Comment.is_header_headerLine_iff hne).2 ((Comment.unmarked_headerLine_iff hne).2
      ⟨Directive.unmarked_of_not_mem hcomment.start_brace,
        Directive.unmarked_of_not_mem hcomment.stop_brace,
        fun spec hspec => (hsafe spec hspec).unmarked⟩)
  have hread : ∃ inner, comment.strip? (comment.headerLine specs) = some inner ∧
      FieldSpec.ofHeader 0 inner = .ok specs :=
    (Comment.ofHeader_headerLine_iff hwritable).2 fun spec hspec =>
      (hsafe spec hspec).readable
  have hcomplete : (comment.headerLine specs).Complete := comment.complete_wrap _
  refine ⟨⟨?_, by simp [filled], hprose, fun _ => hcomplete⟩, rfl, ?_, ?_⟩
  · intro line hline
    cases hline
    exact ⟨Comment.isLine_wrap hcomment.toInline (FieldSpec.not_mem_tokens hwritable), hheader,
      hread⟩
  · exact hseparator.imp_right fun h => ⟨h.1, h.2.1, hcomplete.append h.2.2⟩
  · simp [Block.raw, filled, Block.headerText, Comment.headerLine, Comment.wrap]

theorem sound_blank {separator : Text} (hline : Text.IsLine separator)
    (hblank : Text.isBlank separator = true) : (blank separator).Sound comment := by
  refine ⟨⟨by simp [blank], fun _ => rfl, by simp [blank, Text.lines], by simp [blank]⟩, rfl,
    .inr ⟨hline, hblank, Text.complete_nil⟩, hline.1⟩

/-- The line of a list template is a directive's. -/
theorem sound_listLine (hcomment : comment.Unbraced) (template : Text) :
    (Segment.directive (.listTemplate template) (Directive.listLine comment template) 0).Sound
      comment := by
  have hopening : '\n' ∉ Directive.listOpening := by decide
  have hclosing : '\n' ∉ Sign.patternClosing := by decide
  have hline : Text.IsLine (Directive.listLine comment template) := by
    refine Comment.isLine_wrap hcomment.toInline ?_
    rw [List.mem_append, List.mem_append, not_or, not_or]
    exact ⟨⟨hopening, Directive.not_mem_encode template⟩, hclosing⟩
  have hstart : ¬ Directive.listOpening <:+: comment.start :=
    Text.not_infix_of_not_mem (c := '{') (by decide) hcomment.start_brace
  have hblank : Text.isBlank (Directive.listLine comment template) = false := by
    have hbrace : '{' ∈ Directive.listOpening := by decide
    refine Text.isBlank_eq_false (c := '{') (by decide) ?_
    simp [Directive.listLine, Comment.wrap, hbrace]
  obtain ⟨e, he, hends⟩ := Text.content_append (Directive.listLine comment template)
  exact ⟨hline, LineKind.is_directive_of_find (n := 0) hblank
    (Directive.find_listLine hstart ⟨e, he.symm, hends⟩)⟩

/-- What is known of the specs and the text that a text is rendered as. The blocks of a list need
no more than this, so their proofs do not speak of rendering. -/
structure Written (comment : Comment) (base : Text) (specs : List FieldSpec) (text : Text) :
    Prop where
  ne_nil : specs ≠ []
  safe : ∀ spec ∈ specs, spec.IsSafe
  prose : ∀ line ∈ Text.lines text, LineKind.Is comment line .prose
  complete : base.Complete → text.Complete
  unended : ¬ base.Complete → text.Unended

theorem Variant.names_ne_nil (h : Variant base text) (hnames : (Template.ofText base).names ≠ []) :
    (Template.ofText text).names ≠ [] := by
  intro hnil
  refine hnames ?_
  have hlength := congrArg List.length h.leads
  simp only [Template.surroundings, Template.map_lead_surroundingsFrom, List.length_map] at hlength
  rw [Template.names, List.map_eq_nil_iff] at hnil ⊢
  rw [hnil] at hlength
  exact List.length_eq_zero_iff.1 hlength.symm

theorem Rendered.written (h : Rendered settings values text specs body)
    (hvariant : Variant base text) (hlegible : (Template.ofText base).Legible)
    (hnames : (Template.ofText base).names ≠ [])
    (hprose : ∀ line ∈ Text.lines base, LineKind.Is settings.comment line .prose) :
    Written settings.comment base specs body.text := by
  have hunmarked : Directive.Unmarked base := Directive.unmarked_of_lines fun line hline =>
    (LineKind.is_prose_iff.1 (hprose line hline)).2.1
  have htext := hvariant.names_ne_nil hnames
  exact ⟨h.specs_ne_nil htext, h.isSafe hvariant hlegible hunmarked, h.prose hvariant hprose,
    h.complete hvariant hnames, h.unended hvariant htext⟩

section Blocks

variable {block : Block} {entry : List FieldSpec × Body}
  {entries : List (List FieldSpec × Body)}

/-- A block that is written where another one stood, with its separator, is sound. -/
theorem Written.sound (h : Written comment block.text specs text) (hcomment : comment.Unbraced)
    (hb : block.Sound comment) : (filled comment specs text block.separator).Sound comment := by
  refine sound_filled hcomment h.ne_nil h.safe h.prose ?_
  exact hb.separator.imp_right fun hsep => ⟨hsep.1, hsep.2.1, h.complete hsep.2.2.of_append⟩

theorem Written.complete_raw (h : Written comment block.text specs text)
    (hb : block.raw.Complete) : (filled comment specs text block.separator).raw.Complete := by
  rw [raw_filled]
  rw [Block.raw] at hb
  by_cases hsep : block.separator = []
  · rw [hsep, List.append_nil] at hb ⊢
    exact (comment.complete_wrap _).append (h.complete hb.of_append)
  · exact (Text.complete_append_iff hsep).2 hb.of_append

theorem entryGap_eq_iff : entryGap base = ['\n'] ↔ base ≠ [] ∧ base.Complete := by
  unfold entryGap
  cases hlast : base.getLast? with
  | none =>
    have hnil := List.getLast?_eq_none_iff.1 hlast
    simp [hnil]
  | some c =>
    have hne : base ≠ [] := by
      rintro rfl
      cases hlast
    by_cases hc : c = '\n'
    · simp [Text.Complete, hlast, hc, hne]
    · simp [Text.Complete, hlast, hc]

/-- The segments of an entry before another one are complete blocks with separators. -/
theorem Written.innerEntry (h : Written comment base entry.1 entry.2.text)
    (hcomment : comment.Unbraced) (hne : base ≠ []) :
    ∀ segment ∈ innerEntry comment base entry,
      segment.Sound comment ∧ segment.raw.Complete ∧ ¬ segment.Unseparated := by
  have hline : Text.IsLine ['\n'] := ⟨by simp, by simp⟩
  have hblank : Text.isBlank ['\n'] = true := by decide
  unfold Document.innerEntry
  -- The three forms of an entry before another one: with one line feed for a gap, with two and no
  -- text, and with two of which the first ends the text.
  split
  · rename_i hgap
    intro segment hsegment
    rw [List.mem_singleton.1 hsegment]
    refine ⟨sound_filled hcomment h.ne_nil h.safe h.prose (.inr ⟨hline, hblank, ?_⟩),
      Text.complete_concat _, by simp [Segment.Unseparated, filled]⟩
    exact h.complete (entryGap_eq_iff.1 hgap).2
  · rename_i hgap
    have hunended : entry.2.text.Unended :=
      h.unended fun hcomplete => hgap (entryGap_eq_iff.2 ⟨hne, hcomplete⟩)
    split
    · rw [List.forall_mem_cons, List.forall_mem_singleton]
      exact ⟨⟨sound_filled hcomment h.ne_nil h.safe (by simp [Text.lines])
          (.inr ⟨hline, hblank, Text.complete_nil⟩), Text.complete_concat _,
          by simp [Segment.Unseparated, filled]⟩,
        sound_blank hline hblank, Text.complete_concat [], by simp [Segment.Unseparated, blank]⟩
    · rename_i htext
      intro segment hsegment
      rw [List.mem_singleton.1 hsegment]
      refine ⟨sound_filled hcomment h.ne_nil h.safe ?_
        (.inr ⟨hline, hblank, Text.complete_concat _⟩), Text.complete_concat _,
        by simp [Segment.Unseparated, filled]⟩
      -- the last line is prose with the line feed as it was without
      obtain ⟨pre, last, hlines, hended⟩ := Text.lines_append_lineFeed hunended htext
      have hprose := h.prose
      rw [hlines, List.forall_mem_append, List.forall_mem_singleton] at hprose
      rw [hended, List.forall_mem_append, List.forall_mem_singleton]
      exact ⟨hprose.1, LineKind.is_append_lineFeed.2 hprose.2⟩

/-- The entries of a list follow one another, and end as the block of the list does. -/
structure Entries (comment : Comment) (block : Block) (segments : List Segment) : Prop where
  chain : Segment.Chain comment segments
  isBlock : ∀ segment ∈ segments, ∃ b, segment = .block b
  unseparated : ∀ last ∈ segments.getLast?, last.Unseparated → block.separator = []
  complete : block.raw.Complete → ∀ last ∈ segments.getLast?, last.raw.Complete

/-- All that is left of an empty list is the separator, as a blank line. -/
theorem entries_blank (hb : block.Sound comment) (hsep : block.separator ≠ []) :
    Entries comment block [.block (blank block.separator)] := by
  obtain ⟨hline, hblank, -⟩ := hb.separator.resolve_left hsep
  refine ⟨.cons (sound_blank hline hblank) (by simp) (by simp) .nil, by simp, ?_, ?_⟩
  · intro last hlast hunseparated
    cases hlast
    exact hunseparated
  · intro hcomplete last hlast
    cases hlast
    rw [Block.raw] at hcomplete
    exact hcomplete.of_append

/-- The last entry ends as the block of the list does. -/
theorem Written.lastEntry (h : Written comment block.text entry.1 entry.2.text)
    (hcomment : comment.Unbraced) (hb : block.Sound comment) :
    Entries comment block [.block (filled comment entry.1 entry.2.text block.separator)] := by
  refine ⟨.cons (h.sound hcomment hb) (by simp) (by simp) .nil, by simp, ?_, ?_⟩
  · intro last hlast hunseparated
    cases hlast
    exact hunseparated
  · intro hcomplete last hlast
    cases hlast
    exact h.complete_raw hcomplete

/-- The parts of an entry that others follow come in front of them; the end is that of the
others. -/
theorem Entries.append {inner later : List Segment} (hlater : Entries comment block later)
    (hne : later ≠ [])
    (hinner : ∀ segment ∈ inner,
      segment.Sound comment ∧ segment.raw.Complete ∧ ¬ segment.Unseparated)
    (hblocks : ∀ segment ∈ inner, ∃ b, segment = .block b) :
    Entries comment block (inner ++ later) := by
  -- the last segment is that of the others, and with it what is said of the end
  have hlast : (inner ++ later).getLast? = later.getLast? := by
    obtain ⟨last, hlast⟩ := Option.ne_none_iff_exists'.1
      fun h => hne (List.getLast?_eq_none_iff.1 h)
    rw [List.getLast?_append, hlast, Option.some_or]
  constructor
  case chain =>
    refine (Segment.chain_of_forall hinner).append hlater.chain ?_ ?_
    · intro _ last hlast
      exact (hinner last (List.mem_of_getLast? hlast)).2.1
    · intro last hlast hunseparated
      exact absurd hunseparated (hinner last (List.mem_of_getLast? hlast)).2.2
  case isBlock => exact List.forall_mem_append.2 ⟨hblocks, hlater.isBlock⟩
  case unseparated => exact hlast ▸ hlater.unseparated
  case complete => exact hlast ▸ hlater.complete

theorem entries_entrySegments (hcomment : comment.Unbraced) (hb : block.Sound comment)
    (hne : block.text ≠ [])
    (hwritten : ∀ entry ∈ entries, Written comment block.text entry.1 entry.2.text) :
    Entries comment block (entrySegments comment block.text block.separator entries) := by
  -- the last entry ends as the block of the list does, and so does a list without entries; what is
  -- known of the end is therefore handed on from the back
  induction entries with
  | nil =>
    unfold entrySegments
    split
    · exact ⟨.nil, by simp, by simp, by simp⟩
    · rename_i hsep
      exact entries_blank hb hsep
  | cons entry entries ih =>
    obtain ⟨hentry, hentries⟩ := List.forall_mem_cons.1 hwritten
    cases entries with
    | nil =>
      unfold entrySegments
      exact hentry.lastEntry hcomment hb
    | cons next entries =>
      rw [entrySegments]
      have hlaterNe := entrySegments_ne_nil comment block.text block.separator next entries
      exact (ih hentries).append hlaterNe (hentry.innerEntry hcomment hne)
        fun _ hsegment => isBlock_of_mem_innerEntry hsegment

end Blocks

/-! ### What a segment becomes -/

section Expansion

variable {segment : Segment} {segments : List Segment}

/-- A segment of a template that can be written: the texts with placeholders are legible. -/
abbrev LegibleSegment : Segment → Prop :=
  Segment.Satisfies (fun _ => True) fun block => (Template.ofText block.text).Legible

theorem text_ne_nil_of_names {t : Text} (h : (Template.ofText t).names ≠ []) : t ≠ [] := by
  rintro rfl
  exact h rfl

theorem EntriesRendered.written {block : Block} {path : Text}
    {entries : List (List FieldSpec × Body)}
    (h : EntriesRendered settings values block.text path entries)
    (hb : block.Sound settings.comment) (hlegible : (Template.ofText block.text).Legible)
    (hnames : blockNames block ≠ []) :
    ∀ entry ∈ entries, Written settings.comment block.text entry.1 entry.2.text := by
  intro entry hentry
  obtain ⟨ordinal, hordinal, hrendered⟩ := exists_of_forall₂_right h hentry
  have ho := Record.isOrdinal_of_mem_ordinalsAt hordinal
  exact hrendered.written (variant_entryText ho block.text) hlegible hnames hb.text

/-- The last segment is the first one, or the last one of the others. -/
theorem eq_or_mem_getLast? {last : Segment} (h : last ∈ (segment :: segments).getLast?) :
    last = segment ∨ last ∈ segments.getLast? := by
  rw [List.getLast?_cons] at h
  cases hlast : segments.getLast? with
  | none =>
    rw [hlast] at h
    cases h
    exact .inl rfl
  | some other =>
    rw [hlast] at h
    exact .inr h

/-- **What a segment becomes can stand where the segment stood.** -/
theorem replaces_of_expands (hcomment : settings.comment.Unbraced)
    (hlegible : LegibleSegment segment) (hsound : segment.Sound settings.comment)
    (h : Expands settings values segment segments) :
    Segment.Replaces settings.comment segment segments := by
  -- One case for each way to expand. Only a list is more than one segment: its template, and the
  -- entries.
  cases h with
  | directive found raw line => exact Segment.replaces_singleton hsound id id id
  | copied hnames => exact Segment.replaces_singleton hsound id id id
  | @filled block specs body hnames hpath hrendered =>
    have hb : block.Sound settings.comment := hsound
    have hwritten := hrendered.written (variant_refl block.text) hlegible hnames hb.text
    exact Segment.replaces_singleton (hwritten.sound hcomment hb) (fun _ => rfl) id
      hwritten.complete_raw
  | @list block path entries hpath hentries =>
    have hb : block.Sound settings.comment := hsound
    have hnames := names_ne_nil_of_listPath hpath
    have hlist := entries_entrySegments hcomment hb (text_ne_nil_of_names hnames)
      (hentries.written hb hlegible hnames)
    have hcomplete : (Directive.listLine settings.comment block.text).Complete :=
      settings.comment.complete_wrap _
    -- the list template is complete, so whatever ends the list is the last of the entries
    refine ⟨.cons (sound_listLine hcomment block.text) (fun _ => hcomplete) (fun h => h.elim)
      hlist.chain, by simp, ?_, ?_, ?_⟩
    · intro _ head hhead
      cases hhead
      trivial
    · intro last hlast hunseparated
      rcases eq_or_mem_getLast? hlast with rfl | hlast
      · exact hunseparated.elim
      · exact hlist.unseparated last hlast hunseparated
    · intro hraw last hlast
      rcases eq_or_mem_getLast? hlast with rfl | hlast
      · exact hcomplete
      · exact hlist.complete hraw last hlast

/-- **What a segment becomes changes the settings as the segment does.** -/
theorem scans_of_expands {before after : Settings} (hcomment : settings.comment.Unbraced)
    (hlegible : LegibleSegment segment) (hsound : segment.Sound settings.comment)
    (h : Expands settings values segment segments) :
    before.Scans (segments.flatMap fun segment => Text.lines segment.raw) after ↔
      before.Scans (Text.lines segment.raw) after := by
  have hchain := (replaces_of_expands hcomment hlegible hsound h).chain
  cases h with
  | directive found raw line => simp
  | copied hnames => simp
  | @filled block specs body hnames hpath hrendered =>
    rw [Settings.scans_blocks fun segment hsegment => ⟨hchain.sound segment hsegment,
      _, List.mem_singleton.1 hsegment⟩]
    exact (Settings.scans_of_unmarked (Block.Sound.unmarked hsound)).symm
  | @list block path entries hpath hentries =>
    have hb : block.Sound settings.comment := hsound
    have hnames := names_ne_nil_of_listPath hpath
    have hlist := entries_entrySegments hcomment hb (text_ne_nil_of_names hnames)
      (hentries.written hb hlegible hnames)
    have hisLine := (sound_listLine hcomment block.text).1
    have hstart : ¬ Directive.listOpening <:+: settings.comment.start :=
      Text.not_infix_of_not_mem (c := '{') (by decide) hcomment.start_brace
    obtain ⟨e, he, hends⟩ := Text.plain_append (Directive.listLine settings.comment block.text)
    have hfind := Directive.find_listLine (n := 0) hstart ⟨e, he.symm, hends⟩
    -- the list template is a directive, but none that changes the settings
    have hline (between : Settings) : before.Scans (Text.lines (Segment.directive
        (.listTemplate block.text) (Directive.listLine settings.comment block.text) 0).raw)
        between ↔ between = before := by
      rw [Segment.raw, Text.lines_of_isLine hisLine]
      exact Settings.scans_listTemplate hfind
    rw [List.flatMap_cons, Settings.scans_append_iff]
    simp only [hline, exists_eq_left]
    rw [Settings.scans_blocks fun segment hsegment =>
      ⟨hlist.chain.sound segment hsegment, hlist.isBlock segment hsegment⟩]
    exact (Settings.scans_of_unmarked (Block.Sound.unmarked hb)).symm

/-- What the segments of a template became can stand where they stood, one by one. -/
theorem stands_of_expands {expanded : List (List Segment)} (hcomment : settings.comment.Unbraced)
    (hsound : ∀ segment ∈ segments, segment.Sound settings.comment)
    (hlegible : ∀ segment ∈ segments, LegibleSegment segment)
    (hexpands : List.Forall₂ (Expands settings values) segments expanded) :
    List.Forall₂ (Segment.Stands settings.comment) segments expanded := by
  induction hexpands with
  | nil => exact .nil
  | cons hnew _ ih =>
    obtain ⟨hsound, hsounds⟩ := List.forall_mem_cons.1 hsound
    obtain ⟨hlegible, hlegibles⟩ := List.forall_mem_cons.1 hlegible
    exact .cons ⟨replaces_of_expands hcomment hlegible hsound hnew,
      fun _ _ => scans_of_expands hcomment hlegible hsound hnew⟩ (ih hsounds hlegibles)

/-- **A rendered document is cut into what its template became**, and has the settings of its
template. This is the step from texts back to segments, which all theorems on rendered documents
take. -/
theorem ofText_of_expands {scanned : Settings} {template : Text} {expanded : List (List Segment)}
    (hscan : settings.scan template = .ok scanned)
    (hsegments : Segmentation.ofText scanned.comment template = ⟨segments, none⟩)
    (hexpands : List.Forall₂ (Expands scanned values) segments expanded)
    (hcomment : scanned.comment.Unbraced)
    (hlegible : ∀ segment ∈ segments, LegibleSegment segment) :
    ∃ result, Segmentation.ofText scanned.comment (expanded.flatten.flatMap Segment.raw) =
        ⟨result, none⟩ ∧
      result.map Segment.unnumbered = expanded.flatten.map Segment.unnumbered ∧
      settings.scan (expanded.flatten.flatMap Segment.raw) = .ok scanned :=
  Segmentation.ofText_of_stands hscan hsegments (stands_of_expands hcomment
    (Segmentation.chain_of_ofText hsegments).1.sound hlegible hexpands)

end Expansion

end Document

end FieldedText
