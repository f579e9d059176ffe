/-
FieldedText/Proofs/Preservation.lean

What revision keeps of a document.

A document without list templates is revised one segment at a time, and only values
change (`reviseFrom_eq_ok_iff_accepted`).  A revised block stands where the block stood: its header
and its separator are the same, the check has made sure that its text is nothing but
prose again, and it ends with a line feed if it did before, since what the last spec
leaves over is not empty (`sound_revisedBlock`, `complete_revisedText`).  So the new
document is cut where the old one was (`revise_keeps_segments`).

A header over no text is left out: a value that is put there would begin the text
of a block that had none, and need not end its line.
-/
import FieldedText.Proofs.Revision

namespace FieldedText.Document

variable {settings scanned : Settings} {values : Record} {failure : Except Error Unit}
  {document next out : Text} {comment : Comment} {block : Block} {segment : Segment}
  {segments : List Segment}

/-! ### Revised segments -/

/-- The text of a block with the values that its specs find replaced. -/
def revisedText (values : Record) (block : Block) : Text :=
  ((Body.locate [] block.specs block.text).fill (revisedValue values)).text

/-- A segment with new values in it, and nothing else changed. -/
def revisedSegment (values : Record) : Segment → Segment
  | .directive found raw line => .directive found raw line
  | .block block => .block { block with text := revisedText values block }

/-- A segment that is revised by itself: it is no list template, and no header without text. A
list template opens a section, in which the blocks that follow are taken for its entries. -/
abbrev Settled : Segment → Prop :=
  Segment.Satisfies Directive.IsSetting fun block => block.specs ≠ [] → block.text ≠ []

/-- A segment that may be revised: what its values are replaced by leaves the text one block. -/
abbrev Verified (comment : Comment) (values : Record) : Segment → Prop :=
  Segment.Satisfies (fun _ => True) fun block => block.specs ≠ [] →
    ((Body.locate [] block.specs block.text).fill (revisedValue values)).checkBlock comment 0 =
      .ok ()

theorem revisedText_of_specs_eq_nil (h : block.specs = []) :
    revisedText values block = block.text := by
  rw [revisedText, h]
  rfl

/-- A segment that is no list template. -/
abbrev Unlisted : Segment → Prop := Segment.Satisfies Directive.IsSetting fun _ => True

theorem Settled.unlisted (h : Settled segment) : Unlisted segment :=
  h.imp (fun _ hfound => hfound) fun _ _ => trivial

/-- A segment that is revised without a complaint: its new values stay in one block, and are all
found again. -/
abbrev Accepted (comment : Comment) (values : Record) : Segment → Prop :=
  Segment.Satisfies (fun _ => True) fun block => block.specs ≠ [] → ∃ specs,
    ((Body.locate [] block.specs block.text).fill (revisedValue values)).verify comment 0 =
      .ok specs

/-- What is found again stays in one block. -/
theorem Accepted.verified (h : Accepted comment values segment) :
    Verified comment values segment :=
  h.imp (fun _ _ => trivial) fun _ hblock hspecs => by
    obtain ⟨specs, hverify⟩ := hblock hspecs
    exact (Body.verify_eq_ok_iff.1 hverify).1

theorem reviseBlock_eq_ok_iff_accepted :
    reviseBlock settings values block = .ok out ↔
      Accepted settings.comment values (.block block) ∧
        out = (revisedSegment values (.block block)).raw := by
  by_cases hspecs : block.specs = []
  · have haccepted : Accepted settings.comment values (.block block) := fun h => absurd hspecs h
    have hraw : (revisedSegment values (.block block)).raw = block.raw := by
      rw [revisedSegment, revisedText_of_specs_eq_nil hspecs]
      rfl
    rw [reviseBlock_of_specs_eq_nil hspecs, hraw, Except.ok.injEq, eq_comm]
    exact ⟨fun h => ⟨haccepted, h⟩, fun h => h.2⟩
  · rw [reviseBlock_eq_ok_iff hspecs]
    constructor
    · rintro ⟨specs, hverify, rfl⟩
      exact ⟨fun _ => ⟨specs, hverify⟩, rfl⟩
    · rintro ⟨haccepted, rfl⟩
      obtain ⟨specs, hverify⟩ := haccepted hspecs
      exact ⟨specs, hverify, rfl⟩

/-- **Revision changes each segment by itself**, where there are no lists, and succeeds when it
does for each of them. -/
theorem reviseFrom_eq_ok_iff_accepted (hunlisted : ∀ segment ∈ segments, Unlisted segment) :
    reviseFrom settings values failure none segments = .ok out ↔
      failure = .ok () ∧ (∀ segment ∈ segments, Accepted settings.comment values segment) ∧
        out = (segments.map (revisedSegment values)).flatMap Segment.raw := by
  induction segments generalizing out with
  | nil =>
    rw [reviseFrom_nil_eq_ok_iff, closeSection, Except.ok.injEq, eq_comm (a := [])]
    simp
  | cons segment segments ih =>
    obtain ⟨hsegment, hsegments⟩ := List.forall_mem_cons.1 hunlisted
    rw [List.forall_mem_cons, List.map_cons, List.flatMap_cons]
    -- no list template opens a section, so none is open at the next segment either
    cases segment with
    | directive found raw line =>
      simp only [reviseFrom_directive_eq_ok_iff, openSection_of_isSetting hsegment, closeSection]
      constructor
      · rintro ⟨_, _, later, ⟨⟩, ⟨⟩, hlater, rfl⟩
        obtain ⟨hfailure, haccepted, rfl⟩ := (ih hsegments).1 hlater
        exact ⟨hfailure, ⟨trivial, haccepted⟩, rfl⟩
      · rintro ⟨hfailure, ⟨-, haccepted⟩, rfl⟩
        exact ⟨_, _, _, rfl, rfl, (ih hsegments).2 ⟨hfailure, haccepted, rfl⟩, rfl⟩
    | block b =>
      rw [reviseFrom_block_eq_ok_iff (by simp)]
      constructor
      · rintro ⟨_, revised, later, ⟨⟩, hrevised, hlater, rfl⟩
        obtain ⟨hblock, rfl⟩ := reviseBlock_eq_ok_iff_accepted.1 hrevised
        obtain ⟨hfailure, haccepted, rfl⟩ := (ih hsegments).1 hlater
        exact ⟨hfailure, ⟨hblock, haccepted⟩, rfl⟩
      · rintro ⟨hfailure, ⟨hblock, haccepted⟩, rfl⟩
        exact ⟨_, _, _, rfl, reviseBlock_eq_ok_iff_accepted.2 ⟨hblock, rfl⟩,
          (ih hsegments).2 ⟨hfailure, haccepted, rfl⟩, rfl⟩

/-- What is known of a revision that succeeded, without the new values being found again: that the
segments were complete, and that no new value broke its block. -/
theorem of_reviseFrom (hsettled : ∀ segment ∈ segments, Settled segment)
    (h : reviseFrom settings values failure none segments = .ok out) :
    failure = .ok () ∧ (∀ segment ∈ segments, Verified settings.comment values segment) ∧
      out = (segments.map (revisedSegment values)).flatMap Segment.raw := by
  obtain ⟨hfailure, haccepted, hout⟩ :=
    (reviseFrom_eq_ok_iff_accepted fun segment hsegment => (hsettled segment hsegment).unlisted).1 h
  exact ⟨hfailure, fun segment hsegment => (haccepted segment hsegment).verified, hout⟩

/-! ### Revised blocks -/

section Blocks

variable (hsound : block.Sound comment)

include hsound

/-- The specs of a block stand within a line, since they were read from one. -/
theorem inline_of_sound : ∀ spec ∈ block.specs, spec.delimiter.Inline := by
  intro spec hspec
  cases hheader : block.header with
  | none =>
    rw [hsound.noHeader hheader] at hspec
    cases hspec
  | some header =>
    obtain ⟨-, -, inner, -, hspecs⟩ := hsound.header header hheader
    have hwritable := FieldSpec.writable_of_ofHeader hspecs spec hspec
    exact ⟨hwritable.start, hwritable.stop⟩

/-- **A complete text stays complete**, whatever is put into it. -/
theorem complete_revisedText (hsettled : Settled (.block block)) (h : block.text.Complete) :
    (revisedText values block).Complete := by
  by_cases hspecs : block.specs = []
  · rwa [revisedText_of_specs_eq_nil hspecs]
  · exact Body.complete_fill (inline_of_sound hsound) (hsettled hspecs) h _

/-- The header and the text of a block stay complete together. -/
theorem complete_header_revisedText (hsettled : Settled (.block block))
    (h : Text.Complete (block.headerText ++ block.text)) :
    Text.Complete (block.headerText ++ revisedText values block) := by
  by_cases hspecs : block.specs = []
  · rwa [revisedText_of_specs_eq_nil hspecs]
  · exact (hsound.complete (hsettled hspecs)).append
      (complete_revisedText hsound hsettled h.of_append)

/-- The text of a verified block is nothing but prose. -/
theorem prose_revisedText (hverified : Verified comment values (.block block)) :
    ∀ line ∈ Text.lines (revisedText values block), LineKind.Is comment line .prose := by
  by_cases hspecs : block.specs = []
  · rw [revisedText_of_specs_eq_nil hspecs]
    exact hsound.text
  · have hbase : ∀ line ∈ Text.lines (Body.locate [] block.specs block.text).text,
        LineKind.Is comment line .prose := by
      rw [Body.text_locate]
      exact hsound.text
    -- values are replaced between the same literal texts, so the check is exact here too
    have hleads : ((Body.locate [] block.specs block.text).fill
        (revisedValue values)).slots.map Slot.lead =
          (Body.locate [] block.specs block.text).slots.map Slot.lead := by
      rw [Body.fill, List.map_map]
      rfl
    exact (Body.checkBlock_eq_ok_iff hleads rfl hbase).1 (hverified hspecs)

/-- **A revised block is a block again**, under its own header and with its own separator. -/
theorem sound_revisedBlock (hsettled : Settled (.block block))
    (hverified : Verified comment values (.block block)) :
    Block.Sound comment { block with text := revisedText values block } := by
  refine ⟨⟨hsound.header, hsound.noHeader, prose_revisedText hsound hverified, ?_⟩,
    hsound.closed, ?_, ?_⟩
  -- a text with specs was not empty before, whatever it is now, so its header ends a line
  · intro htext
    by_cases hspecs : block.specs = []
    · refine hsound.complete fun hnil => htext ?_
      rw [← hnil]
      exact revisedText_of_specs_eq_nil hspecs
    · exact hsound.complete (hsettled hspecs)
  · exact hsound.separator.imp_right fun hsep =>
      ⟨hsep.1, hsep.2.1, complete_header_revisedText hsound hsettled hsep.2.2⟩
  · by_cases hspecs : block.specs = []
    · rw [revisedText_of_specs_eq_nil hspecs]
      exact hsound.raw_ne_nil
    · obtain ⟨header, hheader⟩ := Option.ne_none_iff_exists'.1 fun h => hspecs (hsound.noHeader h)
      have hne := (hsound.header header hheader).1.1
      simp [Block.raw, Block.headerText, hheader, hne]

end Blocks

/-- **A revised segment can stand where the segment stood.** From the cut of the old document it
follows with this that the new one is cut at the same places. -/
theorem stands_revisedSegment (hsound : segment.Sound comment) (hsettled : Settled segment)
    (hverified : Verified comment values segment) :
    Segment.Stands comment segment [revisedSegment values segment] := by
  cases segment with
  | directive found raw line =>
    refine ⟨Segment.replaces_singleton hsound id id id, fun before after => ?_⟩
    simp [revisedSegment]
  | block b =>
    have hb : b.Sound comment := hsound
    have hnew := sound_revisedBlock hb hsettled hverified
    refine ⟨Segment.replaces_singleton hnew id id fun hraw => ?_, fun before after => ?_⟩
    · rw [Segment.raw, Block.raw] at hraw
      show Text.Complete (b.headerText ++ revisedText values b ++ b.separator)
      -- with a separator the end is the same; without one it is the end of the text
      by_cases hsep : b.separator = []
      · rw [hsep, List.append_nil] at hraw ⊢
        exact complete_header_revisedText hb hsettled hraw
      · exact (Text.complete_append_iff hsep).2 hraw.of_append
    · rw [List.flatMap_singleton]
      exact (Settings.scans_of_unmarked hnew.unmarked).trans
        (Settings.scans_of_unmarked hb.unmarked).symm

/-! ### Documents -/

/-- **Revision keeps all but the values.** A revised document has the settings of the document and
is cut into as many segments: the directives are the same, and so are the blocks but for the
values that their specs find. A list is left out because it is written anew, and a header without
text because its block would get a text that need not end its line. -/
theorem revise_keeps_segments (hrevise : revise settings values document = .ok next)
    (hscan : settings.scan document = .ok scanned)
    (hsettled : ∀ segment ∈ (Segmentation.ofText scanned.comment document).segments,
      Settled segment) :
    settings.scan next = .ok scanned ∧
      (Segmentation.ofText scanned.comment next).failure = none ∧
      (Segmentation.ofText scanned.comment next).segments.map Segment.unnumbered =
        ((Segmentation.ofText scanned.comment document).segments.map
          (revisedSegment values)).map Segment.unnumbered := by
  obtain ⟨scanned', hscan', hrevise⟩ := revise_eq_ok_iff.1 hrevise
  obtain rfl : scanned' = scanned := Except.ok.inj (hscan'.symm.trans hscan)
  obtain ⟨hcomplete, hverified, rfl⟩ := of_reviseFrom hsettled hrevise
  have hsegments := Segmentation.complete_eq_ok_iff.1 hcomplete
  generalize (Segmentation.ofText scanned'.comment document).segments = segments at *
  have hsound := (Segmentation.chain_of_ofText hsegments).1.sound
  -- each revised segment stands where its segment stood, and the document is cut again there
  have hstands : List.Forall₂ (Segment.Stands scanned'.comment) segments
      (segments.map fun segment => [revisedSegment values segment]) := by
    rw [List.forall₂_map_right_iff, List.forall₂_same]
    exact fun segment hsegment => stands_revisedSegment (hsound segment hsegment)
      (hsettled segment hsegment) (hverified segment hsegment)
  have hflatten : (segments.map fun segment => [revisedSegment values segment]).flatten =
      segments.map (revisedSegment values) := by
    rw [← List.flatMap_def, List.map_eq_flatMap]
  obtain ⟨result, hresult, hmap, hscanned⟩ :=
    Segmentation.ofText_of_stands hscan hsegments hstands
  rw [hflatten] at hresult hmap hscanned
  rw [hresult]
  exact ⟨hscanned, rfl, hmap⟩

/-- A value of two lines moves no boundary, and the segments around it stay. -/
theorem revise_two_lines :
    revise .standard [("a".toList, .scalar (.text "one\ntwo".toList))]
        ("Notes.\n\n<!--\x7b\x7ba:pattern=\"[%s]\"\x7d\x7d-->\n".toList ++
          "See [me] here.\n\n\n".toList) =
      .ok ("Notes.\n\n<!--\x7b\x7ba:pattern=\"[%s]\"\x7d\x7d-->\n".toList ++
        "See [one\ntwo] here.\n\n\n".toList) ∧
    (Segmentation.ofText .standard
        ("Notes.\n\n<!--\x7b\x7ba:pattern=\"[%s]\"\x7d\x7d-->\n".toList ++
          "See [one\ntwo] here.\n\n\n".toList)).segments.map Segment.unnumbered =
      [.block ⟨none, [], "Notes.\n".toList, ['\n'], 0, true⟩,
        .block ⟨some "<!--\x7b\x7ba:pattern=\"[%s]\"\x7d\x7d-->\n".toList,
          [⟨"a".toList, ['['], [']']⟩], "See [one\ntwo] here.\n".toList, ['\n'], 0, true⟩,
        .block ⟨none, [], [], ['\n'], 0, true⟩] := by
  have hrevise : revise .standard [("a".toList, .scalar (.text "one\ntwo".toList))]
      ("Notes.\n\n<!--\x7b\x7ba:pattern=\"[%s]\"\x7d\x7d-->\n".toList ++
        "See [me] here.\n\n\n".toList) =
        .ok ("Notes.\n\n<!--\x7b\x7ba:pattern=\"[%s]\"\x7d\x7d-->\n".toList ++
          "See [one\ntwo] here.\n\n\n".toList) := by
    decide +kernel
  have hscan : Settings.standard.scan
      ("Notes.\n\n<!--\x7b\x7ba:pattern=\"[%s]\"\x7d\x7d-->\n".toList ++
        "See [me] here.\n\n\n".toList) = .ok .standard := by
    decide +kernel
  refine ⟨hrevise, (revise_keeps_segments hrevise hscan (by decide +kernel)).2.2.trans ?_⟩
  decide +kernel

end FieldedText.Document
