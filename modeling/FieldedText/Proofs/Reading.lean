/-
FieldedText/Proofs/Reading.lean

What is read from a rendered document is what was rendered into it.

The specs of a rendered text find its values again, so each block of the document
gives the record of the texts that were put into it (`readBlock_filled`), and what
a segment of the template becomes gives one such record for each of its blocks
(`foldl_readSegment_of_expands`).  The document is cut into just those blocks, and
their records are merged in the order of the template (`read_render`).
-/
import FieldedText.Document.Reading
import FieldedText.Proofs.Path
import FieldedText.Proofs.Rendered

namespace FieldedText.Document

variable {settings : Settings} {values : Record} {text : Text} {specs : List FieldSpec}
  {body : Body} {comment : Comment} {separator : Text}

/-! ### The records of a template -/

/-- The texts that are rendered for some names, each stored under its name. -/
def renderedRecord (settings : Settings) (values : Record) (names : List Name) : Record :=
  names.foldl (fun r name => r.put name (.scalar (.text (renderedValue settings values name)))) []

/-- The records that a segment of a template gives to what is read from the document: for a block
with placeholders that of their texts, for a list one with the names of each entry, and for any
other block the record that is read from the block itself. The last of these is not empty for a
template that is itself a document already. -/
def contributions (settings : Settings) (values : Record) : Segment → List Record
  | .directive _ _ _ => []
  | .block block =>
    match blockNames block with
    | [] => [readBlock block]
    | names =>
      match ListTemplate.listPath 0 names with
      | .ok (some path) =>
        (values.ordinalsAt path).map fun ordinal =>
          renderedRecord settings values (names.map (ListTemplate.entryName ordinal))
      | _ => [renderedRecord settings values names]

theorem renderedRecord_eq (settings : Settings) (values : Record) (names : List Name) :
    renderedRecord settings values names =
      (names.map fun name => (name, renderedValue settings values name)).foldl
        (fun (r : Record) entry => r.put entry.1 (.scalar (.text entry.2))) [] := by
  rw [List.foldl_map]
  rfl

theorem distinct_renderedRecord (settings : Settings) (values : Record) (names : List Name) :
    (renderedRecord settings values names).Distinct := by
  rw [renderedRecord_eq]
  exact Record.distinct_nil.foldl_put _

section Contributions

variable {block : Block} {path : Text}

theorem contributions_of_names_eq_nil (h : blockNames block = []) :
    contributions settings values (.block block) = [readBlock block] := by
  rw [contributions, h]

theorem contributions_of_listPath_eq_none (hnames : blockNames block ≠ [])
    (h : ListTemplate.listPath 0 (blockNames block) = .ok none) :
    contributions settings values (.block block) =
      [renderedRecord settings values (blockNames block)] := by
  obtain ⟨name, names, hcons⟩ := List.exists_cons_of_ne_nil hnames
  rw [contributions]
  rw [hcons] at h ⊢
  simp only [h]

theorem contributions_of_listPath_eq_some
    (h : ListTemplate.listPath 0 (blockNames block) = .ok (some path)) :
    contributions settings values (.block block) = (values.ordinalsAt path).map fun ordinal =>
      renderedRecord settings values
        ((blockNames block).map (ListTemplate.entryName ordinal)) := by
  obtain ⟨name, names, hcons⟩ := List.exists_cons_of_ne_nil (names_ne_nil_of_listPath h)
  rw [contributions]
  rw [hcons] at h ⊢
  simp only [h]

end Contributions

/-! ### Blocks -/

/-- Reading looks at the names and the values of slots. -/
theorem readBlock_eq (block : Block) :
    readBlock block = ((Body.locate [] block.specs block.text).slots.map
      fun slot => (slot.name, slot.value)).foldl
        (fun (r : Record) found => r.put found.1 (.scalar (.text found.2))) [] := by
  rw [List.foldl_map]
  rfl

theorem distinct_readBlock (block : Block) : (readBlock block).Distinct := by
  rw [readBlock_eq]
  exact Record.distinct_nil.foldl_put _

/-- No record that a segment gives repeats a name. -/
theorem distinct_of_mem_contributions {segment : Segment} {r : Record}
    (h : r ∈ contributions settings values segment) : r.Distinct := by
  cases segment with
  | directive found raw line => cases h
  | block b =>
    rw [contributions] at h
    split at h
    · rw [List.mem_singleton.1 h]
      exact distinct_readBlock b
    · split at h
      · obtain ⟨ordinal, -, rfl⟩ := List.mem_map.1 h
        exact distinct_renderedRecord settings values _
      · rw [List.mem_singleton.1 h]
        exact distinct_renderedRecord settings values _

theorem map_framed {slots : List Slot} (h : Body.Chosen slots specs) :
    (Body.framed slots specs).map (fun slot => (slot.name, slot.value)) =
      slots.map fun slot => (slot.name, slot.value) := by
  induction h with
  | nil => rfl
  | cons _ _ ih =>
    rw [Body.framed, List.zipWith_cons_cons, List.map_cons, List.map_cons, ← ih]
    rfl

/-- What the specs of a rendered text find gives the record of what was rendered. -/
theorem readBlock_of_locate (h : Rendered settings values text specs body) {block : Block}
    {tail : Text} (hlocate : Body.locate [] block.specs block.text =
      ⟨Body.framed body.slots specs, tail⟩) :
    readBlock block = renderedRecord settings values (Template.ofText text).names := by
  rw [readBlock_eq, hlocate]
  simp only [map_framed (Body.chosen_of_specsFrom h.specsFrom)]
  rw [h.slots_eq, renderedRecord, Template.names, ← Template.map_name_surroundingsFrom
    (Template.ofText text).tail [], List.map_map, List.foldl_map, List.foldl_map]
  rfl

/-- **A rendered block gives the texts that were put into it.** -/
theorem readBlock_filled (h : Rendered settings values text specs body) :
    readBlock (filled comment specs body.text separator) =
      renderedRecord settings values (Template.ofText text).names :=
  readBlock_of_locate h (Body.locate_of_specs h.specsFrom)

/-- So it does when a line feed was put at the end of its text. This happens to an entry that
others follow, when the template of the list does not end its line. -/
theorem readBlock_filled_ended (h : Rendered settings values text specs body)
    (hunended : body.text.Unended) :
    readBlock (filled comment specs (body.text ++ ['\n']) separator) =
      renderedRecord settings values (Template.ofText text).names :=
  readBlock_of_locate h (Body.locate_of_specsFrom_append_lineFeed h.specsFrom
    (fun spec hspec => (h.writable spec hspec).2) hunended)

/-! ### Segments -/

theorem merge_nil (r : Record) : r.merge [] = r := by
  rw [Record.merge]

theorem readSegment_block (r : Record) (block : Block) :
    readSegment r (.block block) = r.merge (readBlock block) := by
  rw [readSegment]
  split
  · rename_i hspecs
    rw [readBlock, hspecs]
    exact (merge_nil r).symm
  · rfl

theorem readSegment_blank (r : Record) (separator : Text) :
    readSegment r (.block (blank separator)) = r := by
  have hspecs : (blank separator).specs = [] := rfl
  rw [readSegment, if_pos hspecs]

theorem readSegment_unnumbered (r : Record) (segment : Segment) :
    readSegment r segment.unnumbered = readSegment r segment := by
  cases segment <;> rfl

theorem foldl_readSegment_unnumbered (segments : List Segment) (r : Record) :
    (segments.map Segment.unnumbered).foldl readSegment r = segments.foldl readSegment r := by
  rw [List.foldl_map]
  exact congrArg (fun f => List.foldl f r segments)
    (funext fun r => funext fun segment => readSegment_unnumbered r segment)

/-- An entry that another one follows gives the record of the entry. -/
theorem foldl_readSegment_innerEntry {base : Text} {entry : List FieldSpec × Body}
    (h : Rendered settings values text entry.1 entry.2)
    (hunended : ¬ base.Complete → entry.2.text.Unended) (hne : base ≠ []) (r : Record) :
    (innerEntry comment base entry).foldl readSegment r =
      r.merge (renderedRecord settings values (Template.ofText text).names) := by
  unfold innerEntry
  split
  · rw [List.foldl_cons, List.foldl_nil, readSegment_block, readBlock_filled h]
  · rename_i hgap
    -- a gap of two line feeds means that the template of the list has none at its end
    have hended := hunended fun hcomplete => hgap (entryGap_eq_iff.2 ⟨hne, hcomplete⟩)
    split
    · rename_i hnil
      rw [← hnil, List.foldl_cons, List.foldl_cons, List.foldl_nil, readSegment_blank,
        readSegment_block, readBlock_filled h]
    · rw [List.foldl_cons, List.foldl_nil, readSegment_block, readBlock_filled_ended h hended]

/-- The entries of a list give one record each. -/
theorem foldl_readSegment_entrySegments {base : Text} (hne : base ≠ []) {ordinals : List Name}
    {entries : List (List FieldSpec × Body)}
    (hordinals : ∀ ordinal ∈ ordinals, Name.isOrdinal ordinal = true)
    (h : List.Forall₂ (fun ordinal entry =>
      Rendered settings values (entryText ordinal base) entry.1 entry.2) ordinals entries)
    (hunended : ∀ entry ∈ entries, ¬ base.Complete → entry.2.text.Unended) (r : Record) :
    (entrySegments comment base separator entries).foldl readSegment r =
      (ordinals.map fun ordinal => renderedRecord settings values
        ((Template.ofText base).names.map (ListTemplate.entryName ordinal))).foldl
          Record.merge r := by
  -- what was read before the entries is general, since every entry adds to it
  induction h generalizing r with
  | nil =>
    unfold entrySegments
    split
    · rfl
    · exact readSegment_blank r separator
  | @cons ordinal entry ordinals entries hentry hlater ih =>
    obtain ⟨ho, hordinals⟩ := List.forall_mem_cons.1 hordinals
    obtain ⟨hended, hunended⟩ := List.forall_mem_cons.1 hunended
    rw [List.map_cons, List.foldl_cons, ← names_entryText ho]
    -- the last entry is one block with the separator of the list, and any other one is followed
    -- by a gap of its own
    cases hlater with
    | nil =>
      rw [entrySegments, List.foldl_cons, List.foldl_nil, readSegment_block,
        readBlock_filled hentry]
      rfl
    | cons hnext hlater =>
      rw [entrySegments, List.foldl_append, foldl_readSegment_innerEntry hentry hended hne,
        ih hordinals hunended]

/-- **What a segment becomes gives the records of the segment.** -/
theorem foldl_readSegment_of_expands {segment : Segment} {segments : List Segment}
    (hlegible : LegibleSegment segment) (hsound : segment.Sound settings.comment)
    (h : Expands settings values segment segments) (r : Record) :
    segments.foldl readSegment r =
      (contributions settings values segment).foldl Record.merge r := by
  cases h with
  | directive found raw line => rfl
  | copied hnames =>
    rw [List.foldl_cons, List.foldl_nil, readSegment_block, contributions_of_names_eq_nil hnames]
    rfl
  | filled hnames hpath hrendered =>
    rw [List.foldl_cons, List.foldl_nil, readSegment_block, readBlock_filled hrendered,
      contributions_of_listPath_eq_none hnames hpath]
    rfl
  | @list block path entries hpath hentries =>
    have hnames := names_ne_nil_of_listPath hpath
    have hwritten := hentries.written hsound hlegible hnames
    rw [List.foldl_cons, contributions_of_listPath_eq_some hpath]
    exact foldl_readSegment_entrySegments (text_ne_nil_of_names hnames)
      (fun _ hordinal => Record.isOrdinal_of_mem_ordinalsAt hordinal) hentries
      (fun entry hentry => (hwritten entry hentry).unended) r

/-! ### Documents -/

/-- A document is read when it can be cut into segments to the end. -/
theorem read_eq_ok_iff {document : Text} :
    read settings document = .ok values ↔
      ∃ scanned segments, settings.scan document = .ok scanned ∧
        Segmentation.ofText scanned.comment document = ⟨segments, none⟩ ∧
        segments.foldl readSegment [] = values := by
  simp only [read, bind_eq_ok_iff]
  constructor
  · rintro ⟨scanned, hscan, ⟨⟩, hcomplete, ⟨⟩⟩
    exact ⟨scanned, _, hscan, Segmentation.complete_eq_ok_iff.1 hcomplete, rfl⟩
  · rintro ⟨scanned, segments, hscan, hsegments, rfl⟩
    refine ⟨scanned, hscan, (), ?_, ?_⟩
    · rw [hsegments]
      rfl
    · rw [hsegments]
      rfl

/-- **Reading inverts rendering.** What is read from a rendered document is what the blocks of its
template contribute, merged in the order of the template. The framing has no brace, so that what
is written is the only markup, and the texts beside placeholders are legible, so that every header
is read as it was written; nothing is asked of the data, since a value that is not found again
makes rendering fail. -/
theorem read_render {template document : Text} {scanned : Settings}
    (hrender : render settings values template = .ok document)
    (hscan : settings.scan template = .ok scanned) (hcomment : scanned.comment.Unbraced)
    (hlegible : ∀ segment ∈ (Segmentation.ofText scanned.comment template).segments,
      LegibleSegment segment) :
    read settings document =
      .ok (((Segmentation.ofText scanned.comment template).segments.flatMap
        (contributions scanned values)).foldl Record.merge []) := by
  obtain ⟨scanned', segments, expanded, hscan', hsegments, hexpands, rfl⟩ :=
    render_eq_ok_iff.1 hrender
  obtain rfl : scanned' = scanned := Except.ok.inj (hscan'.symm.trans hscan)
  rw [hsegments] at hlegible ⊢
  obtain ⟨result, hresult, hmap, hscanned⟩ :=
    ofText_of_expands hscan hsegments hexpands hcomment hlegible
  have hsound := (Segmentation.chain_of_ofText hsegments).1.sound
  have hfold (r : Record) : expanded.flatten.foldl readSegment r =
      (segments.flatMap (contributions scanned' values)).foldl Record.merge r := by
    -- only how each segment expands is used in the induction
    clear hsegments hresult hmap hscanned hrender
    induction hexpands generalizing r with
    | nil => rfl
    | cons hnew _ ih =>
      obtain ⟨hsound, hsounds⟩ := List.forall_mem_cons.1 hsound
      obtain ⟨hlegible, hlegibles⟩ := List.forall_mem_cons.1 hlegible
      rw [List.flatten_cons, List.flatMap_cons, List.foldl_append, List.foldl_append,
        foldl_readSegment_of_expands hlegible hsound hnew, ih hlegibles hsounds]
  rw [read, hscanned]
  simp only [bind, Except.bind, hresult]
  rw [← hfold, ← foldl_readSegment_unnumbered expanded.flatten, ← hmap,
    foldl_readSegment_unnumbered]
  rfl

/-- The entries of a list are read from the document that they were rendered into, in the order
of their ordinals. -/
theorem read_rendered_list :
    render .standard
        [("l".toList, .record
          [("2".toList, .scalar (.text "milk".toList)), ("0".toList, .scalar (.truth true))])]
        "* \x7b\x7bl.*\x7d\x7d\n".toList =
      .ok ("<!--\x7b@list-template=\"* \x7b\x7bl.*\x7d\x7d\\n\"\x7d\x7d-->\n".toList ++
        "<!--\x7b\x7bl.0:pattern=\"* %s\"\x7d\x7d-->\n* true\n\n".toList ++
        "<!--\x7b\x7bl.2:pattern=\"* %s\"\x7d\x7d-->\n* milk\n".toList) ∧
    read .standard
        ("<!--\x7b@list-template=\"* \x7b\x7bl.*\x7d\x7d\\n\"\x7d\x7d-->\n".toList ++
          "<!--\x7b\x7bl.0:pattern=\"* %s\"\x7d\x7d-->\n* true\n\n".toList ++
          "<!--\x7b\x7bl.2:pattern=\"* %s\"\x7d\x7d-->\n* milk\n".toList) =
      .ok [("l".toList, .record
        [("0".toList, .scalar (.text "true".toList)),
          ("2".toList, .scalar (.text "milk".toList))])] := by
  have hscan : Settings.standard.scan "* \x7b\x7bl.*\x7d\x7d\n".toList = .ok .standard := by
    decide +kernel
  refine (fun hrender => ⟨hrender, (read_render hrender hscan Comment.unbraced_standard
    (by decide +kernel)).trans ?_⟩) ?_
  · decide +kernel
  · decide +kernel

end FieldedText.Document
