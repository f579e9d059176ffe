/-
FieldedText/Proofs/Regeneration.lean

Revision of a rendered document is rendering of its template.

The two go about it in different ways.  Rendering puts values in place of
placeholders; revision knows no placeholders, only the headers of blocks, and finds
the entries of a list by the names in their headers.  They meet in three places:

* the values that a header's specs find are the ones that were put in, so other
  values in their place make the body that rendering makes (`reviseBlock_filled`);
* the entries of a list, with the blank lines between and after them, are taken
  into the section of the list, and what ends the section is what ended the list
  (`taken_entrySegments`), also when there are no entries;
* a block that stands after a list is not taken into it, unless it is blank, and
  then it stays (`closeSection_withBlank`).

None of this depends on the data that was rendered before, so it holds along every
run of revisions (`revise_foldl_revised`).
-/
import FieldedText.Proofs.Revision

namespace FieldedText

/-! ### Which templates -/

/-- A name that an entry of a list has only if an asterisk stands in it, and without an empty
part. So a block outside of lists cannot be taken for an entry, whatever list stands before it. -/
structure ListTemplate.Distinct (name : Name) : Prop where
  parts : ∀ part ∈ Text.splitOn '.' name, part ≠ []
  ordinals : marker ∉ Text.splitOn '.' name →
    ∀ part ∈ Text.splitOn '.' name, Name.isOrdinal part = false

instance (name : Name) : Decidable (ListTemplate.Distinct name) :=
  decidable_of_iff
    ((∀ part ∈ Text.splitOn '.' name, part ≠ []) ∧
      (ListTemplate.marker ∉ Text.splitOn '.' name →
        ∀ part ∈ Text.splitOn '.' name, Name.isOrdinal part = false))
    ⟨fun h => ⟨h.1, h.2⟩, fun h => ⟨h.1, h.2⟩⟩

namespace Document

/-- A segment of a template that can be revised once it is rendered.  It is no list template,
and no header without placeholders under it; its text is legible, and no name in it is mistaken
for one of a list. -/
abbrev Revisable : Segment → Prop :=
  Segment.Satisfies Directive.IsSetting fun block => (Template.ofText block.text).Legible ∧
    (block.header ≠ none → blockNames block ≠ []) ∧
    ∀ name ∈ blockNames block, ListTemplate.Distinct name

/-- Whether the values have a scalar for each placeholder of a segment, if these belong to no
list. -/
abbrev Resolves (values : Record) : Segment → Prop :=
  Segment.Satisfies (fun _ => True) fun block =>
    (∀ name ∈ blockNames block, ListTemplate.marker ∉ Text.splitOn '.' name) →
      ∀ name ∈ blockNames block, (values.scalarAt? name).isSome

theorem Revisable.legible {segment : Segment} (h : Revisable segment) : LegibleSegment segment :=
  h.imp (fun _ _ => trivial) fun _ hblock => hblock.1

variable {settings : Settings} {old values : Record} {text out : Text} {comment : Comment}
  {separator : Text} {specs : List FieldSpec} {body : Body} {block : Block}
  {segment : Segment} {segments more : List Segment} {current : Option ListSection}
  {list last : ListSection}

/-! ### Blocks -/

/-- Without a configured delimiter there is none but the text around a placeholder. -/
theorem delimiters_unset (around : Surroundings) :
    around.delimiters .unset = if around.admits around.textual then [around.textual] else [] := by
  have hnone : around.hasConfigured .unset = false := rfl
  simp [Surroundings.delimiters, hnone]

theorem delimiters_eq_of_mem {around : Surroundings} {delimiter : Delimiter}
    (h : delimiter ∈ around.delimiters .unset) :
    around.delimiters .unset = [delimiter] := by
  rw [delimiters_unset] at h ⊢
  split at h
  · rename_i hadmits
    rw [if_pos hadmits, List.mem_singleton.1 h]
  · cases h

/-- Without a configured delimiter the specs of a text do not depend on the values in it. -/
theorem eq_of_chosen (hunset : settings.delimiter = .unset) {arounds : List Surroundings}
    {others : List FieldSpec} (h : Body.Chosen (arounds.map (slotOf settings old)) specs)
    (ho : Body.Chosen (arounds.map (slotOf settings values)) others) : others = specs := by
  induction arounds generalizing specs others with
  | nil =>
    cases h
    cases ho
    rfl
  | cons around arounds ih =>
    cases h with
    | @cons _ spec _ specs hspec hlater =>
      cases ho with
      | @cons _ other _ others hother hlater' =>
        have hmem : spec.delimiter ∈ around.delimiters settings.delimiter := hspec.2
        have hmem' : other.delimiter ∈ around.delimiters settings.delimiter := hother.2
        -- one delimiter at most is offered, and both specs have it
        rw [hunset] at hmem hmem'
        rw [delimiters_eq_of_mem hmem, List.mem_singleton] at hmem'
        obtain ⟨name, delimiter⟩ := spec
        obtain ⟨name', delimiter'⟩ := other
        obtain rfl : name' = name := hother.1.trans hspec.1.symm
        obtain rfl : delimiter' = delimiter := hmem'
        rw [ih hlater hlater']

/-- A scalar is rendered and revised as the same text. Where there is no scalar the two differ,
which is why the data has to have one for each placeholder. -/
theorem revisedValue_eq (settings : Settings) {name : Name} (h : (values.scalarAt? name).isSome) :
    revisedValue values name = renderedValue settings values name := by
  obtain ⟨scalar, hscalar⟩ := Option.isSome_iff_exists.1 h
  rw [revisedValue, renderedValue, hscalar]

/-- Slots that are framed by what was chosen for them become those of other values when their
values are replaced. -/
theorem map_fill_framed (hunset : settings.delimiter = .unset) {arounds : List Surroundings}
    (h : Body.Chosen (arounds.map (slotOf settings old)) specs)
    (hvalues : ∀ around ∈ arounds, (values.scalarAt? around.placeholder.name).isSome) :
    (Body.framed (arounds.map (slotOf settings old)) specs).map
        (fun slot => { slot with value := revisedValue values slot.name }) =
      arounds.map (slotOf settings values) := by
  induction arounds generalizing specs with
  | nil =>
    cases h
    rfl
  | cons around arounds ih =>
    obtain ⟨hvalue, hvalues⟩ := List.forall_mem_cons.1 hvalues
    cases h with
    | @cons _ spec _ specs hspec hlater =>
      have hmem : spec.delimiter ∈ around.delimiters settings.delimiter := hspec.2
      have hone : around.delimiters settings.delimiter = [spec.delimiter] := by
        rw [hunset] at hmem ⊢
        exact delimiters_eq_of_mem hmem
      have hslot : slotOf settings values around = ⟨around.lead, around.placeholder.name,
          revisedValue values around.placeholder.name, [spec.delimiter]⟩ := by
        rw [revisedValue_eq settings hvalue, ← hone]
        rfl
      rw [List.map_cons, Body.framed, List.zipWith_cons_cons, List.map_cons, List.map_cons, hslot]
      exact congrArg _ (ih hlater hvalues)

/-- **Other values in the places that specs find make the body that rendering makes.** -/
theorem fill_locate (hunset : settings.delimiter = .unset)
    (h : Rendered settings old text specs body)
    (hvalues : ∀ name ∈ (Template.ofText text).names, (values.scalarAt? name).isSome) :
    (Body.locate [] specs body.text).fill (revisedValue values) =
      ⟨(Template.ofText text).surroundings.map (slotOf settings values),
        (Template.ofText text).tail⟩ := by
  have hchosen := Body.chosen_of_specsFrom h.specsFrom
  have hlocate : Body.locate [] specs body.text = ⟨Body.framed body.slots specs, body.tail⟩ :=
    Body.locate_of_specs h.specsFrom
  have harounds : ∀ around ∈ (Template.ofText text).surroundings,
      (values.scalarAt? around.placeholder.name).isSome := by
    intro around haround
    refine hvalues around.placeholder.name ?_
    rw [Template.names, ← Template.map_name_surroundingsFrom (Template.ofText text).tail []]
    exact List.mem_map_of_mem haround
  rw [h.slots_eq] at hchosen
  rw [hlocate, Body.fill, h.tail_eq, h.slots_eq, map_fill_framed hunset hchosen harounds]

/-- **A rendered block is revised as its text is rendered.** -/
theorem reviseBlock_filled (hunset : settings.delimiter = .unset) (hne : specs ≠ [])
    (h : Rendered settings old text specs body)
    (hvalues : ∀ name ∈ (Template.ofText text).names, (values.scalarAt? name).isSome) :
    reviseBlock settings values (filled settings.comment specs body.text separator) = .ok out ↔
      ∃ specs body, Rendered settings values text specs body ∧
        out = settings.comment.headerLine specs ++ body.text ++ separator := by
  have hbody := fill_locate hunset h hvalues
  have hoffered := (renderedBody_eq_ok_iff.1 h.filled).1
  -- The body that revision makes is the one that rendering makes of the new values. What is left
  -- to compare is how each of them is accepted.
  have hchosen := Body.chosen_of_specsFrom h.specsFrom
  rw [h.slots_eq] at hchosen
  rw [reviseBlock_eq_ok_iff hne]
  show (∃ found, ((Body.locate [] specs body.text).fill (revisedValue values)).verify
      settings.comment 0 = .ok found ∧ out = settings.comment.headerLine specs ++
        ((Body.locate [] specs body.text).fill (revisedValue values)).text ++ separator) ↔ _
  rw [hbody]
  -- what the new body is verified to are the specs that it has a header for
  have hsame {others : List FieldSpec} {other : Body}
      (ho : Rendered settings values text others other) : others = specs := by
    have hother := Body.chosen_of_specsFrom ho.specsFrom
    rw [ho.slots_eq] at hother
    exact eq_of_chosen hunset hchosen hother
  constructor
  · rintro ⟨found, hverify, rfl⟩
    have hrendered : Rendered settings values text found
        ⟨(Template.ofText text).surroundings.map (slotOf settings values),
          (Template.ofText text).tail⟩ :=
      ⟨renderedBody_eq_ok_iff.2 ⟨hoffered, rfl⟩, hverify⟩
    exact ⟨found, _, hrendered, by rw [hsame hrendered]⟩
  · rintro ⟨others, other, hrendered, rfl⟩
    obtain rfl : other = ⟨(Template.ofText text).surroundings.map (slotOf settings values),
        (Template.ofText text).tail⟩ := (renderedBody_eq_ok_iff.1 hrendered.filled).2
    exact ⟨others, hrendered.verified, by rw [hsame hrendered]⟩

/-! ### Lists -/

/-- Blocks that a section takes in one after another. Nothing is written for them; the section
only keeps what ended the list, and the blank lines behind it. -/
inductive Taken : ListSection → List Segment → ListSection → Prop
  | nil (list : ListSection) : Taken list [] list
  | cons {list next last : ListSection} {block : Block} {segments : List Segment}
      (first : list.take? block = some next) (rest : Taken next segments last) :
      Taken list (.block block :: segments) last

theorem Taken.append {next : ListSection} (h : Taken list segments next)
    (hmore : Taken next more last) : Taken list (segments ++ more) last := by
  induction h with
  | nil list => exact hmore
  | cons first _ ih => exact .cons first (ih hmore)

theorem reviseFrom_of_taken (h : Taken list segments last) {failure : Except Error Unit} :
    reviseFrom settings values failure (some list) (segments ++ more) =
      reviseFrom settings values failure (some last) more := by
  induction h with
  | nil list => rfl
  | cons first _ ih => rw [List.cons_append, reviseFrom_taken first, ih]

/-- A section owns an entry when it owns one of its names. -/
def OwnsEntry (list : ListSection) (entry : List FieldSpec × Body) : Prop :=
  ∃ spec ∈ entry.1, list.ownsField spec.name = true

theorem take?_filled {entry : List FieldSpec × Body} (h : OwnsEntry list entry)
    (text separator : Text) :
    list.take? (filled comment entry.1 text separator) =
      some { list with separator := some separator, blanks := [] } := by
  have howns : list.owns (filled comment entry.1 text separator) = true :=
    List.any_eq_true.2 h
  rw [ListSection.take?, if_pos howns]
  rfl

theorem take?_blank (list : ListSection) (separator : Text) :
    list.take? (blank separator) = some (list.withBlank (blank separator)) := rfl

/-- An entry is taken in with the blank line after it, if there is one. -/
theorem taken_innerEntry (comment : Comment) (base : Text) {entry : List FieldSpec × Body}
    (h : OwnsEntry list entry) :
    ∃ separator blanks, Taken list (innerEntry comment base entry)
      { list with separator, blanks } := by
  unfold innerEntry
  split
  · exact ⟨_, _, .cons (take?_filled h _ _) (.nil _)⟩
  · split
    · exact ⟨_, _, .cons (take?_filled h _ _) (.cons (take?_blank _ _) (.nil _))⟩
    · exact ⟨_, _, .cons (take?_filled h _ _) (.nil _)⟩

theorem taken_cons_entrySegments {base : Text} {entry : List FieldSpec × Body}
    {entries : List (List FieldSpec × Body)}
    (h : ∀ other ∈ entry :: entries, OwnsEntry list other) :
    Taken list (entrySegments comment base separator (entry :: entries))
      { list with separator := some separator, blanks := [] } := by
  -- each entry resets what ends the section, so what the last one leaves is what counts
  induction entries generalizing list entry with
  | nil =>
    obtain ⟨hentry, -⟩ := List.forall_mem_cons.1 h
    exact .cons (take?_filled hentry _ _) (.nil _)
  | cons next entries ih =>
    obtain ⟨hentry, hentries⟩ := List.forall_mem_cons.1 h
    obtain ⟨gap, blanks, hinner⟩ := taken_innerEntry comment base hentry
    refine hinner.append (ih ?_)
    exact hentries

/-- **All that a list becomes is taken into its section**, and what ends the section then is what
ended the list. This holds without entries too, when a blank line is all that is left of the list.
-/
theorem taken_entrySegments (comment : Comment) (separator : Text) {template path : Text}
    {entries : List (List FieldSpec × Body)}
    (h : ∀ entry ∈ entries, OwnsEntry ⟨template, path, 0, none, []⟩ entry) :
    ∃ last, Taken ⟨template, path, 0, none, []⟩
        (entrySegments comment template separator entries) last ∧
      last.template = template ∧ last.path = path ∧ last.ending = (separator, []) := by
  cases entries with
  | cons entry entries => exact ⟨_, taken_cons_entrySegments h, rfl, rfl, rfl⟩
  | nil =>
    unfold entrySegments
    split
    · rename_i hnone
      exact ⟨_, .nil _, rfl, rfl, by rw [hnone]; rfl⟩
    -- the separator is taken in as a blank block, and becomes the ending since no entry left one
    · exact ⟨_, .cons (take?_blank _ separator) (.nil _), rfl, rfl, rfl⟩

/-- Every entry of a list has a name that the section of the list owns. -/
theorem ownsEntry_of_rendered {path : Text} {entries : List (List FieldSpec × Body)}
    (hpath : ListTemplate.listPath 0 (blockNames block) = .ok (some path))
    (hparts : ∀ name ∈ blockNames block, ∀ part ∈ Text.splitOn '.' name, part ≠ [])
    (h : EntriesRendered settings old block.text path entries) :
    ∀ entry ∈ entries, OwnsEntry ⟨block.text, path, 0, none, []⟩ entry := by
  intro entry hentry
  obtain ⟨ordinal, hordinal, hrendered⟩ := exists_of_forall₂_right h hentry
  have ho := Record.isOrdinal_of_mem_ordinalsAt hordinal
  -- one starred name is enough: its entry name has the path of the list before the ordinal
  obtain ⟨name, hname, pre, post, hsplit, hpre, hjoin⟩ :=
    ListTemplate.exists_starred_of_listPath hpath
  have hmem : ListTemplate.entryName ordinal name ∈ entry.1.map FieldSpec.name := by
    rw [hrendered.names_eq, names_entryText ho]
    exact List.mem_map_of_mem hname
  obtain ⟨spec, hspec, hspecName⟩ := List.mem_map.1 hmem
  refine ⟨spec, hspec, ?_⟩
  rw [hspecName]
  exact ListSection.ownsField_entryName ho hsplit hjoin hpre (hparts name hname)

/-- A blank block that an open section takes in stays behind the list. It is written when the
section is closed, and so it stays where it was. -/
theorem closeSection_withBlank (hempty : block.isEmpty = true) (hheader : block.header = none) :
    closeSection settings values (some (list.withBlank block)) = .ok out ↔
      ∃ closed, closeSection settings values (some list) = .ok closed ∧
        out = closed ++ block.raw := by
  have htext : block.text = [] := by
    rw [Block.isEmpty, Bool.and_eq_true, decide_eq_true_eq, decide_eq_true_eq] at hempty
    exact hempty.2
  have hraw : block.raw = block.separator := by
    simp [Block.raw, Block.headerText, hheader, htext]
  -- behind the entries stand the ending of the list and the blank blocks, in either case
  have hending : (list.withBlank block).ending.1 ++
      (list.withBlank block).ending.2.flatMap Block.raw =
        list.ending.1 ++ list.ending.2.flatMap Block.raw ++ block.raw := by
    obtain ⟨template, path, line, separator, blanks⟩ := list
    cases separator with
    | some separator => simp [ListSection.withBlank, ListSection.ending]
    | none =>
      cases blanks with
      | nil => simp [ListSection.withBlank, ListSection.ending, hraw]
      | cons first blanks => simp [ListSection.withBlank, ListSection.ending]
  simp only [closeSection, ListSection.rendered_eq_ok_iff, raw_entrySegments,
    List.append_assoc] at hending ⊢
  constructor
  · rintro ⟨entries, hentries, rfl⟩
    exact ⟨_, ⟨entries, hentries, rfl⟩, by rw [hending]; simp [ListSection.withBlank]⟩
  · rintro ⟨_, ⟨entries, hentries, rfl⟩, rfl⟩
    exact ⟨entries, hentries, by rw [hending]; simp [ListSection.withBlank]⟩

/-! ### Documents -/

/-- A block without specs is taken into an open section when it is blank. -/
theorem take?_of_specs_eq_nil (h : block.specs = []) (list : ListSection) :
    list.take? block = if block.isEmpty then some (list.withBlank block) else none := by
  have howns : list.owns block = false := by
    rw [ListSection.owns, h, List.any_nil]
  simp [ListSection.take?, howns]

/-- A block outside of lists is not taken into an open section, whatever list that is of. -/
theorem take?_eq_none_of_names (hspecs : block.specs ≠ [])
    (h : ∀ spec ∈ block.specs, ∀ part ∈ Text.splitOn '.' spec.name, Name.isOrdinal part = false) :
    list.take? block = none := by
  have howns : list.owns block = false := by
    rw [ListSection.owns, List.any_eq_false]
    intro spec hspec howns
    obtain ⟨part, hpart, hordinal⟩ := ListSection.exists_ordinal_of_ownsField howns
    rw [h spec hspec part hpart] at hordinal
    cases hordinal
  have hempty : block.isEmpty = false := by
    simp [Block.isEmpty, hspecs]
  simp [ListSection.take?, howns, hempty]

/-- No name of a block outside of lists has an ordinal in it. -/
theorem isOrdinal_eq_false_of_rendered
    (hpath : ListTemplate.listPath 0 (blockNames block) = .ok none)
    (hdistinct : ∀ name ∈ blockNames block, ListTemplate.Distinct name)
    (h : Rendered settings old block.text specs body) :
    ∀ spec ∈ specs, ∀ part ∈ Text.splitOn '.' spec.name, Name.isOrdinal part = false := by
  intro spec hspec
  have hmem : spec.name ∈ blockNames block := by
    rw [blockNames, ← h.names_eq]
    exact List.mem_map_of_mem hspec
  exact (hdistinct spec.name hmem).ordinals
    (ListTemplate.not_mem_parts_of_listPath hpath spec.name hmem)

/-- What a section that may be open and the segments of a template after it are rendered as. This
is the rendering that revision has still to do at a point of the document. -/
def Renders (settings : Settings) (values : Record) (current : Option ListSection)
    (segments : List Segment) (out : Text) : Prop :=
  ∃ closed texts, closeSection settings values current = .ok closed ∧
    segments.mapM (renderSegment settings values) = .ok texts ∧ out = closed ++ texts.flatten

theorem renders_none_iff :
    Renders settings values none segments out ↔
      ∃ texts, segments.mapM (renderSegment settings values) = .ok texts ∧
        out = texts.flatten := by
  constructor
  · rintro ⟨closed, texts, hclosed, htexts, rfl⟩
    cases hclosed
    exact ⟨texts, htexts, rfl⟩
  · rintro ⟨texts, htexts, rfl⟩
    exact ⟨[], texts, rfl, htexts, rfl⟩

theorem renders_nil_iff :
    Renders settings values current [] out ↔
      closeSection settings values current = .ok out := by
  constructor
  · rintro ⟨closed, texts, hclosed, htexts, rfl⟩
    rw [List.mapM_nil] at htexts
    cases htexts
    rw [hclosed, List.flatten_nil, List.append_nil]
  · intro hclosed
    exact ⟨out, [], hclosed, rfl, by simp⟩

/-- The first segment ends the section and is rendered by itself. -/
theorem renders_cons_iff :
    Renders settings values current (segment :: segments) out ↔
      ∃ closed first later, closeSection settings values current = .ok closed ∧
        renderSegment settings values segment = .ok first ∧
        Renders settings values none segments later ∧ out = closed ++ first ++ later := by
  -- after the first segment no section is open, so what comes later renders by itself
  rw [Renders]
  simp only [renders_none_iff, mapM_eq_ok_iff, List.forall₂_cons_left_iff]
  constructor
  · rintro ⟨closed, _, hclosed, ⟨first, texts, hfirst, htexts, rfl⟩, rfl⟩
    exact ⟨closed, first, _, hclosed, hfirst, ⟨texts, htexts, rfl⟩, by simp⟩
  · rintro ⟨closed, first, _, hclosed, hfirst, ⟨texts, htexts, rfl⟩, rfl⟩
    exact ⟨closed, _, hclosed, ⟨first, texts, hfirst, htexts, rfl⟩, by simp⟩

/-- A blank block that an open section takes in is rendered behind the list. -/
theorem renders_withBlank_iff (hempty : block.isEmpty = true) (hheader : block.header = none)
    (hnames : blockNames block = []) :
    Renders settings values (some (list.withBlank block)) segments out ↔
      Renders settings values (some list) (.block block :: segments) out := by
  have hblock : renderSegment settings values (.block block) = .ok block.raw :=
    renderBlock_of_names_eq_nil hnames
  simp only [renders_cons_iff, renders_none_iff, hblock]
  unfold Renders
  simp only [closeSection_withBlank hempty hheader]
  constructor
  · rintro ⟨_, texts, ⟨closed, hclosed, rfl⟩, htexts, rfl⟩
    exact ⟨closed, block.raw, _, hclosed, rfl, ⟨texts, htexts, rfl⟩, rfl⟩
  · rintro ⟨closed, first, _, hclosed, hfirst, ⟨texts, htexts, rfl⟩, rfl⟩
    cases hfirst
    exact ⟨_, texts, ⟨closed, hclosed, rfl⟩, htexts, rfl⟩

section Segments

/- After what a segment became come the segments `more` of the document, which are revised as
`segments` of the template are rendered. -/
variable (hlater : ∀ current out, reviseFrom settings values (.ok ()) current more = .ok out ↔
  Renders settings values current segments out)

include hlater

/-- A copied block ends the section or is blank, and it is the same either way. -/
theorem reviseFrom_copied (hspecs : block.specs = []) (hheader : block.header = none)
    (hnames : blockNames block = []) :
    reviseFrom settings values (.ok ()) current (.block block :: more) = .ok out ↔
      Renders settings values current (.block block :: segments) out := by
  have hblock : reviseBlock settings values block = .ok block.raw :=
    reviseBlock_of_specs_eq_nil hspecs
  have hrender : renderSegment settings values (.block block) = .ok block.raw :=
    renderBlock_of_names_eq_nil hnames
  cases htake : current.bind fun list => list.take? block with
  | none =>
    rw [Option.bind_eq_none_iff] at htake
    rw [reviseFrom_block_eq_ok_iff htake, renders_cons_iff]
    simp only [hblock, hrender, hlater]
  | some taken =>
    -- it is no entry, so it was taken in because it is blank
    obtain ⟨list, rfl, htaken⟩ := Option.bind_eq_some_iff.1 htake
    have hempty : block.isEmpty = true := by
      by_contra hnot
      rw [take?_of_specs_eq_nil hspecs, if_neg hnot] at htaken
      cases htaken
    obtain rfl : list.withBlank block = taken := by
      rwa [take?_of_specs_eq_nil hspecs, if_pos hempty, Option.some.injEq] at htaken
    rw [reviseFrom_taken htaken, hlater, renders_withBlank_iff hempty hheader hnames]

/-- A block outside of lists ends the section, and its values give place to the new ones. -/
theorem reviseFrom_filled (hunset : settings.delimiter = .unset) (hnames : blockNames block ≠ [])
    (hpath : ListTemplate.listPath 0 (blockNames block) = .ok none)
    (hdistinct : ∀ name ∈ blockNames block, ListTemplate.Distinct name)
    (hvalues : ∀ name ∈ blockNames block, (values.scalarAt? name).isSome)
    (h : Rendered settings old block.text specs body) :
    reviseFrom settings values (.ok ()) current
        (.block (filled settings.comment specs body.text block.separator) :: more) = .ok out ↔
      Renders settings values current (.block block :: segments) out := by
  have hspecs := h.specs_ne_nil hnames
  have hordinals := isOrdinal_eq_false_of_rendered hpath hdistinct h
  have hblock {revised : Text} :
      reviseBlock settings values
          (filled settings.comment specs body.text block.separator) = .ok revised ↔
        renderSegment settings values (.block block) = .ok revised :=
    (reviseBlock_filled hunset hspecs h hvalues).trans
      (renderBlock_filled_eq_ok_iff hnames hpath).symm
  rw [reviseFrom_block_eq_ok_iff fun list _ => take?_eq_none_of_names hspecs hordinals,
    renders_cons_iff]
  simp only [hblock, hlater]

/-- A list template ends the section and opens its own, which takes in the entries; when it is
closed they are rendered anew. -/
theorem reviseFrom_list {path : Text} {entries : List (List FieldSpec × Body)}
    (hpath : ListTemplate.listPath 0 (blockNames block) = .ok (some path))
    (hdistinct : ∀ name ∈ blockNames block, ListTemplate.Distinct name)
    (h : EntriesRendered settings old block.text path entries) :
    reviseFrom settings values (.ok ()) current
        (.directive (.listTemplate block.text) (Directive.listLine settings.comment block.text) 0 ::
          (entrySegments settings.comment block.text block.separator entries ++ more)) = .ok out ↔
      Renders settings values current (.block block :: segments) out := by
  -- all the entries are taken in, so what the section holds at its end is the list template and
  -- its ending; closing it is rendering the block anew
  obtain ⟨last, htaken, htemplate, hlast, hending⟩ := taken_entrySegments settings.comment
    block.separator (ownsEntry_of_rendered hpath (fun name hname => (hdistinct name hname).parts) h)
  have hopen := openSection_of_listPath hpath
  have hclose {text : Text} : closeSection settings values (some last) = .ok text ↔
      ∃ entries, EntriesRendered settings values block.text path entries ∧
        text = (entrySegments settings.comment block.text block.separator entries).flatMap
          Segment.raw := by
    rw [closeSection, ListSection.rendered_eq_ok_iff, htemplate, hlast, hending]
    simp
  have hrender {text : Text} : renderSegment settings values (.block block) = .ok text ↔
      ∃ listed, closeSection settings values (some last) = .ok listed ∧
        text = Directive.listLine settings.comment block.text ++ listed := by
    simp only [hclose]
    rw [renderSegment, renderBlock_list_eq_ok_iff hpath]
    constructor
    · rintro ⟨entries, hentries, rfl⟩
      exact ⟨_, ⟨entries, hentries, rfl⟩, rfl⟩
    · rintro ⟨_, ⟨entries, hentries, rfl⟩, rfl⟩
      exact ⟨entries, hentries, rfl⟩
  -- Revision closes the section before the list at the directive, and that of the list only
  -- behind the entries; rendering writes the list at once. So the text of the list goes from the
  -- one side to the other.
  rw [reviseFrom_directive_eq_ok_iff, renders_cons_iff]
  simp only [hopen, hrender]
  constructor
  · rintro ⟨closed, opened, later, hclosed, hopened, hmore, rfl⟩
    cases hopened
    rw [reviseFrom_of_taken htaken, hlater] at hmore
    obtain ⟨listed, texts, hlisted, htexts, rfl⟩ := hmore
    exact ⟨closed, _, _, hclosed, ⟨listed, hlisted, rfl⟩,
      renders_none_iff.2 ⟨texts, htexts, rfl⟩, by simp⟩
  · rintro ⟨closed, _, later, hclosed, ⟨listed, hlisted, rfl⟩, hmore, rfl⟩
    obtain ⟨texts, htexts, rfl⟩ := renders_none_iff.1 hmore
    refine ⟨closed, _, listed ++ texts.flatten, hclosed, rfl, ?_, by simp⟩
    rw [reviseFrom_of_taken htaken, hlater]
    exact ⟨listed, texts, hlisted, htexts, rfl⟩

/-- **What a segment became is revised as the segment is rendered**, whatever section is open
before it. -/
theorem reviseFrom_expands (hunset : settings.delimiter = .unset)
    (hsound : segment.Sound settings.comment) (hrevisable : Revisable segment)
    (hresolves : Resolves values segment) {new : List Segment}
    (hnew : Expands settings old segment new) :
    reviseFrom settings values (.ok ()) current (new ++ more) = .ok out ↔
      Renders settings values current (segment :: segments) out := by
  cases hnew with
  | directive found raw line =>
    have hopen := openSection_of_isSetting hrevisable line
    have hraw : renderSegment settings values (.directive found raw line) = .ok raw := rfl
    rw [List.singleton_append, reviseFrom_directive_eq_ok_iff, renders_cons_iff]
    simp [hopen, hraw, hlater]
  | @copied block hnames =>
    have hheader : block.header = none := by
      by_contra hsome
      exact hrevisable.2.1 hsome hnames
    exact reviseFrom_copied hlater (Block.Formed.noHeader hsound.toFormed hheader) hheader hnames
  | filled hnames hpath hrendered =>
    exact reviseFrom_filled hlater hunset hnames hpath hrevisable.2.2
      (hresolves (ListTemplate.not_mem_parts_of_listPath hpath)) hrendered
  | list hpath hentries =>
    exact reviseFrom_list hlater hpath hrevisable.2.2 hentries

end Segments

/-- What a template became is revised as the template is rendered, one segment after another. -/
theorem reviseFrom_expanded (hunset : settings.delimiter = .unset)
    {expanded : List (List Segment)}
    (hsound : ∀ segment ∈ segments, segment.Sound settings.comment)
    (hrevisable : ∀ segment ∈ segments, Revisable segment)
    (hresolves : ∀ segment ∈ segments, Resolves values segment)
    (h : List.Forall₂ (Expands settings old) segments expanded) :
    reviseFrom settings values (.ok ()) current expanded.flatten = .ok out ↔
      Renders settings values current segments out := by
  induction h generalizing current out with
  | nil =>
    rw [List.flatten_nil, reviseFrom_nil_eq_ok_iff, renders_nil_iff]
    simp
  | @cons segment new segments expanded hnew _ ih =>
    obtain ⟨hsound, hsounds⟩ := List.forall_mem_cons.1 hsound
    obtain ⟨hrevisable, hrevisables⟩ := List.forall_mem_cons.1 hrevisable
    obtain ⟨hresolves, hresolveses⟩ := List.forall_mem_cons.1 hresolves
    rw [List.flatten_cons]
    exact reviseFrom_expands (fun _ _ => ih hsounds hrevisables hresolveses) hunset hsound
      hrevisable hresolves hnew

section Documents

variable {first : Record} {template document : Text} {scanned : Settings}

/-- **A rendered document is revised as its template is rendered**, whatever was rendered into
it before. -/
theorem revise_rendered (hrender : render settings old template = .ok document)
    (hscan : settings.scan template = .ok scanned) (hunset : scanned.delimiter = .unset)
    (hcomment : scanned.comment.Unbraced)
    (hrevisable : ∀ segment ∈ (Segmentation.ofText scanned.comment template).segments,
      Revisable segment)
    (hresolves : ∀ segment ∈ (Segmentation.ofText scanned.comment template).segments,
      Resolves values segment) :
    revise settings values document = .ok out ↔ render settings values template = .ok out := by
  obtain ⟨segments, expanded, hsegments, hexpands, rfl⟩ := expands_of_render hrender hscan
  rw [hsegments] at hrevisable hresolves
  obtain ⟨result, hresult, hmap, hscanned⟩ := ofText_of_expands hscan hsegments hexpands hcomment
    fun segment hsegment => (hrevisable segment hsegment).legible
  have hsound := (Segmentation.chain_of_ofText hsegments).1.sound
  -- the segments of the document are those that the template became, up to their numbers
  have hrevise : revise settings values (expanded.flatten.flatMap Segment.raw) = .ok out ↔
      Renders scanned values none segments out := by
    rw [revise_eq_ok_iff_of_ofText hscanned hresult hmap,
      reviseFrom_expanded hunset hsound hrevisable hresolves hexpands]
  have hrender : render settings values template =
      ((Segmentation.ofText scanned.comment template).segments.mapM
          (renderSegment scanned values) >>= fun texts =>
        (Segmentation.ofText scanned.comment template).complete >>= fun _ =>
          pure texts.flatten) := by
    rw [render, hscan]
    rfl
  rw [hrevise, renders_none_iff, hrender, hsegments]
  -- the template was cut to its end, so the rendering of its segments is all there is to do
  simp only [bind_eq_ok_iff, Segmentation.complete]
  constructor
  · rintro ⟨texts, htexts, rfl⟩
    exact ⟨texts, htexts, (), trivial, rfl⟩
  · rintro ⟨texts, htexts, _, -, h⟩
    cases h
    exact ⟨texts, htexts, rfl⟩

/-- The document after a revision, which leaves it as it was if it fails. A run of revisions is a
fold of it. -/
def revised (settings : Settings) (document : Text) (values : Record) : Text :=
  match revise settings values document with
  | .ok next => next
  | .error _ => document

/-- Along a run of revisions the document is always one that is rendered from the template. By
induction on the run: a revision that succeeds is a rendering, and one that fails changes nothing.
-/
theorem render_foldl_revised {run : List Record}
    (hrender : render settings first template = .ok document)
    (hscan : settings.scan template = .ok scanned) (hunset : scanned.delimiter = .unset)
    (hcomment : scanned.comment.Unbraced)
    (hrevisable : ∀ segment ∈ (Segmentation.ofText scanned.comment template).segments,
      Revisable segment)
    (hresolves : ∀ values ∈ run,
      ∀ segment ∈ (Segmentation.ofText scanned.comment template).segments,
        Resolves values segment) :
    ∃ last, render settings last template = .ok (run.foldl (revised settings) document) := by
  -- what the document was rendered from changes with each revision, hence the generalization; a
  -- revision that fails leaves both as they were
  induction run generalizing first document with
  | nil => exact ⟨first, hrender⟩
  | cons values run ih =>
    obtain ⟨hvalues, hlater⟩ := List.forall_mem_cons.1 hresolves
    rw [List.foldl_cons]
    cases hrevise : revise settings values document with
    | error e =>
      rw [revised, hrevise]
      exact ih hrender hlater
    | ok next =>
      rw [revised, hrevise]
      exact ih ((revise_rendered hrender hscan hunset hcomment hrevisable hvalues).1 hrevise)
        hlater

/-- **Along every run of revisions, revision is rendering.** Whatever was rendered first and
whatever was put in since, the next revision gives what the template is rendered as, and fails
when the template cannot be rendered. Without a configured delimiter a placeholder has the same
spec for all data, so the headers that are there are those that rendering would write. -/
theorem revise_foldl_revised {run : List Record}
    (hrender : render settings first template = .ok document)
    (hscan : settings.scan template = .ok scanned) (hunset : scanned.delimiter = .unset)
    (hcomment : scanned.comment.Unbraced)
    (hrevisable : ∀ segment ∈ (Segmentation.ofText scanned.comment template).segments,
      Revisable segment)
    (hresolves : ∀ values ∈ run,
      ∀ segment ∈ (Segmentation.ofText scanned.comment template).segments,
        Resolves values segment) :
    ∀ before values after, run = before ++ values :: after → ∀ next,
      revise settings values (before.foldl (revised settings) document) = .ok next ↔
        render settings values template = .ok next := by
  rintro before values after rfl next
  obtain ⟨hbefore, hvalues, -⟩ : (∀ values ∈ before, _) ∧ _ ∧ _ := by
    rw [List.forall_mem_append, List.forall_mem_cons] at hresolves
    exact hresolves
  obtain ⟨last, hlast⟩ :=
    render_foldl_revised hrender hscan hunset hcomment hrevisable hbefore
  exact revise_rendered hlast hscan hunset hcomment hrevisable hvalues

/-- A list that became empty is filled again, before the blank line that ended it and the one
that follows. -/
theorem revise_emptied_list :
    render .standard
        [("l".toList, .record [("0".toList, .scalar (.text "milk".toList))]),
          ("n".toList, .scalar (.text "I".toList))]
        "* \x7b\x7bl.*\x7d\x7d\n\n\n\x7b\x7bn\x7d\x7d.\n".toList =
      .ok ("<!--\x7b@list-template=\"* \x7b\x7bl.*\x7d\x7d\\n\"\x7d\x7d-->\n".toList ++
        "<!--\x7b\x7bl.0:pattern=\"* %s\"\x7d\x7d-->\n* milk\n\n\n".toList ++
        "<!--\x7b\x7bn:pattern=\"%s.\"\x7d\x7d-->\nI.\n".toList) ∧
    revised .standard
        ("<!--\x7b@list-template=\"* \x7b\x7bl.*\x7d\x7d\\n\"\x7d\x7d-->\n".toList ++
          "<!--\x7b\x7bl.0:pattern=\"* %s\"\x7d\x7d-->\n* milk\n\n\n".toList ++
          "<!--\x7b\x7bn:pattern=\"%s.\"\x7d\x7d-->\nI.\n".toList)
        [("n".toList, .scalar (.text "You".toList))] =
      "<!--\x7b@list-template=\"* \x7b\x7bl.*\x7d\x7d\\n\"\x7d\x7d-->\n\n\n".toList ++
        "<!--\x7b\x7bn:pattern=\"%s.\"\x7d\x7d-->\nYou.\n".toList ∧
    revise .standard
        [("l".toList, .record [("4".toList, .scalar (.text "tea".toList))]),
          ("n".toList, .scalar (.text "We".toList))]
        ([[("n".toList, .scalar (.text "You".toList))]].foldl (revised .standard)
          ("<!--\x7b@list-template=\"* \x7b\x7bl.*\x7d\x7d\\n\"\x7d\x7d-->\n".toList ++
            "<!--\x7b\x7bl.0:pattern=\"* %s\"\x7d\x7d-->\n* milk\n\n\n".toList ++
            "<!--\x7b\x7bn:pattern=\"%s.\"\x7d\x7d-->\nI.\n".toList)) =
      .ok ("<!--\x7b@list-template=\"* \x7b\x7bl.*\x7d\x7d\\n\"\x7d\x7d-->\n".toList ++
        "<!--\x7b\x7bl.4:pattern=\"* %s\"\x7d\x7d-->\n* tea\n\n\n".toList ++
        "<!--\x7b\x7bn:pattern=\"%s.\"\x7d\x7d-->\nWe.\n".toList) := by
  have hscan : Settings.standard.scan
      "* \x7b\x7bl.*\x7d\x7d\n\n\n\x7b\x7bn\x7d\x7d.\n".toList = .ok .standard := by
    decide +kernel
  refine (fun hrender hempty => ⟨hrender, hempty,
    (revise_foldl_revised hrender hscan rfl Comment.unbraced_standard (by decide +kernel)
      (by decide +kernel) [[("n".toList, .scalar (.text "You".toList))]] _ [] rfl _).2 ?_⟩)
    ?_ ?_
  · decide +kernel
  · decide +kernel
  · decide +kernel

end Documents

end Document

end FieldedText
