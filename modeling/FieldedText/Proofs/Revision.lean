/-
FieldedText/Proofs/Revision.lean

How a document is revised, segment by segment.

Revision goes through the segments with a section that may be open.  A block is
taken into the section if it belongs there; anything else ends the section and
is revised by itself (`reviseFrom_taken`, `reviseFrom_block_eq_ok_iff`,
`reviseFrom_directive_eq_ok_iff`).  The numbers of lines that blocks and sections
carry are told in complaints and decide nothing (`reviseFrom_unnumbered`), so what
is proved for some segments holds for every document that is cut into them.
-/
import FieldedText.Document.Revision
import FieldedText.Proofs.Rendered

namespace FieldedText

variable {settings : Settings} {values : Record} {failure : Except Error Unit}
  {current : Option ListSection} {list next : ListSection} {segments : List Segment}
  {block : Block} {out : Text}

/-- A directive that is no list template. It changes the settings, and says nothing about the
blocks that follow it. -/
def Directive.IsSetting : Directive → Prop
  | .listTemplate _ => False
  | _ => True

instance : (found : Directive) → Decidable found.IsSetting
  | .listTemplate _ => isFalse id
  | .comment _ | .delimiterStart _ | .delimiterStop _ | .delimiterPair _ => isTrue trivial

/-! ### One segment -/

namespace Document

/-- A setting opens no section. -/
theorem openSection_of_isSetting {found : Directive} (h : found.IsSetting) (line : Nat) :
    openSection found line = .ok none := by
  cases found with
  | listTemplate template => exact h.elim
  | _ => rfl

theorem reviseFrom_nil_eq_ok_iff :
    reviseFrom settings values failure current [] = .ok out ↔
      failure = .ok () ∧ closeSection settings values current = .ok out := by
  simp only [reviseFrom, bind_eq_ok_iff]
  constructor
  · rintro ⟨_, hfailure, hclosed⟩
    exact ⟨hfailure, hclosed⟩
  · rintro ⟨hfailure, hclosed⟩
    exact ⟨(), hfailure, hclosed⟩

/-- A directive ends the section that is open, and may open the next one. -/
theorem reviseFrom_directive_eq_ok_iff {found : Directive} {raw : Text} {line : Nat} :
    reviseFrom settings values failure current (.directive found raw line :: segments) =
        .ok out ↔
      ∃ closed opened later, closeSection settings values current = .ok closed ∧
        openSection found line = .ok opened ∧
        reviseFrom settings values failure opened segments = .ok later ∧
        out = closed ++ raw ++ later := by
  simp only [reviseFrom, bind_eq_ok_iff]
  constructor
  · rintro ⟨closed, hclosed, opened, hopened, later, hlater, h⟩
    cases h
    exact ⟨closed, opened, later, hclosed, hopened, hlater, rfl⟩
  · rintro ⟨closed, opened, later, hclosed, hopened, hlater, rfl⟩
    exact ⟨closed, hclosed, opened, hopened, later, hlater, rfl⟩

/-- A block that belongs to the open section is taken into it. -/
theorem reviseFrom_taken (h : list.take? block = some next) :
    reviseFrom settings values failure (some list) (.block block :: segments) =
      reviseFrom settings values failure (some next) segments := by
  rw [reviseFrom, Option.bind_some, h]

/-- A block that belongs to no open section ends it, and is revised by itself. -/
theorem reviseFrom_block_eq_ok_iff (h : ∀ list ∈ current, list.take? block = none) :
    reviseFrom settings values failure current (.block block :: segments) = .ok out ↔
      ∃ closed revised later, closeSection settings values current = .ok closed ∧
        reviseBlock settings values block = .ok revised ∧
        reviseFrom settings values failure none segments = .ok later ∧
        out = closed ++ revised ++ later := by
  have hnone : (current.bind fun list => list.take? block) = none := by
    rw [Option.bind_eq_none_iff]
    exact h
  simp only [reviseFrom, hnone, bind_eq_ok_iff]
  constructor
  · rintro ⟨closed, hclosed, revised, hrevised, later, hlater, h⟩
    cases h
    exact ⟨closed, revised, later, hclosed, hrevised, hlater, rfl⟩
  · rintro ⟨closed, revised, later, hclosed, hrevised, hlater, rfl⟩
    exact ⟨closed, hclosed, revised, hrevised, later, hlater, rfl⟩

theorem reviseBlock_of_specs_eq_nil (h : block.specs = []) :
    reviseBlock settings values block = .ok block.raw := by
  rw [reviseBlock, if_pos h]

/-- A block with specs is revised when what its values are replaced by can be verified. -/
theorem reviseBlock_eq_ok_iff (h : block.specs ≠ []) :
    reviseBlock settings values block = .ok out ↔
      ∃ specs, ((Body.locate [] block.specs block.text).fill (revisedValue values)).verify
          settings.comment 0 = .ok specs ∧
        out = block.headerText ++
          ((Body.locate [] block.specs block.text).fill (revisedValue values)).text ++
          block.separator := by
  rw [reviseBlock, if_neg h, bind_eq_ok_iff]
  constructor
  · rintro ⟨specs, hverify, h⟩
    cases h
    exact ⟨specs, Body.verify_ok_of_ok hverify, rfl⟩
  · rintro ⟨specs, hverify, rfl⟩
    exact ⟨specs, Body.verify_ok_of_ok hverify, rfl⟩

end Document

/-! ### Numbers of lines -/

namespace ListSection

/-- The section with no numbers of lines. Those of its blank blocks are left out too, since they
were numbered with the document. -/
def unnumbered (list : ListSection) : ListSection :=
  { list with line := 0, blanks := list.blanks.map Block.unnumbered }

theorem take?_unnumbered :
    list.unnumbered.take? block.unnumbered = (list.take? block).map unnumbered := by
  have howns : list.unnumbered.owns block.unnumbered = list.owns block := rfl
  have hempty : block.unnumbered.isEmpty = block.isEmpty := rfl
  unfold take?
  rw [howns, hempty]
  split
  · rfl
  · split
    · simp [withBlank, unnumbered]
    · rfl

/-- What is rendered anew depends on numbers of lines in complaints only. -/
theorem rendered_eq_ok_iff :
    list.rendered settings values = .ok out ↔
      ∃ entries, Document.EntriesRendered settings values list.template list.path entries ∧
        out = (Document.entrySegments settings.comment list.template list.ending.1
          entries).flatMap Segment.raw ++ list.ending.2.flatMap Block.raw := by
  simp only [rendered, bind_eq_ok_iff, Document.renderList_eq_ok_iff]
  constructor
  · rintro ⟨_, ⟨entries, hentries, rfl⟩, h⟩
    cases h
    exact ⟨entries, hentries, rfl⟩
  · rintro ⟨entries, hentries, rfl⟩
    exact ⟨_, ⟨entries, hentries, rfl⟩, rfl⟩

theorem rendered_unnumbered :
    list.unnumbered.rendered settings values = .ok out ↔
      list.rendered settings values = .ok out := by
  have hblanks (blocks : List Block) :
      (blocks.map Block.unnumbered).flatMap Block.raw = blocks.flatMap Block.raw :=
    List.flatMap_map ..
  have hending : list.unnumbered.ending.1 = list.ending.1 ∧
      list.unnumbered.ending.2.flatMap Block.raw = list.ending.2.flatMap Block.raw := by
    -- the blank blocks are the only thing with numbers that the ending is made of
    obtain ⟨template, path, line, separator, blanks⟩ := list
    cases separator with
    | some separator => exact ⟨rfl, hblanks blanks⟩
    | none =>
      cases blanks with
      | nil => exact ⟨rfl, rfl⟩
      | cons first blanks => exact ⟨rfl, hblanks blanks⟩
  rw [rendered_eq_ok_iff, rendered_eq_ok_iff, hending.1, hending.2]
  rfl

end ListSection

namespace Document

theorem closeSection_unnumbered :
    closeSection settings values (current.map ListSection.unnumbered) = .ok out ↔
      closeSection settings values current = .ok out := by
  cases current with
  | none => exact Iff.rfl
  | some list => exact ListSection.rendered_unnumbered

theorem openSection_listTemplate_eq_ok_iff {template : Text} {line : Nat}
    {opened : Option ListSection} :
    openSection (.listTemplate template) line = .ok opened ↔
      ∃ path, ListTemplate.listPath 0 (Template.ofText template).names = .ok path ∧
        opened = path.map fun path => ⟨template, path, line, none, []⟩ := by
  simp only [openSection, ListSection.ofTemplate, bind_eq_ok_iff]
  constructor
  · rintro ⟨path, hpath, h⟩
    cases h
    exact ⟨path, ListTemplate.listPath_ok_of_ok hpath, rfl⟩
  · rintro ⟨path, hpath, rfl⟩
    exact ⟨path, ListTemplate.listPath_ok_of_ok hpath, rfl⟩

/-- A list template opens the section of its list, with nothing in it. -/
theorem openSection_of_listPath {template path : Text}
    (h : ListTemplate.listPath 0 (Template.ofText template).names = .ok (some path)) :
    openSection (.listTemplate template) 0 = .ok (some ⟨template, path, 0, none, []⟩) :=
  openSection_listTemplate_eq_ok_iff.2 ⟨some path, h, rfl⟩

/-- A section is opened on any line in the same way. -/
theorem openSection_unnumbered {found : Directive} {line : Nat} {opened : Option ListSection} :
    openSection found 0 = .ok opened ↔
      ∃ numbered, openSection found line = .ok numbered ∧
        opened = numbered.map ListSection.unnumbered := by
  cases found with
  | listTemplate template =>
    simp only [openSection_listTemplate_eq_ok_iff]
    constructor
    · rintro ⟨path, hpath, rfl⟩
      exact ⟨_, ⟨path, hpath, rfl⟩, by cases path <;> rfl⟩
    · rintro ⟨_, ⟨path, hpath, rfl⟩, rfl⟩
      exact ⟨path, hpath, by cases path <;> rfl⟩
  | _ =>
    constructor
    · intro h
      cases h
      exact ⟨none, rfl, rfl⟩
    · rintro ⟨_, h, rfl⟩
      cases h
      rfl

theorem reviseBlock_unnumbered :
    reviseBlock settings values block.unnumbered = .ok out ↔
      reviseBlock settings values block = .ok out := by
  by_cases hspecs : block.specs = []
  · have hunnumbered : block.unnumbered.specs = [] := hspecs
    rw [reviseBlock_of_specs_eq_nil hspecs, reviseBlock_of_specs_eq_nil hunnumbered]
    rfl
  · have hunnumbered : block.unnumbered.specs ≠ [] := hspecs
    rw [reviseBlock_eq_ok_iff hspecs, reviseBlock_eq_ok_iff hunnumbered]
    rfl

/-- **Revision depends on the numbers of lines in complaints only.** So documents that are cut
into the same segments, wherever these stand, are revised in the same way. -/
theorem reviseFrom_unnumbered :
    reviseFrom settings values failure (current.map ListSection.unnumbered)
        (segments.map Segment.unnumbered) = .ok out ↔
      reviseFrom settings values failure current segments = .ok out := by
  -- the open section changes from segment to segment, so it is general in the induction
  induction segments generalizing current out with
  | nil =>
    rw [List.map_nil, reviseFrom_nil_eq_ok_iff, reviseFrom_nil_eq_ok_iff,
      closeSection_unnumbered]
  | cons segment segments ih =>
    rw [List.map_cons]
    cases segment with
    | directive found raw line =>
      simp only [Segment.unnumbered, reviseFrom_directive_eq_ok_iff, closeSection_unnumbered]
      constructor
      · rintro ⟨closed, _, later, hclosed, hopened, hlater, rfl⟩
        obtain ⟨opened, hopened, rfl⟩ := openSection_unnumbered.1 hopened
        exact ⟨closed, opened, later, hclosed, hopened, ih.1 hlater, rfl⟩
      · rintro ⟨closed, opened, later, hclosed, hopened, hlater, rfl⟩
        exact ⟨closed, _, later, hclosed, openSection_unnumbered.2 ⟨opened, hopened, rfl⟩,
          ih.2 hlater, rfl⟩
    | block b =>
      cases htake : current.bind fun list => list.take? b with
      | some taken =>
        obtain ⟨list, rfl, htaken⟩ := Option.bind_eq_some_iff.1 htake
        -- whether a section takes a block in does not depend on numbers, so both sides go the same
        -- way
        have hunnumbered : list.unnumbered.take? b.unnumbered = some taken.unnumbered := by
          rw [ListSection.take?_unnumbered, htaken, Option.map_some]
        rw [reviseFrom_taken htaken, Option.map_some, Segment.unnumbered,
          reviseFrom_taken hunnumbered, ← Option.map_some]
        exact ih
      | none =>
        rw [Option.bind_eq_none_iff] at htake
        have hunnumbered : ∀ list ∈ current.map ListSection.unnumbered,
            list.take? b.unnumbered = none := by
          intro list hlist
          obtain ⟨numbered, hnumbered, rfl⟩ := Option.map_eq_some_iff.1 hlist
          rw [ListSection.take?_unnumbered, htake numbered hnumbered, Option.map_none]
        rw [Segment.unnumbered, reviseFrom_block_eq_ok_iff htake,
          reviseFrom_block_eq_ok_iff hunnumbered]
        simp only [closeSection_unnumbered, reviseBlock_unnumbered]
        have hlater {later : Text} :
            reviseFrom settings values failure none (segments.map Segment.unnumbered) =
                .ok later ↔
              reviseFrom settings values failure none segments = .ok later := by
          rw [← ih, Option.map_none]
        simp only [hlater]

/-- Documents that are cut into the same segments are revised in the same way. -/
theorem reviseFrom_eq_ok_iff_of_unnumbered {others : List Segment}
    (h : segments.map Segment.unnumbered = others.map Segment.unnumbered) :
    reviseFrom settings values failure current segments = .ok out ↔
      reviseFrom settings values failure current others = .ok out := by
  rw [← reviseFrom_unnumbered, h, reviseFrom_unnumbered]

theorem revise_eq_ok_iff {document : Text} :
    revise settings values document = .ok out ↔
      ∃ scanned, settings.scan document = .ok scanned ∧
        reviseFrom scanned values (Segmentation.ofText scanned.comment document).complete none
          (Segmentation.ofText scanned.comment document).segments = .ok out := by
  simp only [revise, bind_eq_ok_iff]

/-- **A document is revised as the segments are that it is cut into**, up to their numbers. -/
theorem revise_eq_ok_iff_of_ofText {scanned : Settings} {document : Text} {result : List Segment}
    (hscan : settings.scan document = .ok scanned)
    (hresult : Segmentation.ofText scanned.comment document = ⟨result, none⟩)
    (hmap : result.map Segment.unnumbered = segments.map Segment.unnumbered) :
    revise settings values document = .ok out ↔
      reviseFrom scanned values (.ok ()) none segments = .ok out := by
  rw [revise_eq_ok_iff]
  simp only [hscan, hresult, Except.ok.injEq, exists_eq_left', Segmentation.complete]
  exact reviseFrom_eq_ok_iff_of_unnumbered hmap

end Document

end FieldedText
