/-
FieldedText/Proofs/Renewal.lean

Revision of a rendered document with the data that it was rendered from.

Revision goes through the segments of a document and writes a text as it goes; what
it has yet to write is the text of the section that is open (`Runs`).  What it has
written and what it has yet to write is the document up to there, for each segment
that the template became (`renews_expands`): a block is revised to itself, and a list is
rendered to what it was.

There is one exception.  Revision tells the entries of a list by their names alone.
A block outside of the list, but right behind it, that has a name like one of the
list's is taken for an entry, and all of it is dropped but for the blank line at its
end.  So the document stays as it is exactly when the template has no such block
(`revise_rendered_self_iff`), and else it gets shorter.
-/
import FieldedText.Proofs.Reading
import FieldedText.Proofs.Regeneration
import FieldedText.Proofs.Unchanged

namespace FieldedText.Document

variable {settings scanned : Settings} {values : Record} {template document : Text}
  {current next last : Option ListSection} {list : ListSection} {block : Block}
  {segment : Segment} {segments others : List Segment} {text out closed written : Text}
  {specs : List FieldSpec} {body : Body}

/-! ### Runs -/

/-- Revision goes through some segments from one section to another, and writes a text. It is said
for any segments that follow, so that runs can be put together. -/
def Runs (settings : Settings) (values : Record) (current : Option ListSection)
    (segments : List Segment) (next : Option ListSection) (written : Text) : Prop :=
  ∀ (failure : Except Error Unit) (more : List Segment) (out : Text),
    reviseFrom settings values failure current (segments ++ more) = .ok out ↔
      ∃ later, reviseFrom settings values failure next more = .ok later ∧ out = written ++ later

theorem runs_nil : Runs settings values current [] current [] := by
  intro failure more out
  simp

theorem Runs.append {later : Text} (h : Runs settings values current segments next written)
    (ho : Runs settings values next others last later) :
    Runs settings values current (segments ++ others) last (written ++ later) := by
  intro failure more out
  rw [List.append_assoc, h failure (others ++ more) out]
  constructor
  · rintro ⟨_, hothers, rfl⟩
    obtain ⟨rest, hrest, rfl⟩ := (ho failure more _).1 hothers
    exact ⟨rest, hrest, (List.append_assoc ..).symm⟩
  · rintro ⟨rest, hrest, rfl⟩
    exact ⟨later ++ rest, (ho failure more _).2 ⟨rest, hrest, rfl⟩, List.append_assoc ..⟩

/-- At the end the section that is open is written. -/
theorem Runs.reviseFrom_eq {rest : Text}
    (h : Runs settings values current segments next written)
    (hrest : closeSection settings values next = .ok rest) :
    reviseFrom settings values (.ok ()) current segments = .ok (written ++ rest) := by
  rw [← List.append_nil segments, h]
  exact ⟨rest, reviseFrom_nil_eq_ok_iff.2 ⟨rfl, hrest⟩, rfl⟩

/-- Blocks that a section takes in write nothing. -/
theorem runs_taken {taken : ListSection} (h : Taken list segments taken) :
    Runs settings values (some list) segments (some taken) [] := by
  intro failure more out
  rw [reviseFrom_of_taken h]
  simp

/-- A directive writes the section that it ends and its own line. -/
theorem runs_directive {found : Directive} {raw : Text} {line : Nat}
    (hclosed : closeSection settings values current = .ok closed)
    (hopened : openSection found line = .ok next) :
    Runs settings values current [.directive found raw line] next (closed ++ raw) := by
  intro failure more out
  rw [List.singleton_append, reviseFrom_directive_eq_ok_iff]
  simp [hclosed, hopened]

/-- A block that is not taken in writes the section that it ends and what it is revised to. -/
theorem runs_block {revised : Text} (hclosed : closeSection settings values current = .ok closed)
    (htake : ∀ list ∈ current, list.take? block = none)
    (hrevised : reviseBlock settings values block = .ok revised) :
    Runs settings values current [.block block] none (closed ++ revised) := by
  intro failure more out
  rw [List.singleton_append, reviseFrom_block_eq_ok_iff htake]
  simp [hclosed, hrevised]

/-! ### Which blocks are taken for entries -/

/-- Whether a name is one of an entry of the list at a path. -/
def ownedAt (path : Text) (name : Name) : Bool :=
  ListSection.ownsField ⟨[], path, 0, none, []⟩ name

theorem owns_eq_any (list : ListSection) (block : Block) :
    list.owns block = block.specs.any fun spec => ownedAt list.path spec.name := rfl

/-- The path of the list that is open behind a segment of a template, with a list open before it
or not. Only the template is asked: the sections of the rendered document are open in the same
places, as long as no block is taken for an entry. -/
def openAfter (open? : Option Text) : Segment → Option Text
  | .directive _ _ _ => none
  | .block block =>
    match blockNames block with
    | [] => if block.isEmpty then open? else none
    | names =>
      match ListTemplate.listPath 0 names with
      | .ok path => path
      | .error _ => none

/-- A segment of a template that is not taken for an entry of the list that is open before it. -/
abbrev Clear (open? : Option Text) : Segment → Prop :=
  Segment.Satisfies (fun _ => True) fun block =>
    ListTemplate.listPath 0 (blockNames block) = .ok none →
      ∀ path ∈ open?, ∀ name ∈ blockNames block, ownedAt path name = false

/-- No segment is taken for an entry of the list that is open before it. -/
def AllClear : Option Text → List Segment → Prop
  | _, [] => True
  | open?, segment :: segments => Clear open? segment ∧ AllClear (openAfter open? segment) segments

instance decidableAllClear : (open? : Option Text) → (segments : List Segment) →
    Decidable (AllClear open? segments)
  | _, [] => inferInstanceAs (Decidable True)
  | open?, segment :: segments =>
    haveI := decidableAllClear (openAfter open? segment) segments
    inferInstanceAs (Decidable (Clear open? segment ∧ AllClear (openAfter open? segment) segments))

theorem openAfter_of_names_eq_nil (h : blockNames block = []) (open? : Option Text) :
    openAfter open? (.block block) = if block.isEmpty then open? else none := by
  rw [openAfter, h]

theorem openAfter_of_listPath {path : Option Text} (hnames : blockNames block ≠ [])
    (hpath : ListTemplate.listPath 0 (blockNames block) = .ok path) (open? : Option Text) :
    openAfter open? (.block block) = path := by
  rw [openAfter]
  split
  · rename_i hnil
    exact absurd hnil hnames
  · rw [hpath]

/-! ### Rendered blocks -/

/-- A segment of a template that can be revised once it is rendered: the list templates are those
that rendering makes, no header is without placeholders under it, and no name in it has an empty
part. -/
abbrev Renewable : Segment → Prop :=
  Segment.Satisfies Directive.IsSetting fun block => (Template.ofText block.text).Legible ∧
    (block.header ≠ none → blockNames block ≠ []) ∧
    ∀ name ∈ blockNames block, ∀ part ∈ Text.splitOn '.' name, part ≠ []

theorem Renewable.legible (h : Renewable segment) : LegibleSegment segment :=
  h.imp (fun _ _ => trivial) fun _ hblock => hblock.1

/-- **A block in which the values are found that were rendered has the values of the data.** -/
theorem current_of_locate {tail : Text} (h : Rendered settings values text specs body)
    (hvalues : ∀ name ∈ (Template.ofText text).names, (values.scalarAt? name).isSome)
    (hlocate : Body.locate [] block.specs block.text = ⟨Body.framed body.slots specs, tail⟩) :
    Current values (.block block) := by
  intro slot hslot
  rw [hlocate] at hslot
  have hpair : (slot.name, slot.value) ∈ body.slots.map fun slot => (slot.name, slot.value) := by
    rw [← map_framed (Body.chosen_of_specsFrom h.specsFrom)]
    exact List.mem_map_of_mem hslot
  rw [h.slots_eq, List.map_map] at hpair
  obtain ⟨around, haround, heq⟩ := List.mem_map.1 hpair
  obtain ⟨hname, hvalue⟩ := Prod.mk.inj heq
  have hmem : around.placeholder.name ∈ (Template.ofText text).names := by
    rw [Template.names, ← Template.map_name_surroundingsFrom (Template.ofText text).tail []]
    exact List.mem_map_of_mem haround
  rw [← hname, ← hvalue]
  exact (revisedValue_eq settings (hvalues _ hmem)).symm

theorem reviseBlock_filled_self (h : Rendered settings values block.text specs body)
    (hsound : (filled settings.comment specs body.text block.separator).Sound settings.comment)
    (hvalues : ∀ name ∈ blockNames block, (values.scalarAt? name).isSome) :
    reviseBlock settings values (filled settings.comment specs body.text block.separator) =
      .ok (filled settings.comment specs body.text block.separator).raw :=
  (reviseBlock_eq_raw_iff hsound).2
    (current_of_locate h hvalues (Body.locate_of_specs h.specsFrom))

/-! ### Segments -/

/-- All of a text under a condition, and less of it otherwise. So the condition can be told from
the text: the two cases exclude each other, and no later text makes up for a loss. -/
def AllOrLess (condition : Prop) (whole part : Text) : Prop :=
  condition ∧ part = whole ∨ ¬ condition ∧ part.length < whole.length

theorem AllOrLess.length_le {condition : Prop} {whole part : Text}
    (h : AllOrLess condition whole part) : part.length ≤ whole.length := by
  obtain ⟨-, rfl⟩ | ⟨-, hlt⟩ := h
  · exact Nat.le_refl _
  · exact Nat.le_of_lt hlt

/-- What is left to write may be more of the text, all of it or less. -/
theorem AllOrLess.append {first second : Prop} {whole rest more part : Text}
    (h : AllOrLess first whole (written ++ rest)) (ho : AllOrLess second (rest ++ more) part) :
    AllOrLess (first ∧ second) (whole ++ more) (written ++ part) := by
  have hle := ho.length_le
  obtain ⟨hfirst, rfl⟩ | ⟨hfirst, hlt⟩ := h
  · obtain ⟨hsecond, rfl⟩ | ⟨hsecond, hlt⟩ := ho
    · exact .inl ⟨⟨hfirst, hsecond⟩, (List.append_assoc ..).symm⟩
    · refine .inr ⟨fun hboth => hsecond hboth.2, ?_⟩
      simp only [List.length_append] at hlt ⊢
      omega
  · refine .inr ⟨fun hboth => hfirst hboth.1, ?_⟩
    simp only [List.length_append] at hlt hle ⊢
    omega

/-- What revision has written after a segment, and has yet to write, is the document up to there,
unless the segment was taken for an entry. `path` is what carries the condition on from one
segment to the next. -/
structure Renews (settings : Settings) (values : Record) (segment : Segment) (new : List Segment)
    (current : Option ListSection) (closed : Text) (next : Option ListSection)
    (written rest : Text) : Prop where
  runs : Runs settings values current new next written
  closes : closeSection settings values next = .ok rest
  path : Clear (current.map ListSection.path) segment →
    next.map ListSection.path = openAfter (current.map ListSection.path) segment
  whole : AllOrLess (Clear (current.map ListSection.path) segment)
    (closed ++ new.flatMap Segment.raw) (written ++ rest)

/-- A block of a template is clear of the list that does not own what the block becomes. -/
theorem clear_iff (hpath : ListTemplate.listPath 0 (blockNames block) = .ok none)
    (h : Rendered settings values block.text specs body) :
    Clear (current.map ListSection.path) (.block block) ↔ ∀ list ∈ current,
      list.owns (filled settings.comment specs body.text block.separator) = false := by
  have hany (path : Text) : (specs.any fun spec => ownedAt path spec.name) =
      (blockNames block).any (ownedAt path) := by
    rw [blockNames, ← h.names_eq, List.any_map]
    rfl
  have howns (list : ListSection) :
      list.owns (filled settings.comment specs body.text block.separator) = false ↔
        ∀ name ∈ blockNames block, ownedAt list.path name = false := by
    have heq : list.owns (filled settings.comment specs body.text block.separator) =
        (blockNames block).any (ownedAt list.path) := by
      rw [owns_eq_any]
      exact hany list.path
    simp [heq]
  constructor
  · exact fun hclear list hlist =>
      (howns list).2 (hclear hpath list.path (Option.mem_map_of_mem _ hlist))
  · rintro hnot - path hmem
    obtain ⟨list, hlist, rfl⟩ := Option.map_eq_some_iff.1 hmem
    exact (howns list).1 (hnot list hlist)

section Segments

variable (hclosed : closeSection settings values current = .ok closed)

include hclosed

theorem renews_setting {found : Directive} {raw : Text} {line : Nat} (h : found.IsSetting) :
    Renews settings values (.directive found raw line) [.directive found raw line] current closed
      none (closed ++ raw) [] :=
  ⟨runs_directive hclosed (openSection_of_isSetting h line), rfl, fun _ => rfl,
    .inl ⟨trivial, by simp [Segment.raw]⟩⟩

/-- A block without placeholders stays, behind the list if it is blank. -/
theorem renews_copied (hspecs : block.specs = []) (hheader : block.header = none)
    (hnames : blockNames block = []) :
    ∃ next written rest,
      Renews settings values (.block block) [.block block] current closed next written rest := by
  have hclear (open? : Option Text) : Clear open? (.block block) := by
    intro _ _ _ name hname
    rw [hnames] at hname
    cases hname
  -- a blank block behind an open list is taken into the section; any other one closes it and is
  -- written as it is
  by_cases hempty : ∃ list, current = some list ∧ block.isEmpty = true
  · obtain ⟨list, rfl, hempty⟩ := hempty
    have htake : list.take? block = some (list.withBlank block) := by
      rw [take?_of_specs_eq_nil hspecs, if_pos hempty]
    refine ⟨some (list.withBlank block), [], _, runs_taken (.cons htake (.nil _)),
      (closeSection_withBlank hempty hheader).2 ⟨closed, hclosed, rfl⟩, fun _ => ?_,
      .inl ⟨hclear _, by simp [Segment.raw]⟩⟩
    rw [openAfter_of_names_eq_nil hnames, if_pos hempty]
    rfl
  · have htake : ∀ list ∈ current, list.take? block = none := by
      intro list hlist
      have hnot : block.isEmpty ≠ true := fun h => hempty ⟨list, hlist, h⟩
      rw [take?_of_specs_eq_nil hspecs, if_neg hnot]
    refine ⟨none, _, [], runs_block hclosed htake (reviseBlock_of_specs_eq_nil hspecs), rfl,
      fun _ => ?_, .inl ⟨hclear _, by simp [Segment.raw]⟩⟩
    rw [openAfter_of_names_eq_nil hnames]
    split
    · rename_i hblank
      cases current with
      | none => rfl
      | some list => exact absurd ⟨list, rfl, hblank⟩ hempty
    · rfl

/-- A block with placeholders of no list stays, unless it is taken for an entry. -/
theorem renews_filled (hnames : blockNames block ≠ [])
    (hpath : ListTemplate.listPath 0 (blockNames block) = .ok none)
    (hvalues : ∀ name ∈ blockNames block, (values.scalarAt? name).isSome)
    (hsound : (filled settings.comment specs body.text block.separator).Sound settings.comment)
    (h : Rendered settings values block.text specs body) :
    ∃ next written rest, Renews settings values (.block block)
      [.block (filled settings.comment specs body.text block.separator)] current closed next
        written rest := by
  have hspecs := h.specs_ne_nil hnames
  by_cases hclear : Clear (current.map ListSection.path) (.block block)
  -- not owned by the list that is open: the section is closed, and the block is revised to itself
  · have hnot := (clear_iff hpath h).1 hclear
    have htake : ∀ list ∈ current,
        list.take? (filled settings.comment specs body.text block.separator) = none := by
      intro list hlist
      have hempty : (filled settings.comment specs body.text block.separator).isEmpty = false := by
        simp [Block.isEmpty, filled, hspecs]
      simp [ListSection.take?, hnot list hlist, hempty]
    refine ⟨none, _, [], runs_block hclosed htake (reviseBlock_filled_self h hsound hvalues), rfl,
      fun _ => ?_, .inl ⟨hclear, by simp [Segment.raw]⟩⟩
    rw [openAfter_of_listPath hnames hpath]
    rfl
  · -- the block leaves its separator only, in place of what ended the list before
    obtain ⟨list, rfl, howns⟩ : ∃ list, current = some list ∧
        list.owns (filled settings.comment specs body.text block.separator) = true := by
      simpa [clear_iff hpath h] using hclear
    obtain ⟨entries, hentries, rfl⟩ := ListSection.rendered_eq_ok_iff.1 hclosed
    have htake : list.take? (filled settings.comment specs body.text block.separator) =
        some (list.withEntry (filled settings.comment specs body.text block.separator)) := by
      rw [ListSection.take?, if_pos howns]
    refine ⟨_, [], _, runs_taken (.cons htake (.nil _)),
      ListSection.rendered_eq_ok_iff.2 ⟨entries, hentries, rfl⟩, fun h => absurd h hclear,
      .inr ⟨hclear, ?_⟩⟩
    have hheader : 0 < (settings.comment.headerLine specs).length :=
      List.length_pos_iff.2 (by simp [Comment.headerLine, Comment.wrap])
    simp [raw_entrySegments, ListSection.withEntry, ListSection.ending, filled, Segment.raw,
      Block.raw, Block.headerText]
    omega

/-- A list template ends the section and opens its own, which takes in the entries; what the
section is closed with is the list. -/
theorem renews_list {path : Text} {entries : List (List FieldSpec × Body)}
    (hpath : ListTemplate.listPath 0 (blockNames block) = .ok (some path))
    (hparts : ∀ name ∈ blockNames block, ∀ part ∈ Text.splitOn '.' name, part ≠ [])
    (h : EntriesRendered settings values block.text path entries) :
    ∃ next written rest, Renews settings values (.block block)
      (.directive (.listTemplate block.text) (Directive.listLine settings.comment block.text) 0 ::
        entrySegments settings.comment block.text block.separator entries) current closed next
          written rest := by
  obtain ⟨last, htaken, htemplate, hlast, hending⟩ := taken_entrySegments settings.comment
    block.separator (ownsEntry_of_rendered hpath hparts h)
  have hopen := openSection_of_listPath hpath
  have hclose : closeSection settings values (some last) =
      .ok ((entrySegments settings.comment block.text block.separator entries).flatMap
        Segment.raw) := by
    rw [closeSection, ListSection.rendered_eq_ok_iff, htemplate, hlast, hending]
    exact ⟨entries, h, by simp⟩
  have hclear (open? : Option Text) : Clear open? (.block block) := by
    intro hnone
    rw [hpath] at hnone
    cases hnone
  refine ⟨some last, _, _, (runs_directive hclosed hopen).append (runs_taken htaken), hclose,
    fun _ => ?_, .inl ⟨hclear _, by simp [Segment.raw]⟩⟩
  rw [openAfter_of_listPath (names_ne_nil_of_listPath hpath) hpath, Option.map_some, hlast]

/-- **What a segment became is renewed**, whatever section is open before it. -/
theorem renews_expands (hcomment : settings.comment.Unbraced)
    (hsound : segment.Sound settings.comment) (hrenewable : Renewable segment)
    (hresolves : Resolves values segment) {new : List Segment}
    (hnew : Expands settings values segment new) :
    ∃ next written rest, Renews settings values segment new current closed next written rest := by
  have hchain := (replaces_of_expands hcomment hrenewable.legible hsound hnew).chain
  cases hnew with
  | directive found raw line => exact ⟨_, _, _, renews_setting hclosed hrenewable⟩
  | @copied block hnames =>
    have hheader : block.header = none := by
      by_contra hsome
      exact hrenewable.2.1 hsome hnames
    exact renews_copied hclosed (Block.Formed.noHeader hsound.toFormed hheader) hheader hnames
  | filled hnames hpath hrendered =>
    exact renews_filled hclosed hnames hpath
      (hresolves (ListTemplate.not_mem_parts_of_listPath hpath))
      (hchain.sound _ (List.mem_singleton_self _)) hrendered
  | list hpath hentries => exact renews_list hclosed hpath hrenewable.2.2 hentries

end Segments

/-- **All that a template became is renewed**, one segment after another. -/
theorem renews_expanded (hcomment : settings.comment.Unbraced)
    {expanded : List (List Segment)}
    (hsound : ∀ segment ∈ segments, segment.Sound settings.comment)
    (hrenewable : ∀ segment ∈ segments, Renewable segment)
    (hresolves : ∀ segment ∈ segments, Resolves values segment)
    (h : List.Forall₂ (Expands settings values) segments expanded)
    (hclosed : closeSection settings values current = .ok closed) :
    ∃ next written rest, Runs settings values current expanded.flatten next written ∧
      closeSection settings values next = .ok rest ∧
      AllOrLess (AllClear (current.map ListSection.path) segments)
        (closed ++ expanded.flatten.flatMap Segment.raw) (written ++ rest) := by
  induction h generalizing current closed with
  | nil => exact ⟨current, [], closed, runs_nil, hclosed, .inl ⟨trivial, by simp⟩⟩
  | @cons segment new segments expanded hnew _ ih =>
    obtain ⟨hsound, hsounds⟩ := List.forall_mem_cons.1 hsound
    obtain ⟨hrenewable, hrenewables⟩ := List.forall_mem_cons.1 hrenewable
    obtain ⟨hresolves, hresolveses⟩ := List.forall_mem_cons.1 hresolves
    obtain ⟨next, written, rest, hfirst⟩ :=
      renews_expands hclosed hcomment hsound hrenewable hresolves hnew
    -- the rest begins with the section that the first segment left open
    obtain ⟨last, later, left, hruns, hleft, hlater⟩ :=
      ih hsounds hrenewables hresolveses hfirst.closes
    refine ⟨last, written ++ later, left, hfirst.runs.append hruns, hleft, ?_⟩
    -- behind a segment that is not taken for an entry the section is that of the template
    have hclear : Clear (current.map ListSection.path) segment ∧
        AllClear (next.map ListSection.path) segments ↔
          AllClear (current.map ListSection.path) (segment :: segments) :=
      and_congr_right fun hclear => by rw [hfirst.path hclear]
    rw [List.flatten_cons, List.flatMap_append, ← List.append_assoc, List.append_assoc written,
      ← hclear]
    exact hfirst.whole.append hlater

/-! ### Documents -/

/-- **A document stays as it is when it is revised with the data that it was rendered from,
exactly when no block of its template is taken for an entry of a list that it does not belong
to.** The condition can be read off the template; in every other case the document gets shorter,
since a block is lost. -/
theorem revise_rendered_self_iff (hrender : render settings values template = .ok document)
    (hscan : settings.scan template = .ok scanned) (hcomment : scanned.comment.Unbraced)
    (hrenewable : ∀ segment ∈ (Segmentation.ofText scanned.comment template).segments,
      Renewable segment)
    (hresolves : ∀ segment ∈ (Segmentation.ofText scanned.comment template).segments,
      Resolves values segment) :
    revise settings values document = .ok document ↔
      AllClear none (Segmentation.ofText scanned.comment template).segments := by
  obtain ⟨scanned', segments, expanded, hscan', hsegments, hexpands, rfl⟩ :=
    render_eq_ok_iff.1 hrender
  obtain rfl : scanned' = scanned := Except.ok.inj (hscan'.symm.trans hscan)
  rw [hsegments] at hrenewable hresolves ⊢
  obtain ⟨result, hresult, hmap, hscanned⟩ := ofText_of_expands hscan hsegments hexpands hcomment
    fun segment hsegment => (hrenewable segment hsegment).legible
  have hsound := (Segmentation.chain_of_ofText hsegments).1.sound
  have hnone : closeSection scanned' values none = .ok [] := rfl
  obtain ⟨next, written, rest, hruns, hrest, hwhole⟩ :=
    renews_expanded hcomment hsound hrenewable hresolves hexpands hnone
  have hrevise : revise settings values (expanded.flatten.flatMap Segment.raw) =
      .ok (written ++ rest) := by
    rw [revise_eq_ok_iff_of_ofText hscanned hresult hmap]
    exact hruns.reviseFrom_eq hrest
  rw [hrevise, Except.ok.injEq]
  -- either all of the document was written, or less than that, and then it cannot be the same
  obtain ⟨hclear, hsame⟩ | ⟨hnot, hlt⟩ := hwhole
  · exact ⟨fun _ => hclear, fun _ => hsame⟩
  · refine ⟨fun hsame => ?_, fun hclear => absurd hclear hnot⟩
    rw [hsame, List.nil_append] at hlt
    exact absurd hlt (Nat.lt_irrefl _)

/-- A block with the name of an entry stays if there is prose between the list and the block. -/
theorem revise_behind_prose :
    render .standard [("l".toList, .record [("0".toList, .scalar (.text "A".toList))])]
        "- \x7b\x7bl.*\x7d\x7d\n\nSo:\n\nFirst: \x7b\x7bl.0\x7d\x7d.\n".toList =
      .ok ("<!--\x7b@list-template=\"- \x7b\x7bl.*\x7d\x7d\\n\"\x7d\x7d-->\n".toList ++
        "<!--\x7b\x7bl.0:pattern=\"- %s\"\x7d\x7d-->\n- A\n\nSo:\n\n".toList ++
        "<!--\x7b\x7bl.0:pattern=\"First: %s.\"\x7d\x7d-->\nFirst: A.\n".toList) ∧
    revise .standard [("l".toList, .record [("0".toList, .scalar (.text "A".toList))])]
        ("<!--\x7b@list-template=\"- \x7b\x7bl.*\x7d\x7d\\n\"\x7d\x7d-->\n".toList ++
          "<!--\x7b\x7bl.0:pattern=\"- %s\"\x7d\x7d-->\n- A\n\nSo:\n\n".toList ++
          "<!--\x7b\x7bl.0:pattern=\"First: %s.\"\x7d\x7d-->\nFirst: A.\n".toList) =
      .ok ("<!--\x7b@list-template=\"- \x7b\x7bl.*\x7d\x7d\\n\"\x7d\x7d-->\n".toList ++
        "<!--\x7b\x7bl.0:pattern=\"- %s\"\x7d\x7d-->\n- A\n\nSo:\n\n".toList ++
        "<!--\x7b\x7bl.0:pattern=\"First: %s.\"\x7d\x7d-->\nFirst: A.\n".toList) := by
  have hrender : render .standard
      [("l".toList, .record [("0".toList, .scalar (.text "A".toList))])]
      "- \x7b\x7bl.*\x7d\x7d\n\nSo:\n\nFirst: \x7b\x7bl.0\x7d\x7d.\n".toList =
      .ok ("<!--\x7b@list-template=\"- \x7b\x7bl.*\x7d\x7d\\n\"\x7d\x7d-->\n".toList ++
        "<!--\x7b\x7bl.0:pattern=\"- %s\"\x7d\x7d-->\n- A\n\nSo:\n\n".toList ++
        "<!--\x7b\x7bl.0:pattern=\"First: %s.\"\x7d\x7d-->\nFirst: A.\n".toList) := by
    decide +kernel
  have hscan : Settings.standard.scan
      "- \x7b\x7bl.*\x7d\x7d\n\nSo:\n\nFirst: \x7b\x7bl.0\x7d\x7d.\n".toList = .ok .standard := by
    decide +kernel
  exact ⟨hrender, (revise_rendered_self_iff hrender hscan Comment.unbraced_standard
    (by decide +kernel) (by decide +kernel)).2 (by decide +kernel)⟩

/-- A block with the name of an entry, right behind the list, is dropped. Nothing is complained
about, and the value of the block is the one that the data has. -/
theorem revise_behind_list :
    (∀ segment ∈ (Segmentation.ofText .standard
        "- \x7b\x7bl.*\x7d\x7d\n\nFirst: \x7b\x7bl.0\x7d\x7d.\n".toList).segments,
      Renewable segment ∧
        Resolves [("l".toList, .record [("0".toList, .scalar (.text "A".toList))])] segment) ∧
    render .standard [("l".toList, .record [("0".toList, .scalar (.text "A".toList))])]
        "- \x7b\x7bl.*\x7d\x7d\n\nFirst: \x7b\x7bl.0\x7d\x7d.\n".toList =
      .ok ("<!--\x7b@list-template=\"- \x7b\x7bl.*\x7d\x7d\\n\"\x7d\x7d-->\n".toList ++
        "<!--\x7b\x7bl.0:pattern=\"- %s\"\x7d\x7d-->\n- A\n\n".toList ++
        "<!--\x7b\x7bl.0:pattern=\"First: %s.\"\x7d\x7d-->\nFirst: A.\n".toList) ∧
    revise .standard [("l".toList, .record [("0".toList, .scalar (.text "A".toList))])]
        ("<!--\x7b@list-template=\"- \x7b\x7bl.*\x7d\x7d\\n\"\x7d\x7d-->\n".toList ++
          "<!--\x7b\x7bl.0:pattern=\"- %s\"\x7d\x7d-->\n- A\n\n".toList ++
          "<!--\x7b\x7bl.0:pattern=\"First: %s.\"\x7d\x7d-->\nFirst: A.\n".toList) =
      .ok ("<!--\x7b@list-template=\"- \x7b\x7bl.*\x7d\x7d\\n\"\x7d\x7d-->\n".toList ++
        "<!--\x7b\x7bl.0:pattern=\"- %s\"\x7d\x7d-->\n- A\n".toList) := by
  decide +kernel

end FieldedText.Document
