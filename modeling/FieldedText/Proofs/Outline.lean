/-
FieldedText/Proofs/Outline.lean

The outline of a rendered document does not depend on the texts in the data.

The outline of a segment is what is left without the text of its block: the kind, the
line of a directive, the names of the fields in a header, and the separator.  The
outline of a rendered document is computed from the template and the ordinals of its
lists alone (`outline_rendered`), so that no text can add, remove or alter a block, a
field or a directive (`outline_unaffected`).

The template has to end with a line feed.  Without one the last entry of a list is not
the text of one block with a line feed behind it, and an entry with an empty text is two
blocks where another entry is one (`innerEntry`).
-/
import FieldedText.Proofs.Rendered

namespace FieldedText

/-- What a segment is, without the text of its block and without the number of its line. Two
documents with the same outlines have the same structure, whatever their texts say. -/
inductive Outline where
  | directive (found : Directive) (raw : Text)
  | block (header : Bool) (fields : List Name) (separator : Text)
  deriving DecidableEq

/-- The outline of a segment. -/
def Segment.outline : Segment → Outline
  | directive found raw _ => .directive found raw
  | block b => .block b.header.isSome (b.specs.map FieldSpec.name) b.separator

theorem Segment.outline_unnumbered (segment : Segment) :
    segment.unnumbered.outline = segment.outline := by
  cases segment with
  | directive found raw line => rfl
  | block b => rfl

/-- All segments of a chain are complete when its text is. -/
theorem Segment.Chain.complete_of_complete {comment : Comment} {segments : List Segment}
    (h : Chain comment segments) (hcomplete : Text.Complete (segments.flatMap raw)) :
    ∀ segment ∈ segments, segment.raw.Complete := by
  induction h with
  | nil => simp
  | @cons segment segments sound complete opens rest ih =>
    rw [List.flatMap_cons] at hcomplete
    refine List.forall_mem_cons.2 ⟨?_, ih hcomplete.of_append⟩
    by_cases hnil : segments = []
    · rwa [hnil, List.flatMap_nil, List.append_nil] at hcomplete
    · exact complete hnil

/-- The text of a complete block is complete. -/
theorem Block.Sound.complete_text {comment : Comment} {block : Block} (h : block.Sound comment)
    (hcomplete : block.raw.Complete) : block.text.Complete := by
  obtain hseparator | ⟨-, -, htext⟩ := h.separator
  · rw [Block.raw, hseparator, List.append_nil] at hcomplete
    exact hcomplete.of_append
  · exact htext.of_append

namespace Document

variable {settings scanned : Settings} {values others : Record} {template first second : Text}
  {segment : Segment} {segments : List Segment}

/-! ### The outline of a template -/

/-- The outline of the entries of a list, of which each has these names, with what ends the list.
The separator belongs to the last entry, and to a block of its own when there is none. -/
def entryOutlines (names : List Name) (separator : Text) : List Name → List Outline
  | [] => if separator = [] then [] else [.block false [] separator]
  | [ordinal] => [.block true (names.map (ListTemplate.entryName ordinal)) separator]
  | ordinal :: next :: ordinals =>
    .block true (names.map (ListTemplate.entryName ordinal)) ['\n'] ::
      entryOutlines names separator (next :: ordinals)

/-- The outline of what a segment of a template becomes, when the lists have the given ordinals.
It is computed from the template and these ordinals, so no text in the data can have a part in it.
-/
def expandedOutline (settings : Settings) (ordinalsAt : Text → List Name) :
    Segment → List Outline
  | .directive found raw line => [Segment.outline (.directive found raw line)]
  | .block block =>
    match blockNames block with
    | [] => [Segment.outline (.block block)]
    | names =>
      match ListTemplate.listPath 0 names with
      | .ok (some path) =>
        .directive (.listTemplate block.text) (Directive.listLine settings.comment block.text) ::
          entryOutlines names block.separator (ordinalsAt path)
      | _ => [.block true names block.separator]

/-- Two records that have the same ordinals in the list that a block of a template belongs to, if
it belongs to one. -/
def SameOrdinalsIn (values others : Record) (block : Block) : Prop :=
  ∀ path, ListTemplate.listPath 0 (blockNames block) = .ok (some path) →
    values.ordinalsAt path = others.ordinalsAt path

instance (values others : Record) (block : Block) :
    Decidable (SameOrdinalsIn values others block) :=
  match h : ListTemplate.listPath 0 (blockNames block) with
  | .ok (some path) => decidable_of_iff (values.ordinalsAt path = others.ordinalsAt path)
      ⟨fun hsame _ hfound => Option.some.inj (Except.ok.inj (h.symm.trans hfound)) ▸ hsame,
        fun hall => hall path h⟩
  | .ok none => isTrue fun _ hfound => nomatch h.symm.trans hfound
  | .error _ => isTrue fun _ hfound => nomatch h.symm.trans hfound

/-- Two records that have the same ordinals in the list that a segment of a template belongs to, if
it belongs to one. -/
abbrev SameOrdinals (values others : Record) : Segment → Prop :=
  Segment.Satisfies (fun _ => True) (SameOrdinalsIn values others)

/-! ### Segments -/

/-- **Entries have the outline of their ordinals**, if the template of the list is complete. -/
theorem map_outline_entrySegments {comment : Comment} {base separator : Text}
    {ordinals : List Name} {entries : List (List FieldSpec × Body)}
    (hgap : entryGap base = ['\n'])
    (hordinals : ∀ ordinal ∈ ordinals, Name.isOrdinal ordinal = true)
    (h : List.Forall₂ (fun ordinal entry =>
      Rendered settings values (entryText ordinal base) entry.1 entry.2) ordinals entries) :
    (entrySegments comment base separator entries).map Segment.outline =
      entryOutlines (Template.ofText base).names separator ordinals := by
  induction h with
  | nil =>
    unfold entrySegments entryOutlines
    split
    · rfl
    · rfl
  | @cons ordinal entry ordinals entries hentry hlater ih =>
    obtain ⟨ho, hordinals⟩ := List.forall_mem_cons.1 hordinals
    have hnames : entry.1.map FieldSpec.name =
        (Template.ofText base).names.map (ListTemplate.entryName ordinal) := by
      rw [hentry.names_eq, names_entryText ho]
    -- an entry in front of others has a separator of its own, the last one that of the list
    cases hlater with
    | nil =>
      rw [entrySegments, entryOutlines, ← hnames]
      rfl
    | cons hnext hlater =>
      rw [entrySegments, entryOutlines, ← hnames, List.map_append, ih hordinals, innerEntry,
        if_pos hgap]
      rfl

/-- **What a complete segment becomes has the outline of the segment.** -/
theorem map_outline_of_expands (hsound : segment.Sound settings.comment)
    (hcomplete : segment.raw.Complete) (h : Expands settings values segment segments) :
    segments.map Segment.outline = expandedOutline settings values.ordinalsAt segment := by
  -- one case for each way in which a segment of a template expands
  cases h with
  | directive found raw line => rfl
  | @copied block hnames =>
    rw [expandedOutline, hnames]
    rfl
  | @filled block specs body hnames hpath hrendered =>
    obtain ⟨name, names, hcons⟩ := List.exists_cons_of_ne_nil hnames
    have hspecs : specs.map FieldSpec.name = name :: names := hrendered.names_eq.trans hcons
    rw [hcons] at hpath
    simp only [expandedOutline, hcons, hpath]
    rw [← hspecs]
    rfl
  | @list block path entries hpath hentries =>
    have hnames := names_ne_nil_of_listPath hpath
    -- A complete template ends its entries with a line feed, so that an empty line is between
    -- them and each is one block.
    have hgap : entryGap block.text = ['\n'] := entryGap_eq_iff.2
      ⟨text_ne_nil_of_names hnames, Block.Sound.complete_text hsound hcomplete⟩
    have houtline : (entrySegments settings.comment block.text block.separator entries).map
        Segment.outline = _ := map_outline_entrySegments hgap
      (fun _ hordinal => Record.isOrdinal_of_mem_ordinalsAt hordinal) hentries
    obtain ⟨name, names, hcons⟩ := List.exists_cons_of_ne_nil hnames
    rw [List.map_cons, houtline]
    rw [hcons] at hpath
    simp only [expandedOutline, hcons, hpath]
    rw [← hcons]
    rfl

/-! ### Documents -/

/-- **The outline of a rendered document is that of its template**, with the ordinals of the
lists. -/
theorem outline_rendered (hrender : render settings values template = .ok first)
    (hscan : settings.scan template = .ok scanned) (htemplate : template.Complete)
    (hcomment : scanned.comment.Unbraced)
    (hlegible : ∀ segment ∈ (Segmentation.ofText scanned.comment template).segments,
      LegibleSegment segment) :
    settings.scan first = .ok scanned ∧
      ∃ result, Segmentation.ofText scanned.comment first = ⟨result, none⟩ ∧
        result.map Segment.outline =
          (Segmentation.ofText scanned.comment template).segments.flatMap
            (expandedOutline scanned values.ordinalsAt) := by
  obtain ⟨segments, expanded, hsegments, hexpands, rfl⟩ := expands_of_render hrender hscan
  rw [hsegments] at hlegible ⊢
  obtain ⟨result, hresult, hmap, hscanned⟩ :=
    ofText_of_expands hscan hsegments hexpands hcomment hlegible
  obtain ⟨hchain, rfl⟩ := Segmentation.chain_of_ofText hsegments
  have houtline : expanded.flatten.map Segment.outline =
      segments.flatMap (expandedOutline scanned values.ordinalsAt) := by
    have hsound := hchain.sound
    have hcomplete := hchain.complete_of_complete htemplate
    -- only how each segment expands is used in the induction
    clear hscan hsegments hrender hresult hmap hscanned hlegible htemplate hchain
    induction hexpands with
    | nil => rfl
    | cons hnew _ ih =>
      obtain ⟨hsound, hsounds⟩ := List.forall_mem_cons.1 hsound
      obtain ⟨hcomplete, hcompletes⟩ := List.forall_mem_cons.1 hcomplete
      rw [List.flatten_cons, List.map_append, List.flatMap_cons,
        map_outline_of_expands hsound hcomplete hnew, ih hsounds hcompletes]
  refine ⟨hscanned, result, hresult, ?_⟩
  have hnumbers (segments : List Segment) :
      segments.map Segment.outline = (segments.map Segment.unnumbered).map Segment.outline := by
    rw [List.map_map]
    exact List.map_congr_left fun segment _ => (Segment.outline_unnumbered segment).symm
  rw [hnumbers, hmap, ← hnumbers, houtline]

/-- **Texts do not change the structure of a document.** Two documents that are rendered from one
template, with data that has the same ordinals in every list of the template, have the settings of
the template, and segments with the same outlines. So a text in the data can neither make markup
nor end the block that it is put into. -/
theorem outline_unaffected (hfirst : render settings values template = .ok first)
    (hsecond : render settings others template = .ok second)
    (hscan : settings.scan template = .ok scanned) (htemplate : template.Complete)
    (hcomment : scanned.comment.Unbraced)
    (hlegible : ∀ segment ∈ (Segmentation.ofText scanned.comment template).segments,
      LegibleSegment segment)
    (hordinals : ∀ segment ∈ (Segmentation.ofText scanned.comment template).segments,
      SameOrdinals values others segment) :
    settings.scan first = .ok scanned ∧ settings.scan second = .ok scanned ∧
      ∃ segments others, Segmentation.ofText scanned.comment first = ⟨segments, none⟩ ∧
        Segmentation.ofText scanned.comment second = ⟨others, none⟩ ∧
        segments.map Segment.outline = others.map Segment.outline := by
  obtain ⟨hscanFirst, segments, hsegments, houtline⟩ :=
    outline_rendered hfirst hscan htemplate hcomment hlegible
  obtain ⟨hscanSecond, result, hresult, houtline'⟩ :=
    outline_rendered hsecond hscan htemplate hcomment hlegible
  refine ⟨hscanFirst, hscanSecond, segments, result, hsegments, hresult, ?_⟩
  rw [houtline, houtline']
  -- Both outlines are computed segment by segment from the template, and the only part of the
  -- data in them are the ordinals of a list.
  apply List.flatMap_congr
  intro segment hsegment
  cases segment with
  | directive found raw line => rfl
  | block b =>
    have hsame : ∀ path, ListTemplate.listPath 0 (blockNames b) = .ok (some path) → _ :=
      hordinals (.block b) hsegment
    cases hnames : blockNames b with
    | nil => simp only [expandedOutline, hnames]
    | cons name names =>
      rw [hnames] at hsame
      simp only [expandedOutline, hnames]
      split
      · rename_i path hpath
        rw [hsame path hpath]
      · rfl

/-- A template with a field and a list. -/
def letterTemplate : Text := "Dear \x7b\x7ba\x7d\x7d,\n\n- \x7b\x7bl.*\x7d\x7d\n".toList

/-- The data of a letter. -/
def letterData (name item other : Text) : Record :=
  [("a".toList, .scalar (.text name)),
    ("l".toList, .record
      [("0".toList, .scalar (.text item)), ("1".toList, .scalar (.text other))])]

/-- The letter. -/
def letter (name item other : Text) : Text :=
  "<!--\x7b\x7ba:pattern=\"Dear %s,\"\x7d\x7d-->\nDear ".toList ++ name ++ ",\n\n".toList ++
    "<!--\x7b@list-template=\"- \x7b\x7bl.*\x7d\x7d\\n\"\x7d\x7d-->\n".toList ++
    "<!--\x7b\x7bl.0:pattern=\"- %s\"\x7d\x7d-->\n- ".toList ++ item ++ "\n\n".toList ++
    "<!--\x7b\x7bl.1:pattern=\"- %s\"\x7d\x7d-->\n- ".toList ++ other ++ "\n".toList

/-- Markup in a value, or a part of it, is nothing but text. -/
theorem outline_of_markup_in_values :
    render .standard (letterData "you".toList "x".toList "y".toList) letterTemplate =
      .ok (letter "you".toList "x".toList "y".toList) ∧
    render .standard
        (letterData "<!--\x7b\x7bb\x7d\x7d".toList "\x7b\x7bc\x7d\x7d-->".toList "-->".toList)
        letterTemplate =
      .ok (letter "<!--\x7b\x7bb\x7d\x7d".toList "\x7b\x7bc\x7d\x7d-->".toList "-->".toList) ∧
    ∃ segments others,
      Segmentation.ofText .standard (letter "you".toList "x".toList "y".toList) =
        ⟨segments, none⟩ ∧
      Segmentation.ofText .standard
          (letter "<!--\x7b\x7bb\x7d\x7d".toList "\x7b\x7bc\x7d\x7d-->".toList "-->".toList) =
        ⟨others, none⟩ ∧
      segments.map Segment.outline = others.map Segment.outline := by
  have hscan : Settings.standard.scan letterTemplate = .ok .standard := by
    decide +kernel
  refine (fun hfirst hsecond => ⟨hfirst, hsecond, (outline_unaffected hfirst hsecond hscan ?_
    Comment.unbraced_standard ?_ ?_).2.2⟩) ?_ ?_
  all_goals decide +kernel

end Document

end FieldedText
