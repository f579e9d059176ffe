/-
FieldedText/Proofs/Insertion.lean

A paragraph that is put into a rendered document, and revision with the data that the
document was rendered from.

Between what two segments of a template became, the paragraph stays and so does all
else: the section before it is closed early, with all of its entries in it, and no
section is open after it (`reviseFrom_between`).  Among the entries of a list it does not.
The section is closed there as well, so the entries behind the paragraph are written
before it (`reviseFrom_among_ne`), and once more where they are.

Which of the two it is can be read off the header behind the paragraph: the entries of
a list are the blocks with an ordinal in a name (`revise_inserted_iff`).
-/
import FieldedText.Proofs.Headers
import FieldedText.Proofs.Renewal
import FieldedText.Proofs.Splitting

namespace FieldedText.Document

variable {settings scanned : Settings} {values : Record} {template base separator : Text}
  {comment : Comment} {current : Option ListSection} {list : ListSection} {block : Block}
  {segment : Segment} {segments before after more : List Segment} {closed out : Text}
  {entry : List FieldSpec × Body} {entries others : List (List FieldSpec × Body)}

/-! ### Segments of a list -/

/-- The entries before another one are inner entries. -/
theorem entrySegments_append (comment : Comment) (base separator : Text)
    (entries : List (List FieldSpec × Body)) (entry : List FieldSpec × Body)
    (others : List (List FieldSpec × Body)) :
    entrySegments comment base separator (entries ++ entry :: others) =
      entries.flatMap (innerEntry comment base) ++
        entrySegments comment base separator (entry :: others) := by
  induction entries with
  | nil => rfl
  | cons first entries ih =>
    obtain ⟨next, later, hnext⟩ : ∃ next later, entries ++ entry :: others = next :: later :=
      List.exists_cons_of_ne_nil (by simp)
    rw [List.cons_append, hnext, entrySegments, ← hnext, ih, List.flatMap_cons, List.append_assoc]

/-- The text of some entries begins with the header of the first. -/
theorem raw_entrySegments_cons (comment : Comment) (base separator : Text)
    (entry : List FieldSpec × Body) (entries : List (List FieldSpec × Body)) :
    ∃ rest, (entrySegments comment base separator (entry :: entries)).flatMap Segment.raw =
      comment.headerLine entry.1 ++ rest := by
  cases entries with
  | nil => exact ⟨entry.2.text ++ separator, by simp [entrySegments, Segment.raw]⟩
  | cons next entries =>
    refine ⟨entry.2.text ++ (entryGap base ++
      (entrySegments comment base separator (next :: entries)).flatMap Segment.raw), ?_⟩
    rw [entrySegments, List.flatMap_append, raw_innerEntry]
    simp only [List.append_assoc]

/-- The first segment of an inner entry is a block under its header, and no other one has a
header. -/
theorem innerEntry_eq_cons (comment : Comment) (base : Text) (entry : List FieldSpec × Body) :
    ∃ text separator rest, innerEntry comment base entry =
      .block (filled comment entry.1 text separator) :: rest ∧
        ∀ b, .block b ∈ rest → b.header = none := by
  unfold innerEntry
  split
  · exact ⟨_, _, _, rfl, by simp⟩
  · split
    · exact ⟨_, _, _, rfl, by simp [blank]⟩
    · exact ⟨_, _, _, rfl, by simp⟩

/-- A block with a header stands behind all segments without one. -/
theorem exists_of_append_eq {rest later : List Segment}
    (hrest : ∀ b, .block b ∈ rest → b.header = none) (hheader : block.header ≠ none)
    (h : rest ++ later = before ++ .block block :: after) :
    ∃ more, before = rest ++ more ∧ later = more ++ .block block :: after := by
  rcases List.append_eq_append_iff.1 h with ⟨more, hbefore, hlater⟩ | ⟨more, hmore, hblock⟩
  · exact ⟨more, hbefore, hlater⟩
  · cases more with
    | nil => exact ⟨[], by rw [hmore]; simp, hblock.symm⟩
    | cons first more =>
      obtain ⟨rfl, -⟩ := List.cons.inj hblock
      exact absurd (hrest block (by rw [hmore]; simp)) hheader

/-- **A block with a header among the segments of a list begins an entry.** What stands before it
are the entries before, each with all of its segments. -/
theorem exists_entry_of_header (hheader : block.header ≠ none)
    (h : entrySegments comment base separator entries = before ++ .block block :: after) :
    ∃ earlier entry later, entries = earlier ++ entry :: later ∧
      before = earlier.flatMap (innerEntry comment base) ∧
      block.header = some (comment.headerLine entry.1) ∧ block.specs = entry.1 := by
  -- By induction on the entries. The segments of an entry behind its first one are blank lines,
  -- so that a block with a header is the first one, or stands behind all of them.
  induction entries generalizing before with
  | nil =>
    -- the segment of a list without entries is a blank line
    have hblank : ∀ b, .block b ∈ entrySegments comment base separator [] → b.header = none := by
      unfold entrySegments
      split <;> simp [blank]
    exact absurd (hblank block (by rw [h]; simp)) hheader
  | cons entry entries ih =>
    cases entries with
    | nil =>
      obtain ⟨rfl, hblock⟩ | ⟨more, -, hnil⟩ := List.cons_eq_append_iff.1 h
      · cases hblock
        exact ⟨[], entry, [], rfl, rfl, rfl, rfl⟩
      · simp at hnil
    | cons next entries =>
      obtain ⟨text, gap, rest, hinner, hrest⟩ := innerEntry_eq_cons comment base entry
      rw [entrySegments, hinner, List.cons_append] at h
      obtain ⟨rfl, hblock⟩ | ⟨more, rfl, hmore⟩ := List.cons_eq_append_iff.1 h
      · cases hblock
        exact ⟨[], entry, next :: entries, rfl, rfl, rfl, rfl⟩
      · obtain ⟨before, rfl, hlater⟩ := exists_of_append_eq hrest hheader hmore
        obtain ⟨earlier, other, later, hentries, rfl, hfound⟩ := ih hlater
        refine ⟨entry :: earlier, other, later, by rw [hentries, List.cons_append], ?_, hfound⟩
        rw [List.flatMap_cons, hinner, List.cons_append]

/-- Entries of a list are taken into its section. -/
theorem taken_innerEntries (comment : Comment) (base : Text)
    (h : ∀ entry ∈ entries, OwnsEntry list entry) :
    ∃ last, Taken list (entries.flatMap (innerEntry comment base)) last ∧
      last.template = list.template ∧ last.path = list.path := by
  induction entries generalizing list with
  | nil => exact ⟨list, .nil list, rfl, rfl⟩
  | cons entry entries ih =>
    obtain ⟨hentry, hentries⟩ := List.forall_mem_cons.1 h
    obtain ⟨gap, blanks, hfirst⟩ := taken_innerEntry comment base hentry
    have howns : ∀ entry ∈ entries, OwnsEntry { list with separator := gap, blanks } entry :=
      hentries
    obtain ⟨last, hlater, htemplate, hpath⟩ := ih howns
    exact ⟨last, hfirst.append hlater, htemplate, hpath⟩

/-! ### Templates in which the entries can be told -/

theorem Revisable.renewable (h : Revisable segment) : Renewable segment :=
  h.imp (fun _ hfound => hfound) fun _ ⟨hlegible, hheader, hnames⟩ =>
    ⟨hlegible, hheader, fun name hname => (hnames name hname).parts⟩

/-- A segment with no ordinal in its names is not taken for an entry, whatever list is open. -/
theorem Revisable.clear (h : Revisable segment) (open? : Option Text) : Clear open? segment := by
  cases segment with
  | directive found raw line => trivial
  | block b =>
    intro hpath path _ name hname
    rw [← Bool.not_eq_true]
    intro hown
    obtain ⟨part, hpart, hordinal⟩ := ListSection.exists_ordinal_of_ownsField hown
    have hplain := (h.2.2 name hname).ordinals
      (ListTemplate.not_mem_parts_of_listPath hpath name hname) part hpart
    rw [hplain] at hordinal
    cases hordinal

theorem allClear_of_revisable (h : ∀ segment ∈ segments, Revisable segment)
    (open? : Option Text) : AllClear open? segments := by
  induction segments generalizing open? with
  | nil => trivial
  | cons segment segments ih =>
    obtain ⟨hsegment, hsegments⟩ := List.forall_mem_cons.1 h
    exact ⟨hsegment.clear open?, ih hsegments _⟩

/-- Segments that are written as they are, with no section open before them. A section may be open
behind them, and then it writes what is missing at the end. -/
def Kept (settings : Settings) (values : Record) (segments : List Segment) : Prop :=
  ∃ next written rest, Runs settings values none segments next written ∧
    closeSection settings values next = .ok rest ∧
    written ++ rest = segments.flatMap Segment.raw

/-- All that such a template became is kept. -/
theorem kept_expanded (hcomment : settings.comment.Unbraced) {expanded : List (List Segment)}
    (hsound : ∀ segment ∈ segments, segment.Sound settings.comment)
    (hrevisable : ∀ segment ∈ segments, Revisable segment)
    (hresolves : ∀ segment ∈ segments, Resolves values segment)
    (h : List.Forall₂ (Expands settings values) segments expanded) :
    Kept settings values expanded.flatten := by
  have hnone : closeSection settings values none = .ok [] := rfl
  obtain ⟨next, written, rest, hruns, hrest, hwhole⟩ := renews_expanded hcomment hsound
    (fun segment hsegment => (hrevisable segment hsegment).renewable) hresolves h hnone
  obtain ⟨-, hall⟩ | ⟨hnot, -⟩ := hwhole
  · exact ⟨next, written, rest, hruns, hrest, hall⟩
  · exact absurd (allClear_of_revisable hrevisable none) hnot

/-! ### Paragraphs -/

/-- Lines of prose, and a blank line behind them. The blank line keeps the paragraph apart from
what comes after it, and both end with a line feed. -/
structure IsParagraph (comment : Comment) (text separator : Text) : Prop where
  ne_nil : text ≠ []
  prose : ∀ line ∈ Text.lines text, LineKind.Is comment line .prose
  complete : text.Complete
  isLine : Text.IsLine separator
  blank : Text.isBlank separator = true
  separated : separator.Complete

instance (comment : Comment) (text separator : Text) :
    Decidable (IsParagraph comment text separator) :=
  decidable_of_iff (text ≠ [] ∧ (∀ line ∈ Text.lines text, LineKind.Is comment line .prose) ∧
      text.Complete ∧ Text.IsLine separator ∧ Text.isBlank separator = true ∧ separator.Complete)
    ⟨fun ⟨hne, hprose, htext, hline, hblank, hsep⟩ => ⟨hne, hprose, htext, hline, hblank, hsep⟩,
      fun h => ⟨h.ne_nil, h.prose, h.complete, h.isLine, h.blank, h.separated⟩⟩

/-- A block of prose without a header. -/
def paragraph (text separator : Text) : Block := ⟨none, [], text, separator, 0, true⟩

theorem IsParagraph.sound {text : Text} (h : IsParagraph comment text separator) :
    (paragraph text separator).Sound comment :=
  ⟨⟨by simp [paragraph], fun _ => rfl, h.prose, fun _ => Text.complete_nil⟩, rfl,
    .inr ⟨h.isLine, h.blank, h.complete⟩, List.append_ne_nil_of_right_ne_nil _ h.isLine.1⟩

/-- The first line of a paragraph is no header. -/
theorem IsParagraph.ne_header {text header rest more : Text}
    (h : IsParagraph comment text separator) (hheader : LineKind.Is comment header .header)
    (hline : Text.IsLine header) (hcomplete : header.Complete) :
    header ++ rest ≠ text ++ separator ++ more := by
  intro heq
  have hlines := congrArg Text.lines heq
  rw [Text.lines_append hcomplete, Text.lines_of_isLine hline, List.append_assoc,
    Text.lines_append h.complete] at hlines
  obtain ⟨first, others, hfirst⟩ := List.exists_cons_of_ne_nil
    fun hnil => h.ne_nil (Text.lines_eq_nil_iff.1 hnil)
  rw [hfirst] at hlines
  obtain ⟨rfl, -⟩ := List.cons.inj hlines
  cases hheader.unique (h.prose header (by simp [hfirst]))

/-- A paragraph ends the section before it, and stays. -/
theorem runs_paragraph {text : Text} (hclosed : closeSection settings values current = .ok closed)
    (htext : text ≠ []) (separator : Text) :
    Runs settings values current [.block (paragraph text separator)] none
      (closed ++ (text ++ separator)) := by
  have hspecs : (paragraph text separator).specs = [] := rfl
  refine runs_block hclosed (fun list _ => ?_) (reviseBlock_of_specs_eq_nil hspecs)
  rw [take?_of_specs_eq_nil hspecs, if_neg]
  simp [Block.isEmpty, paragraph, htext]

/-- **Between segments that are kept a paragraph stays**, and so do these. The section before it
is closed early, and has all its entries already. -/
theorem reviseFrom_between {text : Text} (hbefore : Kept settings values before)
    (hafter : Kept settings values after) (htext : text ≠ []) (separator : Text) :
    reviseFrom settings values (.ok ()) none
        (before ++ .block (paragraph text separator) :: after) =
      .ok (before.flatMap Segment.raw ++ (text ++ separator) ++ after.flatMap Segment.raw) := by
  obtain ⟨next, written, rest, hruns, hrest, hwhole⟩ := hbefore
  obtain ⟨last, later, ending, hlater, hending, hwhole'⟩ := hafter
  have hall := (hruns.append (runs_paragraph hrest htext separator)).append hlater
  rw [List.append_assoc, List.singleton_append] at hall
  rw [hall.reviseFrom_eq hending, ← hwhole, ← hwhole']
  simp only [List.append_assoc]

/-- **In a list a paragraph ends the section**, and all entries are written where only those
before the paragraph were. Behind these the header of the next entry stands, and not the
paragraph. -/
theorem reviseFrom_among {text path : Text} (hbefore : Kept settings values before)
    (hpath : ListTemplate.listPath 0 (blockNames block) = .ok (some path))
    (hparts : ∀ name ∈ blockNames block, ∀ part ∈ Text.splitOn '.' name, part ≠ [])
    (hentries : EntriesRendered settings values block.text path (entries ++ entry :: others))
    (htext : text ≠ [])
    (h : reviseFrom settings values (.ok ()) none (before ++
        .directive (.listTemplate block.text) (Directive.listLine settings.comment block.text) 0 ::
          (entries.flatMap (innerEntry settings.comment block.text) ++
            .block (paragraph text separator) :: more)) = .ok out) :
    ∃ rest, out = before.flatMap Segment.raw ++ Directive.listLine settings.comment block.text ++
      (entries.flatMap (innerEntry settings.comment block.text)).flatMap Segment.raw ++
        (settings.comment.headerLine entry.1 ++ rest) := by
  obtain ⟨next, written, rest, hruns, hrest, hwhole⟩ := hbefore
  have howns := ownsEntry_of_rendered hpath hparts hentries
  obtain ⟨last, htaken, htemplate, hlast⟩ := taken_innerEntries settings.comment block.text
    fun entry hentry => howns entry (List.mem_append_left _ hentry)
  have hopen := openSection_of_listPath hpath
  -- the section knows nothing of the entries that it took in, and is written with all of the list
  have hclosed : closeSection settings values (some last) =
      .ok ((entrySegments settings.comment block.text last.ending.1
        (entries ++ entry :: others)).flatMap Segment.raw ++ last.ending.2.flatMap Block.raw) := by
    rw [closeSection, ListSection.rendered_eq_ok_iff, htemplate, hlast]
    exact ⟨_, hentries, rfl⟩
  have hlist : Runs settings values next [.directive (.listTemplate block.text)
      (Directive.listLine settings.comment block.text) 0] _ _ := runs_directive hrest hopen
  -- The run up to the paragraph: what is before the list, its line, the entries that were taken
  -- in, and the paragraph, which closes the section.
  have hall := ((hruns.append hlist).append (runs_taken htaken)).append
    (runs_paragraph hclosed htext separator)
  obtain ⟨later, -, rfl⟩ := (hall (.ok ()) more out).1 (by simpa using h)
  obtain ⟨tail, htail⟩ := raw_entrySegments_cons settings.comment block.text last.ending.1
    entry others
  refine ⟨tail ++ (last.ending.2.flatMap Block.raw ++ (text ++ separator ++ later)), ?_⟩
  rw [entrySegments_append, List.flatMap_append, htail, ← hwhole]
  simp only [List.append_assoc, List.nil_append]

/-- So the paragraph is not where it was: a header cannot be the first line of a paragraph. -/
theorem reviseFrom_among_ne {text path : Text} (hbefore : Kept settings values before)
    (hpath : ListTemplate.listPath 0 (blockNames block) = .ok (some path))
    (hparts : ∀ name ∈ blockNames block, ∀ part ∈ Text.splitOn '.' name, part ≠ [])
    (hentries : EntriesRendered settings values block.text path (entries ++ entry :: others))
    (hparagraph : IsParagraph settings.comment text separator)
    (hline : Text.IsLine (settings.comment.headerLine entry.1))
    (hheader : LineKind.Is settings.comment (settings.comment.headerLine entry.1) .header)
    (more : List Segment) (rest : Text) :
    reviseFrom settings values (.ok ()) none (before ++
        .directive (.listTemplate block.text) (Directive.listLine settings.comment block.text) 0 ::
          (entries.flatMap (innerEntry settings.comment block.text) ++
            .block (paragraph text separator) :: more)) ≠
      .ok (before.flatMap Segment.raw ++ Directive.listLine settings.comment block.text ++
        (entries.flatMap (innerEntry settings.comment block.text)).flatMap Segment.raw ++
          (text ++ separator ++ rest)) := by
  intro h
  obtain ⟨tail, htail⟩ :=
    reviseFrom_among hbefore hpath hparts hentries hparagraph.ne_nil h
  exact hparagraph.ne_header hheader hline (settings.comment.complete_wrap _)
    (List.append_cancel_left htail).symm

/-- **Whether a paragraph stays depends on the block behind it**, which is an entry of a list if an
ordinal is in a name of it. -/
theorem reviseFrom_inserted_iff {text : Text} {pre post : List Segment}
    (hbefore : Kept settings values before)
    (hafter : Kept settings values (pre ++ .block block :: post ++ more))
    (horigin : Expands settings values segment (pre ++ .block block :: post))
    (hrevisable : Revisable segment) (hblock : block.Sound settings.comment)
    (hheader : block.header ≠ none)
    (hparagraph : IsParagraph settings.comment text separator) :
    reviseFrom settings values (.ok ()) none
        (before ++ pre ++ .block (paragraph text separator) :: (.block block :: post ++ more)) =
      .ok ((before ++ pre).flatMap Segment.raw ++ (text ++ separator) ++
        (.block block :: post ++ more).flatMap Segment.raw) ↔
      ∀ spec ∈ block.specs, ∀ part ∈ Text.splitOn '.' spec.name, Name.isOrdinal part = false := by
  generalize hnew : pre ++ .block block :: post = new at horigin
  -- What the block behind the paragraph came from decides: from a block with placeholders, or
  -- from a list. A directive and a copied block have no header.
  cases horigin with
  | directive found raw line =>
    obtain ⟨-, heq⟩ | ⟨-, heq⟩ := List.append_eq_singleton_iff.1 hnew <;> cases heq
  | @copied origin hnames =>
    -- there is no header over a block without placeholders
    obtain ⟨-, heq⟩ | ⟨-, heq⟩ := List.append_eq_singleton_iff.1 hnew <;> cases heq
    exact absurd hnames (hrevisable.2.1 hheader)
  | @filled origin specs body hnames hpath hrendered =>
    obtain ⟨rfl, heq⟩ | ⟨-, heq⟩ := List.append_eq_singleton_iff.1 hnew <;> cases heq
    -- no name of the block holds an ordinal, and the paragraph stands between two parts that are
    -- kept
    refine iff_of_true ?_ (isOrdinal_eq_false_of_rendered hpath hrevisable.2.2 hrendered)
    rw [List.append_nil]
    exact reviseFrom_between hbefore hafter hparagraph.ne_nil separator
  | @list origin path entries hpath hentries =>
    obtain ⟨-, heq⟩ | ⟨inner, rfl, hinner⟩ := List.append_eq_cons_iff.1 hnew
    · cases heq
    obtain ⟨earlier, entry, later, rfl, rfl, hline, hspecs⟩ :=
      exists_entry_of_header hheader hinner
    have hparts : ∀ name ∈ blockNames origin, ∀ part ∈ Text.splitOn '.' name, part ≠ [] :=
      fun name hname => (hrevisable.2.2 name hname).parts
    obtain ⟨hisLine, hkind, -⟩ := hblock.header _ hline
    -- an entry has an ordinal in the name that makes it one, and the paragraph does not stay
    refine iff_of_false ?_ ?_
    · have hne := reviseFrom_among_ne hbefore hpath hparts hentries hparagraph hisLine hkind
        (.block block :: post ++ more) ((.block block :: post ++ more).flatMap Segment.raw)
      simpa [Segment.raw] using hne
    · intro hplain
      obtain ⟨spec, hspec, howns⟩ := ownsEntry_of_rendered hpath hparts hentries entry (by simp)
      obtain ⟨part, hpart, hordinal⟩ := ListSection.exists_ordinal_of_ownsField howns
      rw [hplain spec (by rwa [hspecs]) part hpart] at hordinal
      cases hordinal

/-- A segment of a rendered document comes of one of the template's. -/
theorem exists_expansion {r : Segment → List Segment → Prop} {expanded : List (List Segment)}
    (h : List.Forall₂ r segments expanded)
    (heq : expanded.flatten = before ++ segment :: after) :
    ∃ earlier origin later firsts pre post lasts, segments = earlier ++ origin :: later ∧
      List.Forall₂ r earlier firsts ∧ r origin (pre ++ segment :: post) ∧
      List.Forall₂ r later lasts ∧ before = firsts.flatten ++ pre ∧
      after = post ++ lasts.flatten := by
  -- By induction on the template's segments: the place is in what the first of them became, or
  -- further on.
  induction h generalizing before with
  | nil => simp at heq
  | @cons origin new segments expanded hnew hlater ih =>
    -- the segment is among the first ones, or else it comes of a later segment
    have hfrom (more : List Segment) (hbefore : before = new ++ more)
        (hmore : expanded.flatten = more ++ segment :: after) :
        ∃ earlier other later firsts pre post lasts,
          origin :: segments = earlier ++ other :: later ∧ List.Forall₂ r earlier firsts ∧
          r other (pre ++ segment :: post) ∧ List.Forall₂ r later lasts ∧
          before = firsts.flatten ++ pre ∧ after = post ++ lasts.flatten := by
      obtain ⟨earlier, other, later, firsts, pre, post, lasts, rfl, hfirsts, hother, hlasts, rfl,
        hafter⟩ := ih hmore
      exact ⟨origin :: earlier, other, later, new :: firsts, pre, post, lasts, rfl,
        .cons hnew hfirsts, hother, hlasts, by rw [hbefore, List.flatten_cons, List.append_assoc],
        hafter⟩
    rw [List.flatten_cons] at heq
    rcases List.append_eq_append_iff.1 heq with ⟨more, hbefore, hmore⟩ | ⟨more, hnew', hmore⟩
    · exact hfrom more hbefore hmore
    · cases more with
      | nil => exact hfrom [] (by rw [hnew']; simp) hmore.symm
      | cons first post =>
        obtain ⟨rfl, rfl⟩ := List.cons.inj hmore
        rw [hnew'] at hnew
        exact ⟨[], origin, segments, [], before, post, expanded, rfl, .nil, hnew, hlater, rfl, rfl⟩

section Documents

variable {a b text header : Text} {specs : List FieldSpec}

/-- A document with a paragraph between its segments is revised as these are with it. The
paragraph brings in no directive, and so it changes no settings. -/
theorem revise_with_paragraph (hchain : Segment.Chain scanned.comment (before ++ after))
    (hscan : settings.scan ((before ++ after).flatMap Segment.raw) = .ok scanned)
    (hcomplete : Text.Complete (before.flatMap Segment.raw))
    (hends : ∀ line ∈ (Text.lines (before.flatMap Segment.raw)).getLast?,
      LineKind.Ends scanned.comment line)
    (hparagraph : IsParagraph scanned.comment text separator) :
    revise settings values (before.flatMap Segment.raw ++ (text ++ separator) ++
        after.flatMap Segment.raw) = .ok out ↔
      reviseFrom scanned values (.ok ()) none
        (before ++ .block (paragraph text separator) :: after) = .ok out := by
  have hnew := Segment.chain_insert hchain hcomplete
    (fun last => hchain.of_append.1.separated_of_ends hends) hparagraph.sound
    ((Text.complete_append_iff hparagraph.isLine.1).2 hparagraph.separated) hparagraph.isLine.1
  obtain ⟨result, hresult, hmap, hscanned⟩ := Segmentation.ofText_insert hchain hnew hscan
  have hraw : (before ++ .block (paragraph text separator) :: after).flatMap Segment.raw =
      before.flatMap Segment.raw ++ (text ++ separator) ++ after.flatMap Segment.raw := by
    rw [List.flatMap_append, List.flatMap_cons, ← List.append_assoc]
    rfl
  rw [hraw] at hresult hscanned
  exact revise_eq_ok_iff_of_ofText hscanned hresult hmap

/-- The segment that a header begins is a block with the specs that are read from it. -/
theorem exists_block_of_head (hchain : Segment.Chain comment after)
    (hhead : (Text.lines (after.flatMap Segment.raw)).head? = some header)
    (hheader : ReadsAs comment header specs) :
    ∃ block more, after = .block block :: more ∧ block.header = some header ∧
      block.specs = specs := by
  cases hchain with
  | nil => cases hhead
  | @cons segment more sound complete opens rest =>
    have hlines := (Segment.Chain.cons sound complete opens rest).lines_raw
    have hne : Text.lines segment.raw ≠ [] := fun hnil =>
      sound.raw_ne_nil (Text.lines_eq_nil_iff.1 hnil)
    rw [hlines, List.flatMap_cons, List.head?_append_of_ne_nil _ hne] at hhead
    obtain ⟨block, rfl, hblock⟩ := sound.header_of_head hhead hheader.isHeader
    have hb : block.Sound comment := sound
    obtain ⟨-, -, inner, hstrip, hspecs⟩ := hb.header header hblock
    obtain ⟨inner', hstrip', hspecs'⟩ := hheader.specs
    obtain rfl : inner' = inner := Option.some.inj (hstrip'.symm.trans hstrip)
    exact ⟨block, more, rfl, hblock, Except.ok.inj (hspecs.symm.trans (hspecs' 0))⟩

/-- **A paragraph that is put into a rendered document stays where it is exactly when it is not
put before the entry of a list**, when the document is revised with the data that it was rendered
from. The condition is on the header right behind it, so that it speaks of every place of the
document. -/
theorem revise_inserted_iff (hrender : render settings values template = .ok (a ++ b))
    (hscan : settings.scan template = .ok scanned) (hcomment : scanned.comment.Unbraced)
    (hrevisable : ∀ segment ∈ (Segmentation.ofText scanned.comment template).segments,
      Revisable segment)
    (hresolves : ∀ segment ∈ (Segmentation.ofText scanned.comment template).segments,
      Resolves values segment)
    (ha : a.Complete) (hends : ∀ line ∈ (Text.lines a).getLast?,
      LineKind.Ends scanned.comment line)
    (hhead : (Text.lines b).head? = some header) (hheader : ReadsAs scanned.comment header specs)
    (hparagraph : IsParagraph scanned.comment text separator) :
    revise settings values (a ++ (text ++ separator) ++ b) = .ok (a ++ (text ++ separator) ++ b) ↔
      ∀ spec ∈ specs, ∀ part ∈ Text.splitOn '.' spec.name, Name.isOrdinal part = false := by
  obtain ⟨scanned', segments, expanded, hscan', hsegments, hexpands, hdocument⟩ :=
    render_eq_ok_iff.1 hrender
  obtain rfl : scanned' = scanned := Except.ok.inj (hscan'.symm.trans hscan)
  rw [hsegments] at hrevisable hresolves
  obtain ⟨hchainTemplate, -⟩ := Segmentation.chain_of_ofText hsegments
  have hsound := hchainTemplate.sound
  have hstands := stands_of_expands hcomment hsound
    (fun segment hsegment => (hrevisable segment hsegment).legible) hexpands
  have hchain := hchainTemplate.flatten (hstands.imp fun _ _ hstands => hstands.toReplaces)
  obtain ⟨-, -, -, hscanned⟩ := Segmentation.ofText_of_stands hscan hsegments hstands
  -- the paragraph comes between two segments, of which the second is a block under a header
  obtain ⟨before, after, hflatten, rfl, rfl⟩ := hchain.exists_split hdocument.symm ha hends
  rw [hflatten] at hchain hscanned
  rw [revise_with_paragraph hchain hscanned ha hends hparagraph]
  obtain ⟨block, after, rfl, hblock, rfl⟩ :=
    exists_block_of_head hchain.of_append.2 hhead hheader
  obtain ⟨earlier, origin, later, firsts, pre, post, lasts, rfl, hfirsts, horigin, hlasts, rfl,
    rfl⟩ := exists_expansion hexpands hflatten
  rw [List.forall_mem_append] at hrevisable hresolves hsound
  have hbefore := kept_expanded hcomment hsound.1 hrevisable.1 hresolves.1 hfirsts
  have hafter := kept_expanded hcomment hsound.2 hrevisable.2 hresolves.2
    (.cons horigin hlasts)
  rw [List.flatten_cons] at hafter
  exact reviseFrom_inserted_iff hbefore hafter horigin (hrevisable.2 origin (by simp))
    (hchain.sound (.block block) (by simp)) (by simp [hblock]) hparagraph

/-- A paragraph behind a list stays there. -/
theorem revise_paragraph_behind_list :
    render .standard [("l".toList, .record [("0".toList, .scalar (.text "A".toList))]),
        ("n".toList, .scalar (.text "N".toList))]
        "- \x7b\x7bl.*\x7d\x7d\n\n\x7b\x7bn\x7d\x7d.\n".toList =
      .ok (("<!--\x7b@list-template=\"- \x7b\x7bl.*\x7d\x7d\\n\"\x7d\x7d-->\n".toList ++
        "<!--\x7b\x7bl.0:pattern=\"- %s\"\x7d\x7d-->\n- A\n\n".toList) ++
        "<!--\x7b\x7bn:pattern=\"%s.\"\x7d\x7d-->\nN.\n".toList) ∧
    revise .standard [("l".toList, .record [("0".toList, .scalar (.text "A".toList))]),
        ("n".toList, .scalar (.text "N".toList))]
        (("<!--\x7b@list-template=\"- \x7b\x7bl.*\x7d\x7d\\n\"\x7d\x7d-->\n".toList ++
          "<!--\x7b\x7bl.0:pattern=\"- %s\"\x7d\x7d-->\n- A\n\n".toList) ++
          ("Mine.\n".toList ++ "\n".toList) ++
          "<!--\x7b\x7bn:pattern=\"%s.\"\x7d\x7d-->\nN.\n".toList) =
      .ok (("<!--\x7b@list-template=\"- \x7b\x7bl.*\x7d\x7d\\n\"\x7d\x7d-->\n".toList ++
        "<!--\x7b\x7bl.0:pattern=\"- %s\"\x7d\x7d-->\n- A\n\n".toList) ++
        ("Mine.\n".toList ++ "\n".toList) ++
        "<!--\x7b\x7bn:pattern=\"%s.\"\x7d\x7d-->\nN.\n".toList) := by
  have hrender : render .standard [("l".toList, .record [("0".toList, .scalar (.text "A".toList))]),
      ("n".toList, .scalar (.text "N".toList))]
      "- \x7b\x7bl.*\x7d\x7d\n\n\x7b\x7bn\x7d\x7d.\n".toList =
      .ok (("<!--\x7b@list-template=\"- \x7b\x7bl.*\x7d\x7d\\n\"\x7d\x7d-->\n".toList ++
        "<!--\x7b\x7bl.0:pattern=\"- %s\"\x7d\x7d-->\n- A\n\n".toList) ++
        "<!--\x7b\x7bn:pattern=\"%s.\"\x7d\x7d-->\nN.\n".toList) := by
    decide +kernel
  have hscan : Settings.standard.scan
      "- \x7b\x7bl.*\x7d\x7d\n\n\x7b\x7bn\x7d\x7d.\n".toList = .ok .standard := by
    decide +kernel
  have hheader : ReadsAs .standard "<!--\x7b\x7bn:pattern=\"%s.\"\x7d\x7d-->\n".toList
      [⟨"n".toList, [], ".".toList⟩] :=
    ⟨by decide +kernel, "\x7b\x7bn:pattern=\"%s.\"\x7d\x7d".toList, by decide +kernel,
      fun n => FieldSpec.ofHeader_ok_of_ok (n := 0) (by decide +kernel)⟩
  exact ⟨hrender, (revise_inserted_iff hrender hscan Comment.unbraced_standard (by decide +kernel)
    (by decide +kernel) (by decide +kernel) (by decide +kernel) (by decide +kernel) hheader
    (by decide +kernel)).2 (by decide +kernel)⟩

/-- The entry behind a paragraph is written before it, and once more where it is. The paragraph
closes the section, with which the whole list is written, and the entry behind it is a block like
any other then. -/
theorem revise_paragraph_among_entries :
    (∀ segment ∈ (Segmentation.ofText .standard
        "- \x7b\x7bl.*\x7d\x7d\n".toList).segments, Revisable segment ∧
      Resolves [("l".toList, .record [("0".toList, .scalar (.text "A".toList)),
        ("1".toList, .scalar (.text "B".toList))])] segment) ∧
    IsParagraph .standard "Mine.\n".toList "\n".toList ∧
    LineKind.Ends .standard "\n".toList ∧
    LineKind.Is .standard "<!--\x7b\x7bl.1:pattern=\"- %s\"\x7d\x7d-->\n".toList .header ∧
    render .standard [("l".toList, .record [("0".toList, .scalar (.text "A".toList)),
        ("1".toList, .scalar (.text "B".toList))])] "- \x7b\x7bl.*\x7d\x7d\n".toList =
      .ok (("<!--\x7b@list-template=\"- \x7b\x7bl.*\x7d\x7d\\n\"\x7d\x7d-->\n".toList ++
        "<!--\x7b\x7bl.0:pattern=\"- %s\"\x7d\x7d-->\n- A\n\n".toList) ++
        "<!--\x7b\x7bl.1:pattern=\"- %s\"\x7d\x7d-->\n- B\n".toList) ∧
    revise .standard [("l".toList, .record [("0".toList, .scalar (.text "A".toList)),
        ("1".toList, .scalar (.text "B".toList))])]
        (("<!--\x7b@list-template=\"- \x7b\x7bl.*\x7d\x7d\\n\"\x7d\x7d-->\n".toList ++
          "<!--\x7b\x7bl.0:pattern=\"- %s\"\x7d\x7d-->\n- A\n\n".toList) ++
          ("Mine.\n".toList ++ "\n".toList) ++
          "<!--\x7b\x7bl.1:pattern=\"- %s\"\x7d\x7d-->\n- B\n".toList) =
      .ok ("<!--\x7b@list-template=\"- \x7b\x7bl.*\x7d\x7d\\n\"\x7d\x7d-->\n".toList ++
        "<!--\x7b\x7bl.0:pattern=\"- %s\"\x7d\x7d-->\n- A\n\n".toList ++
        "<!--\x7b\x7bl.1:pattern=\"- %s\"\x7d\x7d-->\n- B\n\n".toList ++
        "Mine.\n\n".toList ++
        "<!--\x7b\x7bl.1:pattern=\"- %s\"\x7d\x7d-->\n- B\n".toList) := by
  decide +kernel

end Documents

end FieldedText.Document
