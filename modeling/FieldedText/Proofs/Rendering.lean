/-
FieldedText/Proofs/Rendering.lean

What a template becomes, segment by segment.

Rendering is a chain of steps that may each fail.  Here its outcome is described
by what it is made of: a text becomes specs over a body (`Rendered`), and a
segment becomes a list of segments (`Expands`), one of a few kinds.  A document
is rendered exactly when every segment of its template expands
(`render_eq_ok_iff`); that the document is cut into those very segments again is
shown separately, since it is not true of every template.
-/
import FieldedText.Document.Rendering
import FieldedText.Proofs.Body
import FieldedText.Proofs.Framing
import FieldedText.Proofs.ListTemplate
import FieldedText.Proofs.Segment

namespace FieldedText

/-- Two steps succeed when the first does and the second, from what the first gives. -/
theorem bind_eq_ok_iff {α β : Type} {x : Except Error α} {f : α → Except Error β} {b : β} :
    (x >>= f) = .ok b ↔ ∃ a, x = .ok a ∧ f a = .ok b := by
  cases x with
  | error e => simp [bind, Except.bind]
  | ok a => simp [bind, Except.bind]

/-- A list is mapped without an error when each of its elements is. -/
theorem mapM_eq_ok_iff {α β : Type} {f : α → Except Error β} {xs : List α} {ys : List β} :
    xs.mapM f = .ok ys ↔ List.Forall₂ (fun x y => f x = .ok y) xs ys := by
  induction xs generalizing ys with
  | nil =>
    rw [List.mapM_nil, List.forall₂_nil_left_iff]
    constructor
    · intro h
      exact (Except.ok.inj h).symm
    · rintro rfl
      rfl
  | cons x xs ih =>
    rw [List.mapM_cons, List.forall₂_cons_left_iff]
    -- the first element fails, a later one does, or none
    cases hx : f x with
    | error e => simp [bind, Except.bind]
    | ok y =>
      cases hxs : xs.mapM f with
      | error e =>
        simp only [bind, Except.bind, reduceCtorEq, false_iff]
        rintro ⟨_, later, -, hlater, -⟩
        rw [ih.2 hlater] at hxs
        cases hxs
      | ok later =>
        have hlater := ih.1 hxs
        simp only [bind, Except.bind, pure, Except.pure, Except.ok.injEq]
        constructor
        · rintro rfl
          exact ⟨y, later, rfl, hlater, rfl⟩
        · rintro ⟨_, other, rfl, hother, rfl⟩
          rw [ih.2 hother] at hxs
          rw [Except.ok.inj hxs]

/-- What is in the second of two related lists is related to something in the first. -/
theorem exists_of_forall₂_right {α β : Type} {r : α → β → Prop} {xs : List α} {ys : List β} {y : β}
    (h : List.Forall₂ r xs ys) (hy : y ∈ ys) : ∃ x ∈ xs, r x y := by
  induction h with
  | nil => cases hy
  | @cons x y' _ _ hxy _ ih =>
    rcases List.mem_cons.1 hy with rfl | hy
    · exact ⟨x, List.mem_cons_self .., hxy⟩
    · obtain ⟨x', hx', hr⟩ := ih hy
      exact ⟨x', List.mem_cons_of_mem x hx', hr⟩

/-- What is in the first of two related lists is related to something in the second. -/
theorem exists_of_forall₂_left {α β : Type} {r : α → β → Prop} {xs : List α} {ys : List β} {x : α}
    (h : List.Forall₂ r xs ys) (hx : x ∈ xs) : ∃ y ∈ ys, r x y :=
  exists_of_forall₂_right h.flip hx

/-- The ordinals of a list are ordinals. -/
theorem Record.isOrdinal_of_mem_ordinalsAt {values : Record} {path : Text} {ordinal : Name}
    (h : ordinal ∈ values.ordinalsAt path) : Name.isOrdinal ordinal = true := by
  unfold ordinalsAt at h
  split at h
  · have hmem := (sort_perm _ _).mem_iff.1 h
    exact (List.mem_filter.1 hmem).2
  · cases h

/-- A segmentation is complete when no error ended it. -/
theorem Segmentation.complete_eq_ok_iff {segmentation : Segmentation} :
    segmentation.complete = .ok () ↔ segmentation = ⟨segmentation.segments, none⟩ := by
  obtain ⟨segments, failure⟩ := segmentation
  cases failure <;> simp [complete]

namespace Document

variable {settings : Settings} {values : Record} {n : Nat} {text base out : Text}
  {specs : List FieldSpec} {body : Body}

/-! ### Texts with placeholders -/

/-- The slot of a placeholder. It depends on the data through the value only; the delimiters that
are offered are those of the text around it. -/
def slotOf (settings : Settings) (values : Record) (around : Surroundings) : Slot :=
  ⟨around.lead, around.placeholder.name, renderedValue settings values around.placeholder.name,
    around.delimiters settings.delimiter⟩

theorem slotsFrom_cons (hole : Hole) (holes : List Hole) (tail before : Text) :
    slotsFrom settings values n tail before (hole :: holes) = (do
      let candidates ← Surroundings.candidates ⟨hole.placeholder, before ++ hole.lead, hole.lead,
        Template.leadOf tail holes, Template.text ⟨holes, tail⟩⟩ settings.delimiter n
      let slots ← slotsFrom settings values n tail
        (before ++ hole.lead ++ hole.placeholder.token) holes
      return ⟨hole.lead, hole.placeholder.name,
        renderedValue settings values hole.placeholder.name, candidates⟩ :: slots) := by
  cases holes <;> rfl

/-- Placeholders have slots when a delimiter is offered for each of them. -/
theorem slotsFrom_eq_ok_iff {tail before : Text} {holes : List Hole} {slots : List Slot} :
    slotsFrom settings values n tail before holes = .ok slots ↔
      (∀ around ∈ Template.surroundingsFrom tail before holes,
        around.delimiters settings.delimiter ≠ []) ∧
      slots = (Template.surroundingsFrom tail before holes).map (slotOf settings values) := by
  -- the text before a placeholder grows with each of them, so it is general in the induction
  induction holes generalizing before slots with
  | nil =>
    rw [slotsFrom, Template.surroundingsFrom, Except.ok.injEq, eq_comm]
    simp
  | cons hole holes ih =>
    rw [slotsFrom_cons, Template.surroundingsFrom, List.forall_mem_cons, List.map_cons]
    -- the slot that the step makes is the one of these surroundings; from here on they are opaque
    have hslot : slotOf settings values ⟨hole.placeholder, before ++ hole.lead, hole.lead,
        Template.leadOf tail holes, Template.text ⟨holes, tail⟩⟩ =
      ⟨hole.lead, hole.placeholder.name, renderedValue settings values hole.placeholder.name,
        Surroundings.delimiters ⟨hole.placeholder, before ++ hole.lead, hole.lead,
          Template.leadOf tail holes, Template.text ⟨holes, tail⟩⟩ settings.delimiter⟩ := rfl
    rw [hslot]
    generalize (⟨hole.placeholder, before ++ hole.lead, hole.lead, Template.leadOf tail holes,
      Template.text ⟨holes, tail⟩⟩ : Surroundings) = around
    constructor
    · intro h
      cases hcandidates : around.candidates settings.delimiter n with
      | error e =>
        rw [hcandidates] at h
        cases h
      | ok candidates =>
        cases hlater : slotsFrom settings values n tail
            (before ++ hole.lead ++ hole.placeholder.token) holes with
        | error e =>
          rw [hcandidates, hlater] at h
          cases h
        | ok later =>
          rw [hcandidates, hlater] at h
          cases h
          obtain ⟨hne, rfl⟩ := Surroundings.candidates_eq_ok_iff.1 hcandidates
          obtain ⟨hall, rfl⟩ := ih.1 hlater
          exact ⟨⟨hne, hall⟩, rfl⟩
    · rintro ⟨⟨hne, hall⟩, rfl⟩
      rw [Surroundings.candidates_eq_ok_iff.2 ⟨hne, rfl⟩, ih.2 ⟨hall, rfl⟩]
      rfl

/-- **The body that a text becomes**: a delimiter is offered for every placeholder, and each
placeholder has its slot. -/
theorem renderedBody_eq_ok_iff :
    renderedBody settings values n text = .ok body ↔
      (∀ around ∈ (Template.ofText text).surroundings,
        around.delimiters settings.delimiter ≠ []) ∧
      body = ⟨(Template.ofText text).surroundings.map (slotOf settings values),
        (Template.ofText text).tail⟩ := by
  rw [renderedBody]
  constructor
  · intro h
    cases hslots : slotsFrom settings values n (Template.ofText text).tail []
        (Template.ofText text).holes with
    | error e =>
      rw [hslots] at h
      cases h
    | ok slots =>
      rw [hslots] at h
      cases h
      obtain ⟨hall, rfl⟩ := slotsFrom_eq_ok_iff.1 hslots
      exact ⟨hall, rfl⟩
  · rintro ⟨hall, rfl⟩
    rw [slotsFrom_eq_ok_iff.2 ⟨hall, rfl⟩]
    rfl

/-- A text that is rendered as some specs over a body. The number of its line is left out, since
it shows in complaints only. -/
structure Rendered (settings : Settings) (values : Record) (text : Text)
    (specs : List FieldSpec) (body : Body) : Prop where
  filled : renderedBody settings values 0 text = .ok body
  verified : body.verify settings.comment 0 = .ok specs

/-- What a text is rendered as depends on the number of its line in complaints only. -/
theorem renderText_eq_ok_iff :
    renderText settings values n text = .ok out ↔
      ∃ specs body, Rendered settings values text specs body ∧
        out = settings.comment.headerLine specs ++ body.text := by
  simp only [renderText, bind_eq_ok_iff]
  constructor
  · rintro ⟨body, hbody, specs, hspecs, h⟩
    cases h
    exact ⟨specs, body, ⟨renderedBody_eq_ok_iff.2 (renderedBody_eq_ok_iff.1 hbody),
      Body.verify_ok_of_ok hspecs⟩, rfl⟩
  · rintro ⟨specs, body, ⟨hbody, hspecs⟩, rfl⟩
    exact ⟨body, renderedBody_eq_ok_iff.2 (renderedBody_eq_ok_iff.1 hbody), specs,
      Body.verify_ok_of_ok hspecs, rfl⟩

/-! ### Entries of lists -/

/-- The block that some specs over a text are. -/
def filled (comment : Comment) (specs : List FieldSpec) (text separator : Text) : Block :=
  ⟨some (comment.headerLine specs), specs, text, separator, 0, true⟩

/-- The block that a blank line by itself is. -/
def blank (separator : Text) : Block := ⟨none, [], [], separator, 0, true⟩

@[simp] theorem raw_filled (comment : Comment) (specs : List FieldSpec) (text separator : Text) :
    (filled comment specs text separator).raw = comment.headerLine specs ++ text ++ separator :=
  rfl

@[simp] theorem raw_blank (separator : Text) : (blank separator).raw = separator := rfl

/-- The segments of an entry that another one follows.  The gap after it is one line feed, or
two when the last line of the template has none; the first of these ends the text, if there is
one. -/
def innerEntry (comment : Comment) (template : Text) (entry : List FieldSpec × Body) :
    List Segment :=
  if entryGap template = ['\n'] then [.block (filled comment entry.1 entry.2.text ['\n'])]
  else if entry.2.text = [] then
    [.block (filled comment entry.1 [] ['\n']), .block (blank ['\n'])]
  else [.block (filled comment entry.1 (entry.2.text ++ ['\n']) ['\n'])]

theorem innerEntry_ne_nil (comment : Comment) (template : Text)
    (entry : List FieldSpec × Body) : innerEntry comment template entry ≠ [] := by
  unfold innerEntry
  split
  · simp
  · split <;> simp

theorem isBlock_of_mem_innerEntry {comment : Comment} {template : Text}
    {entry : List FieldSpec × Body} {segment : Segment}
    (h : segment ∈ innerEntry comment template entry) : ∃ block, segment = .block block := by
  unfold innerEntry at h
  split at h
  · exact ⟨_, List.mem_singleton.1 h⟩
  · split at h
    · rcases List.mem_cons.1 h with rfl | h
      · exact ⟨_, rfl⟩
      · exact ⟨_, List.mem_singleton.1 h⟩
    · exact ⟨_, List.mem_singleton.1 h⟩

/-- The segments of a list's entries, with what ends the list. -/
def entrySegments (comment : Comment) (template separator : Text) :
    List (List FieldSpec × Body) → List Segment
  | [] => if separator = [] then [] else [.block (blank separator)]
  | [entry] => [.block (filled comment entry.1 entry.2.text separator)]
  | entry :: next :: entries =>
    innerEntry comment template entry ++
      entrySegments comment template separator (next :: entries)

theorem entrySegments_ne_nil (comment : Comment) (template separator : Text)
    (entry : List FieldSpec × Body) (entries : List (List FieldSpec × Body)) :
    entrySegments comment template separator (entry :: entries) ≠ [] := by
  cases entries with
  | nil => simp [entrySegments]
  | cons next entries =>
    rw [entrySegments]
    exact List.append_ne_nil_of_left_ne_nil (innerEntry_ne_nil comment template entry) _

theorem entryGap_cases (template : Text) :
    entryGap template = ['\n'] ∨ entryGap template = ['\n', '\n'] := by
  unfold entryGap
  split
  · exact .inl rfl
  · exact .inr rfl

theorem raw_innerEntry (comment : Comment) (template : Text) (entry : List FieldSpec × Body) :
    (innerEntry comment template entry).flatMap Segment.raw =
      comment.headerLine entry.1 ++ entry.2.text ++ entryGap template := by
  unfold innerEntry
  split
  · rename_i hgap
    simp [Segment.raw, hgap]
  · rename_i hgap
    have hdouble := (entryGap_cases template).resolve_left hgap
    split
    · rename_i hnil
      simp [Segment.raw, hdouble, hnil]
    · simp [Segment.raw, hdouble]

theorem raw_entrySegments (comment : Comment) (template separator : Text)
    (entries : List (List FieldSpec × Body)) :
    (entrySegments comment template separator entries).flatMap Segment.raw =
      Text.join (entryGap template)
        (entries.map fun entry => comment.headerLine entry.1 ++ entry.2.text) ++ separator := by
  induction entries with
  | nil =>
    unfold entrySegments
    split
    · rename_i hnil
      rw [hnil]
      rfl
    · simp [Segment.raw, Text.join]
  | cons entry entries ih =>
    cases entries with
    | nil => simp [entrySegments, Segment.raw, Text.join_singleton]
    | cons next entries =>
      have hjoin : Text.join (entryGap template) ((entry :: next :: entries).map
            fun entry => comment.headerLine entry.1 ++ entry.2.text) =
          comment.headerLine entry.1 ++ entry.2.text ++ entryGap template ++
            Text.join (entryGap template) ((next :: entries).map
              fun entry => comment.headerLine entry.1 ++ entry.2.text) :=
        Text.join_cons (by simp)
      rw [entrySegments, List.flatMap_append, ih, raw_innerEntry, hjoin]
      simp only [List.append_assoc]

/-- What the entries of a list are rendered as, one for each ordinal. The text of an entry is the
template with the ordinal in its names. -/
def EntriesRendered (settings : Settings) (values : Record) (template path : Text)
    (entries : List (List FieldSpec × Body)) : Prop :=
  List.Forall₂ (fun ordinal entry =>
      Rendered settings values (entryText ordinal template) entry.1 entry.2)
    (values.ordinalsAt path) entries

theorem renderList_eq_ok_iff {template path separator : Text} :
    renderList settings values n template path separator = .ok out ↔
      ∃ entries, EntriesRendered settings values template path entries ∧
        out = (entrySegments settings.comment template separator entries).flatMap Segment.raw := by
  have hmap {texts : List Text} :
      (values.ordinalsAt path).mapM (fun ordinal =>
          renderText settings values n (entryText ordinal template)) = .ok texts ↔
        ∃ entries, EntriesRendered settings values template path entries ∧
          texts = entries.map fun entry => settings.comment.headerLine entry.1 ++ entry.2.text := by
    rw [mapM_eq_ok_iff]
    unfold EntriesRendered
    -- the induction is on the ordinals, which need not be those of the list any more
    generalize values.ordinalsAt path = ordinals
    constructor
    · intro h
      induction h with
      | nil => exact ⟨[], .nil, rfl⟩
      | cons hentry _ ih =>
        obtain ⟨specs, body, hrendered, rfl⟩ := renderText_eq_ok_iff.1 hentry
        obtain ⟨entries, hentries, rfl⟩ := ih
        exact ⟨(specs, body) :: entries, .cons hrendered hentries, rfl⟩
    · rintro ⟨entries, hentries, rfl⟩
      induction hentries with
      | nil => exact .nil
      | cons hentry _ ih =>
        exact .cons (renderText_eq_ok_iff.2 ⟨_, _, hentry, rfl⟩) ih
  simp only [renderList, bind_eq_ok_iff]
  constructor
  · rintro ⟨texts, htexts, h⟩
    cases h
    obtain ⟨entries, hentries, rfl⟩ := hmap.1 htexts
    exact ⟨entries, hentries, (raw_entrySegments ..).symm⟩
  · rintro ⟨entries, hentries, rfl⟩
    exact ⟨_, hmap.2 ⟨entries, hentries, rfl⟩, congrArg Except.ok (raw_entrySegments ..).symm⟩

/-! ### Segments -/

/-- The names of the placeholders in the text of a block. -/
def blockNames (block : Block) : List Name := (Template.ofText block.text).names

/-- What a segment of a template becomes: it is copied if there is no placeholder in it, filled
if its names belong to no list, and else kept as a list template before the entries. -/
inductive Expands (settings : Settings) (values : Record) : Segment → List Segment → Prop
  | directive (found : Directive) (raw : Text) (line : Nat) :
      Expands settings values (.directive found raw line) [.directive found raw line]
  | copied {block : Block} (names : blockNames block = []) :
      Expands settings values (.block block) [.block block]
  | filled {block : Block} {specs : List FieldSpec} {body : Body}
      (names : blockNames block ≠ [])
      (found : ListTemplate.listPath 0 (blockNames block) = .ok none)
      (rendered : Rendered settings values block.text specs body) :
      Expands settings values (.block block)
        [.block (filled settings.comment specs body.text block.separator)]
  | list {block : Block} {path : Text} {entries : List (List FieldSpec × Body)}
      (found : ListTemplate.listPath 0 (blockNames block) = .ok (some path))
      (rendered : EntriesRendered settings values block.text path entries) :
      Expands settings values (.block block)
        (.directive (.listTemplate block.text)
            (Directive.listLine settings.comment block.text) 0 ::
          entrySegments settings.comment block.text block.separator entries)

section Blocks

variable {block : Block} {path : Text}

theorem names_ne_nil_of_listPath
    (h : ListTemplate.listPath 0 (blockNames block) = .ok (some path)) :
    blockNames block ≠ [] := by
  intro hnil
  rw [hnil] at h
  cases h

/-- A block without placeholders is copied. -/
theorem renderBlock_of_names_eq_nil (h : blockNames block = []) :
    renderBlock settings values block = .ok block.raw := by
  rw [renderBlock, show (Template.ofText block.text).names = [] from h]

theorem renderBlock_eq_bind (h : blockNames block ≠ []) :
    renderBlock settings values block =
      (ListTemplate.listPath block.textLine (blockNames block) >>= fun
        | none => do
          return (← renderText settings values block.textLine block.text) ++ block.separator
        | some path => do
          return Directive.listLine settings.comment block.text ++
            (← renderList settings values block.textLine block.text path block.separator)) := by
  unfold renderBlock
  split
  · rename_i hnames
    exact absurd hnames h
  · rfl

/-- A block with placeholders that belong to no list becomes one block. -/
theorem renderBlock_filled_eq_ok_iff (hnames : blockNames block ≠ [])
    (hpath : ListTemplate.listPath 0 (blockNames block) = .ok none) :
    renderBlock settings values block = .ok out ↔
      ∃ specs body, Rendered settings values block.text specs body ∧
        out = settings.comment.headerLine specs ++ body.text ++ block.separator := by
  rw [renderBlock_eq_bind hnames, ListTemplate.listPath_ok_of_ok hpath]
  show (renderText settings values block.textLine block.text >>= fun filled =>
    pure (filled ++ block.separator)) = .ok out ↔ _
  simp only [bind_eq_ok_iff, renderText_eq_ok_iff]
  constructor
  · rintro ⟨_, ⟨specs, body, hrendered, rfl⟩, h⟩
    cases h
    exact ⟨specs, body, hrendered, rfl⟩
  · rintro ⟨specs, body, hrendered, rfl⟩
    exact ⟨_, ⟨specs, body, hrendered, rfl⟩, rfl⟩

/-- A block with placeholders that belong to a list becomes a list template and the entries. -/
theorem renderBlock_list_eq_ok_iff
    (hpath : ListTemplate.listPath 0 (blockNames block) = .ok (some path)) :
    renderBlock settings values block = .ok out ↔
      ∃ entries, EntriesRendered settings values block.text path entries ∧
        out = Directive.listLine settings.comment block.text ++
          (entrySegments settings.comment block.text block.separator entries).flatMap
            Segment.raw := by
  rw [renderBlock_eq_bind (names_ne_nil_of_listPath hpath), ListTemplate.listPath_ok_of_ok hpath]
  show (renderList settings values block.textLine block.text path block.separator >>= fun list =>
    pure (Directive.listLine settings.comment block.text ++ list)) = .ok out ↔ _
  simp only [bind_eq_ok_iff, renderList_eq_ok_iff]
  constructor
  · rintro ⟨_, ⟨entries, hentries, rfl⟩, h⟩
    cases h
    exact ⟨entries, hentries, rfl⟩
  · rintro ⟨entries, hentries, rfl⟩
    exact ⟨_, ⟨entries, hentries, rfl⟩, rfl⟩

/-- A block is only rendered when its names belong to one list, or to none. -/
theorem exists_listPath_of_renderBlock (hnames : blockNames block ≠ [])
    (h : renderBlock settings values block = .ok out) :
    ∃ found, ListTemplate.listPath 0 (blockNames block) = .ok found := by
  rw [renderBlock_eq_bind hnames, bind_eq_ok_iff] at h
  obtain ⟨found, hpath, -⟩ := h
  exact ⟨found, ListTemplate.listPath_ok_of_ok hpath⟩

end Blocks

/-- **A segment is rendered when it expands**, as the texts of what it becomes. -/
theorem renderSegment_eq_ok_iff {segment : Segment} :
    renderSegment settings values segment = .ok out ↔
      ∃ segments, Expands settings values segment segments ∧
        segments.flatMap Segment.raw = out := by
  constructor
  · intro h
    cases segment with
    | directive found raw line =>
      exact ⟨_, .directive found raw line, by simpa [Segment.raw] using Except.ok.inj h⟩
    | block b =>
      have hblock : renderBlock settings values b = .ok out := h
      -- the cases are those of the renderer: no names, names of no list, names of a list
      by_cases hnames : blockNames b = []
      · rw [renderBlock_of_names_eq_nil hnames] at hblock
        exact ⟨_, .copied hnames, by simpa [Segment.raw] using Except.ok.inj hblock⟩
      · obtain ⟨found, hpath⟩ := exists_listPath_of_renderBlock hnames hblock
        cases found with
        | none =>
          obtain ⟨specs, body, hrendered, rfl⟩ :=
            (renderBlock_filled_eq_ok_iff hnames hpath).1 hblock
          exact ⟨_, .filled hnames hpath hrendered, by simp [Segment.raw]⟩
        | some path =>
          obtain ⟨entries, hentries, rfl⟩ := (renderBlock_list_eq_ok_iff hpath).1 hblock
          exact ⟨_, .list hpath hentries, by simp [Segment.raw]⟩
  · rintro ⟨segments, hexpands, rfl⟩
    cases hexpands with
    | directive found raw line => simp [renderSegment, Segment.raw]
    | copied hnames => simp [renderSegment, renderBlock_of_names_eq_nil hnames, Segment.raw]
    | filled hnames hpath hrendered =>
      exact (renderBlock_filled_eq_ok_iff hnames hpath).2
        ⟨_, _, hrendered, by simp [Segment.raw]⟩
    | list hpath hentries =>
      exact (renderBlock_list_eq_ok_iff hpath).2 ⟨_, hentries, by simp [Segment.raw]⟩

/-- **A document is rendered exactly when each segment of its template expands.** -/
theorem render_eq_ok_iff {template document : Text} :
    render settings values template = .ok document ↔
      ∃ scanned segments expanded, settings.scan template = .ok scanned ∧
        Segmentation.ofText scanned.comment template = ⟨segments, none⟩ ∧
        List.Forall₂ (Expands scanned values) segments expanded ∧
        document = expanded.flatten.flatMap Segment.raw := by
  -- the texts are needed one by one, as they were rendered, and joined, as the document is
  have hmap {scanned : Settings} {segments : List Segment} {texts : List Text} :
      segments.mapM (renderSegment scanned values) = .ok texts ↔
        ∃ expanded, List.Forall₂ (Expands scanned values) segments expanded ∧
          texts.flatten = expanded.flatten.flatMap Segment.raw ∧
          texts = expanded.map (List.flatMap Segment.raw) := by
    rw [mapM_eq_ok_iff]
    constructor
    · intro h
      induction h with
      | nil => exact ⟨[], .nil, rfl, rfl⟩
      | cons hsegment _ ih =>
        obtain ⟨new, hnew, rfl⟩ := renderSegment_eq_ok_iff.1 hsegment
        obtain ⟨expanded, hexpanded, hflatten, rfl⟩ := ih
        exact ⟨new :: expanded, .cons hnew hexpanded, by simp [hflatten], rfl⟩
    · rintro ⟨expanded, hexpanded, -, rfl⟩
      induction hexpanded with
      | nil => exact .nil
      | cons hnew _ ih => exact .cons (renderSegment_eq_ok_iff.2 ⟨_, hnew, rfl⟩) ih
  have hraw (expanded : List (List Segment)) :
      (expanded.map (List.flatMap Segment.raw)).flatten =
        expanded.flatten.flatMap Segment.raw := by
    induction expanded with
    | nil => rfl
    | cons new expanded ih => simp [ih]
  -- The segments are rendered before it is asked whether there was an error in the cut; so both
  -- have to succeed.
  simp only [render, bind_eq_ok_iff]
  constructor
  · rintro ⟨scanned, hscan, texts, htexts, _, hcomplete, h⟩
    cases h
    obtain ⟨expanded, hexpanded, hflatten, -⟩ := hmap.1 htexts
    refine ⟨scanned, _, expanded, hscan, ?_, hexpanded, hflatten⟩
    rw [Segmentation.complete_eq_ok_iff.1 hcomplete]
  · rintro ⟨scanned, segments, expanded, hscan, hsegments, hexpanded, rfl⟩
    refine ⟨scanned, hscan, expanded.map (List.flatMap Segment.raw), ?_, (), ?_, ?_⟩
    · rw [hsegments]
      exact hmap.2 ⟨expanded, hexpanded, hraw expanded, rfl⟩
    · rw [hsegments]
      rfl
    · rw [hraw]
      rfl

/-- Each segment of a template that is rendered expands, under the settings of the template. -/
theorem expands_of_render {template document : Text} {scanned : Settings}
    (hrender : render settings values template = .ok document)
    (hscan : settings.scan template = .ok scanned) :
    ∃ segments expanded, Segmentation.ofText scanned.comment template = ⟨segments, none⟩ ∧
      List.Forall₂ (Expands scanned values) segments expanded ∧
      document = expanded.flatten.flatMap Segment.raw := by
  obtain ⟨scanned', segments, expanded, hscan', hexpanded⟩ := render_eq_ok_iff.1 hrender
  obtain rfl : scanned' = scanned := Except.ok.inj (hscan'.symm.trans hscan)
  exact ⟨segments, expanded, hexpanded⟩

end Document

end FieldedText
