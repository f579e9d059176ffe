/-
FieldedText/Proofs/Exchange.lean

Plain structures, carried by documents.

A template has one placeholder for each field of a structure.  The records of its
blocks then have the text of a scalar under the name of its field, and nothing else
comes under that name; of a sequence each entry has its own record, and these are
merged in their order (`Carries.foldl_mergedInto`).  So the structure is read from the
document that it was put into, if the document has anything of each field
(`readAs_ofDatum_iff`).

Of a sequence without elements a document has nothing.  Where a structure has one, the
document is written, and no structure is read from it (`readAs_ofDatum_empty`).
-/
import FieldedText.Binding.Exchange
import FieldedText.Proofs.Plain
import FieldedText.Proofs.Reading

namespace FieldedText

namespace Document

variable {settings scanned : Settings} {values r : Record} {names : List Name} {name : Name}
  {path template document : Text} {segment : Segment} {segments : List Segment}
  {x : PlainStruct} {content : Content} {items : List Text}

/-! ### Texts under names -/

section Parted

variable (h : Path.Parted names)

include h

theorem get?_renderedRecord_apart (hname : ∀ path ∈ names, (Path.names path).head? ≠ some name) :
    (renderedRecord settings values names).get? name = none := by
  rw [renderedRecord_eq, Record.get?_foldl_put_apart]
  · rfl
  · exact List.forall_mem_map.2 h.nonempty
  · exact List.forall_mem_map.2 hname

theorem exists_get?_renderedRecord (settings : Settings) (values : Record) (hpath : path ∈ names)
    (hname : (Path.names path).head? = some name) :
    ∃ r : Record, r.get? name = none ∧
      (renderedRecord settings values names).get? name =
        (r.put path (.scalar (.text (renderedValue settings values path)))).get? name := by
  rw [renderedRecord_eq]
  refine Record.exists_get?_foldl_put ?_ (List.mem_map.2 ⟨path, hpath, rfl⟩) hname
  rw [List.map_map]
  exact (List.map_id names).symm ▸ h

/-- A text that is rendered for a name of one part is under that name. -/
theorem get?_renderedRecord (hpath : path ∈ names) (hname : Path.names path = [name]) :
    (renderedRecord settings values names).get? name =
      some (.scalar (.text (renderedValue settings values path))) := by
  obtain ⟨r, -, hget⟩ :=
    exists_get?_renderedRecord h settings values hpath (congrArg List.head? hname)
  have hput : (r.put path (.scalar (.text (renderedValue settings values path)))).follow?
      (Path.names path) = _ := Record.follow?_put (h.nonempty path hpath)
  rw [hname] at hput
  exact hget.trans hput

/-- A text that is rendered for a name of two parts is all that is under the first one. -/
theorem get?_renderedRecord_within {within : Name} (hpath : path ∈ names)
    (hname : Path.names path = [name, within]) :
    (renderedRecord settings values names).get? name =
      some (.record [(within, .scalar (.text (renderedValue settings values path)))]) := by
  obtain ⟨r, hnone, hget⟩ :=
    exists_get?_renderedRecord h settings values hpath (congrArg List.head? hname)
  exact hget.trans (Record.get?_put_within (h.nonempty path hpath) hname hnone)

end Parted

/-! ### The fields of a segment -/

/-- The names of the placeholders of a segment. -/
def placeholderNames : Segment → List Name
  | .directive _ _ _ => []
  | .block block => blockNames block

/-- A segment from which nothing comes under a name when it is copied. A segment with placeholders
is rendered anew, and brings in what its placeholders name. -/
abbrev Lacks (name : Name) : Segment → Prop :=
  Segment.Satisfies (fun _ => True) fun block =>
    blockNames block = [] → (readBlock block).get? name = none

/-- A segment of a template with placeholders for fields of a structure, at most one for each of
them. Nothing else of the segment, neither a copied block nor another placeholder, comes under the
name of a field. -/
structure Carries (x : PlainStruct) (segment : Segment) : Prop where
  parted : Path.Parted (placeholderNames segment)
  holes : ∀ hole ∈ placeholderNames segment, hole ∈ x.holes
  lacks : ∀ field ∈ x.fields, Lacks field.1 segment
  listed : ∃ found, ListTemplate.listPath 0 (placeholderNames segment) = .ok found

/-- Where the names of a segment stand in one of its records: their first parts are the same, and
so is the whole name of a field. For a list these are the places in one entry. -/
structure Places (names : List Name) (place : Name → Name) : Prop where
  parted : Path.Parted (names.map place)
  heads : ∀ hole ∈ names, (Path.names (place hole)).head? = (Path.names hole).head?
  fixes : ∀ name, IsFieldName name → place name = name

namespace Carries

variable (h : Carries x segment)

include h

theorem places_id : Places (placeholderNames segment) id :=
  ⟨(List.map_id _).symm ▸ h.parted, fun _ _ => rfl, fun _ _ => rfl⟩

theorem places_entryName {ordinal : Name} (ho : Name.isOrdinal ordinal = true) :
    Places (placeholderNames segment) (ListTemplate.entryName ordinal) := by
  have hmarker : ∀ hole ∈ placeholderNames segment,
      (Path.names hole).head? ≠ some ListTemplate.marker := by
    intro hole hhole
    obtain ⟨name, content, hfield, rfl⟩ :=
      PlainStruct.exists_field_of_mem_holes (h.holes hole hhole)
    have hname : IsFieldName name := x.named _ hfield
    rw [Content.head?_names_hole hname, ne_eq, Option.some.injEq]
    exact hname.unmarked
  refine ⟨h.parted.map_entryName ho hmarker,
    fun hole hhole => Path.head?_names_entryName ho (hmarker hole hhole), fun name hname => ?_⟩
  refine ListTemplate.entryName_eq_self ?_
  have hsplit : Text.splitOn '.' name = [name] := hname.names_eq
  rw [hsplit, List.mem_singleton]
  exact hname.unmarked.symm

/-- **The records of a segment with placeholders** are those of its names in some places: the
names themselves, or those of one entry of its list. -/
theorem exists_places (hnames : placeholderNames segment ≠ [])
    (hr : r ∈ contributions settings values segment) :
    ∃ place, Places (placeholderNames segment) place ∧
      r = renderedRecord settings values ((placeholderNames segment).map place) := by
  cases segment with
  | directive found raw line => cases hr
  | block b =>
    obtain ⟨found, hfound⟩ := h.listed
    cases found with
    | none =>
      rw [contributions_of_listPath_eq_none hnames hfound, List.mem_singleton] at hr
      exact ⟨id, h.places_id, hr.trans (congrArg _ (List.map_id _).symm)⟩
    | some path =>
      rw [contributions_of_listPath_eq_some hfound] at hr
      obtain ⟨ordinal, hordinal, rfl⟩ := List.mem_map.1 hr
      exact ⟨_, h.places_entryName (Record.isOrdinal_of_mem_ordinalsAt hordinal), rfl⟩

/-- **Nothing comes under the name of a field** from a segment without its placeholder. -/
theorem get?_eq_none (hfield : (name, content) ∈ x.fields)
    (hhole : content.hole name ∉ placeholderNames segment)
    (hr : r ∈ contributions settings values segment) : r.get? name = none := by
  by_cases hnames : placeholderNames segment = []
  · cases segment with
    | directive found raw line => cases hr
    | block b =>
      rw [contributions_of_names_eq_nil hnames, List.mem_singleton] at hr
      rw [hr]
      exact h.lacks _ hfield hnames
  · obtain ⟨place, hplace, rfl⟩ := h.exists_places hnames hr
    refine get?_renderedRecord_apart hplace.parted (List.forall_mem_map.2 fun hole hmem => ?_)
    rw [hplace.heads hole hmem]
    intro hhead
    exact hhole (PlainStruct.eq_hole_of_head? (h.holes hole hmem) hfield hhead ▸ hmem)

/-- **The text of a scalar** is in each record of the segment with its placeholder. -/
theorem get?_single {plain : Plain} (hfield : (name, .single plain) ∈ x.fields)
    (hhole : name ∈ placeholderNames segment)
    (hr : r ∈ contributions settings x.record segment) :
    r.get? name = some (.scalar plain.scalar.flattened) := by
  obtain ⟨place, hplace, rfl⟩ := h.exists_places (List.ne_nil_of_mem hhole) hr
  have hname : IsFieldName name := x.named _ hfield
  have hmem := List.mem_map_of_mem (f := place) hhole
  rw [hplace.fixes name hname] at hmem
  rw [get?_renderedRecord hplace.parted hmem hname.names_eq,
    PlainStruct.renderedValue_single hfield]
  rfl

/-- A segment with a placeholder gives a record, if no sequence is empty. -/
theorem contributions_ne_nil (settings : Settings) (hnames : placeholderNames segment ≠ [])
    (hfull : ∀ field ∈ x.fields, field.2 ≠ .texts []) :
    contributions settings x.record segment ≠ [] := by
  -- A block that is no list has one record. One that is has a record for each entry, and the list
  -- is that of a sequence.
  cases segment with
  | directive found raw line => exact absurd rfl hnames
  | block b =>
    obtain ⟨found, hfound⟩ := h.listed
    cases found with
    | none =>
      rw [contributions_of_listPath_eq_none hnames hfound]
      exact List.cons_ne_nil _ _
    | some path =>
      -- the path is the name of a sequence, which has elements
      obtain ⟨hole, hhole, hpath⟩ :=
        (ListTemplate.of_prefixFrom_some hfound).resolve_left (by simp)
      obtain ⟨name, content, hfield, rfl⟩ :=
        PlainStruct.exists_field_of_mem_holes (h.holes hole hhole)
      rw [Content.prefixOf_hole (x.named _ hfield)] at hpath
      cases content with
      | single plain => cases hpath
      | texts items =>
        cases hpath
        rw [contributions_of_listPath_eq_some hfound, PlainStruct.ordinalsAt_record hfield, ne_eq,
          List.map_eq_nil_iff]
        cases items with
        | nil => exact absurd rfl (hfull _ hfield)
        | cons item items => exact List.cons_ne_nil _ _

/-- **Each entry of a sequence** has a record of its own, in the order of the sequence. -/
theorem filterMap_get?_texts (hfield : (name, .texts items) ∈ x.fields)
    (hhole : (Content.texts items).hole name ∈ placeholderNames segment) :
    (contributions settings x.record segment).filterMap (fun r => r.get? name) =
      (Content.entries items).map fun entry => .record [entry] := by
  have hname : IsFieldName name := x.named _ hfield
  cases segment with
  | directive found raw line => cases hhole
  | block b =>
    obtain ⟨found, hfound⟩ := h.listed
    -- the placeholder belongs to the list of its field, and so does the block
    have hlist := (ListTemplate.of_prefixFrom hfound).2 _ hhole
    rw [Content.prefixOf_hole hname] at hlist
    obtain rfl : some name = found := by simpa using hlist
    rw [contributions_of_listPath_eq_some hfound, PlainStruct.ordinalsAt_record hfield,
      Record.names, List.map_map, List.filterMap_map, ← List.filterMap_eq_map]
    -- each record of the list has under the name what its own entry holds, and nothing of the
    -- others
    refine List.filterMap_congr fun entry hentry => ?_
    obtain ⟨ordinal, value⟩ := entry
    obtain ⟨t, rfl⟩ := Content.exists_text_of_mem_entries hentry
    have hordinal : ordinal ∈ x.record.ordinalsAt name := by
      rw [PlainStruct.ordinalsAt_record hfield]
      exact List.mem_map_of_mem hentry
    have ho := Record.isOrdinal_of_mem_ordinalsAt hordinal
    have hmem := List.mem_map_of_mem (f := ListTemplate.entryName ordinal) hhole
    rw [Content.entryName_hole_texts hname] at hmem
    exact (get?_renderedRecord_within (h.places_entryName ho).parted hmem
      (hname.names_append (Path.not_mem_of_isOrdinal ho))).trans
        (by rw [PlainStruct.renderedValue_entry hfield ho hentry]; rfl)

/-- **Merging the records of a segment leaves what a field has**, if the segment has the
placeholder of the field, and no sequence is empty. For a sequence that is the list of its texts,
in order. -/
theorem foldl_mergedInto (hfield : (name, content) ∈ x.fields)
    (hhole : content.hole name ∈ placeholderNames segment)
    (hfull : ∀ field ∈ x.fields, field.2 ≠ .texts []) :
    ((contributions settings x.record segment).filterMap fun r => r.get? name).foldl
        (fun existing value => some (value.mergedInto existing)) none = some content.kept := by
  -- The records of a scalar all have the same text, and the last one stays. The records of a
  -- sequence have one entry each, under ordinals of their own, and are merged.
  cases content with
  | single plain =>
    have hsome : ∀ r ∈ contributions settings x.record segment,
        r.get? name = some (.scalar plain.scalar.flattened) :=
      fun r hr => h.get?_single hfield hhole hr
    refine Record.foldl_mergedInto_scalar ?_ (fun value hvalue => ?_) none
    · obtain ⟨r, hr⟩ := List.exists_mem_of_ne_nil _
        (h.contributions_ne_nil settings (List.ne_nil_of_mem hhole) hfull)
      exact List.ne_nil_of_mem (List.mem_filterMap.2 ⟨r, hr, hsome r hr⟩)
    · obtain ⟨r, hr, hget⟩ := List.mem_filterMap.1 hvalue
      exact Option.some.inj (hget.symm.trans (hsome r hr))
  | texts items =>
    rw [h.filterMap_get?_texts hfield hhole]
    have hnames := Content.nodup_names_entries items
    have htexts : ∀ entry ∈ Content.entries items, ∃ t, entry.2 = .scalar (.text t) :=
      fun _ => Content.exists_text_of_mem_entries
    cases hentries : Content.entries items with
    | nil =>
      cases items with
      | nil => exact absurd rfl (hfull _ hfield)
      | cons item items => cases hentries
    | cons first later =>
      rw [hentries] at hnames htexts
      rw [List.map_cons, List.foldl_cons, Record.mergedInto_of_not_record (by simp),
        Record.foldl_mergedInto_entries (r := [first]) hnames, Content.kept, hentries]
      · rfl
      · intro entry hentry
        obtain ⟨t, ht⟩ := htexts entry (List.mem_cons_of_mem first hentry)
        exact ⟨_, ht⟩

end Carries

/-! ### Documents -/

/-- A segment of a template is rendered only if its names belong to one list, or to none. -/
theorem exists_listPath_of_expands {expanded : List Segment}
    (h : Expands settings values segment expanded) :
    ∃ found, ListTemplate.listPath 0 (placeholderNames segment) = .ok found := by
  cases h with
  | directive found raw line => exact ⟨none, rfl⟩
  | copied hnames =>
    rw [placeholderNames, hnames]
    exact ⟨none, rfl⟩
  | filled _ hpath _ => exact ⟨none, hpath⟩
  | list hpath _ => exact ⟨_, hpath⟩

/-- The segments of a template with one placeholder for each field, when it is rendered. -/
theorem carries_of_render (hrender : render settings values template = .ok document)
    (hscan : settings.scan template = .ok scanned)
    (hholes : ((Segmentation.ofText scanned.comment template).segments.flatMap
      placeholderNames).Perm x.holes)
    (hlacks : ∀ segment ∈ (Segmentation.ofText scanned.comment template).segments,
      ∀ field ∈ x.fields, Lacks field.1 segment) :
    ∀ segment ∈ (Segmentation.ofText scanned.comment template).segments, Carries x segment := by
  obtain ⟨segments, expanded, hsegments, hexpands, -⟩ := expands_of_render hrender hscan
  rw [hsegments] at hholes hlacks ⊢
  intro segment hsegment
  have hsub : (placeholderNames segment).Sublist (segments.flatMap placeholderNames) :=
    List.sublist_flatten_of_mem (List.mem_map_of_mem hsegment)
  obtain ⟨new, -, hnew⟩ := exists_of_forall₂_left hexpands hsegment
  exact ⟨(x.parted_holes.perm hholes).sublist hsub,
    fun hole hhole => hholes.mem_iff.1 (hsub.subset hhole), hlacks segment hsegment,
    exists_listPath_of_expands hnew⟩

section Fields

variable (hcarries : ∀ segment ∈ segments, Carries x segment)
  (hholes : (segments.flatMap placeholderNames).Perm x.holes)

include hcarries hholes

/-- The placeholder of a field is in one segment, and only this one has anything under its name.
The placeholders of the template are those of the structure, each of them once. -/
theorem exists_filterMap_get?_contributions (settings : Settings)
    (hfield : (name, content) ∈ x.fields) :
    ∃ segment ∈ segments, content.hole name ∈ placeholderNames segment ∧
      (segments.flatMap (contributions settings x.record)).filterMap (fun r => r.get? name) =
        (contributions settings x.record segment).filterMap fun r => r.get? name := by
  have hmem : content.hole name ∈ segments.flatMap placeholderNames :=
    hholes.mem_iff.2 (List.mem_map.2 ⟨_, hfield, rfl⟩)
  obtain ⟨segment, hsegment, hhole⟩ := List.mem_flatMap.1 hmem
  refine ⟨segment, hsegment, hhole, ?_⟩
  obtain ⟨before, after, rfl⟩ := List.append_of_mem hsegment
  have hnodup : ((before ++ segment :: after).flatMap placeholderNames).Nodup := by
    refine hholes.nodup_iff.2 (List.Nodup.of_map (fun hole => (Path.names hole).head?) ?_)
    exact x.parted_holes.heads
  rw [List.flatMap_append, List.flatMap_cons, List.nodup_append, List.nodup_append] at hnodup
  obtain ⟨-, ⟨-, -, hafter⟩, hbefore⟩ := hnodup
  -- the other segments do not have the placeholder
  have hnone : ∀ others : List Segment, (∀ other ∈ others, Carries x other) →
      content.hole name ∉ others.flatMap placeholderNames →
      (others.flatMap (contributions settings x.record)).filterMap (fun r => r.get? name) = [] := by
    intro others hothers hnot
    rw [List.filterMap_eq_nil_iff]
    intro r hr
    obtain ⟨other, hother, hr⟩ := List.mem_flatMap.1 hr
    exact (hothers other hother).get?_eq_none hfield
      (fun hmem => hnot (List.mem_flatMap.2 ⟨other, hother, hmem⟩)) hr
  obtain ⟨hcb, hca⟩ := List.forall_mem_append.1 hcarries
  rw [List.flatMap_append, List.flatMap_cons, List.filterMap_append, List.filterMap_append,
    hnone before hcb fun hb => hbefore _ hb _ (List.mem_append_left _ hhole) rfl,
    hnone after (List.forall_mem_cons.1 hca).2 fun ha => hafter _ hhole _ ha rfl,
    List.nil_append, List.append_nil]

/-- **What is under the name of a field once all is merged** comes from one segment. -/
theorem get?_foldl_contributions (settings : Settings) (hfield : (name, content) ∈ x.fields) :
    ∃ segment ∈ segments, content.hole name ∈ placeholderNames segment ∧
      ((segments.flatMap (contributions settings x.record)).foldl Record.merge []).get? name =
        ((contributions settings x.record segment).filterMap fun r => r.get? name).foldl
          (fun existing value => some (value.mergedInto existing)) none := by
  obtain ⟨segment, hsegment, hhole, hfilter⟩ :=
    exists_filterMap_get?_contributions hcarries hholes settings hfield
  refine ⟨segment, hsegment, hhole, ?_⟩
  rw [← hfilter]
  refine Record.get?_foldl_merge (fun r hr => ?_) [] name
  obtain ⟨other, -, hr⟩ := List.mem_flatMap.1 hr
  exact (Record.distinct_iff.1 (distinct_of_mem_contributions hr)).1

/-- **What is merged is read as the structure exactly when no sequence is empty.** -/
theorem decode_foldl_contributions_iff (settings : Settings) :
    x.shape.decode (.record
        ((segments.flatMap (contributions settings x.record)).foldl Record.merge [])) =
      .ok x.visit ↔ ∀ field ∈ x.fields, field.2 ≠ .texts [] := by
  constructor
  · rintro hdecode ⟨name, content⟩ hfield rfl
    -- the segment of an empty sequence gives no record
    obtain ⟨segment, hsegment, hhole, hget⟩ :=
      get?_foldl_contributions hcarries hholes settings hfield
    obtain ⟨value, hvalue⟩ := PlainStruct.exists_get?_of_decode hdecode hfield
    rw [hget, (hcarries segment hsegment).filterMap_get?_texts hfield hhole] at hvalue
    cases hvalue
  · intro hfull
    refine PlainStruct.decode_of_get? ?_ fun field hfield => ?_
    · exact Record.nodup_names_foldl_merge (r := []) List.nodup_nil _
    · obtain ⟨segment, hsegment, hhole, hget⟩ :=
        get?_foldl_contributions hcarries hholes settings hfield
      exact hget.trans ((hcarries segment hsegment).foldl_mergedInto hfield hhole hfull)

end Fields

/-- **A structure is read from the document that it was put into exactly when none of its
sequences is empty.** A list without entries leaves its template only, and a reader passes over
that, so the field is not there. -/
theorem readAs_ofDatum_iff (hdocument : ofDatum x.datum template = .ok document)
    (hscan : Settings.standard.scan template = .ok scanned) (hcomment : scanned.comment.Unbraced)
    (hlegible : ∀ segment ∈ (Segmentation.ofText scanned.comment template).segments,
      LegibleSegment segment)
    (hholes : ((Segmentation.ofText scanned.comment template).segments.flatMap
      placeholderNames).Perm x.holes)
    (hlacks : ∀ segment ∈ (Segmentation.ofText scanned.comment template).segments,
      ∀ field ∈ x.fields, Lacks field.1 segment) :
    readAs x.shape document = .ok x.visit ↔ ∀ field ∈ x.fields, field.2 ≠ .texts [] := by
  obtain ⟨values, hvalues, hrender⟩ := bind_eq_ok_iff.1 hdocument
  obtain rfl := PlainStruct.eq_record_of_toRecord hvalues
  rw [readAs, read_render hrender hscan hcomment hlegible]
  have hcarries := carries_of_render hrender hscan hholes hlacks
  exact decode_foldl_contributions_iff hcarries hholes scanned

/-- A structure with a field of each type. -/
def packing : PlainStruct where
  fields := [("who".toList, .single (.text "Ann \x7b\x7bsize\x7d\x7d".toList)),
    ("size".toList, .single (.integer ⟨true, 8⟩ (-7) rfl)),
    ("done".toList, .single (.truth true)), ("mark".toList, .single (.char ' ')),
    ("items".toList, .texts ["tent".toList, [], "rope".toList])]
  nodup := by decide
  named := by decide

/-- A template with a placeholder for each field of `packing`. -/
def packingTemplate : Text :=
  "For \x7b\x7bwho\x7d\x7d, \x7b\x7bsize\x7d\x7d.\n".toList ++
    "Done: \x7b\x7bdone\x7d\x7d [\x7b\x7bmark\x7d\x7d]\n\n- \x7b\x7bitems.*\x7d\x7d\n".toList

/-- The document that the template becomes with the structure in it. -/
def packed : Text :=
  "<!--\x7b\x7bwho:pattern=\"For %s, \"\x7d\x7d \x7b\x7bsize:pattern=\", %s.\"\x7d\x7d ".toList ++
    "\x7b\x7bdone:pattern=\"Done: %s [\"\x7d\x7d ".toList ++
    "\x7b\x7bmark:pattern=\" [%s]\"\x7d\x7d-->\n".toList ++
    "For Ann \x7b\x7bsize\x7d\x7d, -7.\nDone: true [ ]\n\n".toList ++
    "<!--\x7b@list-template=\"- \x7b\x7bitems.*\x7d\x7d\\n\"\x7d\x7d-->\n".toList ++
    "<!--\x7b\x7bitems.0:pattern=\"- %s\"\x7d\x7d-->\n- tent\n\n".toList ++
    "<!--\x7b\x7bitems.1:pattern=\"- %s\"\x7d\x7d-->\n- \n\n".toList ++
    "<!--\x7b\x7bitems.2:pattern=\"- %s\"\x7d\x7d-->\n- rope\n".toList

theorem readAs_packed :
    ofDatum packing.datum packingTemplate = .ok packed ∧
    (∀ field ∈ packing.fields, field.2 ≠ .texts []) ∧
    readAs packing.shape packed = .ok packing.visit := by
  have hdocument : ofDatum packing.datum packingTemplate = .ok packed := by
    decide +kernel
  have hscan : Settings.standard.scan packingTemplate = .ok .standard := by
    decide +kernel
  have hfull : ∀ field ∈ packing.fields, field.2 ≠ .texts [] := by
    simp [packing]
  exact ⟨hdocument, hfull, (readAs_ofDatum_iff hdocument hscan Comment.unbraced_standard
    (by decide +kernel) (by decide +kernel) (by decide +kernel)).2 hfull⟩

/-- A structure with a sequence that is empty. -/
def untagged : PlainStruct where
  fields := [("tags".toList, .texts [])]
  nodup := by decide
  named := by decide

/-- **An empty sequence does not come back.**  The document is written, with the list template alone
in it, and the reader does not find the field. -/
theorem readAs_ofDatum_empty :
    (((Segmentation.ofText .standard "- \x7b\x7btags.*\x7d\x7d\n".toList).segments.flatMap
      placeholderNames).Perm untagged.holes ∧
    ∀ segment ∈ (Segmentation.ofText .standard "- \x7b\x7btags.*\x7d\x7d\n".toList).segments,
      LegibleSegment segment ∧ ∀ field ∈ untagged.fields, Lacks field.1 segment) ∧
    ofDatum untagged.datum "- \x7b\x7btags.*\x7d\x7d\n".toList =
      .ok "<!--\x7b@list-template=\"- \x7b\x7btags.*\x7d\x7d\\n\"\x7d\x7d-->\n".toList ∧
    readAs untagged.shape
        "<!--\x7b@list-template=\"- \x7b\x7btags.*\x7d\x7d\\n\"\x7d\x7d-->\n".toList =
      .error (.binding (.missingField "tags".toList)) := by
  have hread : read .standard
      "<!--\x7b@list-template=\"- \x7b\x7btags.*\x7d\x7d\\n\"\x7d\x7d-->\n".toList = .ok [] := by
    decide +kernel
  refine ⟨by decide +kernel, by decide +kernel, ?_⟩
  rw [readAs, hread]
  rfl

end Document

end FieldedText
