/-
FieldedText/Proofs/ReadBack.lean

What is read from a revised document.

The specs of an accepted block find the new values again, in the text as it was
verified (`slots_revisedText`).  Where the revised document is cut into its revised
segments, each block therefore gives the new texts of its fields, and the records of
the blocks do not get into each other's way when no name of a field is the beginning
of another one's: the data that is read holds the new texts, and nothing else
(`read_revised`).

The verification does not see where a block stands.  A block without text whose new
text would run into the next segment is verified all the same, and its value is not
read back (`revise_header_without_text`).
-/
import FieldedText.Proofs.Merge
import FieldedText.Proofs.Placement
import FieldedText.Proofs.Reading
import FieldedText.Proofs.Unchanged

namespace FieldedText

/-! ### What a record holds -/

namespace Record

variable {r incoming : Record} {entries others : List (Text × Text)} {path t : Text}

/-- A record with these texts at these paths, and nothing else. The second part allows the records
on the way to a text, and nothing beside them. -/
structure Holds (r : Record) (entries : List (Text × Text)) : Prop where
  found : ∀ entry ∈ entries, r.follow? (Path.names entry.1) = some (.scalar (.text entry.2))
  only : ∀ way value, r.follow? way = some value → ∃ entry ∈ entries, way <+: Path.names entry.1

theorem holds_nil : Holds [] [] := by
  refine ⟨by simp, fun way value h => ?_⟩
  cases way with
  | nil => cases h
  | cons name way =>
    rw [follow?_cons] at h
    cases h

/-- What is put apart from all that a record holds comes to it. -/
theorem Holds.put (h : r.Holds entries) (hpath : ∀ name ∈ Path.names path, name ≠ [])
    (hapart : ∀ entry ∈ entries, Path.Apart (Path.names entry.1) (Path.names path)) :
    (r.put path (.scalar (.text t))).Holds (entries ++ [(path, t)]) := by
  refine ⟨?_, ?_⟩
  · rw [List.forall_mem_append, List.forall_mem_singleton]
    refine ⟨fun entry hentry => ?_, follow?_put hpath⟩
    rw [follow?_put_apart hpath (hapart entry hentry).1 (hapart entry hentry).2]
    exact h.found entry hentry
  · intro way value hvalue
    by_cases hon : way <+: Path.names path
    · exact ⟨(path, t), by simp, hon⟩
    · by_cases hbeyond : Path.names path <+: way
      · -- there is nothing beyond the scalar
        obtain ⟨more, rfl⟩ := hbeyond
        have hmore : more ≠ [] := by
          rintro rfl
          exact hon (by simp)
        rw [follow?_beyond (follow?_put hpath) hmore] at hvalue
        cases hvalue
      · rw [follow?_put_apart hpath hon hbeyond] at hvalue
        obtain ⟨entry, hentry, hpre⟩ := h.only way value hvalue
        exact ⟨entry, List.mem_append_left _ hentry, hpre⟩

theorem Holds.foldl_put (h : r.Holds entries)
    (hpath : ∀ entry ∈ others, ∀ name ∈ Path.names entry.1, name ≠ [])
    (hapart : ((entries ++ others).map fun entry => Path.names entry.1).Pairwise Path.Apart) :
    (others.foldl (fun (r : Record) entry => r.put entry.1 (.scalar (.text entry.2))) r).Holds
      (entries ++ others) := by
  induction others generalizing r entries with
  | nil => rwa [List.append_nil]
  | cons entry others ih =>
    obtain ⟨hentry, hothers⟩ := List.forall_mem_cons.1 hpath
    rw [List.append_cons] at hapart ⊢
    refine ih (h.put hentry ?_) hothers hapart
    rw [List.map_append, List.map_append, List.pairwise_append, List.pairwise_append] at hapart
    intro other hother
    exact hapart.1.2.2 _ (List.mem_map_of_mem hother) _ (by simp)

/-- **Records that are apart hold together what each of them holds.** Nothing of the one is
overwritten by the other, and nothing in it is hidden by a scalar of the other. -/
theorem Holds.merge (h : r.Holds entries) (ho : incoming.Holds others)
    (hdistinct : incoming.Distinct)
    (hapart : ∀ entry ∈ entries, ∀ other ∈ others,
      Path.Apart (Path.names entry.1) (Path.names other.1)) :
    (r.merge incoming).Holds (entries ++ others) := by
  refine ⟨?_, ?_⟩
  · rw [List.forall_mem_append]
    refine ⟨fun entry hentry => ?_, fun other hother => ?_⟩
    · rw [follow?_merge_apart hdistinct, h.found entry hentry]
      · rw [Option.eq_none_iff_forall_ne_some]
        intro value hvalue
        obtain ⟨other, hother, hpre⟩ := ho.only _ value hvalue
        exact (hapart entry hentry other hother).1 hpre
      · -- a scalar of the incoming record is one of its entries, and these are all apart
        intro pre hpre s hs
        obtain ⟨other, hother, more, hmore⟩ := ho.only pre _ hs
        by_cases hnil : more = []
        · rw [hnil, List.append_nil] at hmore
          rw [hmore] at hpre
          exact (hapart entry hentry other hother).2 hpre
        · have hbeyond := follow?_beyond hs hnil
          rw [hmore, ho.found other hother] at hbeyond
          cases hbeyond
    · have hmerged := follow?_merge_of_some (r := r) hdistinct (ho.found other hother)
      rwa [Value.mergedInto] at hmerged
  · intro way value hvalue
    obtain ⟨v, hv⟩ | ⟨v, hv⟩ := exists_of_follow?_merge hdistinct hvalue
    · obtain ⟨other, hother, hpre⟩ := ho.only way v hv
      exact ⟨other, List.mem_append_right _ hother, hpre⟩
    · obtain ⟨entry, hentry, hpre⟩ := h.only way v hv
      exact ⟨entry, List.mem_append_left _ hentry, hpre⟩

end Record

namespace Document

variable {settings scanned : Settings} {values r : Record} {document next : Text}
  {comment : Comment} {block : Block} {segment : Segment} {segments : List Segment}

/-! ### Segments -/

/-- The names of the fields of a segment. -/
def fieldNames : Segment → List Name
  | .directive _ _ _ => []
  | .block block => block.specs.map FieldSpec.name

/-- A segment of which every spec finds a value. A spec that finds none is left out in a revision,
and nothing is read for it. -/
abbrev Found : Segment → Prop :=
  Segment.Satisfies (fun _ => True) fun block =>
    Body.finding [] block.specs block.text = block.specs

/-- The new texts of some fields. -/
def revisedEntries (values : Record) (names : List Name) : List (Text × Text) :=
  names.map fun name => (name, revisedValue values name)

/-- **The specs of an accepted block find the new values.** -/
theorem slots_revisedText (haccepted : Accepted comment values (.block block))
    (hfound : Found (.block block)) :
    (Body.locate [] block.specs (revisedText values block)).slots.map
        (fun slot => (slot.name, slot.value)) =
      revisedEntries values (fieldNames (.block block)) := by
  by_cases hspecs : block.specs = []
  · rw [hspecs, fieldNames, hspecs]
    rfl
  · obtain ⟨specs, hverify⟩ := haccepted hspecs
    have hspecsFrom := (Body.verify_eq_ok_iff.1 hverify).2
    have heq := Body.eq_finding_of_chosen (Body.chosen_of_specsFrom hspecsFrom)
    obtain rfl : specs = block.specs := heq.trans hfound
    have hchosen := Body.chosen_of_specsFrom hspecsFrom
    have hlocate : Body.locate [] block.specs (revisedText values block) =
        ⟨Body.framed _ block.specs, _⟩ := Body.locate_of_specsFrom hspecsFrom
    rw [hlocate]
    refine (map_framed hchosen).trans ?_
    rw [revisedEntries, fieldNames, hchosen.names]
    simp [Body.fill]

/-- The names of fields of which none is the beginning of another one's, and none has an empty
part. Otherwise one field's text would be stored in the place of another one's record. -/
structure Separate (names : List Name) : Prop where
  parts : ∀ name ∈ names, ∀ part ∈ Path.names name, part ≠ []
  apart : (names.map Path.names).Pairwise Path.Apart

theorem map_fst_revisedEntries (values : Record) (names : List Name) :
    (revisedEntries values names).map Prod.fst = names := by
  rw [revisedEntries, List.map_map]
  exact List.map_id names

theorem Separate.of_append {names more : List Name} (h : Separate (names ++ more)) :
    Separate names := by
  have hapart := h.apart
  rw [List.map_append, List.pairwise_append] at hapart
  exact ⟨fun name hname => h.parts name (List.mem_append_left more hname), hapart.1⟩

/-- The texts that the specs of a segment find in it, under the names of their fields. -/
def foundEntries : Segment → List (Text × Text)
  | .directive _ _ _ => []
  | .block block =>
    (Body.locate [] block.specs block.text).slots.map fun slot => (slot.name, slot.value)

/-- **A segment adds what is found in it** to what was read before it. -/
theorem holds_readSegment {entries : List (Text × Text)}
    (hseparate : Separate ((entries ++ foundEntries segment).map Prod.fst))
    (h : r.Holds entries) : (readSegment r segment).Holds (entries ++ foundEntries segment) := by
  cases segment with
  | directive found raw line =>
    rw [foundEntries, List.append_nil]
    exact h
  | block b =>
    have hnames {others : List (Text × Text)} :
        others.map (fun entry => Path.names entry.1) =
          (others.map Prod.fst).map Path.names := by
      rw [List.map_map]
      rfl
    have hparts : ∀ entry ∈ foundEntries (.block b), ∀ part ∈ Path.names entry.1, part ≠ [] :=
      fun entry hentry => hseparate.parts entry.1
        (List.mem_map_of_mem (List.mem_append_right entries hentry))
    -- Three facts are in it: the entries so far are apart from each other, the new ones are, and
    -- each of the ones from each of the others.
    have hapart := hseparate.apart
    rw [← hnames, List.map_append, List.pairwise_append] at hapart
    have hblock : (readBlock b).Holds (foundEntries (.block b)) := by
      rw [readBlock_eq]
      refine Record.holds_nil.foldl_put hparts ?_
      rw [List.nil_append]
      exact hapart.2.1
    rw [readSegment_block]
    refine h.merge hblock (distinct_readBlock b) fun entry hentry other hother => ?_
    exact hapart.2.2 _ (List.mem_map_of_mem hentry) _ (List.mem_map_of_mem hother)

/-- **Segments hold together what is found in each of them.** -/
theorem holds_foldl_foundEntries {entries : List (Text × Text)}
    (hseparate : Separate ((entries ++ segments.flatMap foundEntries).map Prod.fst))
    (h : r.Holds entries) :
    (segments.foldl readSegment r).Holds (entries ++ segments.flatMap foundEntries) := by
  induction segments generalizing r entries with
  | nil =>
    rw [List.flatMap_nil, List.append_nil]
    exact h
  | cons segment segments ih =>
    rw [List.flatMap_cons, ← List.append_assoc] at hseparate ⊢
    have hfirst : Separate ((entries ++ foundEntries segment).map Prod.fst) := by
      rw [List.map_append] at hseparate
      exact hseparate.of_append
    exact ih hseparate (holds_readSegment hfirst h)

/-- In a revised segment the new texts of its fields are found. -/
theorem foundEntries_revisedSegment (haccepted : Accepted comment values segment)
    (hfound : Found segment) :
    foundEntries (revisedSegment values segment) =
      revisedEntries values (fieldNames segment) := by
  cases segment with
  | directive found raw line => rfl
  | block b => exact slots_revisedText haccepted hfound

/-- **The revised segments hold the new texts of all fields.** -/
theorem holds_foldl_readSegment {names : List Name}
    (haccepted : ∀ segment ∈ segments, Accepted comment values segment)
    (hfound : ∀ segment ∈ segments, Found segment)
    (hseparate : Separate (names ++ segments.flatMap fieldNames))
    (h : r.Holds (revisedEntries values names)) :
    ((segments.map (revisedSegment values)).foldl readSegment r).Holds
      (revisedEntries values (names ++ segments.flatMap fieldNames)) := by
  have hentries : revisedEntries values (names ++ segments.flatMap fieldNames) =
      revisedEntries values names ++
        (segments.map (revisedSegment values)).flatMap foundEntries := by
    rw [revisedEntries, List.map_append, List.map_flatMap, List.flatMap_map]
    refine congrArg _ (List.flatMap_congr fun segment hsegment => ?_)
    exact (foundEntries_revisedSegment (haccepted segment hsegment)
      (hfound segment hsegment)).symm
  rw [← map_fst_revisedEntries values (names ++ _), hentries] at hseparate
  rw [hentries]
  exact holds_foldl_foundEntries hseparate h

/-! ### Documents -/

/-- **What is put into a document is read from it again, and nothing else**, when every spec finds
a value, the names of the fields are separate, and the new texts can stand where they are put. The
last condition is the one that revision does not check, and without it the statement fails
(`revise_header_without_text`). -/
theorem read_revised (hrevise : revise settings values document = .ok next)
    (hscan : settings.scan document = .ok scanned)
    (hunlisted : ∀ segment ∈ (Segmentation.ofText scanned.comment document).segments,
      Unlisted segment)
    (hfound : ∀ segment ∈ (Segmentation.ofText scanned.comment document).segments, Found segment)
    (hparts : ∀ name ∈ (Segmentation.ofText scanned.comment document).segments.flatMap fieldNames,
      ∀ part ∈ Path.names name, part ≠ [])
    (hapart : (((Segmentation.ofText scanned.comment document).segments.flatMap fieldNames).map
      Path.names).Pairwise Path.Apart)
    (hfits : Fits values (Segmentation.ofText scanned.comment document).segments) :
    ∃ result, read settings next = .ok result ∧
      (∀ name ∈ (Segmentation.ofText scanned.comment document).segments.flatMap fieldNames,
        result.scalarAt? name = some (.text (revisedValue values name))) ∧
      ∀ way value, result.follow? way = some value →
        ∃ name ∈ (Segmentation.ofText scanned.comment document).segments.flatMap fieldNames,
          way <+: Path.names name := by
  obtain ⟨scanned', hscan', hrevise⟩ := revise_eq_ok_iff.1 hrevise
  obtain rfl : scanned' = scanned := Except.ok.inj (hscan'.symm.trans hscan)
  obtain ⟨hcomplete, haccepted, rfl⟩ := (reviseFrom_eq_ok_iff_accepted hunlisted).1 hrevise
  have hsegments := Segmentation.complete_eq_ok_iff.1 hcomplete
  generalize (Segmentation.ofText scanned'.comment document).segments = segments at *
  -- the new document is cut into the revised segments, but for the numbers of their lines, which
  -- play no part in reading
  obtain ⟨cut, hcut, hmap, hscanned⟩ := ofText_revised hscan hsegments
    (fun segment hsegment => (haccepted segment hsegment).verified) hfits
  have hread : read settings ((segments.map (revisedSegment values)).flatMap Segment.raw) =
      .ok ((segments.map (revisedSegment values)).foldl readSegment []) := by
    rw [read, hscanned, ← foldl_readSegment_unnumbered, ← hmap, foldl_readSegment_unnumbered]
    simp [bind, Except.bind, hcut, Segmentation.complete, pure, Except.pure]
  -- the segments hold the new texts together, so each of them is found under its name and nothing
  -- else is there
  have hseparate : Separate ([] ++ segments.flatMap fieldNames) := ⟨hparts, hapart⟩
  have hholds := holds_foldl_readSegment haccepted hfound hseparate Record.holds_nil
  rw [List.nil_append] at hholds
  refine ⟨_, hread, ?_, ?_⟩
  · intro name hname
    rw [Record.scalarAt?, Record.lookup, hholds.found _ (List.mem_map_of_mem hname)]
    rfl
  · intro way value hvalue
    obtain ⟨entry, hentry, hpre⟩ := hholds.only way value hvalue
    obtain ⟨name, hname, rfl⟩ := List.mem_map.1 hentry
    exact ⟨name, hname, hpre⟩

/-- The last block may have no text yet, and gets one that is read back. -/
theorem read_header_at_end :
    revise .standard
        [("a".toList, .record [("b".toList, .scalar (.text "you".toList))]),
          ("c".toList, .scalar (.text "Bye".toList))]
        ("<!--\x7b\x7ba.b:pattern=\"[%s]\"\x7d\x7d-->\nSee [me] here.\n".toList ++
          "<!--\x7b\x7bc\x7d\x7d-->\n".toList) =
      .ok ("<!--\x7b\x7ba.b:pattern=\"[%s]\"\x7d\x7d-->\nSee [you] here.\n".toList ++
        "<!--\x7b\x7bc\x7d\x7d-->\nBye".toList) ∧
    ∃ result,
      read .standard ("<!--\x7b\x7ba.b:pattern=\"[%s]\"\x7d\x7d-->\nSee [you] here.\n".toList ++
        "<!--\x7b\x7bc\x7d\x7d-->\nBye".toList) = .ok result ∧
      result.scalarAt? "a.b".toList = some (.text "you".toList) ∧
      result.scalarAt? "c".toList = some (.text "Bye".toList) := by
  have hrevise : revise .standard
      [("a".toList, .record [("b".toList, .scalar (.text "you".toList))]),
        ("c".toList, .scalar (.text "Bye".toList))]
      ("<!--\x7b\x7ba.b:pattern=\"[%s]\"\x7d\x7d-->\nSee [me] here.\n".toList ++
        "<!--\x7b\x7bc\x7d\x7d-->\n".toList) =
      .ok ("<!--\x7b\x7ba.b:pattern=\"[%s]\"\x7d\x7d-->\nSee [you] here.\n".toList ++
        "<!--\x7b\x7bc\x7d\x7d-->\nBye".toList) := by
    decide +kernel
  have hscan : Settings.standard.scan
      ("<!--\x7b\x7ba.b:pattern=\"[%s]\"\x7d\x7d-->\nSee [me] here.\n".toList ++
        "<!--\x7b\x7bc\x7d\x7d-->\n".toList) = .ok .standard := by
    decide +kernel
  obtain ⟨result, hread, hvalues, -⟩ := read_revised hrevise hscan (by decide +kernel)
    (by decide +kernel) (by decide +kernel) (by decide +kernel) (by decide +kernel)
  refine ⟨hrevise, result, hread, ?_, ?_⟩
  · exact (hvalues "a.b".toList (by decide +kernel)).trans (by decide +kernel)
  · exact (hvalues "c".toList (by decide +kernel)).trans (by decide +kernel)

/-- The first text of a block that another header follows runs into that header, and both values
are lost. All specs find their values before, and the revision succeeds. -/
theorem revise_header_without_text :
    (∀ segment ∈ (Segmentation.ofText .standard
        ("<!--\x7b\x7ba\x7d\x7d-->\n".toList ++
          "<!--\x7b\x7bb:pattern=\"[%s]\"\x7d\x7d-->\n[y]\n".toList)).segments,
      Unlisted segment ∧ Found segment) ∧
    revise .standard
        [("a".toList, .scalar (.text "x".toList)), ("b".toList, .scalar (.text "z".toList))]
        ("<!--\x7b\x7ba\x7d\x7d-->\n".toList ++
          "<!--\x7b\x7bb:pattern=\"[%s]\"\x7d\x7d-->\n[y]\n".toList) =
      .ok ("<!--\x7b\x7ba\x7d\x7d-->\nx".toList ++
        "<!--\x7b\x7bb:pattern=\"[%s]\"\x7d\x7d-->\n[z]\n".toList) ∧
    read .standard ("<!--\x7b\x7ba\x7d\x7d-->\nx".toList ++
        "<!--\x7b\x7bb:pattern=\"[%s]\"\x7d\x7d-->\n[z]\n".toList) =
      .ok [("a".toList, .scalar (.text
        "x<!--\x7b\x7bb:pattern=\"[%s]\"\x7d\x7d-->\n[z]".toList))] := by
  decide +kernel

end Document

end FieldedText
