/-
FieldedText/Proofs/Placement.lean

Where a revised block can stand.

A header may have no text under it.  A value that is put there would be the first
text of its block, and would end no line: whatever comes next would come to it.
So such a block may only get a text when nothing comes next, and when its own
header ends a line (`Fits`).  A document of which this is true is cut again into
its revised segments (`ofText_revised`).  It is so in particular where no block
with a header is without text (`fits_of_settled`).
-/
import FieldedText.Proofs.Preservation

namespace FieldedText.Document

variable {settings scanned : Settings} {values : Record} {document : Text} {comment : Comment}
  {block : Block} {segment : Segment} {segments : List Segment}

/-- The new text of a block can stand before the segments that follow: there was a text before,
or there is none now, or nothing follows. -/
def FitsBefore (values : Record) (segments : List Segment) (block : Block) : Prop :=
  block.text ≠ [] ∨ revisedText values block = [] ∨
    segments = [] ∧ block.separator = [] ∧ block.headerText.Complete

instance : Decidable (FitsBefore values segments block) :=
  inferInstanceAs (Decidable (block.text ≠ [] ∨ revisedText values block = [] ∨
    segments = [] ∧ block.separator = [] ∧ block.headerText.Complete))

/-- Every new text can stand where it is put. It is a condition on the list of segments and not on
each of them, since what follows a segment counts. -/
def Fits (values : Record) : List Segment → Prop
  | [] => True
  | .directive _ _ _ :: segments => Fits values segments
  | .block block :: segments => FitsBefore values segments block ∧ Fits values segments

instance decidableFits (values : Record) :
    (segments : List Segment) → Decidable (Fits values segments)
  | [] => inferInstanceAs (Decidable True)
  | .directive _ _ _ :: segments => decidableFits values segments
  | .block block :: segments =>
    haveI := decidableFits values segments
    inferInstanceAs (Decidable (FitsBefore values segments block ∧ Fits values segments))

theorem fits_of_forall
    (h : ∀ block, .block block ∈ segments → block.text ≠ [] ∨ revisedText values block = []) :
    Fits values segments := by
  induction segments with
  | nil => trivial
  | cons segment segments ih =>
    have hlater := ih fun b hb => h b (List.mem_cons_of_mem segment hb)
    cases segment with
    | directive found raw line => exact hlater
    | block b => exact ⟨(h b (List.mem_cons_self ..)).imp_right .inl, hlater⟩

/-- Without specs the text is as it was. -/
theorem text_of_specs_eq_nil (h : block.specs = []) :
    block.text ≠ [] ∨ revisedText values block = [] := by
  rw [revisedText_of_specs_eq_nil h]
  exact ne_or_eq block.text []

theorem fits_of_settled (h : ∀ segment ∈ segments, Settled segment) : Fits values segments := by
  refine fits_of_forall fun b hb => ?_
  by_cases hspecs : b.specs = []
  · exact text_of_specs_eq_nil hspecs
  · exact .inl (h (.block b) hb hspecs)

theorem revisedSegment_of_text_eq (h : revisedText values block = block.text) :
    revisedSegment values (.block block) = .block block := by
  rw [revisedSegment, h]

/-- The last block of a document may get its first text. -/
theorem sound_revised_last (hsound : block.Sound comment)
    (hverified : Verified comment values (.block block)) (hseparator : block.separator = [])
    (hcomplete : block.headerText.Complete) :
    (revisedSegment values (.block block)).Sound comment := by
  refine ⟨⟨hsound.header, hsound.noHeader, prose_revisedText hsound hverified, fun _ => hcomplete⟩,
    hsound.closed, .inl hseparator, ?_⟩
  by_cases hspecs : block.specs = []
  · show block.headerText ++ revisedText values block ++ block.separator ≠ []
    rw [revisedText_of_specs_eq_nil hspecs]
    exact hsound.raw_ne_nil
  · obtain ⟨header, hheader⟩ := Option.ne_none_iff_exists'.1 fun h => hspecs (hsound.noHeader h)
    have hne := (hsound.header header hheader).1.1
    simp [Block.raw, Block.headerText, hheader, hne]

/-- **A revised segment stands where the segment stood, or at the end.** The second case is that
of a block that gets its first text; nothing may come behind it, since that text need not end its
line. -/
theorem stands_or_last (hsound : segment.Sound comment)
    (hverified : Verified comment values segment) (hfits : Fits values (segment :: segments)) :
    Segment.Stands comment segment [revisedSegment values segment] ∨
      segments = [] ∧ (revisedSegment values segment).Sound comment := by
  cases segment with
  | directive found raw line =>
    exact .inl ⟨Segment.replaces_singleton hsound id id id, by simp [revisedSegment]⟩
  | block b =>
    obtain htext | htext | ⟨hlast, hseparator, hcomplete⟩ := hfits.1
    · exact .inl (stands_revisedSegment hsound (fun _ => htext) hverified)
    · by_cases hnil : b.text = []
      · rw [revisedSegment_of_text_eq (htext.trans hnil.symm)]
        exact .inl ⟨Segment.replaces_singleton hsound id id id, by simp⟩
      · exact .inl (stands_revisedSegment hsound (fun _ => hnil) hverified)
    · exact .inr ⟨hlast, sound_revised_last hsound hverified hseparator hcomplete⟩

/-- Revision leaves the beginnings of segments as they are. -/
theorem opens_head?_map (h : ∀ next ∈ segments.head?, next.Opens) :
    ∀ next ∈ (segments.map (revisedSegment values)).head?, next.Opens := by
  cases segments with
  | nil => simp
  | cons segment segments =>
    rintro next ⟨⟩
    cases segment with
    | directive found raw line => trivial
    | block b => exact h (.block b) rfl

/-- **The revised segments of a chain are a chain.** -/
theorem chain_revised (hchain : Segment.Chain comment segments)
    (hverified : ∀ segment ∈ segments, Verified comment values segment)
    (hfits : Fits values segments) :
    Segment.Chain comment (segments.map (revisedSegment values)) := by
  induction hchain with
  | nil => exact .nil
  | @cons segment segments sound complete opens rest ih =>
    obtain ⟨hsegment, hsegments⟩ := List.forall_mem_cons.1 hverified
    have hlater : Fits values segments := by
      cases segment with
      | directive found raw line => exact hfits
      | block b => exact hfits.2
    rw [List.map_cons]
    -- a segment that gets its first text is the last one, and nothing has to be said of what
    -- follows
    obtain hstands | ⟨rfl, hsound⟩ := stands_or_last sound hsegment hfits
    · refine .cons (hstands.chain.sound _ (List.mem_singleton_self _)) ?_ ?_ (ih hsegments hlater)
      · intro hne
        have hraw := complete fun hnil => hne (by rw [hnil, List.map_nil])
        exact hstands.complete hraw _ rfl
      · intro hunseparated
        exact opens_head?_map (opens (hstands.unseparated _ rfl hunseparated))
    · exact .cons hsound (by simp) (by simp) .nil

/-- **A revised document is cut into its revised segments**, and its settings stay. So a second
pass over it sees the segments that the first one wrote, and no others. -/
theorem ofText_revised (hscan : settings.scan document = .ok scanned)
    (hsegments : Segmentation.ofText scanned.comment document = ⟨segments, none⟩)
    (hverified : ∀ segment ∈ segments, Verified scanned.comment values segment)
    (hfits : Fits values segments) :
    ∃ result, Segmentation.ofText scanned.comment
          ((segments.map (revisedSegment values)).flatMap Segment.raw) = ⟨result, none⟩ ∧
      result.map Segment.unnumbered =
        (segments.map (revisedSegment values)).map Segment.unnumbered ∧
      settings.scan ((segments.map (revisedSegment values)).flatMap Segment.raw) =
        .ok scanned := by
  obtain ⟨hchain, hraw⟩ := Segmentation.chain_of_ofText hsegments
  have hnew := chain_revised hchain hverified hfits
  obtain ⟨result, hresult, hmap⟩ := Segmentation.ofText_of_chain hnew
  refine ⟨result, hresult, hmap, ?_⟩
  rw [Settings.scan_eq_ok_iff] at hscan ⊢
  rw [← hraw, hchain.lines_raw] at hscan
  rw [hnew.lines_raw]
  -- each revised segment changes the settings as the segment does: no block changes them
  have hscans : List.Forall₂ (fun segment chain => ∀ before after : Settings,
      before.Scans (chain.flatMap fun segment => Text.lines segment.raw) after ↔
        before.Scans (Text.lines segment.raw) after)
      segments (segments.map fun segment => [revisedSegment values segment]) := by
    rw [List.forall₂_map_right_iff, List.forall₂_same]
    intro segment hsegment before after
    rw [List.flatMap_singleton]
    cases segment with
    | directive found raw line => exact Iff.rfl
    | block b =>
      have hnewSound := hnew.sound _ (List.mem_map_of_mem hsegment)
      exact (Settings.scans_of_unmarked (Block.Sound.unmarked hnewSound)).trans
        (Settings.scans_of_unmarked (Block.Sound.unmarked (hchain.sound _ hsegment))).symm
  have hflatten : (segments.map fun segment => [revisedSegment values segment]).flatten =
      segments.map (revisedSegment values) := by
    rw [← List.flatMap_def, List.map_eq_flatMap]
  rw [← hflatten]
  exact (Settings.scans_flatten_iff hscans).2 hscan

end FieldedText.Document
