/-
FieldedText/Proofs/Rerendering.lean

A document as a template.

Rendering copies what has no placeholder in it: directives, and blocks with or without a
header.  A text that is cut into such segments to its end is rendered as it stands,
whatever the data (`render_of_unfilled`).  A rendered document is cut into what its
template became, so it is a template of this kind as soon as no placeholder came into the
text of one of its blocks, with a value or from the prose beside one.  The placeholders of
its list templates do not count, since these stand in directives (`render_rendered`).
-/
import FieldedText.Proofs.Rendered

namespace FieldedText.Document

variable {settings scanned : Settings} {values others : Record} {template document : Text}
  {segment : Segment} {segments : List Segment}

/-- A segment that rendering copies: there is no placeholder in the text of its block.
Placeholders in a header are none for rendering, which looks at texts only. -/
abbrev UnfilledSegment : Segment → Prop :=
  Segment.Satisfies (fun _ => True) fun block => blockNames block = []

theorem expands_of_unfilled (h : UnfilledSegment segment) :
    Expands settings values segment [segment] := by
  cases segment with
  | directive found raw line => exact .directive found raw line
  | block block => exact .copied h

/-- **A text without placeholders in its blocks is rendered as it stands.** -/
theorem render_of_unfilled (hscan : settings.scan document = .ok scanned)
    (hsegments : Segmentation.ofText scanned.comment document = ⟨segments, none⟩)
    (h : ∀ segment ∈ segments, UnfilledSegment segment) :
    render settings values document = .ok document := by
  obtain ⟨-, hraw⟩ := Segmentation.chain_of_ofText hsegments
  have hexpands : List.Forall₂ (Expands scanned values) segments (segments.map fun s => [s]) :=
    List.forall₂_map_right_iff.2
      (List.forall₂_same.2 fun segment hsegment => expands_of_unfilled (h segment hsegment))
  have hflatten : (segments.map fun s => [s]).flatten = segments := by
    rw [← List.flatMap_def, List.flatMap_singleton']
  exact render_eq_ok_iff.2
    ⟨scanned, segments, _, hscan, hsegments, hexpands, by rw [hflatten, hraw]⟩

/-- **A rendered document is rendered as it stands**, with any data, unless a placeholder came
into the text of one of its blocks. The condition is on the document and not on the data, since a
value may make a placeholder together with the prose beside it. -/
theorem render_rendered (hrender : render settings values template = .ok document)
    (hscan : settings.scan template = .ok scanned) (hcomment : scanned.comment.Unbraced)
    (hlegible : ∀ segment ∈ (Segmentation.ofText scanned.comment template).segments,
      LegibleSegment segment)
    (hunfilled : ∀ segment ∈ (Segmentation.ofText scanned.comment document).segments,
      UnfilledSegment segment) :
    render settings others document = .ok document := by
  obtain ⟨segments, expanded, hsegments, hexpands, rfl⟩ := expands_of_render hrender hscan
  rw [hsegments] at hlegible
  obtain ⟨result, hresult, -, hscanned⟩ :=
    ofText_of_expands hscan hsegments hexpands hcomment hlegible
  rw [hresult] at hunfilled
  exact render_of_unfilled hscanned hresult hunfilled

/-- A template with a framing of its own, a field, a list, and a paragraph. -/
def noteTemplate : Text :=
  "<<\x7b@template.comment\x7d\x7d>>\n\n".toList ++
    "To \x7b\x7ba\x7d\x7d:\n\n- \x7b\x7bl.*\x7d\x7d\n\nBye.\n".toList

/-- The note. -/
def note : Text :=
  "<<\x7b@template.comment\x7d\x7d>>\n\n".toList ++
    "<<\x7b\x7ba:pattern=\"To %s:\"\x7d\x7d>>\nTo you:\n\n".toList ++
    "<<\x7b@list-template=\"- \x7b\x7bl.*\x7d\x7d\\n\"\x7d\x7d>>\n".toList ++
    "<<\x7b\x7bl.0:pattern=\"- %s\"\x7d\x7d>>\n- tea\n\n".toList ++
    "<<\x7b\x7bl.1:pattern=\"- %s\"\x7d\x7d>>\n- milk\n\nBye.\n".toList

/-- A note with a list in it is not changed by data in which the list is another one. -/
theorem render_note :
    render .standard
        [("a".toList, .scalar (.text "you".toList)),
          ("l".toList, .record [("0".toList, .scalar (.text "tea".toList)),
            ("1".toList, .scalar (.text "milk".toList))])]
        noteTemplate = .ok note ∧
    render .standard
        [("l".toList, .record [("7".toList, .scalar (.truth true))])] note = .ok note := by
  have hscan : Settings.standard.scan noteTemplate =
      .ok { Settings.standard with comment := ⟨"<<".toList, ">>".toList⟩ } := by
    decide +kernel
  refine (fun hrender => ⟨hrender, render_rendered hrender hscan ⟨⟨?_, ?_⟩, ?_, ?_⟩ ?_ ?_⟩) ?_
  all_goals decide +kernel

end FieldedText.Document
