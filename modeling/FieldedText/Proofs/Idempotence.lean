/-
FieldedText/Proofs/Idempotence.lean

What a second revision with the same data does.

Revision makes sure that each value it puts in is found again by the spec that found
the value before.  It does not look at the specs that found nothing; one of these may
find something in a new value, and then a second revision changes that as well
(`revise_found_in_value`).  So the second revision leaves the document as it is exactly
when every spec that finds something in a new text finds there what the data has for
its field, and in particular when no spec finds a value in a new text that found none
in the old one (`revise_revised_iff`).

The exact statement has one delicate case.  A text that becomes empty is a text that a
header-only block could get again; but the values in it are then all of them empty, and
a block has no text if the first of its values is the whole text and empty
(`Body.text_fill_eq_nil`).
-/
import FieldedText.Proofs.Placement
import FieldedText.Proofs.Unchanged

namespace FieldedText

namespace Body

variable {before tail t : Text} {spec : FieldSpec} {specs found again : List FieldSpec}
  {slots : List Slot} {n : Nat} {value : Name → Text}

/-! ### Values that are found a second time -/

/-- **What specs find in the new text is what was put there**, if they are those that found
something in the old one. These were tried on the new text, and each found its value again. -/
theorem value_eq_of_finding_eq
    (h : specsFrom n before (locate before specs t).tail
      ((locate before specs t).fill value).slots = .ok found)
    (hfinding : finding before specs ((locate before specs t).fill value).text =
      finding before specs t) :
    ∀ slot ∈ (locate before specs ((locate before specs t).fill value).text).slots,
      slot.value = value slot.name := by
  obtain rfl := eq_finding_of_chosen (chosen_of_specsFrom h)
  -- the specs that found something before find the new values, and the others find nothing
  have hnew : locate before specs ((locate before specs t).fill value).text =
      ⟨framed ((locate before specs t).fill value).slots (finding before specs t),
        (locate before specs t).tail⟩ := by
    rw [← locate_finding, hfinding]
    exact locate_of_specsFrom h
  rw [hnew]
  show ∀ slot ∈ framed ((locate before specs t).fill value).slots (finding before specs t), _
  intro slot hslot
  rw [framed, List.mem_iff_getElem] at hslot
  obtain ⟨i, hi, rfl⟩ := hslot
  simp [fill]

/-! ### Texts that become empty -/

/-- No value is found in an empty text but the empty one, with neither side set. -/
theorem locate_nil (specs : List FieldSpec) :
    (∀ slot ∈ (locate [] specs []).slots, slot.lead = [] ∧ slot.candidates = [.unset]) ∧
      (locate [] specs []).tail = [] := by
  induction specs with
  | nil => exact ⟨by simp [locate], rfl⟩
  | cons spec specs ih =>
    cases hlocate : spec.delimiter.locate? [] [] with
    | none =>
      rw [locate_cons_of_none hlocate]
      exact ih
    | some piece =>
      obtain ⟨lead, old, rest⟩ := piece
      obtain ⟨-, hunset⟩ := Delimiter.of_locate?_nil hlocate
      obtain ⟨rfl, rfl, rfl⟩ : lead = [] ∧ old = [] ∧ rest = [] := by
        simpa using Delimiter.locate?_append hlocate
      rw [locate_cons_of_locate? hlocate, hunset]
      exact ⟨List.forall_mem_cons.2 ⟨⟨rfl, rfl⟩, ih.1⟩, ih.2⟩

/-- Values that are each the whole of an empty line are empty. -/
theorem text_eq_nil_of_specsFrom (htail : tail = [])
    (hslots : ∀ slot ∈ slots, slot.lead = [] ∧ slot.candidates = [.unset])
    (h : specsFrom n [] tail slots = .ok found)
    (hvalue : (Occurrence.whole (text ⟨slots, tail⟩)).value = []) : text ⟨slots, tail⟩ = [] := by
  -- By induction on the values: each is the whole text, which is therefore empty up to its line
  -- end, and the line end belongs to the tail.
  induction slots generalizing found with
  | nil => exact htail
  | cons slot slots ih =>
    obtain ⟨⟨hlead, hcandidates⟩, hlater⟩ := List.forall_mem_cons.1 hslots
    obtain ⟨delimiter, later, hfind, hspecs, -⟩ := specsFrom_cons_eq_ok_iff.1 h
    have hunset : delimiter = .unset := by
      rw [← List.mem_singleton, ← hcandidates]
      exact List.mem_of_find?_eq_some hfind
    have hslot := locate?_of_find hfind
    rw [← text_cons, hunset] at hslot
    -- the first value is empty, and leaves the same text for the others
    have hnil : slot.value = [] := (Delimiter.value_whole_of_locate? hslot).symm.trans hvalue
    have htext : text ⟨slot :: slots, tail⟩ = text ⟨slots, tail⟩ := by
      rw [text_cons, hlead, hnil]
      rfl
    rw [hlead, hnil] at hspecs
    rw [htext] at hvalue ⊢
    exact ih hlater hspecs hvalue

/-- **A text that became empty stays empty.** -/
theorem text_fill_eq_nil (ht : t ≠ [])
    (h : specsFrom n [] (locate [] specs t).tail ((locate [] specs t).fill value).slots =
      .ok found)
    (hnil : ((locate [] specs t).fill value).text = [])
    (hagain : specsFrom n [] (locate [] specs []).tail ((locate [] specs []).fill value).slots =
      .ok again) :
    ((locate [] specs []).fill value).text = [] := by
  -- By induction on the specs, to the first one that found something in the old text. What finds
  -- nothing there finds nothing in the empty text, where only an unset delimiter finds anything.
  induction specs generalizing found again with
  | nil => exact absurd hnil ht
  | cons spec specs ih =>
    cases hlocate : spec.delimiter.locate? [] t with
    | none =>
      have hset : spec.delimiter.locate? [] [] = none := by
        rw [Option.eq_none_iff_forall_ne_some]
        intro piece hpiece
        rw [(Delimiter.of_locate?_nil hpiece).2, Delimiter.locate?_unset] at hlocate
        cases hlocate
      rw [locate_cons_of_none hlocate] at h hnil
      rw [locate_cons_of_none hset] at hagain ⊢
      exact ih h hnil hagain
    | some piece =>
      obtain ⟨lead, old, rest⟩ := piece
      obtain ⟨hfirst, -⟩ := of_specsFrom_fill hlocate h
      rw [locate_cons_of_locate? hlocate, text_fill_cons] at hnil
      -- the first spec finds an empty value in the empty text, so its delimiter is unset
      have hvalue : value spec.name = [] := by
        rw [List.append_eq_nil_iff, List.append_eq_nil_iff] at hnil
        exact hnil.1.2
      have hunset : spec.delimiter = .unset :=
        (Delimiter.of_locate?_nil ((congrArg _ hnil).symm.trans hfirst)).2
      have hempty : spec.delimiter.locate? [] [] = some ([], [], []) := by
        rw [hunset]
        rfl
      -- there it is found first again, as the whole of the text that is put there now
      obtain ⟨hnew, -⟩ := of_specsFrom_fill hempty hagain
      have htext : ((locate [] (spec :: specs) []).fill value).text =
          [] ++ value spec.name ++ ((locate [] specs []).fill value).text := by
        rw [locate_cons_of_locate? hempty]
        exact text_fill_cons
      have hwhole : (Occurrence.whole
          ((locate [] (spec :: specs) []).fill value).text).value = [] := by
        rw [htext]
        rw [hunset] at hnew
        exact (Delimiter.value_whole_of_locate? hnew).trans hvalue
      obtain ⟨hslots, htail⟩ := locate_nil (spec :: specs)
      have hfilled : ∀ slot ∈ ((locate [] (spec :: specs) []).fill value).slots,
          slot.lead = [] ∧ slot.candidates = [.unset] := by
        intro slot hslot
        obtain ⟨old, hold, rfl⟩ := List.mem_map.1 hslot
        exact hslots old hold
      exact text_eq_nil_of_specsFrom htail hfilled hagain hwhole

end Body

namespace Document

variable {settings scanned : Settings} {values : Record} {document next : Text}
  {comment : Comment} {block : Block} {segment : Segment} {segments : List Segment}

/-! ### Segments -/

/-- A segment of which the specs that find something in the new text are those that found
something in the old one. It can be told without asking which values they find. -/
abbrev Steady (values : Record) : Segment → Prop :=
  Segment.Satisfies (fun _ => True) fun block =>
    Body.finding [] block.specs (revisedText values block) =
      Body.finding [] block.specs block.text

theorem Unlisted.revisedSegment (h : Unlisted segment) :
    Unlisted (revisedSegment values segment) := by
  cases segment with
  | directive found raw line => exact h
  | block b => trivial

theorem Steady.current (haccepted : Accepted comment values segment)
    (h : Steady values segment) : Current values (revisedSegment values segment) := by
  cases segment with
  | directive found raw line => trivial
  | block b =>
    by_cases hspecs : b.specs = []
    · show ∀ slot ∈ (Body.locate [] b.specs _).slots, _
      rw [hspecs]
      simp [Body.locate]
    · obtain ⟨specs, hverify⟩ := haccepted hspecs
      exact Body.value_eq_of_finding_eq (Body.verify_eq_ok_iff.1 hverify).2 h

/-- What is revised to itself is accepted as it is, and the other way round. A segment that is
revised to the same text has the values of the data already. -/
theorem current_iff (hsound : segment.Sound comment) :
    Current values segment ↔
      Accepted comment values segment ∧ (revisedSegment values segment).raw = segment.raw := by
  cases segment with
  | directive found raw line => exact ⟨fun _ => ⟨trivial, rfl⟩, fun _ => trivial⟩
  | block b =>
    -- the settings other than the framing have no part in revision
    have hblock : b.Sound (⟨comment, .unset, []⟩ : Settings).comment := hsound
    rw [← reviseBlock_eq_raw_iff hblock, reviseBlock_eq_ok_iff_accepted, eq_comm]
    rfl

/-- An accepted text that became empty stays empty when the new text is accepted as well. -/
theorem revisedText_revised_eq_nil (hsettled : Settled (.block block))
    (haccepted : Accepted comment values (.block block))
    (hagain : Accepted comment values (revisedSegment values (.block block)))
    (hnil : revisedText values block = []) :
    revisedText values { block with text := revisedText values block } = [] := by
  by_cases hspecs : block.specs = []
  · rw [revisedText_of_specs_eq_nil hspecs]
    exact hnil
  · obtain ⟨specs, hverify⟩ := haccepted hspecs
    obtain ⟨others, hverify'⟩ := hagain hspecs
    show ((Body.locate [] block.specs (revisedText values block)).fill
      (revisedValue values)).text = []
    rw [hnil] at hverify' ⊢
    exact Body.text_fill_eq_nil (hsettled hspecs) (Body.verify_eq_ok_iff.1 hverify).2 hnil
      (Body.verify_eq_ok_iff.1 hverify').2

/-- After a revision that is accepted, and the next one, every text can stand where it is. -/
theorem fits_revised (hsettled : ∀ segment ∈ segments, Settled segment)
    (haccepted : ∀ segment ∈ segments, Accepted comment values segment)
    (hagain : ∀ segment ∈ segments.map (revisedSegment values),
      Accepted comment values segment) :
    Fits values (segments.map (revisedSegment values)) := by
  refine fits_of_forall fun block hblock => ?_
  obtain ⟨old, hold, hrevised⟩ := List.mem_map.1 hblock
  cases old with
  | directive found raw line => cases hrevised
  | block b =>
    cases hrevised
    by_cases hnil : revisedText values b = []
    · exact .inr (revisedText_revised_eq_nil (hsettled _ hold) (haccepted _ hold)
        (hagain _ hblock) hnil)
    · exact .inl hnil

/-! ### Documents -/

/-- **A document without lists is revised to itself exactly when its values are those of the
data**, if the new texts can stand where they are put. That they can is not asked when it is not
accepted in the first place. -/
theorem revise_eq_self_iff (hchain : Segment.Chain scanned.comment segments)
    (hscan : settings.scan (segments.flatMap Segment.raw) = .ok scanned)
    (hunlisted : ∀ segment ∈ segments, Unlisted segment)
    (hfits : (∀ segment ∈ segments, Accepted scanned.comment values segment) →
      Fits values segments) :
    revise settings values (segments.flatMap Segment.raw) = .ok (segments.flatMap Segment.raw) ↔
      ∀ segment ∈ segments, Current values segment := by
  obtain ⟨result, hresult, hmap⟩ := Segmentation.ofText_of_chain hchain
  rw [revise_eq_ok_iff_of_ofText hscan hresult hmap, reviseFrom_eq_ok_iff_accepted hunlisted]
  constructor
  · rintro ⟨-, haccepted, hraw⟩ segment hsegment
    -- both texts are chains, so that they are the same segment by segment
    have hnext := chain_revised hchain (fun segment hsegment =>
      (haccepted segment hsegment).verified) (hfits haccepted)
    have hsame := Segmentation.unnumbered_eq_of_chain hchain hnext hraw
    rw [List.map_map, List.map_inj_left] at hsame
    have hrawSegment := congrArg Segment.raw (hsame segment hsegment)
    rw [Function.comp_apply, Segment.raw_unnumbered, Segment.raw_unnumbered] at hrawSegment
    exact (current_iff (hchain.sound segment hsegment)).2
      ⟨haccepted segment hsegment, hrawSegment.symm⟩
  · intro hcurrent
    have hkept := fun segment hsegment =>
      (current_iff (hchain.sound segment hsegment)).1 (hcurrent segment hsegment)
    refine ⟨rfl, fun segment hsegment => (hkept segment hsegment).1, ?_⟩
    rw [List.flatMap_map]
    exact List.flatMap_congr fun segment hsegment => (hkept segment hsegment).2.symm

/-- **A second revision changes nothing exactly when each value that is found in a new text is the
one that the data has**, and in particular when each is found by a spec that found one in the old
text. The check of a revision looks only at specs of the latter kind, so that others may find
something in what was put in. -/
theorem revise_revised_iff (hrevise : revise settings values document = .ok next)
    (hscan : settings.scan document = .ok scanned)
    (hsettled : ∀ segment ∈ (Segmentation.ofText scanned.comment document).segments,
      Settled segment) :
    (revise settings values next = .ok next ↔
      ∀ segment ∈ (Segmentation.ofText scanned.comment document).segments,
        Current values (revisedSegment values segment)) ∧
    ((∀ segment ∈ (Segmentation.ofText scanned.comment document).segments,
        Steady values segment) →
      revise settings values next = .ok next) := by
  obtain ⟨scanned', hscan', hrevise⟩ := revise_eq_ok_iff.1 hrevise
  obtain rfl : scanned' = scanned := Except.ok.inj (hscan'.symm.trans hscan)
  have hunlisted := fun segment hsegment => (hsettled segment hsegment).unlisted
  obtain ⟨hcomplete, haccepted, rfl⟩ := (reviseFrom_eq_ok_iff_accepted hunlisted).1 hrevise
  have hsegments := Segmentation.complete_eq_ok_iff.1 hcomplete
  -- The first revision was accepted, so that its result is a chain of the revised segments, under
  -- the same settings. For this chain the question is whether it is revised to itself.
  generalize (Segmentation.ofText scanned'.comment document).segments = segments at *
  have hverified := fun segment hsegment => (haccepted segment hsegment).verified
  have hchain := (Segmentation.chain_of_ofText hsegments).1
  have hnew := chain_revised hchain hverified (fits_of_settled hsettled)
  obtain ⟨_, -, -, hscanned⟩ :=
    ofText_revised hscan hsegments hverified (fits_of_settled hsettled)
  have hunlisted' : ∀ segment ∈ segments.map (revisedSegment values), Unlisted segment := by
    intro segment hsegment
    obtain ⟨old, hold, rfl⟩ := List.mem_map.1 hsegment
    exact (hunlisted old hold).revisedSegment
  -- the new document is cut into the revised segments, and revised segment by segment again
  have hcurrent := revise_eq_self_iff hnew hscanned hunlisted'
    (fits_revised hsettled haccepted)
  rw [List.forall_mem_map] at hcurrent
  exact ⟨hcurrent, fun hsteady => hcurrent.2 fun segment hsegment =>
    (hsteady segment hsegment).current (haccepted segment hsegment)⟩

/-- A spec that finds nothing in either text does not keep the second revision from changing
nothing. -/
theorem revise_twice :
    revise .standard [("a".toList, .scalar (.text "you".toList))]
        ("<!--\x7b\x7bb:pattern=\"<%s>\"\x7d\x7d \x7b\x7ba:pattern=\"[%s]\"\x7d\x7d-->\n".toList ++
          "See [me] here.\n".toList) =
      .ok
        ("<!--\x7b\x7bb:pattern=\"<%s>\"\x7d\x7d \x7b\x7ba:pattern=\"[%s]\"\x7d\x7d-->\n".toList ++
          "See [you] here.\n".toList) ∧
    revise .standard [("a".toList, .scalar (.text "you".toList))]
        ("<!--\x7b\x7bb:pattern=\"<%s>\"\x7d\x7d \x7b\x7ba:pattern=\"[%s]\"\x7d\x7d-->\n".toList ++
          "See [you] here.\n".toList) =
      .ok
        ("<!--\x7b\x7bb:pattern=\"<%s>\"\x7d\x7d \x7b\x7ba:pattern=\"[%s]\"\x7d\x7d-->\n".toList ++
          "See [you] here.\n".toList) := by
  have hrevise : revise .standard [("a".toList, .scalar (.text "you".toList))]
      ("<!--\x7b\x7bb:pattern=\"<%s>\"\x7d\x7d \x7b\x7ba:pattern=\"[%s]\"\x7d\x7d-->\n".toList ++
        "See [me] here.\n".toList) =
      .ok
        ("<!--\x7b\x7bb:pattern=\"<%s>\"\x7d\x7d \x7b\x7ba:pattern=\"[%s]\"\x7d\x7d-->\n".toList ++
          "See [you] here.\n".toList) := by
    decide +kernel
  have hscan : Settings.standard.scan
      ("<!--\x7b\x7bb:pattern=\"<%s>\"\x7d\x7d \x7b\x7ba:pattern=\"[%s]\"\x7d\x7d-->\n".toList ++
        "See [me] here.\n".toList) = .ok .standard := by
    decide +kernel
  exact ⟨hrevise, (revise_revised_iff hrevise hscan (by decide +kernel)).2 (by decide +kernel)⟩

/-- A new value in which another spec finds something is changed by the second revision. That spec
found nothing in the old text, and so the first revision did not look at it. -/
theorem revise_found_in_value :
    (∀ segment ∈ (Segmentation.ofText .standard
        ("<!--\x7b\x7bb:pattern=\"<%s>\"\x7d\x7d \x7b\x7ba:pattern=\"[%s]\"\x7d\x7d-->\n".toList ++
          "[x]\n".toList)).segments, Settled segment) ∧
    revise .standard
        [("a".toList, .scalar (.text "<p>".toList)), ("b".toList, .scalar (.text "q".toList))]
        ("<!--\x7b\x7bb:pattern=\"<%s>\"\x7d\x7d \x7b\x7ba:pattern=\"[%s]\"\x7d\x7d-->\n".toList ++
          "[x]\n".toList) =
      .ok
        ("<!--\x7b\x7bb:pattern=\"<%s>\"\x7d\x7d \x7b\x7ba:pattern=\"[%s]\"\x7d\x7d-->\n".toList ++
          "[<p>]\n".toList) ∧
    revise .standard
        [("a".toList, .scalar (.text "<p>".toList)), ("b".toList, .scalar (.text "q".toList))]
        ("<!--\x7b\x7bb:pattern=\"<%s>\"\x7d\x7d \x7b\x7ba:pattern=\"[%s]\"\x7d\x7d-->\n".toList ++
          "[<p>]\n".toList) =
      .ok
        ("<!--\x7b\x7bb:pattern=\"<%s>\"\x7d\x7d \x7b\x7ba:pattern=\"[%s]\"\x7d\x7d-->\n".toList ++
          "[<q>]\n".toList) := by
  decide +kernel

end Document

end FieldedText
