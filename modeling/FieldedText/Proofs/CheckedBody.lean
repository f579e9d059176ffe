/-
FieldedText/Proofs/CheckedBody.lean

The extents of values are where the values stand, in ascending order and apart.

A body says which texts stand before, in and behind its values; the extents of the
values are the sizes of these (`placedFrom`), and so they ascend, do not overlap, and
stay within the text (`placedFrom_within`, `placedFrom_ascending`).  Every offset that
a checked program derives from them is the size of a beginning of the text, which is
why a body is filled, compared with its lines, and searched for its values again
without a panic, and with the outcome that the pieces give.
-/
import FieldedText.Checked.Body
import FieldedText.Proofs.Body
import FieldedText.Proofs.CheckedMarkup

namespace FieldedText.Checked

variable {comment : Comment} {offset : Nat} {before body lead value after tail t : Text}
  {slots : List Slot} {delimiter : Delimiter} {placed : List Placed}

/-! ### Extents -/

/-- The values of slots that begin at an offset. This is what a checked program has of a body, and
every theorem here says how it and the pieces go together. -/
def placedFrom : Nat → List Slot → List Placed
  | _, [] => []
  | offset, slot :: slots =>
    let start := offset + slot.lead.byteLength
    let stop := start + slot.value.byteLength
    ⟨slot.name, slot.candidates, ⟨start, stop⟩⟩ :: placedFrom stop slots

/-- The extents of values lie within what the slots are: after the offset they begin at, the right
way round, and not beyond the end. -/
theorem placedFrom_within {found : Placed} (h : found ∈ placedFrom offset slots) :
    offset ≤ found.extent.start ∧ found.extent.start ≤ found.extent.stop ∧
      found.extent.stop ≤ offset + Text.byteLength (slots.flatMap Slot.text) := by
  induction slots generalizing offset with
  | nil => cases h
  | cons slot slots ih =>
    rw [placedFrom, List.mem_cons] at h
    rw [List.flatMap_cons, Slot.text, Text.byteLength_append, Text.byteLength_append]
    rcases h with rfl | h
    · dsimp only
      omega
    · have hlater := ih h
      omega

/-- **Each value begins where the one before it has ended, or further on.** -/
theorem placedFrom_ascending (offset : Nat) (slots : List Slot) :
    (placedFrom offset slots).Pairwise fun p q => p.extent.stop ≤ q.extent.start := by
  induction slots generalizing offset with
  | nil => exact .nil
  | cons slot slots ih => exact .cons (fun q hq => (placedFrom_within hq).1) (ih _)

/-- A text with values in it, cut behind the first of them. Each induction on the slots takes this
step. -/
theorem eq_of_text_cons {slot : Slot} (htext : t = before ++ Body.text ⟨slot :: slots, tail⟩) :
    t = before ++ slot.lead ++ slot.value ++ Body.text ⟨slots, tail⟩ := by
  rw [htext, Body.text_cons]
  simp

/-- A value is sliced out of the text at its extent. -/
theorem slice_value (htext : t = before ++ lead ++ value ++ after) :
    slice t (before.byteLength + lead.byteLength)
        (before.byteLength + lead.byteLength + value.byteLength) = .ok value :=
  slice_eq htext (by rw [Text.byteLength_append])
    (by rw [Text.byteLength_append, Text.byteLength_append])

/-! ### Finding values -/

theorem locateAt_eq (delimiter : Delimiter) (before t : Text) :
    locateAt delimiter (before ++ t) before.byteLength =
      .ok ((delimiter.locate? before t).map fun (lead, value, _) =>
        ⟨before.byteLength + lead.byteLength,
          before.byteLength + lead.byteLength + value.byteLength⟩) := by
  rw [locateAt, cutAt?_append]

theorem locateAll_eq (before t : Text) (specs : List FieldSpec) :
    locateAll (before ++ t) before.byteLength specs =
      .ok (placedFrom before.byteLength (Body.locate before specs t).slots) := by
  -- What is found moves the offset behind the value; the text up to there is what the next search
  -- has before it.
  induction specs generalizing before t with
  | nil => rfl
  | cons spec specs ih =>
    rw [locateAll, locateAt_eq, bind_ok, Body.locate]
    cases hlocate : spec.delimiter.locate? before t with
    | none => exact ih before t
    | some found =>
      obtain ⟨lead, value, rest⟩ := found
      have hlater := ih (before ++ lead ++ value) rest
      have htext : before ++ t = before ++ lead ++ value ++ rest := by
        rw [← Delimiter.locate?_append hlocate]
        simp
      rw [← htext] at hlater
      simp only [Text.byteLength_append] at hlater
      simp only [Option.map_some, hlater, bind_ok, pure_eq, placedFrom]

/-! ### Filling -/

/-- One value is put in its place, and its extent in the new text is recorded. -/
theorem fill_cons {α : Type} {replace : α → Run (Placed × Text)} {item : α} {items : List α}
    {found : Placed} {old new : Text} (hitem : replace item = .ok (found, new))
    (hfound : found.extent =
      ⟨before.byteLength + lead.byteLength, before.byteLength + lead.byteLength + old.byteLength⟩)
    (htext : t = before ++ lead ++ old ++ after) :
    fill t replace before.byteLength body (item :: items) =
      fill t replace (Text.byteLength (before ++ lead ++ old)) (body ++ lead ++ new) items >>=
        fun (filled, later) => .ok (filled, { found with extent :=
          ⟨body.byteLength + lead.byteLength,
            body.byteLength + lead.byteLength + new.byteLength⟩ } :: later) := by
  have hlead : slice t before.byteLength (before.byteLength + lead.byteLength) = .ok lead :=
    slice_eq (c := old ++ after) (by rw [htext]; simp) rfl (by rw [Text.byteLength_append])
  rw [fill, hitem, bind_ok]
  simp only [hfound, hlead, bind_ok, Text.byteLength_append, pure_eq]

theorem fill_nil {α : Type} {replace : α → Run (Placed × Text)} (htext : t = before ++ tail) :
    fill t replace before.byteLength body [] = .ok (body ++ tail, []) := by
  rw [fill, sliceFrom_eq htext rfl]
  rfl

/-- **A text is filled with new values for those that were found in it.** The extents that are
recorded are those of the new values in the new text. -/
theorem fill_renew (change : Name → Text) (before body : Text)
    (htext : t = before ++ Body.text ⟨slots, tail⟩) :
    fill t (renew change) before.byteLength body (placedFrom before.byteLength slots) =
      .ok (body ++ (Body.fill ⟨slots, tail⟩ change).text,
        placedFrom body.byteLength (Body.fill ⟨slots, tail⟩ change).slots) := by
  induction slots generalizing before body with
  | nil => exact fill_nil htext
  | cons slot slots ih =>
    have hsplit := eq_of_text_cons htext
    have hlater := ih (before ++ slot.lead ++ slot.value) (body ++ slot.lead ++ change slot.name)
      hsplit
    rw [placedFrom, fill_cons (renew.eq_def ..) rfl hsplit]
    simp only [Text.byteLength_append] at hlater ⊢
    rw [hlater]
    simp [Body.fill, Body.text, Slot.text, placedFrom]

/-! ### Lines -/

/-- A value has a place in a text, both in characters and in bytes. Both ends of it are given by
the same two beginnings of the text. -/
def Marks (t : Text) (found : Placed) (span : Span) : Prop :=
  found.name = span.name ∧
    (∃ u : Text, u <+: t ∧ found.extent.start = u.byteLength ∧ span.start = u.length) ∧
    ∃ u : Text, u <+: t ∧ found.extent.stop = u.byteLength ∧ span.stop = u.length

theorem forall₂_marks (before tail : Text) (htext : t = before ++ Body.text ⟨slots, tail⟩) :
    List.Forall₂ (Marks t) (placedFrom before.byteLength slots)
      (Body.spansFrom before.length slots) := by
  induction slots generalizing before with
  | nil => exact .nil
  | cons slot slots ih =>
    have hsplit := eq_of_text_cons htext
    have hlater := ih _ hsplit
    simp only [Text.byteLength_append, List.length_append] at hlater
    refine .cons ⟨rfl, ⟨before ++ slot.lead, ?_, ?_, ?_⟩,
      ⟨before ++ slot.lead ++ slot.value, ?_, ?_, ?_⟩⟩ hlater
    -- the beginning of the value is that of the text up to it, and its end that of the text with
    -- it
    · exact ⟨slot.value ++ Body.text ⟨slots, tail⟩, by rw [hsplit]; simp⟩
    · simp
    · simp
    · exact ⟨Body.text ⟨slots, tail⟩, hsplit.symm⟩
    · simp [Nat.add_assoc]
    · simp [Nat.add_assoc]

/-- A value touches a line in bytes when it does in characters, since the four offsets are sizes
of beginnings of one text, and compare as their lengths do. -/
theorem touches_eq {found : Placed} {span : Span} {x y : Text} (h : Marks t found span)
    (hx : x <+: t) (hy : y <+: t) :
    touches x.byteLength y.byteLength found = Body.touches x.length y.length span := by
  obtain ⟨-, ⟨u, hu, hstart, hustart⟩, v, hv, hstop, hvstop⟩ := h
  simp only [touches, Body.touches, hstart, hstop, hustart, hvstop, Text.byteLength_le_iff hu hy,
    Text.byteLength_le_iff hx hv]

/-- The first value with some property is found by its position as it is without. -/
theorem findIdx?_eq {spans : List Span} {p : Placed → Bool} {q : Span → Bool}
    (h : List.Forall₂ (fun found span => found.name = span.name ∧ p found = q span) placed spans) :
    match spans.find? q with
    | none => placed.findIdx? p = none
    | some span => ∃ i, placed.findIdx? p = some i ∧
        element (placed.map Placed.name) i = .ok span.name := by
  -- Both searches stop at the same member. One gives its position, from which the name is asked
  -- for; the other gives the member itself.
  induction h with
  | nil => rfl
  | @cons found span placed spans hfirst _ ih =>
    obtain ⟨hname, hp⟩ := hfirst
    rw [List.find?_cons, List.findIdx?_cons, hp]
    cases q span with
    | true => exact ⟨0, rfl, by rw [← hname]; rfl⟩
    | false =>
      dsimp only
      split at ih
      · rename_i hnone
        rw [hnone, ih]
        rfl
      · rename_i span hsome
        obtain ⟨i, hi, helement⟩ := ih
        rw [hsome, hi]
        exact ⟨i + 1, rfl, by simpa [element] using helement⟩

theorem checkLines_eq {spans : List Span} {ls : List Text} {x : Text}
    (h : List.Forall₂ (Marks t) placed spans) (ht : t = x ++ ls.flatten) (n : Nat) :
    checkLines comment placed n x.byteLength ls =
      done (Body.checkLines comment spans n x.length ls) := by
  induction ls generalizing x n with
  | nil => rfl
  | cons raw ls ih =>
    have hsplit : t = x ++ raw ++ ls.flatten := by rw [ht, List.flatten_cons, List.append_assoc]
    have hlater := ih hsplit (n + 1)
    rw [Text.byteLength_append, List.length_append] at hlater
    rw [checkLines, Body.checkLines, isProse_eq, bind_ok]
    simp only [hlater]
    cases LineKind.isProse comment n raw with
    | true => rfl
    | false =>
      -- Which value is the first to touch the line is decided in bytes here and in characters
      -- there, with the same answer for each value.
      have hboth : List.Forall₂ (fun found span => found.name = span.name ∧
          touches x.byteLength (x.byteLength + raw.byteLength) found =
            Body.touches x.length (x.length + raw.length) span) placed spans := by
        refine h.imp fun found span hmarks => ⟨hmarks.1, ?_⟩
        rw [← Text.byteLength_append, ← List.length_append]
        exact touches_eq hmarks ⟨raw ++ ls.flatten, by rw [hsplit]; simp⟩ ⟨ls.flatten, hsplit.symm⟩
      have hfind := findIdx?_eq hboth
      split at hfind
      · rename_i hnone
        simp only [hfind, hnone]
        rfl
      · rename_i span hsome
        obtain ⟨i, hi, helement⟩ := hfind
        simp only [hi, hsome, helement]
        rfl

/-! ### Values that are found again -/

/-- **A delimiter finds a value at its extent when it finds it between the texts around it.** In
one text, an extent fixes the pieces. -/
theorem locateAt_eq_some_iff :
    (delimiter.locate? before (lead ++ value ++ after)).map (fun (lead, value, _) =>
        (⟨before.byteLength + lead.byteLength,
          before.byteLength + lead.byteLength + value.byteLength⟩ : Extent)) =
        some ⟨before.byteLength + lead.byteLength,
          before.byteLength + lead.byteLength + value.byteLength⟩ ↔
      delimiter.locate? before (lead ++ value ++ after) = some (lead, value, after) := by
  constructor
  · intro h
    obtain ⟨⟨lead', value', after'⟩, hlocate, hextent⟩ := Option.map_eq_some_iff.1 h
    have htext := Delimiter.locate?_append hlocate
    simp only [Extent.mk.injEq] at hextent
    -- two beginnings of the text of one size are the same; first the text before the value, then
    -- the value
    have hlead : lead' = lead :=
      Text.eq_of_byteLength_eq (t := lead ++ value ++ after)
        ⟨value' ++ after', by rw [← htext]; simp⟩ ⟨value ++ after, by simp⟩ (by omega)
    subst hlead
    rw [List.append_assoc, List.append_assoc, List.append_cancel_left_eq] at htext
    have hvalue : value' = value :=
      Text.eq_of_byteLength_eq (t := value ++ after) ⟨after', htext⟩ ⟨after, rfl⟩ (by omega)
    subst hvalue
    rw [List.append_cancel_left_eq] at htext
    rw [hlocate, htext]
  · intro h
    rw [h]
    rfl

theorem choose?_eq (slot : Slot) (candidates : List Delimiter) :
    choose? (before ++ (slot.lead ++ slot.value ++ after)) before.byteLength
        ⟨before.byteLength + slot.lead.byteLength,
          before.byteLength + slot.lead.byteLength + slot.value.byteLength⟩ candidates =
      .ok (candidates.find? (Body.findsAgain before slot after)) := by
  induction candidates with
  | nil => rfl
  | cons delimiter candidates ih =>
    rw [choose?, locateAt_eq, bind_ok, List.find?_cons, Body.findsAgain]
    simp only [locateAt_eq_some_iff, ih]
    by_cases h : delimiter.locate? before (slot.lead ++ slot.value ++ after) =
        some (slot.lead, slot.value, after)
    · simp only [h, if_true, decide_true]
      rfl
    · simp only [h, if_false, decide_false]

theorem chooseFrom_eq (n : Nat) (before : Text)
    (htext : t = before ++ Body.text ⟨slots, tail⟩) :
    chooseFrom n t before.byteLength (placedFrom before.byteLength slots) =
      done (Body.specsFrom n before tail slots) := by
  -- The two slices for a complaint are in place whether it is made or not, so that both readings
  -- can be compared by the delimiter that was chosen.
  induction slots generalizing before with
  | nil => rfl
  | cons slot slots ih =>
    have hsplit := eq_of_text_cons htext
    rw [Body.text_cons] at htext
    have hlater := ih _ hsplit
    simp only [Text.byteLength_append] at hlater
    have hlead : sliceTo t (before.byteLength + slot.lead.byteLength) =
        .ok (before ++ slot.lead) :=
      sliceTo_eq (b := slot.value ++ Body.text ⟨slots, tail⟩) (by rw [hsplit]; simp)
        (by rw [Text.byteLength_append])
    rw [placedFrom, chooseFrom, Body.specsFrom]
    simp only
    rw [hlead, slice_value hsplit, htext, choose?_eq, ← htext]
    cases slot.candidates.find? (Body.findsAgain before slot (Body.text ⟨slots, tail⟩)) with
    | none => rfl
    | some delimiter => simp only [bind_ok, hlater, done_map, pure_eq]

theorem checkLines_eq_checkBlock (body : Body) (comment : Comment) (n : Nat) :
    checkLines comment (placedFrom 0 body.slots) n 0 (Text.lines body.text) =
      done (body.checkBlock comment n) :=
  checkLines_eq (x := []) (forall₂_marks [] body.tail rfl)
    (by rw [Text.flatten_lines, List.nil_append]) n

/-- **A body is verified by the extents of its values as it is by the texts around them.** -/
theorem verify_eq (comment : Comment) (n : Nat) (b : Body) :
    verify comment n b.text (placedFrom 0 b.slots) = done (b.verify comment n) := by
  have hspecs : chooseFrom n b.text 0 (placedFrom 0 b.slots) = done (b.specs n) :=
    chooseFrom_eq n [] rfl
  rw [verify, checkLines_eq_checkBlock, hspecs, Body.verify]
  cases b.checkBlock comment n <;> rfl

end FieldedText.Checked
