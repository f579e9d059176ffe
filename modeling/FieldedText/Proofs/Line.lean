/-
FieldedText/Proofs/Line.lean

The kinds of lines, one characterisation for each.

A line has its kind wherever it stands: the number of the line shows in
complaints only (`LineKind.is_of_ofLine`).  Nor does the line end matter; a line
is blank, unmarked or framed with its line end exactly when it is so without.
-/
import FieldedText.Document.Line
import FieldedText.Proofs.Directive

namespace FieldedText

variable {comment : Comment} {raw : Text} {n : Nat}

namespace Comment

/-- A framing that stands within a line. Without this a framed text could be several lines, and
none of them need have the frame. -/
structure Inline (comment : Comment) : Prop where
  start : '\n' ∉ comment.start
  stop : '\n' ∉ comment.stop

theorem inline_standard : standard.Inline := ⟨by decide, by decide⟩

/-- A text within a line is a line when it is framed within one. -/
theorem isLine_wrap (h : comment.Inline) {inner : Text} (hinner : '\n' ∉ inner) :
    Text.IsLine (comment.wrap inner) := by
  refine Text.isLine_concat ?_
  rw [List.mem_append, List.mem_append, not_or, not_or]
  exact ⟨⟨h.start, hinner⟩, h.stop⟩

theorem complete_wrap (comment : Comment) (inner : Text) : (comment.wrap inner).Complete :=
  Text.complete_concat _

theorem strip?_content (comment : Comment) (raw : Text) :
    comment.strip? (Text.content raw) = comment.strip? raw := by
  rw [strip?, strip?, Text.trim_content]

theorem isHeader_content (comment : Comment) (raw : Text) :
    comment.isHeader (Text.content raw) = comment.isHeader raw := by
  rw [isHeader, isHeader, strip?_content]

end Comment

namespace LineKind

/-- A line that has a kind, whatever its number is. The number is part of complaints only, and
most statements about kinds do not know it. -/
def Is (comment : Comment) (raw : Text) (kind : LineKind) : Prop :=
  ∀ line, ofLine comment line raw = .ok kind

/-- The kind of a line does not depend on its number. -/
theorem is_of_ofLine {kind : LineKind} (h : ofLine comment n raw = .ok kind) :
    Is comment raw kind := by
  intro k
  simp only [ofLine] at h ⊢
  split
  · rename_i hb
    rwa [if_pos hb] at h
  · rename_i hb
    rw [if_neg hb] at h
    cases hf : Directive.find n (Text.content raw) with
    | error e =>
      rw [hf] at h
      cases h
    | ok found =>
      rw [Directive.find_ok_of_find_ok hf]
      rwa [hf] at h

instance (comment : Comment) (raw : Text) (kind : LineKind) : Decidable (Is comment raw kind) :=
  match h : ofLine comment 0 raw with
  | .ok found => decidable_of_iff (found = kind)
      ⟨fun heq => heq ▸ is_of_ofLine h, fun his => Except.ok.inj (h.symm.trans (his 0))⟩
  | .error _ => isFalse fun his => absurd (h.symm.trans (his 0)) (by simp)

/-- The kind of a line is the same with one more line end after it. -/
theorem is_append_lineFeed {kind : LineKind} :
    Is comment (raw ++ ['\n']) kind ↔ Is comment raw kind := by
  simp only [Is, ofLine, Text.content_append_lineFeed]

theorem is_blank_iff : Is comment raw .blank ↔ Text.isBlank raw = true := by
  rw [← Text.isBlank_content]
  constructor
  · intro h
    have h0 := h 0
    simp only [ofLine] at h0
    split at h0
    · assumption
    · split at h0
      · cases h0
      · cases h0
      · split at h0 <;> cases h0
  · intro h k
    simp only [ofLine, if_pos h]

/-- A line that is neither blank nor a directive is a header or prose, as its frame has it. -/
theorem ofLine_of_unmarked (hb : Text.isBlank raw = false) (hu : Directive.Unmarked raw) :
    ofLine comment n raw = .ok (if comment.isHeader raw then .header else .prose) := by
  have hfind : Directive.find n (Text.content raw) = .ok none :=
    Directive.find_eq_ok_none_iff.2 (Directive.unmarked_content_iff.2 hu)
  simp only [ofLine, Text.isBlank_content, hb, hfind, Comment.isHeader_content]
  rfl

theorem unmarked_of_is {kind : LineKind} (h : Is comment raw kind)
    (hkind : kind = .header ∨ kind = .prose) :
    Text.isBlank raw = false ∧ Directive.Unmarked raw := by
  have h0 := h 0
  simp only [ofLine, Text.isBlank_content] at h0
  split at h0
  · cases h0
    simp at hkind
  · rename_i hb
    refine ⟨by simpa using hb, ?_⟩
    split at h0
    · cases h0
    · cases h0
      simp at hkind
    · rename_i hfind
      exact Directive.unmarked_content_iff.1 (Directive.find_eq_ok_none_iff.1 hfind)

theorem is_header_iff : Is comment raw .header ↔
    Text.isBlank raw = false ∧ Directive.Unmarked raw ∧ comment.isHeader raw = true := by
  constructor
  · intro h
    obtain ⟨hb, hu⟩ := unmarked_of_is h (.inl rfl)
    have h0 := h 0
    rw [ofLine_of_unmarked hb hu] at h0
    refine ⟨hb, hu, ?_⟩
    by_contra hh
    rw [if_neg hh] at h0
    cases h0
  · rintro ⟨hb, hu, hh⟩ k
    rw [ofLine_of_unmarked hb hu, if_pos hh]

theorem is_prose_iff : Is comment raw .prose ↔
    Text.isBlank raw = false ∧ Directive.Unmarked raw ∧ comment.isHeader raw = false := by
  constructor
  · intro h
    obtain ⟨hb, hu⟩ := unmarked_of_is h (.inr rfl)
    have h0 := h 0
    rw [ofLine_of_unmarked hb hu] at h0
    refine ⟨hb, hu, ?_⟩
    by_contra hh
    rw [if_pos (by simpa using hh)] at h0
    cases h0
  · rintro ⟨hb, hu, hh⟩ k
    rw [ofLine_of_unmarked hb hu, if_neg (by simp [hh])]

theorem isProse_eq_true_iff : isProse comment n raw = true ↔ Is comment raw .prose := by
  unfold isProse
  constructor
  · intro h
    split at h
    · rename_i hk
      exact is_of_ofLine hk
    · cases h
  · intro h
    rw [h n]

/-- The directive of a directive's line is found on it, whatever the number that is handed down.
The frame plays no part, since a directive may stand in any comment. -/
theorem find_of_is_directive {directive : Directive} (h : Is comment raw (.directive directive)) :
    Text.isBlank raw = false ∧
      ∀ k, Directive.find k (Text.content raw) = .ok (some directive) := by
  have h0 := h 0
  simp only [ofLine, Text.isBlank_content] at h0
  split at h0
  · cases h0
  · rename_i hblank
    refine ⟨by simpa using hblank, fun k => ?_⟩
    -- Of the three outcomes of the search only the last one leads to this kind: an error goes
    -- through, and without a directive the line is a header or prose.
    cases hfind : Directive.find 0 (Text.content raw) with
    | error e =>
      rw [hfind] at h0
      cases h0
    | ok found =>
      rw [hfind] at h0
      cases found with
      | none =>
        simp only at h0
        split at h0 <;> cases h0
      | some found =>
        cases h0
        exact Directive.find_ok_of_find_ok hfind

/-- A line with a directive that can be seen is that directive's line. -/
theorem is_directive_of_find {directive : Directive} (hb : Text.isBlank raw = false)
    (h : Directive.find n (Text.content raw) = .ok (some directive)) :
    Is comment raw (.directive directive) := by
  intro k
  simp only [ofLine, Text.isBlank_content, hb, Directive.find_ok_of_find_ok h]
  rfl

end LineKind

end FieldedText
