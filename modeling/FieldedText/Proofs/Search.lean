/-
FieldedText/Proofs/Search.lean

Where a mark occurs in a text that is put together from pieces.

The searches of this library cut a text; the theory of what they find is that
of infixes.  `has_iff` and `cut?_eq_none_iff` change over to infixes, and the
later sections say when an occurrence of a mark in `x ++ y` lies within one of
the two pieces: when a character between the pieces is not in the mark, when
the first character of the mark is not in `x`, or when `y` holds no character
of the mark.  A mark whose first character is nowhere else in it cannot overlap
itself, so it is cut where it was put (`cut?_append_mark`).
-/
import Mathlib.Logic.Basic
import FieldedText.Text.Search

namespace FieldedText.Text

variable {mark text head rest x y : Text} {c : Char}

/-! ### Searches as infixes -/

theorem after?_eq_none_iff : after? mark text = none ↔ ¬ mark <+: text := by
  rw [Option.eq_none_iff_forall_ne_some]
  constructor
  · rintro h ⟨rest, rfl⟩
    exact h rest (after?_append mark rest)
  · intro h rest hrest
    exact h ⟨rest, (after?_eq_some_iff.1 hrest).symm⟩

theorem before?_isSome_iff : (before? mark text).isSome ↔ mark <:+ text := by
  rw [Option.isSome_iff_exists]
  constructor
  · rintro ⟨rest, h⟩
    exact ⟨rest, (before?_eq_some_iff.1 h).symm⟩
  · rintro ⟨rest, h⟩
    exact ⟨rest, before?_eq_some_iff.2 h.symm⟩

theorem after?_isSome_iff : (after? mark text).isSome ↔ mark <+: text := by
  rw [← Option.ne_none_iff_isSome, ne_eq, after?_eq_none_iff, not_not]

theorem cut?_eq_none_iff : cut? mark text = none ↔ ¬ mark <:+: text := by
  induction text with
  | nil => simp [cut?, after?_eq_none_iff]
  | cons c text ih =>
    rw [cut?, List.infix_cons_iff, not_or, ← ih, ← after?_eq_none_iff]
    cases after? mark (c :: text) with
    | some rest => simp
    | none => simp

/-- A text has a mark when the mark is an infix of it. -/
theorem has_iff : has mark text = true ↔ mark <:+: text := by
  rw [has, ← Option.ne_none_iff_isSome, ne_eq, cut?_eq_none_iff, not_not]

theorem has_eq_false_iff : has mark text = false ↔ ¬ mark <:+: text := by
  rw [← has_iff, Bool.not_eq_true]

/-! ### The first occurrence -/

/-- More text at the end changes nothing about the first occurrence. -/
theorem cut?_append_right (h : cut? mark text = some (head, rest)) (more : Text) :
    cut? mark (text ++ more) = some (head, rest ++ more) := by
  induction text generalizing head with
  | nil =>
    simp only [cut?, Option.map_eq_some_iff, Prod.mk.injEq, after?_eq_some_iff] at h
    obtain ⟨r, hr, rfl, rfl⟩ := h
    obtain ⟨rfl, rfl⟩ := List.append_eq_nil_iff.1 hr.symm
    cases more <;> simp [cut?, after?]
  | cons c text ih =>
    rw [cut?] at h
    rw [List.cons_append, cut?]
    cases ha : after? mark (c :: text) with
    | some r =>
      rw [ha] at h
      simp only [Option.some.injEq, Prod.mk.injEq] at h
      obtain ⟨rfl, rfl⟩ := h
      have happ : after? mark (c :: (text ++ more)) = some (r ++ more) := by
        rw [after?_eq_some_iff] at ha ⊢
        rw [← List.cons_append, ha, List.append_assoc]
      rw [happ]
    | none =>
      rw [ha] at h
      simp only [Option.map_eq_some_iff, Prod.mk.injEq] at h
      obtain ⟨⟨u, v⟩, hu, rfl, rfl⟩ := h
      -- the mark may not begin here in the longer text either: it ends before `more`
      have hnone : after? mark (c :: (text ++ more)) = none := by
        rw [after?_eq_none_iff] at ha ⊢
        intro hp
        have hlen : mark.length ≤ (c :: text).length := by
          have := congrArg List.length (cut?_append hu)
          simp only [List.length_append] at this
          simp only [List.length_cons]
          omega
        exact ha (List.prefix_of_prefix_length_le hp (List.prefix_append (c :: text) more) hlen)
      rw [hnone, ih hu]
      rfl

/-- The text before the first occurrence holds none. -/
theorem not_infix_of_cut? (hm : mark ≠ []) (h : cut? mark text = some (head, rest)) :
    ¬ mark <:+: head := by
  induction text generalizing head with
  | nil =>
    simp only [cut?, Option.map_eq_some_iff, Prod.mk.injEq] at h
    obtain ⟨_, _, rfl, _⟩ := h
    simpa using hm
  | cons c text ih =>
    rw [cut?] at h
    cases ha : after? mark (c :: text) with
    | some r =>
      rw [ha] at h
      simp only [Option.some.injEq, Prod.mk.injEq] at h
      obtain ⟨rfl, _⟩ := h
      simpa using hm
    | none =>
      rw [ha] at h
      simp only [Option.map_eq_some_iff, Prod.mk.injEq] at h
      obtain ⟨⟨u, v⟩, hu, rfl, rfl⟩ := h
      -- an occurrence would begin with the first character, where none was found, or within what
      -- follows it
      rw [List.infix_cons_iff, not_or]
      refine ⟨fun hp => ?_, ih hu⟩
      rw [after?_eq_none_iff, cut?_append hu] at ha
      refine ha (hp.trans ?_)
      rw [List.append_assoc, ← List.cons_append]
      exact List.prefix_append _ _

/-! ### Occurrences in two pieces -/

/-- A character that is not in a mark keeps the occurrences before it from those after it. No
occurrence can reach over it, since it would hold it. -/
theorem infix_append_cons_iff (hc : c ∉ mark) :
    mark <:+: x ++ c :: y ↔ mark <:+: x ∨ mark <:+: y := by
  have hnil : mark = [] → (mark <:+: x ∨ mark <:+: y) := by
    rintro rfl
    exact .inl List.nil_infix
  rw [List.infix_append_iff, List.infix_cons_iff]
  constructor
  -- An occurrence is before the character, begins at it, is behind it, or reaches over it. The
  -- second and the last would have the character in the mark.
  · rintro (h | (h | h) | ⟨l₁, l₂, hl, h₁, h₂⟩)
    · exact .inl h
    · cases mark with
      | nil => exact hnil rfl
      | cons m mark =>
        obtain ⟨rfl, -⟩ := List.cons_prefix_cons.1 h
        exact absurd (List.mem_cons_self ..) hc
    · exact .inr h
    · cases l₂ with
      | nil => exact .inl (by rw [hl, List.append_nil]; exact h₁.isInfix)
      | cons m l₂ =>
        obtain ⟨rfl, -⟩ := List.cons_prefix_cons.1 h₂
        exact absurd (by simp [hl]) hc
  · rintro (h | h)
    · exact .inl h
    · exact .inr (.inl (.inr h))

/-- A mark does not reach into a piece without any of its characters. -/
theorem infix_append_left_iff (hm : mark ≠ []) (hy : ∀ c ∈ y, c ∉ mark) :
    mark <:+: x ++ y ↔ mark <:+: x := by
  constructor
  · intro h
    cases y with
    | nil => simpa using h
    | cons c y =>
      rw [infix_append_cons_iff (hy c (List.mem_cons_self ..))] at h
      rcases h with h | h
      · exact h
      · obtain ⟨m, mark', rfl⟩ := List.exists_cons_of_ne_nil hm
        have hmem : m ∈ y := h.subset (List.mem_cons_self ..)
        exact absurd (List.mem_cons_self ..) (hy m (List.mem_cons_of_mem c hmem))
  · intro h
    exact h.trans (List.prefix_append x y).isInfix

theorem not_infix_of_not_mem (hc : c ∈ mark) (ht : c ∉ text) : ¬ mark <:+: text :=
  fun h => ht (h.subset hc)

/-! ### Marks that do not overlap themselves -/

/-- A mark whose first character is nowhere else in it is cut where it was put, if it does not
occur before. -/
theorem cut?_append_mark (hc : c ∉ mark) (hx : ¬ c :: mark <:+: x) :
    cut? (c :: mark) (x ++ (c :: mark) ++ y) = some (x, y) := by
  induction x with
  | nil =>
    have h : after? (c :: mark) (c :: (mark ++ y)) = some y := after?_append (c :: mark) y
    rw [List.nil_append, List.cons_append, cut?, h]
  | cons d x ih =>
    rw [List.infix_cons_iff, not_or] at hx
    have hnone : after? (c :: mark) (d :: (x ++ (c :: mark) ++ y)) = none := by
      rw [after?_eq_none_iff, ← List.cons_append, ← List.cons_append, List.append_assoc]
      rintro ⟨t, ht⟩
      rcases List.append_eq_append_iff.1 ht with ⟨l, hl, -⟩ | ⟨l, hl, hr⟩
      · exact hx.1 ⟨l, hl.symm⟩
      · -- what is left of the mark would begin with its first character
        cases l with
        | nil => exact hx.1 ⟨[], by simpa using hl⟩
        | cons m l =>
          rw [List.cons_append, List.cons_append, List.cons.injEq] at hr
          rw [List.cons_append, List.cons.injEq] at hl
          exact hc (by simp [hl.2, hr.1])
    rw [List.cons_append, List.cons_append, cut?, hnone, ih hx.2]
    rfl

end FieldedText.Text
