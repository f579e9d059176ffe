/-
FieldedText/Proofs/Cutting.lean

Bodies put together, and bodies cut in two.

Two bodies make one: what stands behind the last value of the first then goes before the
first value of the second (`Body.append`).  The other way, a body can be cut at every place
of its text that is not within a value (`exists_append`).  So a text none of whose
characters is in a value is cut out of the literal text wherever it is found, and it is
found whatever the values are (`infix_text`); and where no value has a line feed, a body is
cut between its lines (`exists_append_complete`).

Whether a value touches a line is then a matter of the pieces: one does when the line has
one, or when the piece behind the line begins with one (`touches_iff`).
-/
import FieldedText.Proofs.Body

namespace FieldedText

/-! ### Texts without a character in common -/

namespace Text

/-- A value that can be told from any text around it: it is not empty, and its characters are
neither white space nor in a text that is to be avoided. -/
structure Fresh (avoided value : Text) : Prop where
  ne_nil : value ≠ []
  visible : ∀ c ∈ value, isSpace c = false
  apart : ∀ c ∈ value, c ∉ avoided

variable {avoided value a b x y m : Text} {c : Char}

theorem fresh_iff : Fresh avoided value ↔ value ≠ [] ∧
    value.all (fun c => !isSpace c && !avoided.contains c) = true := by
  simp only [List.all_eq_true, Bool.and_eq_true, Bool.not_eq_true', List.contains_eq_mem,
    decide_eq_false_iff_not]
  constructor
  · intro h
    exact ⟨h.ne_nil, fun c hc => ⟨h.visible c hc, h.apart c hc⟩⟩
  · rintro ⟨hne, h⟩
    exact ⟨hne, fun c hc => (h c hc).1, fun c hc => (h c hc).2⟩

instance (avoided value : Text) : Decidable (Fresh avoided value) :=
  decidable_of_iff _ fresh_iff.symm

/-- White space need not be named among what is avoided. -/
theorem Fresh.of_mem (h : Fresh avoided value)
    (hm : ∀ c ∈ m, isSpace c = true ∨ c ∈ avoided) : Fresh m value := by
  refine ⟨h.ne_nil, h.visible, fun c hc hmem => ?_⟩
  rcases hm c hmem with hspace | hmem
  · rw [h.visible c hc] at hspace
    cases hspace
  · exact h.apart c hc hmem

theorem Fresh.of_subset (h : Fresh avoided value) (hsub : m ⊆ avoided) : Fresh m value :=
  h.of_mem fun _ hc => .inr (hsub hc)

theorem Fresh.not_mem_of_isSpace (h : Fresh avoided value) (hc : isSpace c = true) :
    c ∉ value := by
  intro hmem
  rw [h.visible c hmem] at hc
  cases hc

theorem Fresh.not_mem_lineFeed (h : Fresh avoided value) : '\n' ∉ value :=
  h.not_mem_of_isSpace (by decide)

/-- Two pieces of a text that have no character in common do not overlap: at a place that both
cover the text would have a character of each. -/
theorem Fresh.le_of_append_eq (h : Fresh m value) (hm : m ≠ [])
    (heq : a ++ value ++ b = x ++ m ++ y) :
    (x ++ m).length ≤ a.length ∨ (a ++ value).length ≤ x.length := by
  by_contra hover
  rw [not_or, Nat.not_le, Nat.not_le, List.length_append, List.length_append] at hover
  have hmpos : 0 < m.length := List.length_pos_iff.2 hm
  have hvpos : 0 < value.length := List.length_pos_iff.2 h.ne_nil
  -- the first place that both pieces cover
  obtain ⟨i, ha, hx⟩ : ∃ i, (a.length ≤ i ∧ i - a.length < value.length) ∧
      x.length ≤ i ∧ i - x.length < m.length := by
    rcases Nat.le_total a.length x.length with hle | hle
    · exact ⟨x.length, by omega, by omega⟩
    · exact ⟨a.length, by omega, by omega⟩
  have hchar := congrArg (fun t : Text => t[i]?) heq
  simp only [List.append_assoc] at hchar
  rw [List.getElem?_append_right ha.1, List.getElem?_append_left ha.2,
    List.getElem?_append_right hx.1, List.getElem?_append_left hx.2,
    List.getElem?_eq_getElem ha.2, List.getElem?_eq_getElem hx.2, Option.some.injEq] at hchar
  refine h.apart _ (List.getElem_mem ha.2) ?_
  rw [hchar]
  exact List.getElem_mem hx.2

/-- A piece that begins before a value ends is over before the value begins. -/
theorem Fresh.exists_of_append_eq (h : Fresh m value) (hm : m ≠ [])
    (heq : a ++ value ++ b = x ++ m ++ y) (hbegin : x.length < (a ++ value).length) :
    ∃ w, a = x ++ m ++ w ∧ y = w ++ value ++ b := by
  have hle := (h.le_of_append_eq hm heq).resolve_right (Nat.not_le.2 hbegin)
  rw [List.append_assoc a] at heq
  obtain ⟨w, rfl⟩ : x ++ m <+: a :=
    List.prefix_of_prefix_length_le ⟨y, heq.symm⟩ ⟨_, rfl⟩ hle
  rw [List.append_assoc, List.append_cancel_left_eq] at heq
  exact ⟨w, rfl, by rw [← heq, List.append_assoc]⟩

end Text

namespace Body

variable {body a b line rest : Body} {slot : Slot} {slots : List Slot} {value : Name → Text}
  {x y m tail : Text} {place : Nat} {span : Span}

/-- The values that a body gets can be told from what is to be avoided. Where a text without their
characters is found does not depend on them then. -/
def FreshValues (body : Body) (value : Name → Text) (avoided : Text) : Prop :=
  ∀ slot ∈ body.slots, Text.Fresh avoided (value slot.name)

theorem FreshValues.of_mem {avoided : Text} (h : body.FreshValues value avoided)
    (hm : ∀ c ∈ m, Text.isSpace c = true ∨ c ∈ avoided) : body.FreshValues value m :=
  fun slot hslot => (h slot hslot).of_mem hm

theorem FreshValues.of_subset {avoided : Text} (h : body.FreshValues value avoided)
    (hsub : m ⊆ avoided) : body.FreshValues value m :=
  fun slot hslot => (h slot hslot).of_subset hsub

/-! ### Two bodies as one -/

/-- Two bodies, one behind the other. There is no value between them, so that the tail of the
first becomes part of the text before the next value. -/
def append (a b : Body) : Body :=
  match b.slots with
  | [] => ⟨a.slots, a.tail ++ b.tail⟩
  | slot :: slots => ⟨a.slots ++ { slot with lead := a.tail ++ slot.lead } :: slots, b.tail⟩

theorem cons_append (slot : Slot) (a b : Body) :
    append ⟨slot :: a.slots, a.tail⟩ b = ⟨slot :: (a.append b).slots, (a.append b).tail⟩ := by
  obtain ⟨_ | ⟨next, slots⟩, tail⟩ := b <;> rfl

theorem text_append (a b : Body) : (a.append b).text = a.text ++ b.text := by
  obtain ⟨_ | ⟨slot, slots⟩, tail⟩ := b
  · simp [append, text]
  · simp [append, text, Slot.text]

theorem fill_append (a b : Body) (value : Name → Text) :
    (a.append b).fill value = (a.fill value).append (b.fill value) := by
  obtain ⟨_ | ⟨slot, slots⟩, tail⟩ := b
  · simp [append, fill]
  · simp [append, fill]

theorem append_nil (a : Body) : a.append ⟨[], []⟩ = a := by
  rw [append, List.append_nil]

/-- The values of two bodies are those of the one that they make. -/
theorem forall_mem_append (p : Name → Text → Prop) :
    (∀ slot ∈ (a.append b).slots, p slot.name slot.value) ↔
      (∀ slot ∈ a.slots, p slot.name slot.value) ∧ ∀ slot ∈ b.slots, p slot.name slot.value := by
  obtain ⟨_ | ⟨slot, slots⟩, tail⟩ := b
  · simp [append]
  · simp only [append, List.forall_mem_append, List.forall_mem_cons]

theorem freshValues_append_iff :
    (a.append b).FreshValues value m ↔ a.FreshValues value m ∧ b.FreshValues value m :=
  forall_mem_append fun name _ => Text.Fresh m (value name)

theorem isInfix_text_of_mem (h : slot ∈ body.slots) : slot.value <:+: body.text := by
  obtain ⟨pre, post, hslots⟩ := List.append_of_mem h
  refine ⟨pre.flatMap Slot.text ++ slot.lead, post.flatMap Slot.text ++ body.tail, ?_⟩
  rw [text, hslots]
  simp [Slot.text]

theorem isInfix_text_fill_of_mem (h : slot ∈ body.slots) :
    value slot.name <:+: (body.fill value).text := by
  have hmem : { slot with value := value slot.name } ∈ (body.fill value).slots :=
    List.mem_map_of_mem h
  exact isInfix_text_of_mem hmem

/-! ### One body as two -/

/-- **A body is cut at every place that is not within a value.** Within one, the place cuts the
value in two parts that are not empty. -/
theorem exists_append (h : (body.fill value).text = x ++ y) :
    (∃ a b : Body, body = a.append b ∧ (a.fill value).text = x ∧ (b.fill value).text = y) ∨
      ∃ slot ∈ body.slots, ∃ u v, u ≠ [] ∧ v ≠ [] ∧ value slot.name = u ++ v ∧
        u <:+ x ∧ v <+: y := by
  obtain ⟨slots, tail⟩ := body
  -- By induction on the values: the place is before the first one, in it or at one of its ends,
  -- or behind it.
  induction slots generalizing x with
  | nil =>
    have htail : tail = x ++ y := h
    exact .inl ⟨⟨[], x⟩, ⟨[], y⟩, by rw [htail]; rfl, rfl, rfl⟩
  | cons slot slots ih =>
    rw [text_fill_cons, List.append_assoc] at h
    rcases List.append_eq_append_iff.1 h with ⟨x', rfl, hbehind⟩ | ⟨lead, hlead, hy⟩
    · rcases List.append_eq_append_iff.1 hbehind with ⟨x', rfl, hlater⟩ | ⟨v, hvalue, hy⟩
      · -- behind the value
        rcases ih hlater with ⟨a, b, hbody, hx, hy⟩ | ⟨found, hfound, u, v, hu, hv, huv, hx, hy⟩
        · refine .inl ⟨⟨slot :: a.slots, a.tail⟩, b, ?_, ?_, hy⟩
          · rw [cons_append, ← hbody]
          · rw [text_fill_cons, hx, List.append_assoc]
        · refine .inr ⟨found, List.mem_cons_of_mem slot hfound, u, v, hu, hv, huv, ?_, hy⟩
          rw [← List.append_assoc]
          exact hx.trans (List.suffix_append ..)
      · -- in the value, or at one of its ends
        by_cases hx' : x' = []
        · refine .inl ⟨⟨[], slot.lead⟩, ⟨{ slot with lead := [] } :: slots, tail⟩, ?_, ?_, ?_⟩
          · simp [append]
          · simp [fill, text, hx']
          · rw [text_fill_cons, hvalue, hx', hy]
            rfl
        · by_cases hv : v = []
          · refine .inl ⟨⟨[slot], []⟩, ⟨slots, tail⟩, ?_, ?_, ?_⟩
            · cases slots <;> rfl
            · rw [hv, List.append_nil] at hvalue
              simp [fill, text, Slot.text, hvalue]
            · rw [hy, hv, List.nil_append]
          · exact .inr ⟨slot, List.mem_cons_self .., x', v, hx', hv, hvalue,
              List.suffix_append .., ⟨_, hy.symm⟩⟩
    · -- before the value
      refine .inl ⟨⟨[], x⟩, ⟨{ slot with lead := lead } :: slots, tail⟩, ?_, rfl, ?_⟩
      · obtain ⟨_, name, old, candidates⟩ := slot
        cases hlead
        rfl
      · rw [text_fill_cons, hy, List.append_assoc]

/-- A body in whose text no character of a value is has no value. -/
theorem slots_eq_nil (hvalue : body.FreshValues value (body.fill value).text) :
    body.slots = [] := by
  rw [List.eq_nil_iff_forall_not_mem]
  intro slot hslot
  have hfresh := hvalue slot hslot
  obtain ⟨c, v, hv⟩ := List.exists_cons_of_ne_nil hfresh.ne_nil
  have hc : c ∈ value slot.name := by
    rw [hv]
    exact List.mem_cons_self ..
  exact hfresh.apart c hc ((isInfix_text_fill_of_mem hslot).subset hc)

/-- A text without any character of a value is literal at the beginning of a body. -/
theorem exists_append_of_prefix (hvalue : body.FreshValues value m)
    (h : (body.fill value).text = m ++ y) :
    ∃ b, body = append ⟨[], m⟩ b ∧ (b.fill value).text = y := by
  rcases exists_append h with ⟨a, b, rfl, rfl, hb⟩ | ⟨slot, hslot, u, v, hu, -, huv, hm, -⟩
  · refine ⟨b, ?_, hb⟩
    have hslots := slots_eq_nil (freshValues_append_iff.1 hvalue).1
    obtain ⟨slots, tail⟩ := a
    cases hslots
    rfl
  · obtain ⟨c, u, rfl⟩ := List.exists_cons_of_ne_nil hu
    have hc : c ∈ value slot.name := by simp [huv]
    exact absurd (hm.subset (List.mem_cons_self ..)) ((hvalue slot hslot).apart c hc)

/-- And so it is at the end of a body. -/
theorem exists_append_of_suffix (hvalue : body.FreshValues value m)
    (h : (body.fill value).text = x ++ m) :
    ∃ a, body = append a ⟨[], m⟩ ∧ (a.fill value).text = x := by
  rcases exists_append h with ⟨a, b, rfl, ha, rfl⟩ | ⟨slot, hslot, u, v, -, hv, huv, -, hm⟩
  · refine ⟨a, ?_, ha⟩
    have hslots := slots_eq_nil (freshValues_append_iff.1 hvalue).2
    obtain ⟨slots, tail⟩ := b
    cases hslots
    rfl
  · obtain ⟨c, v, rfl⟩ := List.exists_cons_of_ne_nil hv
    have hc : c ∈ value slot.name := by simp [huv]
    exact absurd (hm.subset (List.mem_cons_self ..)) ((hvalue slot hslot).apart c hc)

/-- **A text without any character of a value is found whatever the values are.** It cannot begin
or end within a value, and so it is cut out of the literal text. -/
theorem infix_text (hvalue : body.FreshValues value m)
    (h : m <:+: (body.fill value).text) : m <:+: body.text := by
  by_cases hm : m = []
  · rw [hm]
    exact List.nil_infix
  obtain ⟨x, y, hxy⟩ := h
  rw [List.append_assoc] at hxy
  rcases exists_append hxy.symm with ⟨a, b, rfl, -, hb⟩ | ⟨slot, hslot, u, v, -, hv, huv, -, hy⟩
  · obtain ⟨c, rfl, -⟩ := exists_append_of_prefix (freshValues_append_iff.1 hvalue).2 hb
    refine ⟨a.text, c.text, ?_⟩
    rw [text_append, text_append, ← List.append_assoc]
    rfl
  · -- the value would begin with the first character of the text
    obtain ⟨c, v, rfl⟩ := List.exists_cons_of_ne_nil hv
    obtain ⟨d, m, rfl⟩ := List.exists_cons_of_ne_nil hm
    obtain rfl := (List.cons_prefix_cons.1 hy).1
    have hc : c ∈ value slot.name := by simp [huv]
    exact absurd (List.mem_cons_self ..) ((hvalue slot hslot).apart c hc)

/-- **A body is cut between its lines** when no value has a line feed, since the text up to there
ends with one, which is then not in a value. -/
theorem exists_append_complete (hvalue : ∀ slot ∈ body.slots, '\n' ∉ value slot.name)
    (hx : x.Complete) (h : (body.fill value).text = x ++ y) :
    ∃ a b : Body, body = a.append b ∧ (a.fill value).text = x ∧ (b.fill value).text = y := by
  rcases exists_append h with hcut | ⟨slot, hslot, u, v, hu, -, huv, ⟨w, hw⟩, -⟩
  · exact hcut
  · -- the line feed would be in the value
    rw [← hw] at hx
    obtain ⟨u', rfl⟩ := hx.of_append.exists_eq hu
    exact absurd (by simp [huv]) (hvalue slot hslot)

theorem text_fill_ne_nil (hvalue : body.FreshValues value m)
    (h : body.slots ≠ [] ∨ body.tail ≠ []) : (body.fill value).text ≠ [] := by
  obtain ⟨_ | ⟨slot, slots⟩, tail⟩ := body
  · exact h.resolve_left fun hne => hne rfl
  · rw [text_fill_cons]
    simp [(hvalue slot (List.mem_cons_self ..)).ne_nil]

/-- The line feed that ends a body stands behind its last value. -/
theorem complete_tail_of_fill (hvalue : body.FreshValues value m)
    (hne : (body.fill value).text ≠ []) (h : (body.fill value).text.Complete) :
    body.tail ≠ [] ∧ body.tail.Complete := by
  obtain ⟨slots, tail⟩ := body
  induction slots with
  | nil => exact ⟨hne, h⟩
  | cons slot slots ih =>
    obtain ⟨hslot, hslots⟩ := List.forall_mem_cons.1 hvalue
    rw [text_fill_cons] at h
    by_cases hrest : (fill ⟨slots, tail⟩ value).text = []
    · rw [hrest, List.append_nil] at h
      exact absurd h.of_append
        (Occurrence.not_complete_of_not_mem hslot.not_mem_lineFeed hslot.ne_nil)
    · exact ih hslots hrest h.of_append

/-- A body that ends between two lines ends so whatever the values are. -/
theorem complete_of_fill (hvalue : body.FreshValues value m)
    (h : (body.fill value).text.Complete) :
    body.text.Complete ∧ (body.slots ≠ [] → body.tail ≠ []) := by
  by_cases hslots : body.slots = []
  · obtain ⟨slots, tail⟩ := body
    cases hslots
    exact ⟨h, fun hne => absurd rfl hne⟩
  · have hne : (body.fill value).text ≠ [] :=
      text_fill_ne_nil hvalue (.inl hslots)
    obtain ⟨htail, hcomplete⟩ := complete_tail_of_fill hvalue hne h
    exact ⟨(Text.complete_append_iff htail).2 hcomplete, fun _ => htail⟩

/-! ### Values that touch a line -/

theorem spansFrom_append_slots (place : Nat) (xs ys : List Slot) :
    spansFrom place (xs ++ ys) =
      spansFrom place xs ++ spansFrom (place + (xs.flatMap Slot.text).length) ys := by
  induction xs generalizing place with
  | nil => rfl
  | cons slot xs ih =>
    rw [List.cons_append, spansFrom, spansFrom, ih, List.flatMap_cons, List.length_append,
      Slot.text, List.length_append, List.cons_append]
    simp only [Nat.add_assoc]

/-- The places of the values of two bodies in the one that they make. -/
theorem spansFrom_append (place : Nat) (a b : Body) :
    spansFrom place (a.append b).slots =
      spansFrom place a.slots ++ spansFrom (place + a.text.length) b.slots := by
  obtain ⟨_ | ⟨slot, slots⟩, tail⟩ := b
  · simp [append, spansFrom]
  · simp only [append, spansFrom_append_slots, text, List.length_append]
    simp only [spansFrom, List.length_append, Nat.add_assoc]

theorem of_mem_spansFrom (h : span ∈ spansFrom place slots) :
    place ≤ span.start ∧ span.start ≤ span.stop ∧
      span.stop ≤ place + (slots.flatMap Slot.text).length := by
  induction slots generalizing place with
  | nil => cases h
  | cons slot slots ih =>
    rw [List.flatMap_cons, List.length_append, Slot.text, List.length_append]
    rw [spansFrom, List.mem_cons] at h
    rcases h with rfl | h
    · exact ⟨by simp, by simp, by simp only; omega⟩
    · obtain ⟨hstart, hle, hstop⟩ := ih h
      exact ⟨by omega, hle, by omega⟩

theorem exists_mem_spansFrom_iff (place : Nat) : (∃ span, span ∈ spansFrom place slots) ↔
    slots ≠ [] := by
  cases slots <;> simp [spansFrom]

/-- A value begins at the beginning of a body when nothing stands before the first one. -/
theorem exists_start_le_iff (place : Nat) :
    (∃ span ∈ spansFrom place slots, span.start ≤ place) ↔
      ∃ slot ∈ slots.head?, slot.lead = [] := by
  cases slots with
  | nil => simp [spansFrom]
  | cons slot slots =>
    simp only [List.head?_cons, Option.mem_some_iff, exists_eq_left']
    rw [spansFrom, ← List.length_eq_zero_iff]
    constructor
    · rintro ⟨span, hspan, hstart⟩
      rcases List.mem_cons.1 hspan with rfl | hspan
      · simp only at hstart
        omega
      · have hbound := (of_mem_spansFrom hspan).1
        omega
    · intro hlead
      exact ⟨_, List.mem_cons_self .., by simp only; omega⟩

/-- A line is touched when it has a value, or when one begins behind it. A value that ends before
the line is kept from it by the line feed in between. -/
def Touched (line rest : Body) : Prop :=
  line.slots ≠ [] ∨ ∃ slot ∈ rest.slots.head?, slot.lead = []

theorem touched_fill_iff (value : Name → Text) :
    Touched (line.fill value) (rest.fill value) ↔ Touched line rest := by
  obtain ⟨_ | ⟨slot, slots⟩, tail⟩ := rest <;> simp [Touched, fill]

/-- **A value touches a line** that stands between two other pieces, of which the first does not
end with a value, exactly when the line has one or the last piece begins with one. -/
theorem touches_iff (ha : a.slots ≠ [] → a.tail ≠ []) :
    (∃ span ∈ (a.append (line.append rest)).spans,
      touches a.text.length (a.text.length + line.text.length) span = true) ↔
        Touched line rest := by
  simp only [spans, spansFrom_append, List.mem_append, Nat.zero_add, touches, Bool.and_eq_true,
    decide_eq_true_eq]
  rw [Touched, ← exists_mem_spansFrom_iff a.text.length,
    ← exists_start_le_iff (a.text.length + line.text.length)]
  constructor
  · rintro ⟨span, hspan | hspan | hspan, hstart, hstop⟩
    · -- what is behind the last value keeps it from the line
      have htail := List.length_pos_iff.2 (ha ((exists_mem_spansFrom_iff 0).1 ⟨span, hspan⟩))
      have hbound := (of_mem_spansFrom hspan).2.2
      rw [text, List.length_append] at hstop
      omega
    · exact .inl ⟨span, hspan⟩
    · exact .inr ⟨span, hspan, hstart⟩
  · rintro (⟨span, hspan⟩ | ⟨span, hspan, hstart⟩)
    · obtain ⟨hstart, hle, hstop⟩ := of_mem_spansFrom hspan
      refine ⟨span, .inr (.inl hspan), ?_, by omega⟩
      rw [text.eq_1 line, List.length_append]
      omega
    · obtain ⟨hplace, hle, -⟩ := of_mem_spansFrom hspan
      exact ⟨span, .inr (.inr hspan), hstart, by omega⟩

end Body

end FieldedText
