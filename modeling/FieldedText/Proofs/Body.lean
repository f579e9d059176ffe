/-
FieldedText/Proofs/Body.lean

What the verification of a body promises.

The lines that are checked are those that a value touches, ends included.  A
line that no value touches lies inside the literal text between two values, and
it is a line of any other body with that literal text as well
(`mem_lines_of_untouched`).  So when the values of a body of nothing but prose
are changed, the check passes exactly when the new body is nothing but prose
(`checkBlock_eq_ok_iff`): nothing is let through by checking no more.

The specs that are chosen are those that find every value again, one after the
other, with exactly its place and extent (`locate_of_specs`).
-/
import Mathlib.Data.List.Forall2
import FieldedText.Document.Body
import FieldedText.Proofs.Delimiter
import FieldedText.Proofs.Line

namespace FieldedText.Body

variable {comment : Comment} {n k place : Nat} {before tail : Text} {body base : Body}
  {slot : Slot} {slots others : List Slot} {spec : FieldSpec} {specs : List FieldSpec}

theorem text_cons (slot : Slot) (slots : List Slot) (tail : Text) :
    text ⟨slot :: slots, tail⟩ = slot.lead ++ slot.value ++ text ⟨slots, tail⟩ := by
  simp [text, Slot.text]

/-! ### Checked lines -/

/-- What holds of every line at its place holds of the first line, and of the lines after it one
line further on. It turns a statement on places into one that goes with the recursion of the
check. -/
theorem forall_split_cons {p : Nat → Text → Prop} {raw : Text} {ls : List Text} :
    (∀ pre line post, raw :: ls = pre ++ line :: post → p (place + pre.flatten.length) line) ↔
      p place raw ∧ ∀ pre line post, ls = pre ++ line :: post →
        p (place + raw.length + pre.flatten.length) line := by
  constructor
  · intro h
    -- a line after the first has the first among those before it
    refine ⟨h [] raw ls rfl, fun pre line post hls => ?_⟩
    simpa [Nat.add_assoc] using h (raw :: pre) line post (by rw [hls]; rfl)
  · rintro ⟨hfirst, hlater⟩ pre line post hls
    cases pre with
    | nil =>
      obtain ⟨rfl, rfl⟩ := List.cons.inj hls
      exact hfirst
    | cons first pre =>
      obtain ⟨rfl, hrest⟩ := List.cons.inj hls
      simpa [Nat.add_assoc] using hlater pre line post hrest

/-- The check passes when every line is prose or not touched by a value. Places are measured from
where the first line begins. -/
theorem checkLines_eq_ok_iff {spans : List Span} {ls : List Text} :
    checkLines comment spans n place ls = .ok () ↔
      ∀ pre line post, ls = pre ++ line :: post →
        LineKind.Is comment line .prose ∨ ∀ span ∈ spans, touches (place + pre.flatten.length)
          (place + pre.flatten.length + line.length) span = false := by
  induction ls generalizing n place with
  | nil => simp [checkLines]
  | cons raw ls ih =>
    rw [forall_split_cons (p := fun place line => LineKind.Is comment line .prose ∨
      ∀ span ∈ spans, touches place (place + line.length) span = false), ← ih (n := n + 1),
      checkLines]
    by_cases hprose : LineKind.isProse comment n raw = true
    · rw [if_pos hprose]
      simp [LineKind.isProse_eq_true_iff.1 hprose]
    · rw [if_neg hprose]
      -- a line that is no prose passes when the search for a value that touches it fails
      have hnot : ¬ LineKind.Is comment raw .prose :=
        fun h => hprose (LineKind.isProse_eq_true_iff.2 h)
      cases hfind : spans.find? (touches place (place + raw.length)) with
      | none =>
        rw [List.find?_eq_none] at hfind
        simp only [Bool.not_eq_true] at hfind
        exact ⟨fun h => ⟨.inr hfind, h⟩, fun h => h.2⟩
      | some span =>
        have hspan := List.find?_some hfind
        have hmem := List.mem_of_find?_eq_some hfind
        simp only [reduceCtorEq, false_iff, not_and]
        rintro (h | h)
        · exact absurd h hnot
        · rw [h span hmem] at hspan
          cases hspan

/-- What is before a line that begins after `before` is complete after any other text as well. At
the beginning of the text there is nothing before, and then the other text has to be nothing too.
-/
theorem split_of_place {other x y t : Text} (hx : Text.Complete x)
    (hplace : before.length < x.length ∨ before = [] ∧ other = []) (h : x ++ y = before ++ t) :
    ∃ x', x = before ++ x' ∧ Text.Complete (other ++ x') := by
  have hlength : before.length ≤ x.length := by
    rcases hplace with h | ⟨rfl, -⟩
    · exact Nat.le_of_lt h
    · exact Nat.zero_le _
  obtain ⟨x', rfl⟩ : before <+: x :=
    List.prefix_of_prefix_length_le ⟨t, h.symm⟩ ⟨y, rfl⟩ hlength
  refine ⟨x', rfl, ?_⟩
  by_cases hnil : x' = []
  · subst hnil
    rcases hplace with h | ⟨-, rfl⟩
    · simp at h
    · exact Text.complete_nil
  · exact (Text.complete_append_iff hnil).2 hx.of_append

/-- A line that is over before the next value begins is a line of every text with the same literal
text up to there. -/
theorem mem_lines_of_literal {other x line y literal : Text} (hx : Text.Complete x)
    (hline : Text.IsLine line) (hplace : before.length < x.length ∨ before = [] ∧ other = [])
    (htext : before ++ literal = x ++ line ++ y) (more : Text)
    (hy : y ++ more ≠ [] → Text.Complete line) :
    line ∈ Text.lines (other ++ (literal ++ more)) := by
  obtain ⟨x', rfl, hother⟩ := split_of_place hx hplace (y := line ++ y) (by
    rw [← List.append_assoc, ← htext])
  obtain rfl : literal = x' ++ line ++ y := by
    rw [List.append_assoc, List.append_assoc, List.append_cancel_left_eq] at htext
    simpa using htext
  have hgoal : other ++ (x' ++ line ++ y ++ more) = other ++ x' ++ line ++ (y ++ more) := by
    simp only [List.append_assoc]
  rw [hgoal]
  exact Text.mem_lines_append hother hline hy

/-- **A line that no value touches is a line of every body with the same literal text.** What the
values are then matters neither to the line nor to where it begins and ends. -/
theorem mem_lines_of_untouched (hleads : slots.map Slot.lead = others.map Slot.lead)
    {other x line y : Text} (htext : before ++ text ⟨slots, tail⟩ = x ++ line ++ y)
    (hx : Text.Complete x) (hline : Text.IsLine line) (hy : y ≠ [] → Text.Complete line)
    (hplace : before.length < x.length ∨ before = [] ∧ other = [])
    (huntouched : ∀ span ∈ spansFrom before.length slots,
      touches x.length (x.length + line.length) span = false) :
    line ∈ Text.lines (other ++ text ⟨others, tail⟩) := by
  -- By induction on the values, going with both bodies at once. A line that a value does not
  -- touch lies before it, and is in the literal text there, or lies behind it, and the other
  -- values decide.
  induction slots generalizing before others other with
  | nil =>
    -- after the last value the line is in the tail, which both bodies have
    obtain rfl : others = [] := List.map_eq_nil_iff.1 hleads.symm
    have htail : before ++ tail = x ++ line ++ y := by
      simpa [text] using htext
    have hmem : line ∈ Text.lines (other ++ (tail ++ [])) :=
      mem_lines_of_literal hx hline hplace htail [] (by simpa using hy)
    simpa [text] using hmem
  | cons slot slots ih =>
    cases others with
    | nil => cases hleads
    | cons o others =>
      rw [List.map_cons, List.map_cons, List.cons.injEq] at hleads
      obtain ⟨hlead, hleads⟩ := hleads
      rw [spansFrom, List.forall_mem_cons] at huntouched
      obtain ⟨hspan, hspans⟩ := huntouched
      rw [text_cons] at htext
      rw [touches, Bool.and_eq_false_iff, decide_eq_false_iff_not, decide_eq_false_iff_not,
        Nat.not_le, Nat.not_le] at hspan
      rcases hspan with hspan | hspan
      · -- the line is over before the value begins
        have htext' : before ++ slot.lead ++ (slot.value ++ text ⟨slots, tail⟩) =
            x ++ line ++ y := by
          simpa using htext
        have hlength : (x ++ line).length < (before ++ slot.lead).length := by
          simpa only [List.length_append] using hspan
        obtain ⟨y', hy'⟩ : x ++ line <+: before ++ slot.lead :=
          List.prefix_of_prefix_length_le ⟨y, htext'.symm⟩ ⟨_, rfl⟩ (Nat.le_of_lt hlength)
        have hne : y ≠ [] := by
          rintro rfl
          have h := congrArg List.length htext'
          simp only [List.length_append, List.length_nil] at h hlength
          omega
        rw [text_cons, ← hlead, List.append_assoc slot.lead]
        exact mem_lines_of_literal hx hline hplace hy'.symm _ fun _ => hy hne
      · -- the line begins after the value
        have hstep : (before ++ slot.lead ++ slot.value).length =
            before.length + slot.lead.length + slot.value.length := by
          simp only [List.length_append]
        have htext' : before ++ slot.lead ++ slot.value ++ text ⟨slots, tail⟩ = x ++ line ++ y := by
          simpa using htext
        have hgoal : line ∈ Text.lines (other ++ o.lead ++ o.value ++ text ⟨others, tail⟩) :=
          ih hleads htext' (.inl (by rw [hstep]; exact hspan)) (by rw [hstep]; exact hspans)
        rw [text_cons]
        simpa using hgoal

/-- A line that no value touches is prose, when the literal text is that of a body of prose. -/
theorem prose_of_untouched (hleads : body.slots.map Slot.lead = base.slots.map Slot.lead)
    (htail : body.tail = base.tail)
    (hbase : ∀ line ∈ Text.lines base.text, LineKind.Is comment line .prose)
    {pre post : List Text} {line : Text} (hlines : Text.lines body.text = pre ++ line :: post)
    (huntouched : ∀ span ∈ body.spans,
      touches pre.flatten.length (pre.flatten.length + line.length) span = false) :
    LineKind.Is comment line .prose := by
  obtain ⟨htext, hx, hisLine, hy⟩ := Text.of_lines_eq_append hlines
  refine hbase line ?_
  have htext' : [] ++ text ⟨body.slots, body.tail⟩ = pre.flatten ++ line ++ post.flatten :=
    htext
  have hmem : line ∈ Text.lines ([] ++ text ⟨base.slots, body.tail⟩) :=
    mem_lines_of_untouched hleads htext' hx hisLine hy (.inr ⟨rfl, rfl⟩) huntouched
  rw [htail] at hmem
  exact hmem

/-- **A body with the literal text of one that is nothing but prose may be written exactly when it
is nothing but prose itself.** The lines that the check leaves out are lines of the old body. -/
theorem checkBlock_eq_ok_iff (hleads : body.slots.map Slot.lead = base.slots.map Slot.lead)
    (htail : body.tail = base.tail)
    (hbase : ∀ line ∈ Text.lines base.text, LineKind.Is comment line .prose) :
    body.checkBlock comment n = .ok () ↔
      ∀ line ∈ Text.lines body.text, LineKind.Is comment line .prose := by
  rw [checkBlock, checkLines_eq_ok_iff]
  constructor
  · intro h line hline
    obtain ⟨pre, post, hlines⟩ := List.append_of_mem hline
    rcases h pre line post hlines with hprose | huntouched
    · exact hprose
    · rw [Nat.zero_add] at huntouched
      exact prose_of_untouched hleads htail hbase hlines huntouched
  · intro h pre line post hlines
    exact .inl (h line (by rw [hlines]; simp))

/-- Which bodies pass the check does not depend on the number of their first line. -/
theorem checkBlock_ok_of_ok (h : body.checkBlock comment n = .ok ()) :
    body.checkBlock comment k = .ok () :=
  checkLines_eq_ok_iff.2 (checkLines_eq_ok_iff.1 h)

/-! ### Chosen specs -/

theorem specsFrom_cons_eq_ok_iff :
    specsFrom n before tail (slot :: slots) = .ok specs ↔
      ∃ delimiter later,
        slot.candidates.find? (findsAgain before slot (text ⟨slots, tail⟩)) = some delimiter ∧
        specsFrom n (before ++ slot.lead ++ slot.value) tail slots = .ok later ∧
        specs = ⟨slot.name, delimiter⟩ :: later := by
  rw [specsFrom]
  cases slot.candidates.find? (findsAgain before slot (text ⟨slots, tail⟩)) with
  | none => simp
  | some delimiter =>
    cases specsFrom n (before ++ slot.lead ++ slot.value) tail slots with
    | error e => simp [Except.map]
    | ok later => simp [Except.map, eq_comm]

theorem specsFrom_ok_of_ok (h : specsFrom n before tail slots = .ok specs) :
    specsFrom k before tail slots = .ok specs := by
  induction slots generalizing before specs with
  | nil => exact h
  | cons slot slots ih =>
    obtain ⟨delimiter, later, hfind, hlater, rfl⟩ := specsFrom_cons_eq_ok_iff.1 h
    exact specsFrom_cons_eq_ok_iff.2 ⟨delimiter, later, hfind, ih hlater, rfl⟩

theorem verify_eq_ok_iff :
    body.verify comment n = .ok specs ↔
      body.checkBlock comment n = .ok () ∧ body.specs n = .ok specs := by
  rw [verify]
  cases body.checkBlock comment n with
  | error e => simp
  | ok _ => simp

/-- **What a body is verified to depends on the number of its line in complaints only.** -/
theorem verify_ok_of_ok (h : body.verify comment n = .ok specs) :
    body.verify comment k = .ok specs := by
  obtain ⟨hcheck, hspecs⟩ := verify_eq_ok_iff.1 h
  exact verify_eq_ok_iff.2 ⟨checkBlock_ok_of_ok hcheck, specsFrom_ok_of_ok hspecs⟩

/-- Specs that are chosen for slots, each of them one of the slot's own. Names and order are those
of the slots. -/
def Chosen (slots : List Slot) (specs : List FieldSpec) : Prop :=
  List.Forall₂ (fun slot spec => spec.name = slot.name ∧ spec.delimiter ∈ slot.candidates)
    slots specs

theorem chosen_of_specsFrom (h : specsFrom n before tail slots = .ok specs) :
    Chosen slots specs := by
  induction slots generalizing before specs with
  | nil =>
    cases h
    exact .nil
  | cons slot slots ih =>
    obtain ⟨delimiter, later, hfind, hlater, rfl⟩ := specsFrom_cons_eq_ok_iff.1 h
    exact .cons ⟨rfl, List.mem_of_find?_eq_some hfind⟩ (ih hlater)

theorem Chosen.names (h : Chosen slots specs) :
    specs.map FieldSpec.name = slots.map Slot.name := by
  induction h with
  | nil => rfl
  | cons hslot _ ih => rw [List.map_cons, List.map_cons, hslot.1, ih]

/-- The slots, each framed by the one delimiter that was chosen for it. -/
def framed (slots : List Slot) (specs : List FieldSpec) : List Slot :=
  List.zipWith (fun slot spec => { slot with candidates := [spec.delimiter] }) slots specs

theorem locate_cons_of_locate? {t lead value rest : Text}
    (h : spec.delimiter.locate? before t = some (lead, value, rest)) :
    locate before (spec :: specs) t =
      ⟨⟨lead, spec.name, value, [spec.delimiter]⟩ ::
          (locate (before ++ lead ++ value) specs rest).slots,
        (locate (before ++ lead ++ value) specs rest).tail⟩ := by
  rw [locate, h]

theorem locate?_of_find {delimiter : Delimiter} {after : Text}
    (h : slot.candidates.find? (findsAgain before slot after) = some delimiter) :
    delimiter.locate? before (slot.lead ++ slot.value ++ after) =
      some (slot.lead, slot.value, after) := by
  have hfound := List.find?_some h
  rwa [findsAgain, decide_eq_true_eq] at hfound

theorem locate_of_specsFrom (h : specsFrom n before tail slots = .ok specs) :
    locate before specs (text ⟨slots, tail⟩) = ⟨framed slots specs, tail⟩ := by
  induction slots generalizing before specs with
  | nil =>
    cases h
    rfl
  | cons slot slots ih =>
    obtain ⟨delimiter, later, hfind, hlater, rfl⟩ := specsFrom_cons_eq_ok_iff.1 h
    rw [text_cons, locate_cons_of_locate? (locate?_of_find hfind), ih hlater]
    rfl

/-- **The specs that are chosen for a body find its values again**, each in its place. This is
what makes a header that was written readable. -/
theorem locate_of_specs (h : body.specs n = .ok specs) :
    locate [] specs body.text = ⟨framed body.slots specs, body.tail⟩ :=
  locate_of_specsFrom h

/-- The specs find the values as well when a line feed is put at the end of the body. A body may
end with its last value, and is then followed by the separator that it gets. -/
theorem locate_of_specsFrom_append_lineFeed (h : specsFrom n before tail slots = .ok specs)
    (hinline : ∀ spec ∈ specs, spec.delimiter.Inline)
    (hlast : (text ⟨slots, tail⟩).Unended) :
    locate before specs (text ⟨slots, tail⟩ ++ ['\n']) =
      ⟨framed slots specs, tail ++ ['\n']⟩ := by
  induction slots generalizing before specs with
  | nil =>
    cases h
    rfl
  | cons slot slots ih =>
    obtain ⟨delimiter, later, hfind, hlater, rfl⟩ := specsFrom_cons_eq_ok_iff.1 h
    rw [text_cons] at hlast ⊢
    have hlocate := Delimiter.locate?_append_lineFeed (hinline _ (List.mem_cons_self ..)) hlast
      (locate?_of_find hfind)
    have hrest := ih hlater (fun spec hspec => hinline spec (List.mem_cons_of_mem _ hspec))
      hlast.of_append
    rw [locate_cons_of_locate? hlocate, hrest]
    rfl

/-- A body that ends with its last value does not end with a line feed: the value would not
have been found again. -/
theorem unended_of_specsFrom (h : specsFrom n before [] slots = .ok specs)
    (hinline : ∀ spec ∈ specs, spec.delimiter.Inline) (hne : slots ≠ []) :
    (before ++ text ⟨slots, []⟩).Unended := by
  -- Only the last value matters, which is what the induction leads to: with nothing behind it, a
  -- delimiter that found it has found it in a text without a line feed at its end.
  induction slots generalizing before specs with
  | nil => exact absurd rfl hne
  | cons slot slots ih =>
    obtain ⟨delimiter, later, hfind, hlater, rfl⟩ := specsFrom_cons_eq_ok_iff.1 h
    cases slots with
    | cons next slots =>
      have hrest := ih hlater (fun spec hspec => hinline spec (List.mem_cons_of_mem _ hspec))
        (by simp)
      rw [text_cons]
      simpa using hrest
    | nil =>
      have hlocate := locate?_of_find hfind
      rw [text_cons]
      have hunended := Delimiter.unended_of_locate? (hinline _ (List.mem_cons_self ..)) hlocate
      by_cases hnil : slot.lead ++ slot.value ++ text ⟨[], []⟩ = []
      · rw [hnil] at hlocate
        rw [hnil, Delimiter.eq_nil_of_locate?_nil hlocate]
        exact Text.unended_nil
      · exact (Text.unended_append_iff hnil).2 hunended

/-! ### Bodies that are filled anew -/

theorem text_fill_cons {value : Name → Text} :
    (fill ⟨slot :: slots, tail⟩ value).text =
      slot.lead ++ value slot.name ++ (fill ⟨slots, tail⟩ value).text :=
  text_cons ..

/-- What is left of a complete text after its values is complete. -/
theorem complete_locate_tail (hinline : ∀ spec ∈ specs, spec.delimiter.Inline) {t : Text}
    (hne : t ≠ []) (ht : t.Complete) :
    (locate before specs t).tail ≠ [] ∧ (locate before specs t).tail.Complete := by
  -- A find leaves a rest that is not empty, since nothing is found at the end of a text with a
  -- line feed there; and the rest ends as the text does.
  induction specs generalizing before t with
  | nil => exact ⟨hne, ht⟩
  | cons spec specs ih =>
    obtain ⟨hspec, hspecs⟩ := List.forall_mem_cons.1 hinline
    cases hlocate : spec.delimiter.locate? before t with
    | none =>
      rw [locate, hlocate]
      exact ih hspecs hne ht
    | some found =>
      obtain ⟨lead, value, rest⟩ := found
      have htext := Delimiter.locate?_append hlocate
      have hrest : rest ≠ [] := by
        rintro rfl
        rcases Text.unended_iff.1 (Delimiter.unended_of_locate? hspec hlocate) with h | h
        · exact hne h
        · exact h ht
      rw [locate_cons_of_locate? hlocate]
      refine ih hspecs hrest ?_
      rw [← htext] at ht
      exact ht.of_append

/-- **A complete body stays complete when its values are replaced**, since its last line feed is
behind the last value. -/
theorem complete_fill (hinline : ∀ spec ∈ specs, spec.delimiter.Inline) {t : Text}
    (hne : t ≠ []) (ht : t.Complete) (value : Name → Text) :
    ((locate [] specs t).fill value).text.Complete := by
  obtain ⟨htail, hcomplete⟩ : (locate [] specs t).tail ≠ [] ∧ (locate [] specs t).tail.Complete :=
    complete_locate_tail hinline hne ht
  exact (Text.complete_append_iff htail).2 hcomplete

end FieldedText.Body
