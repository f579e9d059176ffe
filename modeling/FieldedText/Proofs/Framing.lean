/-
FieldedText/Proofs/Framing.lean

The delimiters that are offered for a placeholder, and what they can hold.

Whatever delimiter is offered, configured or not, its start ends the text before
the placeholder on its line and its stop begins the text after it
(`of_mem_delimiters`).  So all that a delimiter can hold is read off the lines of
the template that placeholders stand on: when these are free of the signs of a
pattern, every spec that is made for the template is one that a header gives back
(`isSafe_of_mem_delimiters`), in an entry of a list as well.
-/
import Mathlib.Data.List.Infix
import FieldedText.Document.Framing
import FieldedText.Proofs.Delimiter
import FieldedText.Proofs.Template

namespace FieldedText

/-! ### Placeholders and their surroundings -/

namespace Template

/-- The literal text up to the first placeholder. -/
def leadOf (tail : Text) : List Hole → Text
  | [] => tail
  | next :: _ => next.lead

/-- The placeholders that follow `before` in a template, each with the text around it. The text
before a placeholder holds the tokens of those before it, as they are written in the template. -/
def surroundingsFrom (tail : Text) : Text → List Hole → List Surroundings
  | _, [] => []
  | before, hole :: holes =>
    { placeholder := hole.placeholder
      before := before ++ hole.lead
      lead := hole.lead
      follow := leadOf tail holes
      after := text ⟨holes, tail⟩ } ::
      surroundingsFrom tail (before ++ hole.lead ++ hole.placeholder.token) holes

/-- The placeholders of a template, each with the text around it. -/
def surroundings (template : Template) : List Surroundings :=
  surroundingsFrom template.tail [] template.holes

variable {tail before : Text} {holes : List Hole} {template : Template}
  {around : Surroundings}

theorem text_cons (hole : Hole) (holes : List Hole) (tail : Text) :
    text ⟨hole :: holes, tail⟩ = hole.lead ++ hole.placeholder.token ++ text ⟨holes, tail⟩ := by
  simp [text, holeText]

/-- The text around a placeholder makes up the template. The text between it and its neighbours
lies at the near ends of the text before and after it. -/
structure Surrounds (template : Text) (around : Surroundings) : Prop where
  text : template = around.before ++ around.placeholder.token ++ around.after
  lead : around.lead <:+ around.before
  follow : around.follow <+: around.after

theorem surrounds_of_mem_surroundingsFrom (h : around ∈ surroundingsFrom tail before holes) :
    Surrounds (before ++ text ⟨holes, tail⟩) around := by
  induction holes generalizing before with
  | nil => cases h
  | cons hole holes ih =>
    rw [surroundingsFrom, List.mem_cons] at h
    rcases h with rfl | h
    · refine ⟨by rw [text_cons]; simp, List.suffix_append .., ?_⟩
      cases holes with
      | nil => exact ⟨[], by simp [text, leadOf]⟩
      | cons next holes =>
        refine ⟨next.placeholder.token ++ text ⟨holes, tail⟩, ?_⟩
        show next.lead ++ (next.placeholder.token ++ text ⟨holes, tail⟩) =
          text ⟨next :: holes, tail⟩
        rw [text_cons, List.append_assoc]
    · have hlater := ih h
      rw [text_cons]
      simpa using hlater

theorem surrounds_of_mem (h : around ∈ template.surroundings) :
    Surrounds template.text around := by
  have hfrom := surrounds_of_mem_surroundingsFrom h
  rwa [List.nil_append] at hfrom

theorem map_lead_surroundingsFrom (tail before : Text) (holes : List Hole) :
    (surroundingsFrom tail before holes).map Surroundings.lead = holes.map Hole.lead := by
  induction holes generalizing before with
  | nil => rfl
  | cons hole holes ih => rw [surroundingsFrom, List.map_cons, List.map_cons, ih]

theorem map_name_surroundingsFrom (tail before : Text) (holes : List Hole) :
    (surroundingsFrom tail before holes).map (fun around => around.placeholder.name) =
      holes.map fun hole => hole.placeholder.name := by
  induction holes generalizing before with
  | nil => rfl
  | cons hole holes ih => rw [surroundingsFrom, List.map_cons, List.map_cons, ih]

/-- The literal texts beside the placeholders are the same whatever the names are. So what holds
of a list template's lines holds of the lines of each of its entries. -/
theorem map_sides_surroundings_rename (change : Name → Name) (template : Template) :
    (template.rename change).surroundings.map (fun around => (around.lead, around.follow)) =
      template.surroundings.map fun around => (around.lead, around.follow) := by
  obtain ⟨holes, tail⟩ := template
  have hfrom (before other : Text) :
      (surroundingsFrom tail before (rename change ⟨holes, tail⟩).holes).map
          (fun around => (around.lead, around.follow)) =
        (surroundingsFrom tail other holes).map fun around => (around.lead, around.follow) := by
    -- the texts before the placeholders differ, since tokens stand in them; they may be anything
    induction holes generalizing before other with
    | nil => rfl
    | cons hole holes ih =>
      have hlater := ih (before ++ hole.lead ++
        (Placeholder.ofName (change hole.placeholder.name)).token)
        (other ++ hole.lead ++ hole.placeholder.token)
      rw [surroundingsFrom, List.map_cons, ← hlater]
      cases holes <;> rfl
  exact hfrom [] []

end Template

/-! ### Offered delimiters -/

namespace Surroundings

variable {around : Surroundings} {configured delimiter : Delimiter} {n : Nat}

theorem candidates_eq_ok_iff {delimiters : List Delimiter} :
    around.candidates configured n = .ok delimiters ↔
      around.delimiters configured ≠ [] ∧ delimiters = around.delimiters configured := by
  rw [candidates]
  cases around.delimiters configured with
  | nil => simp
  | cons d ds => simp [eq_comm]

/-- A configured delimiter is offered when it stands on both sides of the placeholder, and the
text around the placeholder when it is fit to be a delimiter. -/
theorem eq_of_mem_delimiters (h : delimiter ∈ around.delimiters configured) :
    (delimiter = configured ∧ around.hasConfigured configured = true) ∨
      (delimiter = around.textual ∧ around.admits around.textual = true) := by
  simp only [delimiters] at h
  by_cases hhas : around.hasConfigured configured = true
  · rw [if_pos hhas] at h
    split at h
    · rename_i hadmits
      simp only [List.singleton_append, List.mem_cons, List.not_mem_nil, or_false] at h
      exact h.imp (fun h => ⟨h, hhas⟩) fun h => ⟨h, (Bool.and_eq_true_iff.1 hadmits).1⟩
    · exact .inl ⟨List.mem_singleton.1 h, hhas⟩
  · rw [if_neg hhas] at h
    split at h
    · rename_i hadmits
      exact .inr ⟨List.mem_singleton.1 h, (Bool.and_eq_true_iff.1 hadmits).1⟩
    · cases h

/-- **An offered delimiter is made of the text beside the placeholder.** The text before it on its
line ends with the start, the text after it begins with the stop. -/
theorem of_mem_delimiters (h : delimiter ∈ around.delimiters configured) :
    delimiter.start <:+ around.lineLead ∧ delimiter.stop <+: around.lineFollow := by
  rcases eq_of_mem_delimiters h with ⟨rfl, hhas⟩ | ⟨rfl, -⟩
  · simp only [hasConfigured, Bool.and_eq_true] at hhas
    exact ⟨Text.before?_isSome_iff.1 hhas.1.1.2, Text.after?_isSome_iff.1 hhas.1.2⟩
  · exact ⟨List.suffix_refl _, List.prefix_refl _⟩

theorem admits_of_mem_delimiters (h : delimiter ∈ around.delimiters configured) :
    around.admits delimiter = true := by
  rcases eq_of_mem_delimiters h with ⟨rfl, hhas⟩ | ⟨rfl, hadmits⟩
  · rw [hasConfigured, Bool.and_eq_true] at hhas
    exact hhas.2
  · exact hadmits

end Surroundings

namespace Text

/-- The rest of a line is the text up to its line feed, less a carriage return. -/
theorem lineRest_append (t : Text) :
    ∃ e, t.takeWhile (· != '\n') = Surroundings.lineRest t ++ e ∧ ∀ c ∈ e, c = '\r' := by
  simp only [Surroundings.lineRest]
  cases hbefore : before? ['\r'] (t.takeWhile (· != '\n')) with
  | none => exact ⟨[], by simp, by simp⟩
  | some rest => exact ⟨['\r'], before?_eq_some_iff.1 hbefore, by simp⟩

theorem lineRest_isPrefix (t : Text) : Surroundings.lineRest t <+: t := by
  obtain ⟨e, he, -⟩ := lineRest_append t
  exact (List.prefix_append _ e).trans (he ▸ List.takeWhile_prefix _)

theorem not_mem_lineRest (t : Text) : '\n' ∉ Surroundings.lineRest t := by
  obtain ⟨e, he, -⟩ := lineRest_append t
  intro hmem
  have hin : '\n' ∈ t.takeWhile (· != '\n') := by
    rw [he]
    exact List.mem_append_left e hmem
  have h := List.all_eq_true.1 (List.all_takeWhile (l := t)) '\n' hin
  simp at h

theorem not_mem_afterLast (mark : Char) (t : Text) : mark ∉ afterLast mark t := by
  rw [afterLast, List.mem_reverse]
  intro hmem
  have h := List.all_eq_true.1 (List.all_takeWhile (l := t.reverse)) mark hmem
  simp at h

theorem afterLast_suffix (mark : Char) (t : Text) : afterLast mark t <:+ t := by
  rw [afterLast, ← List.reverse_prefix, List.reverse_reverse]
  exact List.takeWhile_prefix _

/-- What comes after the last mark of an end of a text comes after its last mark in the text. -/
theorem afterLast_suffix_afterLast (mark : Char) {s t : Text} (h : s <:+ t) :
    afterLast mark s <:+ afterLast mark t := by
  obtain ⟨u, rfl⟩ := h
  rw [afterLast, afterLast, List.reverse_append, List.reverse_suffix]
  induction s.reverse with
  | nil => exact List.nil_prefix
  | cons c r ih =>
    rw [List.cons_append, List.takeWhile_cons, List.takeWhile_cons]
    split
    · exact List.cons_prefix_cons.2 ⟨rfl, ih⟩
    · exact List.nil_prefix

end Text

/-! ### Specs that a header gives back -/

/-- A spec whose token puts no directive on its line and is read as it was written. It is what a
header needs of each of its specs. -/
structure FieldSpec.IsSafe (spec : FieldSpec) : Prop where
  writable : Writable spec
  readable : Readable spec
  unmarked : Directive.Unmarked spec.token

/-- A template of which every spec is safe: no name begins with an at sign, and no line with a
placeholder holds the marker or what closes a pattern. -/
structure Template.Legible (template : Template) : Prop where
  names : ∀ name ∈ template.names, name.head? ≠ some '@'
  lines : ∀ around ∈ template.surroundings,
    ¬ Sign.marker <:+: around.wholeLine ∧ ¬ Sign.patternClosing <:+: around.wholeLine

instance (template : Template) : Decidable template.Legible :=
  decidable_of_iff ((∀ name ∈ template.names, name.head? ≠ some '@') ∧
      ∀ around ∈ template.surroundings, ¬ Sign.marker <:+: around.wholeLine ∧
        ¬ Sign.patternClosing <:+: around.wholeLine)
    ⟨fun h => ⟨h.1, h.2⟩, fun h => ⟨h.names, h.lines⟩⟩

namespace Surroundings

variable {around other : Surroundings} {configured delimiter : Delimiter} {template mark : Text}

/-- What follows a placeholder on its line is within the rest of the line. -/
theorem lineFollow_isPrefix (hs : Template.Surrounds template around) :
    around.lineFollow <+: lineRest around.after := by
  obtain ⟨rest, hrest⟩ := hs.follow
  have htake := List.prefix_iff_eq_take.1 (Text.lineRest_isPrefix around.after)
  rw [lineFollow]
  conv => rhs; rw [htake, ← hrest, List.take_append]
  rw [hrest]
  exact List.prefix_append ..

/-- An offered delimiter stands within the line of its placeholder, also when it is the configured
one: it has been seen there. -/
theorem inline_of_mem_delimiters (hs : Template.Surrounds template around)
    (h : delimiter ∈ around.delimiters configured) : delimiter.Inline := by
  obtain ⟨hstart, hstop⟩ := of_mem_delimiters h
  refine ⟨fun hmem => ?_, fun hmem => ?_⟩
  · exact Text.not_mem_afterLast '\n' around.lead (hstart.subset hmem)
  · exact Text.not_mem_lineRest around.after
      ((hstop.trans (lineFollow_isPrefix hs)).subset hmem)

/-- What ends the text before a placeholder on its line is on the line. -/
theorem infix_wholeLine_of_isSuffix (hs : Template.Surrounds template around)
    (h : mark <:+ around.lineLead) : mark <:+: around.wholeLine := by
  have hbefore := h.trans (Text.afterLast_suffix_afterLast '\n' hs.lead)
  have hline : Text.afterLast '\n' around.before <:+: around.wholeLine :=
    ⟨[], around.placeholder.token ++ lineRest around.after, by simp [wholeLine]⟩
  exact hbefore.isInfix.trans hline

/-- A mark in a text that begins what follows a placeholder, and has no line feed, is on the
placeholder's line. -/
theorem infix_wholeLine_of_isPrefix (hs : Template.Surrounds template around) {text : Text}
    (htext : text <+: around.follow) (hline : '\n' ∉ text) (hne : mark ≠ []) (hmark : '\r' ∉ mark)
    (h : mark <:+: text) : mark <:+: around.wholeLine := by
  obtain ⟨rest, hrest⟩ := htext.trans hs.follow
  have hpos : ∀ c ∈ text, (c != '\n') = true := by
    intro c hc
    rw [bne_iff_ne]
    rintro rfl
    exact hline hc
  -- the text is in the line up to its line feed, of which the rest of the line lacks only a
  -- carriage return that the mark does not hold
  obtain ⟨e, he, hends⟩ := Text.lineRest_append around.after
  have hin : mark <:+: lineRest around.after ++ e := by
    rw [← he, ← hrest, List.takeWhile_append_of_pos hpos]
    exact h.trans (List.prefix_append ..).isInfix
  have hreturn : ∀ c ∈ e, c ∉ mark := by
    intro c hc
    rw [hends c hc]
    exact hmark
  rw [Text.infix_append_left_iff hne hreturn] at hin
  exact hin.trans (List.suffix_append ..).isInfix

/-- The sides of a delimiter that is offered for a placeholder stand in the template, and so they
do in one with other names around the same literal text. -/
theorem infix_of_mem_delimiters (hs : Template.Surrounds template around)
    (hlead : other.lead = around.lead) (hfollow : other.follow = around.follow)
    (h : delimiter ∈ other.delimiters configured) :
    delimiter.start <:+: template ∧ delimiter.stop <:+: template := by
  obtain ⟨hstart, hstop⟩ := of_mem_delimiters h
  rw [lineLead, hlead] at hstart
  rw [lineFollow, hfollow] at hstop
  constructor
  · refine (hstart.trans ((Text.afterLast_suffix '\n' around.lead).trans hs.lead)).isInfix.trans ?_
    rw [hs.text, List.append_assoc]
    exact (List.prefix_append ..).isInfix
  · refine (hstop.trans ((List.take_prefix ..).trans hs.follow)).isInfix.trans ?_
    rw [hs.text]
    exact (List.suffix_append ..).isInfix

/-- **A spec is safe that is made for a legible placeholder**, or for one with other names around
it but the same literal text beside it, as an entry of a list has it. -/
theorem isSafe_of_mem_delimiters {spec : FieldSpec} {changed : Text}
    (hs : Template.Surrounds template around) (hunmarked : Directive.Unmarked template)
    (hlines : ¬ Sign.marker <:+: around.wholeLine ∧ ¬ Sign.patternClosing <:+: around.wholeLine)
    (hother : Template.Surrounds changed other) (hlead : other.lead = around.lead)
    (hfollow : other.follow = around.follow) (hname : FieldSpec.IsName spec.name)
    (hat : spec.name.head? ≠ some '@') (hmem : spec.delimiter ∈ other.delimiters configured) :
    spec.IsSafe := by
  have hinline := inline_of_mem_delimiters hother hmem
  obtain ⟨hstart, hstop⟩ := of_mem_delimiters hmem
  obtain ⟨hstartIn, hstopIn⟩ := infix_of_mem_delimiters hs hlead hfollow hmem
  have hstartLead : spec.delimiter.start <:+ around.lineLead := by
    rwa [lineLead, hlead] at hstart
  have hstopFollow : spec.delimiter.stop <+: around.follow := by
    rw [← hfollow]
    exact hstop.trans (List.take_prefix ..)
  -- Both sides stand on the line of the placeholder, next to it, so what they must not hold is
  -- looked for on that line.
  refine ⟨⟨hname, hinline.start, hinline.stop⟩, ⟨fun hin => ?_, fun hin => ?_⟩, ?_⟩
  · exact hlines.1 (hin.trans (infix_wholeLine_of_isSuffix hs hstartLead))
  · exact hlines.2
      (infix_wholeLine_of_isPrefix hs hstopFollow hinline.stop (by decide) (by decide) hin)
  · exact Comment.unmarked_token_iff.2 ⟨Comment.unmarked_brace_cons hname hat,
      hunmarked.of_isInfix hstartIn, hunmarked.of_isInfix hstopIn⟩

end Surroundings

end FieldedText
