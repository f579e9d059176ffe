/-
FieldedText/Proofs/CheckedFraming.lean

The text beside a placeholder is sliced without a panic.

Four offsets meet at a placeholder: where its line begins and ends, where the one
before it ends, and where the one after it begins.  All of them are sizes of beginnings
of the text, and what decides between two of them is which beginning is the longer one.
The line begins behind the last line feed before the placeholder (`lineStart_eq`); it
ends before the first one after it, or before the carriage return in front of that,
which cannot be part of the placeholder, as this ends with a brace (`lineStop_eq`).
From these, the slices are the texts that stand beside the placeholder in the template
cut at its placeholders (`framings_eq`).
-/
import FieldedText.Checked.Framing
import FieldedText.Proofs.Access
import FieldedText.Proofs.Framing

namespace FieldedText

/-! ### The last line of a text -/

namespace Text

variable {a b t : Text} {mark : Char}

/-- A text up to and including the last occurrence of a character; nothing when there is none. It
is the part before `Text.afterLast`, and its size is the offset of a line's beginning. -/
def upToLast (mark : Char) (t : Text) : Text := (t.reverse.dropWhile (· != mark)).reverse

theorem upToLast_append_afterLast (mark : Char) (t : Text) :
    upToLast mark t ++ afterLast mark t = t := by
  rw [upToLast, afterLast, ← List.reverse_append, List.takeWhile_append_dropWhile,
    List.reverse_reverse]

/-- Where it does not occur in the end of a text, it occurs before that or not at all. -/
theorem upToLast_isPrefix_of_not_mem (h : mark ∉ b) (a : Text) : upToLast mark (a ++ b) <+: a := by
  have hb : ∀ c ∈ b.reverse, (c != mark) = true := by
    intro c hc
    rw [bne_iff_ne]
    rintro rfl
    exact h (List.mem_reverse.1 hc)
  rw [upToLast, List.reverse_append, List.dropWhile_append_of_pos hb, ← List.reverse_suffix,
    List.reverse_reverse]
  exact List.dropWhile_suffix _

theorem upToLast_of_not_mem (h : mark ∉ t) : upToLast mark t = [] :=
  List.prefix_nil.1 (upToLast_isPrefix_of_not_mem h [])

theorem afterLast_of_not_mem (h : mark ∉ t) : afterLast mark t = t := by
  have hsplit := upToLast_append_afterLast mark t
  rwa [upToLast_of_not_mem h, List.nil_append] at hsplit

theorem exists_upToLast_eq (h : mark ∈ t) : ∃ u, upToLast mark t = u ++ [mark] := by
  rw [upToLast]
  cases hdrop : t.reverse.dropWhile (· != mark) with
  | nil =>
    have hne := List.dropWhile_eq_nil_iff.1 hdrop mark (List.mem_reverse.2 h)
    simp at hne
  | cons c u =>
    have hhead := List.head_dropWhile_not (· != mark) (l := t.reverse)
    have hc : c = mark := by simpa [hdrop] using hhead
    exact ⟨u.reverse, by rw [hc, List.reverse_cons]⟩

/-- Only the last occurrence counts: what comes before another text does not matter. -/
theorem upToLast_append (h : mark ∈ b) (a : Text) :
    upToLast mark (a ++ b) = a ++ upToLast mark b := by
  obtain ⟨u, hu⟩ := exists_upToLast_eq h
  have hne : b.reverse.dropWhile (· != mark) ≠ [] := by
    intro hnil
    rw [upToLast, hnil] at hu
    simp at hu
  rw [upToLast, upToLast, List.reverse_append, List.dropWhile_append,
    if_neg (by rwa [List.isEmpty_iff]), List.reverse_append, List.reverse_reverse]

/-- Of two beginnings of a text the shorter one is had by taking as much of the other. So the
nearer of two offsets is the size of a text as well. -/
theorem byteLength_take (ha : a <+: t) (hb : b <+: t) :
    byteLength (a.take b.length) = min (byteLength a) (byteLength b) := by
  rcases Nat.le_total a.length b.length with hle | hle
  · rw [List.take_of_length_le hle, Nat.min_eq_left ((byteLength_le_iff ha hb).2 hle)]
  · have hprefix := List.prefix_of_prefix_length_le hb ha hle
    rw [← List.prefix_iff_eq_take.1 hprefix, Nat.min_eq_right ((byteLength_le_iff hb ha).2 hle)]

theorem atLineStart_iff : Delimiter.atLineStart t = true ↔ afterLast '\n' t = [] := by
  rw [Delimiter.atLineStart, afterLast, List.reverse_eq_nil_iff, ← List.head?_reverse]
  cases t.reverse with
  | nil => simp
  | cons c u => by_cases hc : c = '\n' <;> simp [hc]

end Text

namespace Checked

open Template (holeText leadOf)

variable {a t : Text}

theorem lineStart_eq (a b : Text) :
    lineStart (a ++ b) a.byteLength = .ok (Text.upToLast '\n' a).byteLength := by
  rw [lineStart, sliceTo_eq rfl rfl, bind_ok]
  by_cases h : '\n' ∈ a
  · obtain ⟨u, hu⟩ := Text.exists_upToLast_eq h
    have hsplit := Text.upToLast_append_afterLast '\n' a
    rw [hu, List.append_assoc, List.singleton_append] at hsplit
    have hlast : lastIndexOf? '\n' a = some (Text.byteLength u) := by
      conv => lhs; rw [← hsplit]
      exact lastIndexOf?_append (Text.not_mem_afterLast '\n' a) u
    rw [hlast, hu, Text.byteLength_append]
    rfl
  · rw [lastIndexOf?_eq_none h, Text.upToLast_of_not_mem h]
    rfl

/-- The first line feed is found at the end of the line. -/
theorem lineEnd_eq (a b : Text) :
    ((indexOf? ['\n'] b).map (a.byteLength + ·)).getD (a ++ b).byteLength =
      Text.byteLength (a ++ b.takeWhile (· != '\n')) := by
  -- The search for a line feed and the run of other characters stop at the same place: at the
  -- first line feed, or at the end of the text when there is none.
  have hline : '\n' ∉ b.takeWhile (· != '\n') := by
    intro hmem
    have hne := List.all_eq_true.1 (List.all_takeWhile (l := b)) '\n' hmem
    simp at hne
  cases hrest : b.dropWhile (· != '\n') with
  | nil =>
    have hb : b.takeWhile (· != '\n') = b := by
      have hsplit := List.takeWhile_append_dropWhile (p := (· != '\n')) (l := b)
      rwa [hrest, List.append_nil] at hsplit
    have hnone : Text.cut? ['\n'] b = none :=
      Text.cut?_eq_none_iff.2 (Text.not_infix_of_not_mem (List.mem_singleton_self _) (hb ▸ hline))
    rw [indexOf?_eq_none hnone, hb]
    rfl
  | cons c rest =>
    have hc : c = '\n' := by
      have hhead := List.head_dropWhile_not (· != '\n') (l := b)
      simpa [hrest] using hhead
    -- what stops the run is a line feed, and none is before it
    have hb : b = b.takeWhile (· != '\n') ++ ['\n'] ++ rest := by
      conv => lhs; rw [← List.takeWhile_append_dropWhile (p := (· != '\n')) (l := b), hrest, hc]
      simp
    have hcut : Text.cut? ['\n'] b = some (b.takeWhile (· != '\n'), rest) := by
      conv => lhs; rw [hb]
      exact Text.cut?_append_mark (by simp)
        (Text.not_infix_of_not_mem (List.mem_singleton_self _) hline)
    rw [indexOf?_of_cut? hcut, Option.map_some, Option.getD_some, Text.byteLength_append]

theorem before?_return_isSome_iff :
    (Text.before? ['\r'] t).isSome = true ↔ t.getLast? = some '\r' := by
  rw [Text.before?_isSome_iff, List.getLast?_eq_some_iff]
  exact ⟨fun ⟨u, hu⟩ => ⟨u, hu.symm⟩, fun ⟨u, hu⟩ => ⟨u, hu.symm⟩⟩

/-- **A line ends behind the text that its offset is the size of**, since that text does not end
with a carriage return. -/
theorem lineStop_eq (ha : a.getLast? ≠ some '\r') (b : Text) :
    lineStop (a ++ b) a.byteLength = .ok (Text.byteLength (a ++ Surroundings.lineRest b)) := by
  -- The program slices all the text up to the line feed, and asks whether that ends with a
  -- carriage return. As the text before the line does not, only one of the line can be meant.
  have hline : sliceTo (a ++ b) (Text.byteLength (a ++ b.takeWhile (· != '\n'))) =
      .ok (a ++ b.takeWhile (· != '\n')) := by
    refine sliceTo_eq (b := b.dropWhile (· != '\n')) ?_ rfl
    rw [List.append_assoc, List.takeWhile_append_dropWhile]
  rw [lineStop, sliceFrom_eq rfl rfl, bind_ok]
  simp only [lineEnd_eq, hline, bind_ok, before?_return_isSome_iff, List.getLast?_append,
    Surroundings.lineRest]
  cases hbefore : Text.before? ['\r'] (b.takeWhile (· != '\n')) with
  -- the carriage return is one byte, which is taken off
  | some u =>
    have hu := Text.before?_eq_some_iff.1 hbefore
    rw [hu, List.getLast?_concat, Option.some_or, if_pos rfl, ← List.append_assoc,
      Text.byteLength_append]
    exact minus_eq rfl
  | none =>
    have hrest : (b.takeWhile (· != '\n')).getLast? ≠ some '\r' := by
      rw [ne_eq, ← before?_return_isSome_iff, hbefore]
      simp
    have hends : (b.takeWhile (· != '\n')).getLast?.or a.getLast? ≠ some '\r' := by
      cases hlast : (b.takeWhile (· != '\n')).getLast? with
      | none => exact ha
      | some c => rwa [hlast] at hrest
    rw [if_neg hends]
    rfl

/-! ### A placeholder and the text around it -/

/-- A placeholder with all the text before and after it. It is the template's text again,
whichever placeholder is looked at. -/
def textAround (around : Surroundings) : Text :=
  around.before ++ around.placeholder.token ++ around.after

/-- The extent of a placeholder, by the texts around it. -/
def extentOf (around : Surroundings) : Extent :=
  ⟨around.before.byteLength, Text.byteLength (around.before ++ around.placeholder.token)⟩

/-- The extent of a placeholder's line, by the texts around it. It ends before the line end, and
so may be wider than what can frame the value. -/
def lineOf (around : Surroundings) : Extent :=
  ⟨(Text.upToLast '\n' around.before).byteLength, Text.byteLength
    (around.before ++ around.placeholder.token ++ Surroundings.lineRest around.after)⟩

theorem sliceTo_extentOf (around : Surroundings) :
    sliceTo (textAround around) (extentOf around).start = .ok around.before :=
  sliceTo_eq (List.append_assoc ..) rfl

theorem sliceFrom_extentOf (around : Surroundings) :
    sliceFrom (textAround around) (extentOf around).stop = .ok around.after :=
  sliceFrom_eq rfl rfl

theorem lineStart_extentOf (around : Surroundings) :
    lineStart (textAround around) (extentOf around).start = .ok (lineOf around).start := by
  rw [textAround, List.append_assoc]
  exact lineStart_eq ..

/-- A placeholder ends with a brace, and so a carriage return behind it is not part of it. -/
theorem lineStop_extentOf {around : Surroundings} (htoken : around.placeholder.IsToken) :
    lineStop (textAround around) (extentOf around).stop = .ok (lineOf around).stop := by
  obtain ⟨-, a, b, -, -, hu⟩ := htoken
  refine lineStop_eq ?_ _
  rw [hu]
  simp [Sign.closing]

theorem slice_lineOf (around : Surroundings) :
    slice (textAround around) (lineOf around).start (lineOf around).stop =
      .ok around.wholeLine := by
  have hline := Text.upToLast_append_afterLast '\n' around.before
  obtain ⟨rest, hrest⟩ := Text.lineRest_isPrefix around.after
  have hall : Text.upToLast '\n' around.before ++ around.wholeLine =
      around.before ++ around.placeholder.token ++ Surroundings.lineRest around.after := by
    rw [Surroundings.wholeLine, ← List.append_assoc, ← List.append_assoc, hline]
  refine slice_eq (c := rest) ?_ rfl ?_
  · rw [hall, List.append_assoc _ _ rest, hrest]
    rfl
  · rw [hall]
    rfl

/-- A placeholder begins its line when its extent does: nothing is between the two offsets. -/
theorem start_extentOf_iff (around : Surroundings) :
    (extentOf around).start = (lineOf around).start ↔ around.beginsLine = true := by
  have hsplit := congrArg Text.byteLength (Text.upToLast_append_afterLast '\n' around.before)
  rw [Text.byteLength_append] at hsplit
  rw [Surroundings.beginsLine, Text.atLineStart_iff, ← Text.byteLength_eq_zero_iff]
  simp only [extentOf, lineOf]
  omega

/-- A placeholder ends its line when its extent does. -/
theorem stop_extentOf_iff (around : Surroundings) :
    (extentOf around).stop = (lineOf around).stop ↔ around.endsLine = true := by
  rw [Surroundings.endsLine, decide_eq_true_eq, ← Text.byteLength_eq_zero_iff]
  simp only [extentOf, lineOf, Text.byteLength_append]
  omega

/-! ### The placeholders of a template -/

variable {hole : Hole} {pre post : List Hole} {tail : Text}

theorem placesFrom_append (n : Nat) (pre post : List Hole) :
    placesFrom n (pre ++ post) =
      placesFrom n pre ++ placesFrom (n + Text.byteLength (pre.flatMap holeText)) post := by
  induction pre generalizing n with
  | nil => simp [placesFrom]
  | cons hole pre ih => simp [placesFrom, ih, holeText, Nat.add_assoc]

theorem length_placesFrom (n : Nat) (holes : List Hole) :
    (placesFrom n holes).length = holes.length := by
  induction holes generalizing n with
  | nil => rfl
  | cons hole holes ih => rw [placesFrom, List.length_cons, List.length_cons, ih]

theorem map_name_placesFrom (n : Nat) (holes : List Hole) :
    (placesFrom n holes).map Place.name = holes.map fun hole => hole.placeholder.name := by
  induction holes generalizing n with
  | nil => rfl
  | cons hole holes ih => rw [placesFrom, List.map_cons, List.map_cons, ih]

/-- The placeholder of a hole between others, with the text around it. What is before it is all
the text of the holes before, and its own lead. -/
def surroundingsAt (pre : List Hole) (hole : Hole) (post : List Hole) (tail : Text) :
    Surroundings where
  placeholder := hole.placeholder
  before := pre.flatMap holeText ++ hole.lead
  lead := hole.lead
  follow := leadOf tail post
  after := Template.text ⟨post, tail⟩

theorem textAround_surroundingsAt (pre : List Hole) (hole : Hole) (post : List Hole) (tail : Text) :
    textAround (surroundingsAt pre hole post tail) =
      Template.text ⟨pre ++ hole :: post, tail⟩ := by
  simp [textAround, Template.text, surroundingsAt, holeText]

theorem surrounds_surroundingsAt (pre : List Hole) (hole : Hole) (post : List Hole) (tail : Text) :
    Template.Surrounds (Template.text ⟨pre ++ hole :: post, tail⟩)
      (surroundingsAt pre hole post tail) := by
  refine ⟨(textAround_surroundingsAt pre hole post tail).symm, List.suffix_append .., ?_⟩
  cases post with
  | nil => exact List.prefix_refl tail
  | cons next post =>
    refine ⟨next.placeholder.token ++ Template.text ⟨post, tail⟩, ?_⟩
    show next.lead ++ (next.placeholder.token ++ Template.text ⟨post, tail⟩) =
      Template.text ⟨next :: post, tail⟩
    rw [Template.text_cons, List.append_assoc]

theorem element_placesFrom (pre : List Hole) (hole : Hole) (post : List Hole) (tail : Text) :
    element (placesFrom 0 (pre ++ hole :: post)) pre.length =
      .ok ⟨hole.placeholder.name, extentOf (surroundingsAt pre hole post tail)⟩ := by
  rw [placesFrom_append, placesFrom, ← length_placesFrom 0 pre, element_append]
  simp [extentOf, surroundingsAt, Nat.add_assoc]

/-- The text before a placeholder is taken from the later of the end of the placeholder before
and the beginning of the line. -/
theorem leadStart_eq (pre rest : List Hole) (lineStart : Nat) :
    leadStart (placesFrom 0 (pre ++ rest)) lineStart pre.length =
      .ok (max (Text.byteLength (pre.flatMap holeText)) lineStart) := by
  rcases List.eq_nil_or_concat pre with rfl | ⟨pre, last, rfl⟩
  · simp [leadStart]
  · have hlast := element_placesFrom pre last rest []
    rw [List.length_concat, leadStart, List.concat_eq_append, List.append_assoc,
      List.singleton_append, hlast]
    simp [extentOf, surroundingsAt, holeText]

/-- The text before a placeholder on its line is sliced. -/
theorem slice_lead (before lead rest : Text) :
    slice (before ++ lead ++ rest)
        (max before.byteLength (Text.upToLast '\n' (before ++ lead)).byteLength)
        (before ++ lead).byteLength =
      .ok (Text.afterLast '\n' lead) := by
  by_cases h : '\n' ∈ lead
  · have hstart : max before.byteLength (Text.upToLast '\n' (before ++ lead)).byteLength =
        Text.byteLength (before ++ Text.upToLast '\n' lead) := by
      rw [Text.upToLast_append h, Text.byteLength_append]
      omega
    have hlead :
        before ++ lead = before ++ Text.upToLast '\n' lead ++ Text.afterLast '\n' lead := by
      rw [List.append_assoc, Text.upToLast_append_afterLast]
    exact slice_eq (by rw [← hlead]) hstart (by rw [← hlead])
  · obtain ⟨u, hu⟩ := Text.upToLast_isPrefix_of_not_mem h before
    have hsize := congrArg Text.byteLength hu
    rw [Text.byteLength_append] at hsize
    rw [Text.afterLast_of_not_mem h]
    exact slice_eq rfl (by omega) rfl

/-- The text after a placeholder is taken up to the nearer of the next placeholder and the end of
the line. -/
theorem followStop_eq (pre : List Hole) (hole : Hole) (post : List Hole) (tail : Text) :
    followStop (placesFrom 0 (pre ++ hole :: post))
        (lineOf (surroundingsAt pre hole post tail)).stop pre.length =
      Text.byteLength ((surroundingsAt pre hole post tail).before ++ hole.placeholder.token ++
        (surroundingsAt pre hole post tail).lineFollow) := by
  -- the placeholders behind this one begin where it ends, so that the next one is asked for among
  -- them by position zero
  have hplaces : placesFrom 0 (pre ++ hole :: post) = placesFrom 0 (pre ++ [hole]) ++
      placesFrom (extentOf (surroundingsAt pre hole post tail)).stop post := by
    rw [show pre ++ hole :: post = pre ++ [hole] ++ post by simp, placesFrom_append]
    simp [extentOf, surroundingsAt, holeText]
  have hnext : (placesFrom 0 (pre ++ hole :: post))[pre.length + 1]? =
      (placesFrom (extentOf (surroundingsAt pre hole post tail)).stop post)[0]? := by
    rw [hplaces, List.getElem?_append_right (by rw [length_placesFrom]; simp), length_placesFrom]
    simp
  have hrest := Text.lineRest_isPrefix (Template.text ⟨post, tail⟩)
  rw [followStop, hnext]
  cases post with
  -- no next placeholder: all the rest of the line can follow
  | nil =>
    have htake : (surroundingsAt pre hole [] tail).lineFollow =
        Surroundings.lineRest (Template.text ⟨[], tail⟩) :=
      (List.prefix_iff_eq_take.1 hrest).symm
    rw [htake]
    rfl
  -- the nearer of two ends, both of them behind the same text
  | cons next post =>
    have hmin := Text.byteLength_take
      (surrounds_surroundingsAt pre hole (next :: post) tail).follow hrest
    simp only [placesFrom, List.getElem?_cons_zero, lineOf, extentOf, Text.byteLength_append,
      Surroundings.lineFollow, surroundingsAt, leadOf] at hmin ⊢
    omega

theorem slice_follow (pre : List Hole) (hole : Hole) (post : List Hole) (tail : Text) :
    slice (textAround (surroundingsAt pre hole post tail))
        (extentOf (surroundingsAt pre hole post tail)).stop
        (followStop (placesFrom 0 (pre ++ hole :: post))
          (lineOf (surroundingsAt pre hole post tail)).stop pre.length) =
      .ok (surroundingsAt pre hole post tail).lineFollow := by
  have hfollow := Surroundings.lineFollow_isPrefix (surrounds_surroundingsAt pre hole post tail)
  obtain ⟨rest, hrest⟩ := hfollow.trans (Text.lineRest_isPrefix _)
  refine slice_eq (c := rest) ?_ rfl (followStop_eq pre hole post tail)
  rw [List.append_assoc _ _ rest, hrest]
  rfl

/-! ### Offered delimiters -/

variable {around : Surroundings}

/-- A placeholder that is all there is, but for a line end, is the only one: another one would
bring in a brace. -/
theorem eq_nil_of_isAlone (htokens : ∀ other ∈ pre ++ hole :: post, other.placeholder.IsToken)
    (h : (surroundingsAt pre hole post tail).isAlone = true) : pre = [] ∧ post = [] := by
  have hopen : ∀ other ∈ pre ++ hole :: post, '{' ∈ other.placeholder.token := by
    intro other hother
    obtain ⟨u, hu, -⟩ := (htokens other hother).eq_cons
    rw [hu]
    exact List.mem_cons_self ..
  simp only [Surroundings.isAlone, Bool.and_eq_true, Bool.or_eq_true, decide_eq_true_eq] at h
  obtain ⟨hbefore, hafter⟩ := h
  constructor
  · cases pre with
    | nil => rfl
    | cons other pre =>
      have hmem := hopen other (List.mem_append_left _ (List.mem_cons_self ..))
      simp only [surroundingsAt, List.flatMap_cons, holeText, List.append_eq_nil_iff] at hbefore
      rw [hbefore.1.1.2] at hmem
      cases hmem
  · cases post with
    | nil => rfl
    | cons other post =>
      -- the brace of another placeholder would be in what is at most a line end
      have hmem : '{' ∈ (surroundingsAt pre hole (other :: post) tail).after := by
        have hbrace := hopen other (by simp)
        simp [surroundingsAt, Template.text_cons, hbrace]
      rcases hafter with (hafter | hafter) | hafter <;> rw [hafter] at hmem <;>
        exact absurd hmem (by decide)

theorem admits_eq (htokens : ∀ other ∈ pre ++ hole :: post, other.placeholder.IsToken)
    (haround : around = surroundingsAt pre hole post tail) (delimiter : Delimiter) :
    admits (textAround around) (placesFrom 0 (pre ++ hole :: post)) (extentOf around)
        (lineOf around) delimiter =
      .ok (around.admits delimiter) := by
  obtain ⟨start, stop⟩ := delimiter
  -- One case for each of the four shapes. Only the delimiter with neither side set slices: that
  -- the placeholder is alone is asked by offsets and by the text behind it.
  rw [admits, Surroundings.admits]
  cases start with
  | nil =>
    cases stop with
    | nil =>
      have hone : around.isAlone = true → (placesFrom 0 (pre ++ hole :: post)).length = 1 := by
        intro halone
        rw [haround] at halone
        obtain ⟨rfl, rfl⟩ := eq_nil_of_isAlone htokens halone
        rfl
      have hfirst : (extentOf around).start = 0 ↔ around.before = [] := Text.byteLength_eq_zero_iff
      simp only [sliceFrom_extentOf, bind_ok, pure_eq, hfirst]
      split
      · rename_i hboth
        simp only [Bool.and_eq_true, decide_eq_true_eq] at hboth
        simp [Surroundings.isAlone, hboth.2]
      · rename_i hboth
        have hnot : around.isAlone ≠ true := by
          intro halone
          refine hboth ?_
          have hbefore := halone
          simp only [Surroundings.isAlone, Bool.and_eq_true, decide_eq_true_eq] at hbefore
          simp [hone halone, hbefore.1]
        rw [eq_false_of_ne_true hnot]
    | cons c stop => simp only [pure_eq, start_extentOf_iff, Bool.decide_eq_true]
  | cons c start =>
    cases stop with
    | nil => simp only [pure_eq, stop_extentOf_iff, Bool.decide_eq_true]
    | cons d stop => rfl

theorem preferred_eq (htokens : ∀ other ∈ pre ++ hole :: post, other.placeholder.IsToken)
    (haround : around = surroundingsAt pre hole post tail) (configured : Delimiter) :
    preferred (textAround around) (placesFrom 0 (pre ++ hole :: post)) (extentOf around)
        (lineOf around) around.lineLead around.lineFollow configured =
      .ok (if around.hasConfigured configured then [configured] else []) := by
  rw [preferred, admits_eq htokens haround, Surroundings.hasConfigured]
  by_cases h : (configured.isSet && (Text.before? configured.start around.lineLead).isSome &&
      (Text.after? configured.stop around.lineFollow).isSome) = true
  · simp [h]
  · simp [h]

/-- **The delimiters for a placeholder are those that the text around it offers.** So no slice
beside a placeholder panics, wherever it stands. -/
theorem framings_eq (htokens : ∀ other ∈ pre ++ hole :: post, other.placeholder.IsToken)
    (tail : Text) (configured : Delimiter) (n : Nat) :
    framings (Template.text ⟨pre ++ hole :: post, tail⟩) (placesFrom 0 (pre ++ hole :: post))
        pre.length configured n =
      done ((surroundingsAt pre hole post tail).candidates configured n) := by
  -- Each access is shown to be in place by itself, with the text that it gives; after that the
  -- program is the reading of these texts, step by step.
  generalize haround : surroundingsAt pre hole post tail = around
  have htoken : around.placeholder.IsToken := by
    rw [← haround]
    exact htokens hole (by simp)
  have htext : Template.text ⟨pre ++ hole :: post, tail⟩ = textAround around := by
    rw [← haround, textAround_surroundingsAt]
  have helement : element (placesFrom 0 (pre ++ hole :: post)) pre.length =
      .ok ⟨around.placeholder.name, extentOf around⟩ := by
    rw [← haround]
    exact element_placesFrom pre hole post tail
  have hlead : slice (textAround around)
      (max (Text.byteLength (pre.flatMap holeText)) (lineOf around).start) (extentOf around).start =
        .ok around.lineLead := by
    rw [← haround, textAround, List.append_assoc]
    exact slice_lead ..
  have hfollow : slice (textAround around) (extentOf around).stop
      (followStop (placesFrom 0 (pre ++ hole :: post)) (lineOf around).stop pre.length) =
        .ok around.lineFollow := by
    rw [← haround]
    exact slice_follow pre hole post tail
  rw [framings, htext, helement]
  simp only [bind_ok, lineStart_extentOf, lineStop_extentOf htoken, leadStart_eq, hlead, hfollow,
    preferred_eq htokens haround.symm, admits_eq htokens haround.symm, sliceTo_extentOf,
    slice_lineOf, pure_eq]
  -- whether anything is offered is asked by an equation here and by the cases of a list there
  rw [Surroundings.candidates]
  change (if around.delimiters configured = [] then _
    else Except.ok (around.delimiters configured)) = _
  cases around.delimiters configured <;> rfl

end Checked

end FieldedText
