/-
FieldedText/Proofs/SingleBlock.lean

When a text with other values in it stays one block.

The text of a block that a segmenter gives is nothing but prose, whether or not the
segmenter comes to the end of its document: lines move on from one well formed open
block to the next (`Segment.formed_of_feed`, `Segmentation.formed_of_ofLines`).  A text
of nothing but prose is given as one block, and no other text is
(`Segmenter.gives_oneBlock_iff`).

The check looks only at lines that a value touches.  Of all other lines it relies on
this: they are lines of the block that was read.  So it lets a text through exactly when
that is one block, and otherwise complains about the first line that splits the block,
which a value touches (`Checked.checkLines_block`).
-/
import FieldedText.Proofs.CheckedBody
import FieldedText.Proofs.Segmenter

namespace FieldedText

variable {comment : Comment} {n k place : Nat} {raw t line : Text} {ls : List Text}
  {current next b : Block} {closed segments : List Segment} {e : Error}

/-! ### Lines that split a block -/

/-- A line that is blank, a header, or not free of directives. Such a line in the text of a block
would end the block there. -/
def LineKind.Splits (comment : Comment) (raw : Text) : Prop :=
  Text.isBlank (Text.content raw) = true ∨ comment.isHeader (Text.content raw) = true ∨
    ∃ n, Directive.find n (Text.content raw) ≠ .ok none

/-- Prose is what splits no block. -/
theorem LineKind.not_splits_iff : ¬ Splits comment raw ↔ Is comment raw .prose := by
  rw [is_prose_iff, Splits, not_or, not_or, not_exists, Text.isBlank_content,
    Comment.isHeader_content, Bool.not_eq_true, Bool.not_eq_true]
  have hfind : (∀ n, ¬ Directive.find n (Text.content raw) ≠ .ok none) ↔
      Directive.Unmarked raw := by
    constructor
    · intro h
      exact Directive.unmarked_content_iff.1 (Directive.find_eq_ok_none_iff.1 (not_not.1 (h 0)))
    · intro h n hn
      exact hn (Directive.find_eq_ok_none_iff.2 (Directive.unmarked_content_iff.2 h))
  rw [hfind]
  exact ⟨fun ⟨h₁, h₂, h₃⟩ => ⟨h₁, h₃, h₂⟩, fun ⟨h₁, h₂, h₃⟩ => ⟨h₁, h₃, h₂⟩⟩

/-! ### The text of a block -/

/-- An open block that a line may come to. This is the invariant of the segmenter that holds
without regard to what comes later, and so also before an error. -/
structure Block.Ready (comment : Comment) (block : Block) : Prop
    extends Block.Formed comment block where
  closed : block.closed = false
  separator : block.separator = []

theorem Block.ready_empty : Block.Ready comment .empty := ⟨Block.formed_empty, rfl, rfl⟩

namespace Segment

/-- A block is as well formed when it is closed as when it was open. -/
theorem formed_closing (h : current.Formed comment) (n : Nat) (separator : Text) :
    ((current.beginAt n).close separator).Formed comment := by
  obtain ⟨line, hbegin⟩ := current.beginAt_eq n
  rw [hbegin]
  exact ⟨h.header, h.noHeader, h.text, h.complete⟩

theorem formed_of_mem_flushing (h : current.Formed comment)
    (hb : block b ∈ flushing current n) : b.Formed comment := by
  unfold flushing at hb
  split at hb
  · cases hb
  · cases List.mem_singleton.1 hb
    exact formed_closing h n []

/-- **One more line closes well formed blocks only**, and leaves one open. -/
theorem formed_of_feed (hready : current.Ready comment) (hcomplete : Text.Complete current.raw)
    (hline : Text.IsLine raw) (h : feed comment n current raw = .ok (closed, next)) :
    (∀ b, block b ∈ closed → b.Formed comment) ∧ next.Ready comment ∧
      (Text.Complete raw → Text.Complete next.raw) := by
  rcases Segmentation.feed_cases hready.closed h with ⟨hblank, rfl, rfl⟩ | ⟨found, -, rfl, rfl⟩ |
    ⟨inner, specs, hheader, hstrip, hspecs, rfl, rfl⟩ | ⟨hprose, rfl, rfl⟩
  · refine ⟨fun b hb => ?_, Block.ready_empty, fun _ => Text.complete_nil⟩
    cases List.mem_singleton.1 hb
    exact formed_closing hready.toFormed n raw
  · refine ⟨fun b hb => ?_, Block.ready_empty, fun _ => Text.complete_nil⟩
    rcases List.mem_append.1 hb with hb | hb
    · exact formed_of_mem_flushing hready.toFormed hb
    · cases List.mem_singleton.1 hb
  · refine ⟨fun b hb => formed_of_mem_flushing hready.toFormed hb,
      ⟨Segmentation.formed_header hline hheader hstrip hspecs, rfl, rfl⟩, fun hraw => ?_⟩
    simpa [Block.raw, Block.headerText] using hraw
  · have hopen : Text.Complete (current.headerText ++ current.text) := by
      rwa [Block.raw, hready.separator, List.append_nil] at hcomplete
    refine ⟨by simp, ⟨Segmentation.formed_prose hready.toFormed hopen hline hprose _,
      hready.closed, hready.separator⟩, fun hraw => ?_⟩
    rw [Segmentation.raw_grown hready.separator]
    exact hcomplete.append hraw

end Segment

namespace Segmentation

/-- **Every block that lines are cut into is well formed**, also those before a line that is not. -/
theorem formed_of_ofLines (hready : current.Ready comment)
    (hcomplete : ls ≠ [] → Text.Complete current.raw) (hls : Text.lines ls.flatten = ls)
    (hb : .block b ∈ (ofLines comment n current ls).segments) : b.Formed comment := by
  induction ls generalizing n current with
  | nil => exact Segment.formed_of_mem_flushing hready.toFormed hb
  | cons raw ls ih =>
    obtain ⟨hline, hended, hlater⟩ := Text.eq_of_lines_eq_cons hls
    cases hfeed : Segment.feed comment n current raw with
    | error e =>
      rw [ofLines, hfeed] at hb
      cases hb
    | ok result =>
      obtain ⟨closed, next⟩ := result
      obtain ⟨hclosed, hnext, hcomplete'⟩ :=
        Segment.formed_of_feed hready (hcomplete (by simp)) hline hfeed
      rw [ofLines_cons_of_feed hfeed] at hb
      rcases List.mem_append.1 hb with hb | hb
      · exact hclosed b hb
      · exact ih hnext (fun hne => hcomplete' (hended hne)) hlater hb

end Segmentation

namespace Segmenter

/-- The segments that a segmenter gives, if it gives no error: these, and then nothing. -/
def GivesOnly (segmenter : Segmenter) (segments : List Segment) : Prop :=
  ∀ k, segmenter.call k = (segments.map Except.ok)[k]?

/-- A block that a segmenter gives is among those that its document is cut into. -/
theorem mem_of_call {document : Text} {segment : Segment}
    (h : (ofText comment document).call k = some (.ok segment)) :
    segment ∈ (Segmentation.ofText comment document).segments := by
  rw [call_ofText] at h
  have hmem := List.mem_of_getElem? h
  rcases List.mem_append.1 hmem with hmem | hmem
  · obtain ⟨segment', hsegment, heq⟩ := List.mem_map.1 hmem
    cases heq
    exact hsegment
  · obtain ⟨e, -, heq⟩ := List.mem_map.1 hmem
    cases heq

/-- **The text of a block that a segmenter gives is nothing but prose.** -/
theorem prose_of_call {document : Text}
    (h : (ofText comment document).call k = some (.ok (.block b))) :
    ∀ line ∈ Text.lines b.text, LineKind.Is comment line .prose :=
  (Segmentation.formed_of_ofLines Block.ready_empty (fun _ => Text.complete_nil)
    (by rw [Text.flatten_lines]) (mem_of_call h)).text

/-- The segments of a text that is one block without a header: the block, with the text in it, or
nothing if there is no text. -/
inductive OneBlock (t : Text) : List Segment → Prop
  | nothing (h : t = []) : OneBlock t []
  | block {b : Block} (header : b.header = none) (text : b.text = t)
      (separator : b.separator = []) : OneBlock t [.block b]

theorem givesOnly_of_ofText {document : Text}
    (h : Segmentation.ofText comment document = ⟨segments, none⟩) :
    (ofText comment document).GivesOnly segments := by
  intro k
  rw [call_ofText, h, Segmentation.answers]
  simp

/-- Lines of prose are cut into one block. -/
theorem oneBlock_of_prose (h : ∀ line ∈ Text.lines t, LineKind.Is comment line .prose) :
    ∃ segments, Segmentation.ofText comment t = ⟨segments, none⟩ ∧ OneBlock t segments := by
  have hopen : Block.empty.closed = false := rfl
  obtain ⟨k, line, hlines⟩ := Segmentation.ofLines_prose h 1 hopen []
  rw [List.append_nil, Text.flatten_lines] at hlines
  refine ⟨_, hlines, ?_⟩
  rw [Segment.flushing]
  by_cases ht : t = []
  · rw [if_pos (by simp [Block.isEmpty, Block.empty, ht])]
    exact .nothing ht
  · rw [if_neg (by simp [Block.isEmpty, Block.empty, ht])]
    obtain ⟨line', hbegin⟩ := Block.beginAt_eq { Block.empty with text := [] ++ t, line } k
    rw [Segment.closing]
    refine .block ?_ ?_ rfl
    · exact congrArg Block.header hbegin
    · exact congrArg Block.text hbegin

/-- **A text is given as one block exactly when no line of it splits a block.** -/
theorem gives_oneBlock_iff :
    (∃ segments, (ofText comment t).GivesOnly segments ∧ OneBlock t segments) ↔
      ∀ line ∈ Text.lines t, LineKind.Is comment line .prose := by
  constructor
  · rintro ⟨segments, hgives, hone⟩
    cases hone with
    | nothing h =>
      rw [h]
      intro line hline
      cases hline
    | block header text separator =>
      have hprose := prose_of_call (hgives 0)
      rwa [text] at hprose
  · intro h
    obtain ⟨segments, hsegments, hone⟩ := oneBlock_of_prose h
    exact ⟨segments, givesOnly_of_ofText hsegments, hone⟩

end Segmenter

/-! ### The check -/

namespace Body

variable {spans : List Span}

/-- A complaint is about the first line that is not prose of those that a value touches. -/
theorem of_checkLines_error (h : checkLines comment spans n place ls = .error e) :
    ∃ pre bad post span, ls = pre ++ bad :: post ∧ ¬ LineKind.Is comment bad .prose ∧
      spans.find? (touches (place + pre.flatten.length)
        (place + pre.flatten.length + bad.length)) = some span ∧
      e = .argument (.breaksBlock span.name (n + pre.length) (Text.content bad)) ∧
      checkLines comment spans n place pre = .ok () := by
  induction ls generalizing n place with
  | nil => cases h
  | cons raw ls ih =>
    -- a line that passes stands before the one that the complaint is about
    have hlater (hpass : ∀ more, checkLines comment spans n place (raw :: more) =
        checkLines comment spans (n + 1) (place + raw.length) more) :
        ∃ pre bad post span, raw :: ls = pre ++ bad :: post ∧ ¬ LineKind.Is comment bad .prose ∧
          spans.find? (touches (place + pre.flatten.length)
            (place + pre.flatten.length + bad.length)) = some span ∧
          e = .argument (.breaksBlock span.name (n + pre.length) (Text.content bad)) ∧
          checkLines comment spans n place pre = .ok () := by
      rw [hpass] at h
      obtain ⟨pre, bad, post, span, rfl, hbad, hfind, rfl, hpre⟩ := ih h
      refine ⟨raw :: pre, bad, post, span, rfl, hbad, ?_, ?_, by rw [hpass, hpre]⟩
      · simpa [Nat.add_assoc] using hfind
      · rw [List.length_cons, Nat.add_comm pre.length 1, Nat.add_assoc]
    -- A line passes because it is prose, or because no value touches it; else the complaint is
    -- about it, and names the first value that does.
    by_cases hprose : LineKind.isProse comment n raw = true
    · exact hlater fun more => by rw [checkLines, if_pos hprose]
    · cases hfind : spans.find? (touches place (place + raw.length)) with
      | none => exact hlater fun more => by rw [checkLines, if_neg hprose, hfind]
      | some span =>
        rw [checkLines, if_neg hprose, hfind] at h
        cases h
        refine ⟨[], raw, ls, span, rfl, ?_, by simpa using hfind, rfl, rfl⟩
        exact fun his => hprose (LineKind.isProse_eq_true_iff.2 his)

end Body

namespace Checked

/-- The first value with some property has the name that it has without extents. -/
theorem find?_eq {placed : List Placed} {spans : List Span} {p : Placed → Bool} {q : Span → Bool}
    (h : List.Forall₂ (fun found span => found.name = span.name ∧ p found = q span) placed spans) :
    (placed.find? p).map Placed.name = (spans.find? q).map Span.name := by
  induction h with
  | nil => rfl
  | @cons found span placed spans hfirst _ ih =>
    rw [List.find?_cons, List.find?_cons, hfirst.2]
    cases q span with
    | true => exact congrArg some hfirst.1
    | false => exact ih

/-- The first value that touches a line does so in bytes and in characters. -/
theorem find?_touches_eq {body : Body} {pre post : List Text}
    (hlines : Text.lines body.text = pre ++ line :: post) :
    ((placedFrom 0 body.slots).find? (touches (Text.byteLength pre.flatten)
        (Text.byteLength (pre.flatten ++ line)))).map Placed.name =
      (body.spans.find? (Body.touches pre.flatten.length
        (pre.flatten.length + line.length))).map Span.name := by
  obtain ⟨htext, -, -, -⟩ := Text.of_lines_eq_append hlines
  refine find?_eq ((forall₂_marks [] body.tail rfl).imp fun found span hmarks => ?_)
  rw [← List.length_append]
  refine ⟨hmarks.1, touches_eq hmarks ?_ ⟨post.flatten, htext.symm⟩⟩
  exact ⟨line ++ post.flatten, by rw [← List.append_assoc]; exact htext.symm⟩

/-- The complaint about a value on a line that splits its block. -/
def complaint (name : Name) (n : Nat) (line : Text) : Fault :=
  .error (.argument (.breaksBlock name n (Text.content line)))

/-- **The check lets a text through exactly when it stays one block.**  For a block that a
segmenter gives, with other values in it, the check passes when no line splits the block, and then
the text is given as one block, and otherwise not.  A check that does not pass complains about the
first line that splits the block, and names the first value that touches it. -/
theorem checkLines_block {document : Text} {block : Block}
    (hgiven : (Segmenter.ofText comment document).call k = some (.ok (.block block)))
    {base body : Body} (hbase : base.text = block.text)
    (hleads : body.slots.map Slot.lead = base.slots.map Slot.lead)
    (htail : body.tail = base.tail) (n : Nat) :
    (checkLines comment (placedFrom 0 body.slots) n 0 (Text.lines body.text) = .ok () ↔
      ∀ line ∈ Text.lines body.text, ¬ LineKind.Splits comment line) ∧
    ((∀ line ∈ Text.lines body.text, ¬ LineKind.Splits comment line) ↔
      ∃ segments, (Segmenter.ofText comment body.text).GivesOnly segments ∧
        Segmenter.OneBlock body.text segments) ∧
    (checkLines comment (placedFrom 0 body.slots) n 0 (Text.lines body.text) ≠ .ok () →
      ∃ pre line post found, Text.lines body.text = pre ++ line :: post ∧
        LineKind.Splits comment line ∧ (∀ earlier ∈ pre, ¬ LineKind.Splits comment earlier) ∧
        (placedFrom 0 body.slots).find? (touches (Text.byteLength pre.flatten)
          (Text.byteLength (pre.flatten ++ line))) = some found ∧
        checkLines comment (placedFrom 0 body.slots) n 0 (Text.lines body.text) =
          .error (complaint found.name (n + pre.length) line)) := by
  have hprose : ∀ line ∈ Text.lines base.text, LineKind.Is comment line .prose := by
    rw [hbase]
    exact Segmenter.prose_of_call hgiven
  simp only [LineKind.not_splits_iff, checkLines_eq_checkBlock]
  refine ⟨?_, Segmenter.gives_oneBlock_iff.symm, fun hfail => ?_⟩
  -- passing is a matter of the lines: those that no value touches are prose, as they were in the
  -- block
  · rw [← Body.checkBlock_eq_ok_iff (n := n) hleads htail hprose]
    cases body.checkBlock comment n <;> simp [done, Except.mapError]
  · cases hcheck : body.checkBlock comment n with
    | ok _ => exact absurd (by rw [hcheck]; rfl) hfail
    | error e =>
      obtain ⟨pre, line, post, span, hlines, hline, hfind, rfl, hpre⟩ :=
        Body.of_checkLines_error hcheck
      rw [Nat.zero_add] at hfind
      -- the check finds the value by byte offsets, and it is the same one as by characters
      have hnames := find?_touches_eq hlines
      rw [hfind] at hnames
      obtain ⟨found, hfound, hname⟩ := Option.map_eq_some_iff.1 hnames
      refine ⟨pre, line, post, found, hlines, ?_, fun earlier hearlier => ?_, hfound, ?_⟩
      · by_contra hsplits
        exact hline (LineKind.not_splits_iff.1 hsplits)
      · -- a line before it passed as prose, or because no value touches it
        obtain ⟨before, after, rfl⟩ := List.append_of_mem hearlier
        rcases Body.checkLines_eq_ok_iff.1 hpre before earlier after rfl with h | h
        · exact h
        · rw [Nat.zero_add] at h
          exact Body.prose_of_untouched hleads htail hprose
            (by rw [hlines, List.append_assoc]; rfl) h
      · rw [hname]
        rfl

/-- Both values have a line feed in them, and the second one a blank line. -/
theorem checkLines_blank_line :
    (Segmenter.ofText .standard
        "<!--\x7b\x7ba\x7d\x7d-->\nx and y\nend\n\nmore\n".toList).call 0 =
      some (.ok (.block ⟨some "<!--\x7b\x7ba\x7d\x7d-->\n".toList, [⟨['a'], .unset⟩],
        "x and y\nend\n".toList, ['\n'], 1, true⟩)) ∧
    ∃ pre line post found,
      Text.lines "p\n and q\n \nr\nend\n".toList = pre ++ line :: post ∧
        LineKind.Splits .standard line ∧
        (∀ earlier ∈ pre, ¬ LineKind.Splits .standard earlier) ∧
        (placedFrom 0 [⟨[], ['a'], "p\n".toList, []⟩,
          ⟨" and ".toList, ['b'], "q\n \nr".toList, []⟩]).find? (touches
            (Text.byteLength pre.flatten) (Text.byteLength (pre.flatten ++ line))) = some found ∧
        checkLines .standard (placedFrom 0 [⟨[], ['a'], "p\n".toList, []⟩,
          ⟨" and ".toList, ['b'], "q\n \nr".toList, []⟩]) 1 0
            (Text.lines "p\n and q\n \nr\nend\n".toList) =
          .error (complaint found.name (1 + pre.length) line) := by
  have hgiven : (Segmenter.ofText .standard
      "<!--\x7b\x7ba\x7d\x7d-->\nx and y\nend\n\nmore\n".toList).call 0 = some (.ok (.block
        ⟨some "<!--\x7b\x7ba\x7d\x7d-->\n".toList, [⟨['a'], .unset⟩], "x and y\nend\n".toList,
          ['\n'], 1, true⟩)) := by
    decide +kernel
  have hchecked := (@checkLines_block _ _ _ _ hgiven
    ⟨[⟨[], ['a'], ['x'], []⟩, ⟨" and ".toList, ['b'], ['y'], []⟩], "\nend\n".toList⟩
    ⟨[⟨[], ['a'], "p\n".toList, []⟩, ⟨" and ".toList, ['b'], "q\n \nr".toList, []⟩],
      "\nend\n".toList⟩ rfl rfl rfl 1).2.2
  exact ⟨hgiven, hchecked (by decide +kernel)⟩

end Checked

end FieldedText
