/-
FieldedText/Proofs/Segmenter.lean

What a segmenter gives, call by call.

A segmenter gives the segments that its document is cut into, in their order, then
the error that ended them if there was one, and then nothing (`call_ofText`).  In
between it has always still to give what the lines make that it did not take yet, with
the block that is open (`Gives`), and each call gives the first of that (`Gives.next`).

Of these segments two things are shown that do not depend on how they are given.  A
line moves text from the open block to the segments that it closes, and loses none
(`Block.IsOpen.feed`); and the number that a segment carries is that of its first line
(`numbered_ofLines`).  So either the whole document is given, cut as it only can be, or
an error at the first line that is not well formed, after a beginning of the document.
-/
import FieldedText.Document.Segmenter
import FieldedText.Proofs.Splitting

namespace FieldedText

variable {comment : Comment} {n start : Nat} {raw : Text} {e : Error} {ls : List Text}
  {current later : Block} {segments others closed : List Segment}

/-! ### Lines that are not well formed -/

/-- A complaint about the line with the given number. The other errors of the program carry no
line, and none of them can arise while a document is cut. -/
def Error.IsAt (line : Nat) (e : Error) : Prop :=
  ∃ complaint context, e = .grammar line complaint context

/-- A line that has a kind, and specs in it if it is a header. The specs are read with the number
0, since whether a header can be read does not depend on the line it is on. -/
structure LineKind.WellFormed (comment : Comment) (raw : Text) : Prop where
  kind : ∃ kind, Is comment raw kind
  header : Is comment raw .header →
    ∃ inner specs, comment.strip? raw = some inner ∧ FieldSpec.ofHeader 0 inner = .ok specs

theorem Directive.isAt_of_find (h : find n raw = .error e) : e.IsAt n := by
  -- `find` makes two complaints: of a pair that is not two characters long, and of a marker with
  -- nothing well formed behind it. Both carry the number that is handed down.
  unfold find at h
  split at h
  · cases h
  · split at h
    · cases h
    · split at h
      · rename_i side value _
        cases hside : ofSide n raw side value with
        | ok found =>
          rw [hside] at h
          cases h
        | error e' =>
          rw [hside] at h
          cases h
          unfold ofSide at hside
          split at hside
          · cases hside
          · cases hside
          · split at hside
            · cases hside
            · cases hside
              exact ⟨_, _, rfl⟩
      · split at h
        · cases h
          exact ⟨_, _, rfl⟩
        · cases h

theorem LineKind.isAt_of_ofLine (h : ofLine comment n raw = .error e) : e.IsAt n := by
  unfold ofLine at h
  dsimp only at h
  split at h
  · cases h
  · split at h
    · rename_i hfind
      cases h
      exact Directive.isAt_of_find hfind
    · cases h
    · cases h

theorem FieldSpec.isAt_of_scanHeader {passed : Nat} {text : Text}
    (h : scanHeader n passed text = .error e) : e.IsAt n := by
  -- The scan skips what a spec took before it looks for the next one, so the induction is over
  -- the text, for any number of characters that are still to be skipped.
  induction text generalizing passed with
  | nil => cases passed <;> cases h
  | cons c text ih =>
    cases passed with
    | succ passed => exact ih h
    | zero =>
      rw [scanHeader] at h
      split at h
      · exact ih h
      · split at h
        · cases h
          exact ⟨_, _, rfl⟩
        · rename_i rest _
          cases hlater : scanHeader n (text.length - rest.length) text with
          | ok later =>
            rw [hlater] at h
            cases h
          | error e' =>
            rw [hlater] at h
            cases h
            exact ih hlater

namespace Segment

/-- A line that is taken is well formed: every way in which it can be taken names its kind, and a
header is taken together with its specs. -/
theorem wellFormed_of_feed (hc : current.closed = false)
    (h : feed comment n current raw = .ok (closed, later)) : LineKind.WellFormed comment raw := by
  rcases Segmentation.feed_cases hc h with ⟨hblank, -, -⟩ | ⟨found, hfound, -, -⟩ |
    ⟨inner, specs, hheader, hstrip, hspecs, -, -⟩ | ⟨hprose, -, -⟩
  · refine ⟨⟨_, LineKind.is_blank_iff.2 hblank⟩, fun hheader => ?_⟩
    cases hheader.unique (LineKind.is_blank_iff.2 hblank)
  · refine ⟨⟨_, hfound⟩, fun hheader => ?_⟩
    cases hheader.unique hfound
  · exact ⟨⟨_, hheader⟩, fun _ => ⟨inner, specs, hstrip, hspecs⟩⟩
  · refine ⟨⟨_, hprose⟩, fun hheader => ?_⟩
    cases hheader.unique hprose

/-- **A line that is not taken is not well formed**, and the error carries its number. Together
with `wellFormed_of_feed` this makes `LineKind.WellFormed` exactly what the segmenter asks of a
line, although it says nothing of the segmenter. -/
theorem of_feed_error (hc : current.closed = false)
    (h : feed comment n current raw = .error e) :
    ¬ LineKind.WellFormed comment raw ∧ e.IsAt n := by
  -- A line fails in two ways only: its kind cannot be told, or it is a header whose specs cannot
  -- be read. Blank lines and directives are always taken, and prose is, since the block is open.
  rw [feed] at h
  cases hkind : LineKind.ofLine comment n raw with
  | error e' =>
    -- no kind: the line would have one if it were well formed
    rw [hkind] at h
    cases h
    refine ⟨?_, LineKind.isAt_of_ofLine hkind⟩
    rintro ⟨⟨kind, his⟩, -⟩
    cases hkind.symm.trans (his n)
  | ok kind =>
    rw [hkind] at h
    cases kind with
    | blank => cases h
    | directive found => cases h
    | prose =>
      -- only a closed block refuses a line of prose
      obtain ⟨line, hbegin⟩ := current.beginAt_eq n
      simp only [bind, Except.bind, hbegin, Block.append, hc] at h
      cases h
    | header =>
      cases hblock : Block.ofHeader comment n raw with
      | ok block =>
        simp only [bind, Except.bind, hblock] at h
        cases h
      | error e' =>
        simp only [bind, Except.bind, hblock] at h
        cases h
        unfold Block.ofHeader at hblock
        -- a well-formed header has specs whatever its number, and so it has them on this line
        refine ⟨?_, ?_⟩
        · rintro ⟨-, hheader⟩
          obtain ⟨inner, specs, hstrip, hspecs⟩ := hheader (LineKind.is_of_ofLine hkind)
          rw [hstrip] at hblock
          simp only [FieldSpec.ofHeader_ok_of_ok hspecs (k := n)] at hblock
          cases hblock
        -- the number: of the line without a comment in it, or the one the scan was handed
        · cases hstrip : comment.strip? raw with
          | none =>
            rw [hstrip] at hblock
            cases hblock
            exact ⟨_, _, rfl⟩
          | some inner =>
            simp only [hstrip] at hblock
            cases hspecs : FieldSpec.ofHeader n inner with
            | ok specs =>
              rw [hspecs] at hblock
              cases hblock
            | error e' =>
              rw [hspecs] at hblock
              cases hblock
              exact FieldSpec.isAt_of_scanHeader hspecs

end Segment

/-! ### The open block -/

/-- A block to which lines still come. This is what each line keeps of the open block: it has no
separator yet, and a header only with specs, so that its raw text is the lines it took. -/
structure Block.IsOpen (block : Block) : Prop where
  closed : block.closed = false
  separator : block.separator = []
  noHeader : block.specs = [] → block.header = none

theorem Block.isOpen_empty : Block.empty.IsOpen := ⟨rfl, rfl, fun _ => rfl⟩

/-- A block that was begun stays on its line: the number is set by the first line only, and 0
stands for a block that has none yet. -/
theorem Block.line_beginAt {block : Block} (h : block.line ≠ 0) (n : Nat) :
    (block.beginAt n).line = block.line :=
  congrArg Block.line (if_neg h)

namespace Segment

/-- The open block goes as it is to what is closed. An empty one is not given at all, which loses
nothing since it has no text. -/
theorem flatMap_raw_flushing (h : current.IsOpen) (n : Nat) :
    (flushing current n).flatMap Segment.raw = current.raw := by
  unfold flushing
  split
  · rename_i hempty
    rw [Block.isEmpty, Bool.and_eq_true, decide_eq_true_eq, decide_eq_true_eq] at hempty
    rw [Block.raw, Block.headerText, h.noHeader hempty.1, hempty.2, h.separator]
    rfl
  · rw [List.flatMap_singleton, raw_closing h.separator, List.append_nil]

end Segment

/-- **A line is moved to what it closes or to the open block, and nothing is lost.** One step of
the segmenter: the text that is closed and the text of the block that stays open are the old open
block and the line, in this order. -/
theorem Block.IsOpen.feed (hopen : current.IsOpen) (hline : Text.IsLine raw)
    (h : Segment.feed comment n current raw = .ok (closed, later)) :
    later.IsOpen ∧ closed.flatMap Segment.raw ++ later.raw = current.raw ++ raw := by
  rcases Segmentation.feed_cases hopen.closed h with ⟨hblank, rfl, rfl⟩ |
    ⟨found, hfound, rfl, rfl⟩ | ⟨inner, specs, hheader, hstrip, hspecs, rfl, rfl⟩ |
    ⟨hprose, rfl, rfl⟩
  -- a blank line closes the block and becomes its separator
  · refine ⟨Block.isOpen_empty, ?_⟩
    rw [List.flatMap_singleton, Segment.raw_closing hopen.separator]
    exact List.append_nil _
  -- a directive closes the block and is given behind it
  · refine ⟨Block.isOpen_empty, ?_⟩
    rw [List.flatMap_append, Segment.flatMap_raw_flushing hopen, List.flatMap_singleton]
    exact List.append_nil _
  -- a header closes the block and opens the next one
  · have hformed : Block.Formed comment ⟨some raw, specs, [], [], n, false⟩ :=
      Segmentation.formed_header hline hheader hstrip hspecs
    refine ⟨⟨rfl, rfl, fun hnil => absurd hnil (hformed.specs_ne_nil (by simp))⟩, ?_⟩
    rw [Segment.flatMap_raw_flushing hopen]
    simp [Block.raw, Block.headerText]
  -- prose goes to the text of the block that is open
  · refine ⟨⟨hopen.closed, hopen.separator, hopen.noHeader⟩, ?_⟩
    simp [Block.raw, Block.headerText, hopen.separator]

namespace Segmentation

/-- **An error stands at the first line that is not well formed, after a beginning of the text.** -/
theorem of_ofLines_error (hopen : current.IsOpen) (hls : ∀ line ∈ ls, Text.IsLine line)
    (h : ofLines comment n current ls = ⟨segments, some e⟩) :
    ∃ pre bad post, ls = pre ++ bad :: post ∧
      (∀ line ∈ pre, LineKind.WellFormed comment line) ∧ ¬ LineKind.WellFormed comment bad ∧
      e.IsAt (n + pre.length) ∧ segments.flatMap Segment.raw <+: current.raw ++ pre.flatten := by
  -- By induction on the lines, for any open block: what is closed on the way is a beginning of
  -- the open block and the lines taken, since each step moves text and loses none.
  induction ls generalizing n current segments with
  | nil => cases h
  | cons raw ls ih =>
    obtain ⟨hraw, hls⟩ := List.forall_mem_cons.1 hls
    cases hfeed : Segment.feed comment n current raw with
    | error e' =>
      rw [ofLines, hfeed] at h
      cases h
      obtain ⟨hbad, hat⟩ := Segment.of_feed_error hopen.closed hfeed
      exact ⟨[], raw, ls, rfl, by simp, hbad, hat, List.nil_prefix⟩
    | ok result =>
      obtain ⟨closed, next⟩ := result
      rw [ofLines_cons_of_feed hfeed, Segmentation.mk.injEq] at h
      obtain ⟨rfl, hfailure⟩ := h
      obtain ⟨hnext, hmoved⟩ := hopen.feed hraw hfeed
      obtain ⟨pre, bad, post, rfl, hpre, hbad, hat, hgiven⟩ :=
        ih hnext hls (n := n + 1) (by rw [← hfailure])
      -- the beginning grows by the line that was taken, and the number of the bad line by one
      refine ⟨raw :: pre, bad, post, rfl, ?_, hbad, ?_, ?_⟩
      · exact List.forall_mem_cons.2 ⟨Segment.wellFormed_of_feed hopen.closed hfeed, hpre⟩
      · rwa [List.length_cons, Nat.add_comm pre.length 1, ← Nat.add_assoc]
      · rw [List.flatMap_append, List.flatten_cons, ← List.append_assoc, ← hmoved,
          List.append_assoc, List.prefix_append_right_inj]
        exact hgiven

end Segmentation

/-! ### What the calls give -/

/-- Segments, and the error that ended them, as they are given one after the other. The error
comes last: a segmenter that failed gives nothing more. -/
def Segmentation.answers (segmentation : Segmentation) : List (Except Error Segment) :=
  segmentation.segments.map .ok ++ segmentation.failure.toList.map .error

namespace Segmenter

variable {segmenter : Segmenter} {answers : List (Except Error Segment)}

/-- What a segmenter has still to give. While it takes lines these are the segments that are ready
and what the remaining lines make with the open block; at the end and after an error it takes no
more lines, and only what is ready is left. The empty line behind the last one stands for the end
of the document, which flushes the open block. -/
inductive Gives : Segmenter → List (Except Error Segment) → Prop
  | ended {segmenter : Segmenter} (h : segmenter.lines = [] ∨ segmenter.failed = true) :
      Gives segmenter (segmenter.ready.map .ok)
  | taking {comment : Comment} {ls : List Text} {current : Block} {ready : List Segment} {n : Nat}
      (h : ∀ line ∈ ls, line ≠ []) :
      Gives ⟨comment, ls ++ [[]], current, ready, n, false⟩
        (ready.map .ok ++ (Segmentation.ofLines comment (n + 1) current ls).answers)

/-- Lines are taken until there is something to give. What is given is the first of what the lines
make, and the segmenter that is left gives the rest of it. -/
theorem Gives.advance (h : ∀ line ∈ ls, line ≠ []) :
    (Segmenter.advance comment n current (ls ++ [[]])).1 =
        (Segmentation.ofLines comment (n + 1) current ls).answers.head? ∧
      Gives (Segmenter.advance comment n current (ls ++ [[]])).2
        (Segmentation.ofLines comment (n + 1) current ls).answers.tail := by
  induction ls generalizing n current with
  -- the end of the document flushes the open block, if there is anything in it
  | nil =>
    have hfeed : feed comment (n + 1) current [] =
        .ok (Segment.flushing current (n + 1), .empty) := rfl
    rw [List.nil_append, Segmenter.advance, hfeed, Segmentation.ofLines, Segment.flushing]
    cases current.isEmpty with
    | true => exact ⟨rfl, .ended (.inl rfl)⟩
    | false => exact ⟨rfl, .ended (.inl rfl)⟩
  -- a line that closes nothing is followed by the next one; one that closes several segments
  -- leaves all but the first ready
  | cons raw ls ih =>
    obtain ⟨hraw, hls⟩ := List.forall_mem_cons.1 h
    have hfeed : feed comment (n + 1) current raw = Segment.feed comment (n + 1) current raw :=
      if_neg hraw
    rw [List.cons_append, Segmenter.advance, hfeed, Segmentation.ofLines]
    cases Segment.feed comment (n + 1) current raw with
    | error e => exact ⟨rfl, .ended (.inr rfl)⟩
    | ok result =>
      obtain ⟨_ | ⟨segment, ready⟩, next⟩ := result
      · exact ih hls
      · refine ⟨rfl, ?_⟩
        have hlater : Gives ⟨comment, ls ++ [[]], next, ready, n + 1, false⟩ _ := .taking hls
        rw [Segmentation.answers, List.map_append, List.map_cons, List.cons_append,
          List.cons_append, List.tail_cons, List.append_assoc]
        exact hlater

/-- **A call gives the first of what a segmenter has to give**, and leaves the rest. This is the
step; `Gives.call` runs it. -/
theorem Gives.next (h : Gives segmenter answers) :
    segmenter.next.1 = answers.head? ∧ Gives segmenter.next.2 answers.tail := by
  -- Segments that are ready go first in both cases; only when there are none are lines taken.
  cases h with
  | ended h =>
    cases hready : segmenter.ready with
    | cons segment ready =>
      rw [Segmenter.next, hready]
      exact ⟨rfl, .ended h⟩
    | nil =>
      have hgives : Gives segmenter (segmenter.ready.map .ok) := .ended h
      rw [hready] at hgives
      rw [Segmenter.next, hready]
      dsimp only
      split
      -- failed: nothing is given, now and later
      · exact ⟨rfl, hgives⟩
      · rename_i hfailed
        rw [h.resolve_right hfailed]
        exact ⟨rfl, .ended (.inl rfl)⟩
  | @taking comment ls current ready n h =>
    cases ready with
    | cons segment ready => exact ⟨rfl, .taking h⟩
    | nil => exact Gives.advance h

/-- **The calls give what a segmenter has to give, one after the other, and then nothing.** By
induction on the number of calls, `Gives` being what each of them preserves. -/
theorem Gives.call (h : Gives segmenter answers) (k : Nat) :
    segmenter.call k = answers[k]? := by
  induction k generalizing segmenter answers with
  | zero => rw [Segmenter.call, h.next.1, List.head?_eq_getElem?]
  | succ k ih => rw [Segmenter.call, ih h.next.2, List.getElem?_tail]

/-- **A segmenter gives what its document is cut into.** From here on the segmenter can be left
aside, and the theorems speak of the cut of a document at once. -/
theorem call_ofText (comment : Comment) (document : Text) (k : Nat) :
    (ofText comment document).call k = (Segmentation.ofText comment document).answers[k]? :=
  Gives.call (.taking fun _ hline => (Text.isLine_of_mem_lines hline).1) k

end Segmenter

/-! ### The numbers of lines -/

namespace Segment

/-- The number of the line that a segment begins on. For a block that is the line of its header,
or of its first line of prose when it has none. -/
def line : Segment → Nat
  | block b => b.line
  | directive _ _ line => line

/-- Segments of which the first begins on the given line, and each other one behind the line feeds
of those before it. So no segment is numbered by itself: its number is that of all the text before
it. -/
def Numbered : Nat → List Segment → Prop
  | _, [] => True
  | n, segment :: segments => segment.line = n ∧ Numbered (n + segment.raw.lineFeeds) segments

theorem numbered_append :
    Numbered n (segments ++ others) ↔ Numbered n segments ∧
      Numbered (n + Text.lineFeeds (segments.flatMap Segment.raw)) others := by
  induction segments generalizing n with
  | nil => simp [Numbered, Text.lineFeeds]
  | cons segment segments ih =>
    rw [List.cons_append, Numbered, Numbered, ih, List.flatMap_cons, Text.lineFeeds_append,
      Nat.add_assoc, and_assoc]

theorem Numbered.line_eq {segment : Segment} (h : Numbered n (segments ++ segment :: others)) :
    segment.line = n + Text.lineFeeds (segments.flatMap Segment.raw) :=
  (numbered_append.1 h).2.1

theorem numbered_flushing (hstart : (current.beginAt n).line = start) :
    Numbered start (flushing current n) := by
  unfold flushing
  split
  · trivial
  · exact ⟨hstart, trivial⟩

end Segment

/-- A line with its line feed has one. Only the last line of a document may be without. -/
theorem Text.lineFeeds_of_isLine (h : Text.IsLine raw) (hcomplete : Text.Complete raw) :
    raw.lineFeeds = 1 := by
  obtain ⟨inner, rfl⟩ := hcomplete.exists_eq h.1
  have hinner : inner.lineFeeds = 0 := by
    have hmem := h.2
    rw [List.dropLast_concat] at hmem
    exact List.count_eq_zero.2 hmem
  rw [Text.lineFeeds_append, hinner]
  rfl

namespace Segmentation

open Segment

/-- **Every segment carries the number of its first line.** The open block has begun on the line
that the segments are numbered from, and its text has as many line feeds as there are lines
between there and the next line. -/
theorem numbered_ofLines (hopen : current.IsOpen) (hls : Text.lines ls.flatten = ls) (hn : 0 < n)
    (hstart : (current.beginAt n).line = start)
    (hnumber : ls ≠ [] → n = start + current.raw.lineFeeds) :
    Numbered start (ofLines comment n current ls).segments := by
  -- By induction on the lines. The number of the next line is fixed only while there is one,
  -- since the last line may lack its line feed; hence the premise of `hnumber`.
  induction ls generalizing n start current with
  | nil => exact numbered_flushing hstart
  | cons raw ls ih =>
    obtain ⟨hline, hcomplete, hlater⟩ := Text.eq_of_lines_eq_cons hls
    have hnow := hnumber (by simp)
    have hfeeds : ls ≠ [] → raw.lineFeeds = 1 :=
      fun hne => Text.lineFeeds_of_isLine hline (hcomplete hne)
    -- when no block is open after the line, the next segment begins on the next line
    have hempty : Numbered (n + raw.lineFeeds)
        (ofLines comment (n + 1) .empty ls).segments := by
      by_cases hnil : ls = []
      · rw [hnil]
        trivial
      · rw [hfeeds hnil]
        exact ih Block.isOpen_empty hlater n.succ_pos rfl fun _ => rfl
    cases hfeed : feed comment n current raw with
    | error e =>
      rw [ofLines, hfeed]
      trivial
    | ok result =>
      obtain ⟨closed, next⟩ := result
      rw [ofLines_cons_of_feed hfeed]
      obtain ⟨hnext, -⟩ := hopen.feed hline hfeed
      rcases feed_cases hopen.closed hfeed with ⟨hblank, rfl, rfl⟩ | ⟨found, hfound, rfl, rfl⟩ |
        ⟨inner, specs, hheader, hstrip, hspecs, rfl, rfl⟩ | ⟨hprose, rfl, rfl⟩
      -- a blank line is the separator of the block that it closes
      · refine ⟨hstart, ?_⟩
        rw [raw_closing hopen.separator, Text.lineFeeds_append, ← Nat.add_assoc, ← hnow]
        exact hempty
      -- a directive is a segment on its own line
      · rw [List.append_assoc, numbered_append, flatMap_raw_flushing hopen, ← hnow]
        exact ⟨numbered_flushing hstart, rfl, hempty⟩
      -- a header opens a block on its own line
      · rw [numbered_append, flatMap_raw_flushing hopen, ← hnow]
        refine ⟨numbered_flushing hstart, ih hnext hlater n.succ_pos ?_ fun hne => ?_⟩
        · exact Block.line_beginAt hn.ne' _
        · rw [← hfeeds hne]
          simp [Block.raw, Block.headerText]
      -- prose leaves the open block on the line that it was begun on
      · have hpos : (current.beginAt n).line ≠ 0 := by
          unfold Block.beginAt
          split
          · exact hn.ne'
          · assumption
        refine ih hnext hlater n.succ_pos ?_ fun hne => ?_
        · refine Eq.trans (Block.line_beginAt ?_ _) hstart
          exact hpos
        · rw [raw_grown hopen.separator, Text.lineFeeds_append, hfeeds hne, ← Nat.add_assoc, ← hnow]

end Segmentation

/-! ### Documents -/

/-- The lines of a segment, in their order. That they are the lines of the document is what
forbids a segment to end in the middle of a line. -/
def Segment.lines : Segment → List Text
  | block b => b.header.toList ++ Text.lines b.text ++ Text.lines b.separator
  | directive _ raw _ => [raw]

/-- A block as a document is cut into them: closed, not empty, with specs just when it has a
header, a text of lines that are nothing but prose, and at most one blank line behind it. -/
structure Block.Canonical (comment : Comment) (block : Block) : Prop where
  closed : block.closed = true
  raw_ne_nil : block.raw ≠ []
  header_iff : block.header ≠ none ↔ block.specs ≠ []
  header : ∀ header ∈ block.header,
    Text.IsLine header ∧ comment.isHeader (Text.content header) = true
  text : ∀ line ∈ Text.lines block.text, Text.isBlank line = false ∧
    (∀ n, Directive.find n (Text.content line) = .ok none) ∧
    comment.isHeader (Text.content line) = false
  separator : block.separator = [] ∨
    Text.IsLine block.separator ∧ Text.isBlank block.separator = true

/-- A directive as a document is cut into them: one line that is not blank, and that reads as this
directive whatever its number. -/
structure Directive.Canonical (found : Directive) (raw : Text) : Prop where
  isLine : Text.IsLine raw
  notBlank : Text.isBlank raw = false
  find : ∀ n, Directive.find n (Text.content raw) = .ok (some found)

namespace Segmentation

/-- The segments that a whole document is cut into. Nothing is lost and no line is torn, each
segment is of its kind and carries the number of its first line, and a block ends only where it
has to. -/
structure Canonical (comment : Comment) (document : Text) (segments : List Segment) : Prop where
  raw : segments.flatMap Segment.raw = document
  lines : segments.flatMap Segment.lines = Text.lines document
  block : ∀ block, .block block ∈ segments → block.Canonical comment
  directive : ∀ found raw line, .directive found raw line ∈ segments → found.Canonical raw
  /-- A block without a separator is ended by a line of markup, or by the end of the document. -/
  separator : ∀ before block after, segments = before ++ .block block :: after →
    block.separator = [] → ∀ next ∈ after.head?, next.Opens
  line : ∀ before segment after, segments = before ++ segment :: after →
    segment.line = 1 + Text.lineFeeds (before.flatMap Segment.raw)

/-- The segments of a document up to its first line that is not well formed. What was given may
end before that line, since the block it would have closed is not given. -/
structure Stopped (comment : Comment) (document : Text) (segments : List Segment) (e : Error) :
    Prop where
  raw : segments.flatMap Segment.raw <+: document
  line : ∃ pre bad post, Text.lines document = pre ++ bad :: post ∧
    (∀ line ∈ pre, LineKind.WellFormed comment line) ∧ ¬ LineKind.WellFormed comment bad ∧
    e.IsAt (1 + pre.length) ∧ segments.flatMap Segment.raw <+: pre.flatten

end Segmentation

theorem Block.Sound.canonical {block : Block} (h : block.Sound comment) :
    block.Canonical comment := by
  refine ⟨h.closed, h.raw_ne_nil, ⟨h.toFormed.specs_ne_nil, fun hspecs hheader => ?_⟩, ?_, ?_, ?_⟩
  · exact hspecs (h.noHeader hheader)
  · intro header hheader
    obtain ⟨hline, hkind, -⟩ := h.header header hheader
    rw [Comment.isHeader_content]
    exact ⟨hline, (LineKind.is_header_iff.1 hkind).2.2⟩
  · intro line hline
    obtain ⟨hblank, hunmarked, hheader⟩ := LineKind.is_prose_iff.1 (h.text line hline)
    rw [Comment.isHeader_content]
    exact ⟨hblank, fun n => Directive.find_eq_ok_none_iff.2
      (Directive.unmarked_content_iff.2 hunmarked), hheader⟩
  · exact h.separator.imp_right fun h => ⟨h.1, h.2.1⟩

theorem Segment.Sound.lines_raw {segment : Segment} (h : segment.Sound comment) :
    Text.lines segment.raw = segment.lines := by
  cases segment with
  | directive found raw line => exact Text.lines_of_isLine h.1
  | block b =>
    have hheader : Text.lines b.headerText = b.header.toList := by
      cases hheader : b.header with
      | none =>
        rw [Block.headerText, hheader]
        rfl
      | some header =>
        rw [Block.headerText, hheader]
        exact Text.lines_of_isLine (h.header header hheader).1
    rw [Segment.raw, Block.Sound.lines_raw h, hheader, ← List.append_assoc]
    rfl

namespace Segmentation

/-- **A document that is cut to its end is cut losslessly**, and as it only can be. The chain of
segments gives what each is and how they meet, `numbered_ofLines` the numbers. -/
theorem canonical_of_ofText {document : Text}
    (h : ofText comment document = ⟨segments, none⟩) : Canonical comment document segments := by
  obtain ⟨hchain, hraw⟩ := chain_of_ofText h
  have hnumbered : Segment.Numbered 1 (ofText comment document).segments :=
    numbered_ofLines Block.isOpen_empty (by rw [Text.flatten_lines]) Nat.one_pos rfl fun _ => rfl
  rw [h] at hnumbered
  refine ⟨hraw, ?_, ?_, ?_, ?_, ?_⟩
  · rw [← hraw, hchain.lines_raw]
    exact List.flatMap_congr fun segment hsegment =>
      ((hchain.sound segment hsegment).lines_raw).symm
  · exact fun block hblock => Block.Sound.canonical (hchain.sound _ hblock)
  · intro found raw line hdirective
    obtain ⟨hline, hkind⟩ := hchain.sound _ hdirective
    obtain ⟨hblank, hfind⟩ := LineKind.find_of_is_directive hkind
    exact ⟨hline, hblank, hfind⟩
  · rintro before block after rfl hseparator
    obtain ⟨-, hafter⟩ := Segment.Chain.of_append hchain
    cases hafter with
    | cons sound complete opens rest => exact opens hseparator
  · rintro before segment after rfl
    exact hnumbered.line_eq

/-- **A document that is not cut to its end is cut losslessly up to its first line that is not
well formed.** Its open block is empty at the beginning, so that what is given is a beginning of
the lines taken. -/
theorem stopped_of_ofText {document : Text}
    (h : ofText comment document = ⟨segments, some e⟩) : Stopped comment document segments e := by
  obtain ⟨pre, bad, post, hlines, hpre, hbad, hat, hgiven⟩ :=
    of_ofLines_error Block.isOpen_empty (fun _ => Text.isLine_of_mem_lines) h
  refine ⟨hgiven.trans ?_, pre, bad, post, hlines, hpre, hbad, hat, hgiven⟩
  rw [← Text.flatten_lines document, hlines, List.flatten_append]
  exact List.prefix_append ..

end Segmentation

/-- **Segmentation is lossless and canonical.**  Whatever the document and the framing, the calls of
a segmenter give segments, then an error if there is one, and then nothing.  Without an error the
segments are the whole document; the error is that of the first line that is not well formed, and
what is given before it is a beginning of the document. -/
theorem Segmenter.lossless_canonical (comment : Comment) (document : Text) :
    ∃ segments failure,
      (∀ k, (Segmenter.ofText comment document).call k =
        (Segmentation.answers ⟨segments, failure⟩)[k]?) ∧
      match failure with
      | none => Segmentation.Canonical comment document segments
      | some e => Segmentation.Stopped comment document segments e := by
  cases h : Segmentation.ofText comment document with
  | mk segments failure =>
    refine ⟨segments, failure, fun k => ?_, ?_⟩
    · rw [Segmenter.call_ofText, h]
    · cases failure with
      | none => exact Segmentation.canonical_of_ofText h
      | some e => exact Segmentation.stopped_of_ofText h

/-- The block that a line would have closed is not given when the line is not well formed. -/
example : (List.range 2).map (Segmenter.ofText .standard "Prose.\n\x7b@template.\n".toList).call =
    [some (.error (.grammar 2 .unknownDirective (some "\x7b@template.".toList))), none] := by
  decide +kernel

end FieldedText
