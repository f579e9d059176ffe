/-
FieldedText/Proofs/Untagged.lean

Reading passes over paragraphs without a header.

A blank line and a directive leave no block open.  What stands behind such a line is cut
into segments as if a document began there, and the same holds behind a paragraph with a
blank line; all that is left of the paragraph is that the lines behind it have other
numbers (`ofText_insert_paragraph`).  Numbers show in complaints only, so a document with a
paragraph put into it gives the same data, or a complaint about the same line at its new
place (`read_inserted`).

The paragraph has to stand behind a line that ends a block.  Behind a line of prose its
text would come to the block that is open there.
-/
import FieldedText.Proofs.Insertion
import FieldedText.Proofs.Segmenter

namespace FieldedText

variable {comment : Comment} {m n k : Nat} {raw : Text} {e : Error} {ls more : List Text}
  {current other : Block}

/-! ### Complaints that move -/

/-- The error as it is when `k` lines are put behind line `m`. Only complaints about lines behind
that one move. -/
def Error.passing (m k : Nat) : Error → Error
  | .grammar line complaint context =>
    .grammar (if line ≤ m then line else line + k) complaint context
  | e => e

theorem Error.IsAt.passing_of_le (h : e.IsAt n) (hn : n ≤ m) : e.passing m k = e := by
  obtain ⟨complaint, context, rfl⟩ := h
  rw [passing, if_pos hn]

theorem Error.IsAt.passing_of_lt {complaint : Complaint} {context : Option Text} (hn : m < n) :
    (Error.grammar n complaint context).passing m k = .grammar (n + k) complaint context := by
  rw [passing, if_neg (Nat.not_le.2 hn)]

/-- What comes of two steps moves as each of them does. -/
theorem mapError_bind {α β : Type} (move : Error → Error) (x : Except Error α)
    (f : α → Except Error β) :
    (x >>= f).mapError move = x.mapError move >>= fun a => (f a).mapError move := by
  cases x <;> rfl

theorem Directive.ofSide_add (hn : m < n) (content : Text) (side : Side) (value : Text) :
    ofSide (n + k) content side value = (ofSide n content side value).mapError (.passing m k) := by
  cases side with
  | start => rfl
  | stop => rfl
  | pair =>
    simp only [ofSide]
    split
    · rfl
    · rw [Except.mapError, Error.IsAt.passing_of_lt hn]

theorem Directive.find_add (hn : m < n) (content : Text) :
    find (n + k) content = (find n content).mapError (.passing m k) := by
  unfold find
  split
  · rfl
  · split
    · rfl
    · split
      · rename_i side value _
        rw [ofSide_add hn]
        cases ofSide n content side value <;> rfl
      · split
        · rw [Except.mapError, Error.IsAt.passing_of_lt hn]
        · rfl

theorem LineKind.ofLine_add (hn : m < n) (comment : Comment) (raw : Text) :
    ofLine comment (n + k) raw = (ofLine comment n raw).mapError (.passing m k) := by
  unfold ofLine
  dsimp only
  split
  · rfl
  · rw [Directive.find_add hn]
    cases Directive.find n (Text.content raw) with
    | error e => rfl
    | ok found => cases found <;> rfl

theorem FieldSpec.scanHeader_add (hn : m < n) (passed : Nat) (text : Text) :
    scanHeader (n + k) passed text = (scanHeader n passed text).mapError (.passing m k) := by
  induction text generalizing passed with
  | nil => cases passed <;> rfl
  | cons c text ih =>
    cases passed with
    | succ passed => exact ih passed
    | zero =>
      rw [scanHeader, scanHeader]
      split
      · exact ih 0
      · split
        · rw [Except.mapError, Error.IsAt.passing_of_lt hn]
        · rename_i spec rest _
          rw [ih]
          cases scanHeader n (text.length - rest.length) text <;> rfl

/-! ### Blocks that begin on another line -/

theorem Block.unnumbered_beginAt (block : Block) (n : Nat) :
    (block.beginAt n).unnumbered = block.unnumbered := by
  obtain ⟨line, hbegin⟩ := block.beginAt_eq n
  rw [hbegin]
  rfl

/-- A header begins a block wherever it stands, or is complained about there. -/
theorem Block.ofHeader_add (comment : Comment) (hn : m < n) (raw : Text) :
    (ofHeader comment (n + k) raw).map unnumbered =
      ((ofHeader comment n raw).map unnumbered).mapError (.passing m k) := by
  unfold ofHeader
  cases comment.strip? raw with
  | none =>
    simp only [Except.map, Except.mapError]
    rw [Error.IsAt.passing_of_lt hn]
  | some inner =>
    simp only [FieldSpec.ofHeader]
    rw [FieldSpec.scanHeader_add hn]
    cases FieldSpec.scanHeader n 0 inner <;> rfl

/-- Two blocks that are the same without their numbers differ in these only. -/
theorem Block.eq_of_unnumbered_eq (h : current.unnumbered = other.unnumbered) :
    other = { current with line := other.line } := by
  obtain ⟨header, specs, text, separator, line, closed⟩ := current
  obtain ⟨header', specs', text', separator', line', closed'⟩ := other
  simp only [unnumbered, Block.mk.injEq] at h
  obtain ⟨rfl, rfl, rfl, rfl, -, rfl⟩ := h
  rfl

namespace Segment

/-- What a line closes, and the block that is open after it, without numbers. Two steps on
different lines are compared by this. -/
def unnumberedStep (step : List Segment × Block) : List Segment × Block :=
  (step.1.map unnumbered, step.2.unnumbered)

theorem unnumbered_closing (current : Block) (n : Nat) (separator : Text) :
    (closing current n separator).unnumbered = .block (current.unnumbered.close separator) := by
  obtain ⟨line, hbegin⟩ := current.beginAt_eq n
  rw [closing, hbegin]
  rfl

theorem unnumbered_flushing (h : current.unnumbered = other.unnumbered) (n l : Nat) :
    (flushing current n).map unnumbered = (flushing other l).map unnumbered := by
  have hempty : other.isEmpty = current.isEmpty := by
    rw [Block.eq_of_unnumbered_eq h]
    rfl
  unfold flushing
  rw [hempty]
  split
  · rfl
  · rw [List.map_singleton, List.map_singleton, unnumbered_closing, unnumbered_closing, h]

/-- **A line does the same wherever it stands**, and to an open block that began elsewhere. This
is the step; `ofLines_add` runs it. The complaints of a line move with it, and its number is
nowhere else but in the block that begins on it. -/
theorem feed_add (comment : Comment) (hn : m < n) (h : current.unnumbered = other.unnumbered)
    (raw : Text) :
    (feed comment (n + k) other raw).map unnumberedStep =
      ((feed comment n current raw).map unnumberedStep).mapError (.passing m k) := by
  have hflushing := unnumbered_flushing h n (n + k)
  unfold feed
  -- The kind of the line is the same at both places, so the two steps go through the same case.
  rw [LineKind.ofLine_add hn]
  cases LineKind.ofLine comment n raw with
  | error e => rfl
  | ok kind =>
    cases kind with
    | blank =>
      have hclosing := unnumbered_closing current n raw
      rw [h, ← unnumbered_closing other (n + k) raw] at hclosing
      simp only [bind, Except.bind, pure, Except.pure, Except.map, Except.mapError, unnumberedStep,
        List.map_singleton, hclosing]
    | directive found =>
      simp only [bind, Except.bind, pure, Except.pure, Except.map, Except.mapError, unnumberedStep,
        List.map_append, List.map_singleton, hflushing, unnumbered]
    | header =>
      -- a header is read at both places or at neither, with the same specs or the same complaint
      have hheader := Block.ofHeader_add (k := k) comment hn raw
      revert hheader
      simp only [bind, Except.bind, pure, Except.pure, Except.mapError]
      cases Block.ofHeader comment (n + k) raw with
      | error e =>
        cases Block.ofHeader comment n raw with
        | error e' =>
          intro heq
          exact congrArg Except.error (Except.error.inj heq)
        | ok block =>
          intro heq
          cases heq
      | ok block =>
        cases Block.ofHeader comment n raw with
        | error e' =>
          intro heq
          cases heq
        | ok block' =>
          intro heq
          have hblock : block.unnumbered = block'.unnumbered := Except.ok.inj heq
          simp only [Except.map, unnumberedStep, hflushing, hblock]
    | prose =>
      -- the open blocks differ in their lines only, and are both closed or both open
      have hbegin := Block.eq_of_unnumbered_eq
        ((current.unnumbered_beginAt n).trans (h.trans (other.unnumbered_beginAt (n + k)).symm))
      simp only [bind, Except.bind, pure, Except.pure]
      rw [hbegin, Block.append, Block.append]
      cases hclosed : (current.beginAt n).closed <;>
        simp [Except.map, Except.mapError, unnumberedStep, Error.passing, Block.unnumbered]

end Segment

namespace Segmentation

/-- **Lines are cut into the same segments wherever they stand**, and what is complained about moves
with its line. -/
theorem ofLines_add (comment : Comment) (hn : m < n) (h : current.unnumbered = other.unnumbered)
    (ls : List Text) :
    (ofLines comment (n + k) other ls).segments.map Segment.unnumbered =
        (ofLines comment n current ls).segments.map Segment.unnumbered ∧
      (ofLines comment (n + k) other ls).failure =
        (ofLines comment n current ls).failure.map (.passing m k) := by
  induction ls generalizing n current other with
  | nil => exact ⟨Segment.unnumbered_flushing h.symm (n + k) n, rfl⟩
  | cons raw ls ih =>
    have hfeed := Segment.feed_add (k := k) comment hn h raw
    rw [ofLines, ofLines]
    -- The two steps fail together, with complaints about the line at its two places, or they
    -- close the same segments and leave the same open block.
    cases hstep : Segment.feed comment n current raw with
    | error e =>
      cases hmoved : Segment.feed comment (n + k) other raw with
      | error e' =>
        rw [hstep, hmoved] at hfeed
        exact ⟨rfl, congrArg some (Except.error.inj hfeed)⟩
      | ok step =>
        rw [hstep, hmoved] at hfeed
        cases hfeed
    | ok step =>
      cases hmoved : Segment.feed comment (n + k) other raw with
      | error e' =>
        rw [hstep, hmoved] at hfeed
        cases hfeed
      | ok step' =>
        rw [hstep, hmoved] at hfeed
        obtain ⟨hclosed, hnext⟩ := Prod.mk.inj (Except.ok.inj hfeed)
        obtain ⟨hsegments, hfailure⟩ := ih (Nat.lt_succ_of_lt hn) hnext.symm
        rw [Nat.add_right_comm]
        exact ⟨by simp only [List.map_append, hclosed, hsegments], hfailure⟩

/-- **No block is open behind a blank line or a directive.**  The lines up to such a line are cut
into segments of their own, or one of them is complained about. -/
theorem ofLines_append_of_ends (hopen : current.IsOpen) (hls : ∀ line ∈ ls, Text.IsLine line)
    (hends : ∀ line ∈ ls.getLast?, LineKind.Ends comment line)
    (hcurrent : ls = [] → current = .empty) :
    (∃ segments e line, e.IsAt line ∧ line < n + ls.length ∧
      ∀ more, ofLines comment n current (ls ++ more) = ⟨segments, some e⟩) ∨
    ∃ segments, ∀ more, ofLines comment n current (ls ++ more) =
      ⟨segments ++ (ofLines comment (n + ls.length) .empty more).segments,
        (ofLines comment (n + ls.length) .empty more).failure⟩ := by
  induction ls generalizing n current with
  | nil =>
    rw [hcurrent rfl]
    exact .inr ⟨[], fun _ => rfl⟩
  | cons raw ls ih =>
    obtain ⟨hraw, hls⟩ := List.forall_mem_cons.1 hls
    cases hfeed : Segment.feed comment n current raw with
    | error e =>
      refine .inl ⟨[], e, n, (Segment.of_feed_error hopen.closed hfeed).2, by simp, fun more => ?_⟩
      rw [List.cons_append, ofLines, hfeed]
    | ok step =>
      obtain ⟨closed, next⟩ := step
      have hlater : ∀ line ∈ ls.getLast?, LineKind.Ends comment line := fun line hline =>
        hends line (show line ∈ ([raw] ++ ls).getLast? from
          List.mem_getLast?_append_of_mem_getLast? hline)
      -- the last line leaves no block open
      have hempty : ls = [] → next = .empty := by
        rintro rfl
        have hraw : LineKind.Ends comment raw := hends raw rfl
        rcases feed_cases hopen.closed hfeed with ⟨-, -, hnext⟩ | ⟨found, -, -, hnext⟩ |
          ⟨inner, specs, hheader, -⟩ | ⟨hprose, -⟩
        · exact hnext
        · exact hnext
        · exact absurd hheader hraw.not_header
        · exact absurd hprose hraw.not_prose
      rw [List.length_cons, Nat.add_comm ls.length 1, ← Nat.add_assoc]
      rcases ih (n := n + 1) (hopen.feed hraw hfeed).1 hls hlater hempty with
        ⟨segments, e, line, hat, hline, herror⟩ | ⟨segments, hsegments⟩
      · refine .inl ⟨closed ++ segments, e, line, hat, hline, fun more => ?_⟩
        rw [List.cons_append, ofLines_cons_of_feed hfeed, herror more]
      · refine .inr ⟨closed ++ segments, fun more => ?_⟩
        rw [List.cons_append, ofLines_cons_of_feed hfeed, hsegments more, List.append_assoc]

open Document in
/-- A paragraph where no block is open is cut into the one block that it is, and leaves none
open. -/
theorem ofLines_paragraph {text separator : Text} (hparagraph : IsParagraph comment text separator)
    (n : Nat) :
    ∃ inserted, (∀ segment ∈ inserted, segment.unnumbered = .block (paragraph text separator)) ∧
      ∀ more, ofLines comment n .empty (Text.lines (text ++ separator) ++ more) =
        ⟨inserted ++
            (ofLines comment (n + (Text.lines (text ++ separator)).length) .empty more).segments,
          (ofLines comment (n + (Text.lines (text ++ separator)).length) .empty more).failure⟩ := by
  -- the last line of a paragraph is blank, so no block is open behind it
  have hends : ∀ line ∈ (Text.lines (text ++ separator)).getLast?, LineKind.Ends comment line := by
    rw [Text.lines_append hparagraph.complete, Text.lines_of_isLine hparagraph.isLine,
      List.getLast?_concat]
    rintro line ⟨⟩
    exact .inl (LineKind.is_blank_iff.2 hparagraph.blank)
  have hchain : Segment.Chain comment [.block (paragraph text separator)] :=
    .cons hparagraph.sound (by simp) (by simp) .nil
  obtain ⟨result, hresult, hmap⟩ := ofLines_of_chain hchain n Block.isOpen_empty.closed (.inl rfl)
  have hraw : [Segment.block (paragraph text separator)].flatMap Segment.raw =
      text ++ separator := by
    rw [List.flatMap_singleton]
    rfl
  rw [hraw, ← List.append_nil (Text.lines (text ++ separator))] at hresult
  rcases ofLines_append_of_ends (n := n) Block.isOpen_empty
      (fun line hline => Text.isLine_of_mem_lines hline) hends (fun _ => rfl) with
    ⟨segments, e, line, -, -, herror⟩ | ⟨inserted, hinserted⟩
  · cases hresult.symm.trans (herror [])
  -- what its lines are cut into, by themselves, is the chain of the one block that it is
  · refine ⟨inserted, fun segment hsegment => ?_, hinserted⟩
    have hresult' : inserted ++ [] = result := (Segmentation.mk.inj (hinserted [] ▸ hresult)).1
    rw [← hresult', List.append_nil, Segment.pending_empty] at hmap
    have hmem : segment.unnumbered ∈ inserted.map Segment.unnumbered :=
      List.mem_map_of_mem hsegment
    rw [hmap] at hmem
    exact List.mem_singleton.1 hmem

open Document in
/-- **A paragraph that is put behind a blank line or a directive is a segment of its own.**  The
segments before it stay, and those behind it are the same at other places; no segment is put in
where a line before the paragraph is complained about. -/
theorem ofText_insert_paragraph {a b text separator : Text} (ha : a.Complete)
    (hends : ∀ line ∈ (Text.lines a).getLast?, LineKind.Ends comment line)
    (hparagraph : IsParagraph comment text separator) :
    ∃ before inserted after moved,
      (ofText comment (a ++ b)).segments = before ++ after ∧
      (ofText comment (a ++ (text ++ separator) ++ b)).segments = before ++ inserted ++ moved ∧
      (∀ segment ∈ inserted, segment.unnumbered = .block (paragraph text separator)) ∧
      moved.map Segment.unnumbered = after.map Segment.unnumbered ∧
      (ofText comment (a ++ (text ++ separator) ++ b)).failure =
        (ofText comment (a ++ b)).failure.map
          (.passing (Text.lines a).length (Text.lines (text ++ separator)).length) := by
  have hcomplete : Text.Complete (text ++ separator) :=
    (Text.complete_append_iff hparagraph.isLine.1).2 hparagraph.separated
  unfold ofText
  rw [List.append_assoc, Text.lines_append ha, Text.lines_append ha, Text.lines_append hcomplete]
  rcases ofLines_append_of_ends (n := 1) Block.isOpen_empty
      (fun line hline => Text.isLine_of_mem_lines hline) hends (fun _ => rfl) with
    ⟨segments, e, line, hat, hline, herror⟩ | ⟨before, hbefore⟩
  · -- nothing behind the line in question is looked at
    refine ⟨segments, [], [], [], ?_, ?_, by simp, rfl, ?_⟩
    · rw [herror, List.append_nil]
    · rw [herror, List.append_nil, List.append_nil]
    · rw [herror, herror, Option.map_some, hat.passing_of_le (by omega)]
  · obtain ⟨inserted, hinserted, hparagraphs⟩ :=
      ofLines_paragraph hparagraph (1 + (Text.lines a).length)
    obtain ⟨hmoved, hfailure⟩ := ofLines_add (k := (Text.lines (text ++ separator)).length) comment
      (Nat.lt_add_of_pos_left Nat.one_pos) (rfl : Block.empty.unnumbered = _) (Text.lines b)
    refine ⟨before, inserted, _, _, by rw [hbefore], ?_, hinserted, hmoved, ?_⟩
    · rw [hbefore, hparagraphs, List.append_assoc]
    · rw [hbefore, hparagraphs, hbefore]
      exact hfailure

end Segmentation

/-! ### Settings -/

namespace Settings

variable {settings : Settings}

/-- Lines are scanned one after the other. -/
theorem map_ofLines_cons :
    (Directive.ofLines n (raw :: ls)).map settings.applyAll =
      Directive.find n (Text.plain raw) >>= fun found =>
        (Directive.ofLines (n + 1) ls).map (settings.applyFound found).applyAll := by
  rw [Directive.ofLines]
  cases Directive.find n (Text.plain raw) with
  | error e => rfl
  | ok found =>
    cases Directive.ofLines (n + 1) ls with
    | error e => rfl
    | ok later => cases found <;> rfl

theorem map_ofLines_append :
    (Directive.ofLines n (ls ++ more)).map settings.applyAll =
      (Directive.ofLines n ls).map settings.applyAll >>= fun between =>
        (Directive.ofLines (n + ls.length) more).map between.applyAll := by
  induction ls generalizing n settings with
  | nil => rfl
  | cons raw ls ih =>
    rw [List.cons_append, map_ofLines_cons, map_ofLines_cons, List.length_cons,
      Nat.add_comm ls.length 1, ← Nat.add_assoc]
    cases Directive.find n (Text.plain raw) with
    | error e => rfl
    | ok found => exact ih

/-- Lines are scanned alike wherever they stand, and what is complained about moves with its
line. -/
theorem map_ofLines_add (hn : m < n) :
    (Directive.ofLines (n + k) ls).map settings.applyAll =
      ((Directive.ofLines n ls).map settings.applyAll).mapError (.passing m k) := by
  induction ls generalizing n settings with
  | nil => rfl
  | cons raw ls ih =>
    rw [map_ofLines_cons, map_ofLines_cons, mapError_bind, Directive.find_add hn,
      Nat.add_right_comm]
    congr 1
    funext found
    exact ih (Nat.lt_succ_of_lt hn)

/-- What is complained about in lines before a place is not moved with the place. -/
theorem mapError_ofLines (h : n + ls.length ≤ m + 1) :
    ((Directive.ofLines n ls).map settings.applyAll).mapError (.passing m k) =
      (Directive.ofLines n ls).map settings.applyAll := by
  induction ls generalizing n settings with
  | nil => rfl
  | cons raw ls ih =>
    rw [List.length_cons] at h
    rw [map_ofLines_cons, mapError_bind]
    cases hfind : Directive.find n (Text.plain raw) with
    | error e =>
      exact congrArg Except.error ((Directive.isAt_of_find hfind).passing_of_le (by omega))
    | ok found => exact ih (by omega)

/-- **A text without directives that is put between lines changes no settings.** -/
theorem scan_insert (settings : Settings) {a p b : Text} (ha : a.Complete) (hp : p.Complete)
    (hunmarked : ∀ line ∈ Text.lines p, Directive.Unmarked line) :
    settings.scan (a ++ p ++ b) =
      (settings.scan (a ++ b)).mapError
        (.passing (Text.lines a).length (Text.lines p).length) := by
  unfold scan Directive.ofDocument
  rw [List.append_assoc, Text.lines_append ha, Text.lines_append ha, Text.lines_append hp,
    map_ofLines_append, map_ofLines_append, mapError_bind, mapError_ofLines (by omega)]
  congr 1
  funext between
  rw [map_ofLines_append, (scans_of_unmarked hunmarked).2 rfl]
  exact map_ofLines_add (by omega)

end Settings

/-! ### Documents -/

namespace Document

variable {settings : Settings} {a b text separator : Text}

/-- Nothing is read from a paragraph without a header. -/
theorem foldl_readSegment_of_paragraph {segments : List Segment} {r : Record}
    (h : ∀ segment ∈ segments, segment.unnumbered = .block (paragraph text separator)) :
    segments.foldl readSegment r = r := by
  induction segments with
  | nil => rfl
  | cons segment segments ih =>
    obtain ⟨hsegment, hsegments⟩ := List.forall_mem_cons.1 h
    rw [List.foldl_cons, ← readSegment_unnumbered, hsegment]
    exact ih hsegments

/-- **A paragraph without a header is not read.**  It may stand at the beginning of a document, and
behind any blank line or directive.  The same data is read without it and with it; and where a
line is complained about, the same is said of the line at its place behind the paragraph. -/
theorem read_inserted
    (hframing : ∀ scanned, settings.scan (a ++ b) = .ok scanned → scanned.comment = comment)
    (ha : a.Complete) (hends : ∀ line ∈ (Text.lines a).getLast?, LineKind.Ends comment line)
    (hparagraph : IsParagraph comment text separator) :
    (∀ values, read settings (a ++ (text ++ separator) ++ b) = .ok values ↔
      read settings (a ++ b) = .ok values) ∧
    ∀ line complaint context,
      read settings (a ++ b) = .error (.grammar line complaint context) →
      read settings (a ++ (text ++ separator) ++ b) =
        .error (.grammar (if line ≤ (Text.lines a).length then line
          else line + (Text.lines (text ++ separator)).length) complaint context) := by
  -- Both parts come from one equation: reading with the paragraph is reading without it, with the
  -- complaint moved.
  have hread : read settings (a ++ (text ++ separator) ++ b) =
      (read settings (a ++ b)).mapError
        (.passing (Text.lines a).length (Text.lines (text ++ separator)).length) := by
    have hcomplete : Text.Complete (text ++ separator) :=
      (Text.complete_append_iff hparagraph.isLine.1).2 hparagraph.separated
    have hscan := Settings.scan_insert (b := b) settings ha hcomplete
      (Block.Sound.unmarked hparagraph.sound)
    rw [read, read, mapError_bind, hscan]
    cases hscanned : settings.scan (a ++ b) with
    | error e => rfl
    | ok scanned =>
      obtain rfl := hframing scanned hscanned
      obtain ⟨before, inserted, after, moved, hsegments, hnew, hinserted, hmoved, hfailure⟩ :=
        Segmentation.ofText_insert_paragraph (b := b) ha hends hparagraph
      -- nothing is read from what was put in, and the segments behind it differ in their numbers
      -- only
      have hfold : (before ++ inserted ++ moved).foldl readSegment [] =
          (before ++ after).foldl readSegment [] := by
        rw [List.foldl_append, List.foldl_append, List.foldl_append,
          foldl_readSegment_of_paragraph hinserted, ← foldl_readSegment_unnumbered moved, hmoved,
          foldl_readSegment_unnumbered]
      simp only [Except.mapError, bind, Except.bind, Segmentation.complete, hnew, hsegments, hfold,
        hfailure]
      -- at last the complaint that ended the segmentation, if there is one, is the one that moves
      cases (Segmentation.ofText scanned.comment (a ++ b)).failure <;> rfl
  rw [hread]
  constructor
  · intro values
    cases read settings (a ++ b) <;> simp [Except.mapError]
  · intro line complaint context herror
    rw [herror]
    rfl

/-- A paragraph behind a directive: the value in the block behind it is read with it as without it,
and a header that is malformed is complained about three lines further down. -/
theorem read_behind_paragraph :
    read .standard ("<!--\x7b@template.delimiter.pair:\"[]\"\x7d\x7d-->\n".toList ++
        ("One.\nTwo.\n".toList ++ " \n".toList) ++
        "<!--\x7b\x7ba:pattern=\"[%s]\"\x7d\x7d-->\n[x]\n".toList) =
      .ok [("a".toList, .scalar (.text "x".toList))] ∧
    read .standard ("<!--\x7b@template.delimiter.pair:\"[]\"\x7d\x7d-->\n".toList ++
        ("One.\nTwo.\n".toList ++ " \n".toList) ++ "<!--\x7b\x7ba:x\x7d\x7d-->\n[x]\n".toList) =
      .error (.grammar (2 + 3) .malformedField (some "\x7b\x7ba:x\x7d\x7d".toList)) := by
  have hparagraph : IsParagraph .standard "One.\nTwo.\n".toList " \n".toList := by decide +kernel
  have hends : ∀ line ∈ (Text.lines
      "<!--\x7b@template.delimiter.pair:\"[]\"\x7d\x7d-->\n".toList).getLast?,
      LineKind.Ends .standard line := by
    decide +kernel
  -- the settings that are scanned have the framing that the document begins with
  have hframing (b : Text) (h : (Settings.standard.scan
      ("<!--\x7b@template.delimiter.pair:\"[]\"\x7d\x7d-->\n".toList ++ b)).map Settings.comment =
        .ok .standard) (scanned : Settings)
      (hscan : Settings.standard.scan
        ("<!--\x7b@template.delimiter.pair:\"[]\"\x7d\x7d-->\n".toList ++ b) = .ok scanned) :
      scanned.comment = .standard := by
    rw [hscan] at h
    exact Except.ok.inj h
  constructor
  · have hread := (read_inserted
      (hframing "<!--\x7b\x7ba:pattern=\"[%s]\"\x7d\x7d-->\n[x]\n".toList (by decide +kernel))
      (by decide +kernel) hends hparagraph).1
    exact (hread _).2 (by decide +kernel)
  · have hcomplaint := (read_inserted
      (hframing "<!--\x7b\x7ba:x\x7d\x7d-->\n[x]\n".toList (by decide +kernel))
      (by decide +kernel) hends hparagraph).2
    exact hcomplaint 2 .malformedField _ (by decide +kernel)

end Document

end FieldedText
