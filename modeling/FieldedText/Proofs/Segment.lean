/-
FieldedText/Proofs/Segment.lean

Which lists of segments a document can be cut into.

Three things make a list of segments one that a document is cut into: each
segment is sound by itself, each but the last is complete, and after a block
without a separator comes a directive or a header (`Segment.Chain`).  The two
halves of this description are `ofText_of_chain`, that the texts of a chain put
together are cut into that chain again, and `chain_of_ofText`, that every
document that is cut to its end is cut into a chain.

The numbers of lines that segments carry are the one thing that depends on where
a segment stands; segments are compared without them.
-/
import Mathlib.Data.List.Forall2
import FieldedText.Document.Segment
import FieldedText.Proofs.Header

namespace FieldedText

variable {comment : Comment} {n : Nat} {raw line : Text}

/-! ### Segments without their numbers -/

/-- The block with no number of a line. -/
def Block.unnumbered (block : Block) : Block := { block with line := 0 }

@[simp] theorem Block.raw_unnumbered (block : Block) : block.unnumbered.raw = block.raw := rfl

namespace Segment

/-- The segment with no number of a line. -/
def unnumbered : Segment → Segment
  | block b => block b.unnumbered
  | directive found raw _ => directive found raw 0

@[simp] theorem raw_unnumbered (segment : Segment) : segment.unnumbered.raw = segment.raw := by
  cases segment <;> rfl

end Segment

/-! ### Sound segments -/

/-- A header and text as lines make them: the header is one line, from which the specs are read,
and every line of the text is prose. Blocks that are still open are of this kind, too. -/
structure Block.Formed (comment : Comment) (block : Block) : Prop where
  header : ∀ h ∈ block.header, Text.IsLine h ∧ LineKind.Is comment h .header ∧
    ∃ inner, comment.strip? h = some inner ∧ FieldSpec.ofHeader 0 inner = .ok block.specs
  noHeader : block.header = none → block.specs = []
  text : ∀ line ∈ Text.lines block.text, LineKind.Is comment line .prose
  complete : block.text ≠ [] → Text.Complete block.headerText

/-- A closed block as lines make it: what its separator ends is complete, and something is
in it. -/
structure Block.Sound (comment : Comment) (block : Block) : Prop
    extends Block.Formed comment block where
  closed : block.closed = true
  separator : block.separator = [] ∨ Text.IsLine block.separator ∧
    Text.isBlank block.separator = true ∧ Text.Complete (block.headerText ++ block.text)
  raw_ne_nil : block.raw ≠ []

namespace Segment

section

variable {onDirective onDirective' : Directive → Prop} {onBlock onBlock' : Block → Prop}

/-- A segment whose directive, or whose block, has a property.  The conditions on documents are of
this kind: they ask for something in every block, and of directives for nothing, or that they are
no list templates. -/
def Satisfies (onDirective : Directive → Prop) (onBlock : Block → Prop) : Segment → Prop
  | directive found _ _ => onDirective found
  | block b => onBlock b

instance [DecidablePred onDirective] [DecidablePred onBlock] :
    DecidablePred (Satisfies onDirective onBlock)
  | directive found _ _ => inferInstanceAs (Decidable (onDirective found))
  | block b => inferInstanceAs (Decidable (onBlock b))

@[simp] theorem satisfies_block {b : Block} :
    Satisfies onDirective onBlock (.block b) ↔ onBlock b := Iff.rfl

/-- A condition follows from another one if it does so for directives and for blocks. -/
theorem Satisfies.imp {segment : Segment} (h : Satisfies onDirective onBlock segment)
    (hdirective : ∀ found, onDirective found → onDirective' found)
    (hblock : ∀ b, onBlock b → onBlock' b) : Satisfies onDirective' onBlock' segment := by
  cases segment with
  | directive found raw line => exact hdirective found h
  | block b => exact hblock b h

end

/-- A segment as lines make it. -/
def Sound (comment : Comment) : Segment → Prop
  | block b => b.Sound comment
  | directive found raw _ => Text.IsLine raw ∧ LineKind.Is comment raw (.directive found)

/-- A segment that begins with a line of markup, and so ends the block before it. Lines of prose
would be taken to that block. -/
def Opens : Segment → Prop
  | block b => b.header.isSome = true
  | directive _ _ _ => True

/-- A block that no blank line ended. -/
def Unseparated : Segment → Prop
  | block b => b.separator = []
  | directive _ _ _ => False

/-- Segments that follow one another in a document. Each condition is on a segment and the one
behind it, so that chains can be cut and put together. -/
inductive Chain (comment : Comment) : List Segment → Prop
  | nil : Chain comment []
  | cons {segment : Segment} {segments : List Segment} (sound : segment.Sound comment)
      (complete : segments ≠ [] → Text.Complete segment.raw)
      (opens : segment.Unseparated → ∀ next ∈ segments.head?, next.Opens)
      (rest : Chain comment segments) : Chain comment (segment :: segments)

theorem Sound.raw_ne_nil {segment : Segment} (h : segment.Sound comment) : segment.raw ≠ [] := by
  cases segment with
  | block b => exact Block.Sound.raw_ne_nil h
  | directive found raw line => exact h.1.1

theorem Chain.sound {segments : List Segment} (h : Chain comment segments) :
    ∀ segment ∈ segments, segment.Sound comment := by
  induction h with
  | nil => simp
  | cons sound _ _ _ ih => exact List.forall_mem_cons.2 ⟨sound, ih⟩

/-- The segments of a chain, but for the last one, are complete. -/
theorem Chain.complete {segments : List Segment} (h : Chain comment segments) :
    ∀ segment ∈ segments.dropLast, Text.Complete segment.raw := by
  induction h with
  | nil => simp
  | @cons segment segments _ complete _ _ ih =>
    cases segments with
    | nil => simp
    | cons next segments =>
      rw [List.dropLast_cons_of_ne_nil (by simp)]
      exact List.forall_mem_cons.2 ⟨complete (by simp), ih⟩

/-- The lines of a chain are those of its segments, in order. -/
theorem Chain.lines_raw {segments : List Segment} (h : Chain comment segments) :
    Text.lines (segments.flatMap Segment.raw) =
      segments.flatMap fun segment => Text.lines segment.raw := by
  have hcomplete : ∀ text ∈ (segments.map Segment.raw).dropLast, Text.Complete text := by
    rw [← List.map_dropLast]
    intro text htext
    obtain ⟨segment, hsegment, rfl⟩ := List.mem_map.1 htext
    exact h.complete segment hsegment
  have hlines := Text.lines_flatten hcomplete
  rwa [← List.flatMap_def, List.flatMap_map] at hlines

/-! ### Chains put together -/

/-- **Chains follow one another** when the first is complete and, if its last block has no
separator, the second begins with a line of markup. -/
theorem Chain.append {segments others : List Segment} (h : Chain comment segments)
    (ho : Chain comment others)
    (hcomplete : others ≠ [] → ∀ last ∈ segments.getLast?, Text.Complete last.raw)
    (hopens : ∀ last ∈ segments.getLast?, last.Unseparated → ∀ next ∈ others.head?, next.Opens) :
    Chain comment (segments ++ others) := by
  induction h with
  | nil => exact ho
  | @cons segment segments sound complete opens rest ih =>
    cases segments with
    | nil =>
      exact .cons sound (fun h => hcomplete h segment (by simp))
        (fun h => hopens segment (by simp) h) ho
    | cons next segments =>
      rw [List.getLast?_cons_cons] at hcomplete hopens
      exact .cons sound (fun _ => complete (by simp)) opens (ih hcomplete hopens)

/-- Segments that end with a line feed, and with a blank line if they are blocks, follow one
another in any order. -/
theorem chain_of_forall {segments : List Segment} (h : ∀ segment ∈ segments,
    segment.Sound comment ∧ segment.raw.Complete ∧ ¬ segment.Unseparated) :
    Chain comment segments := by
  induction segments with
  | nil => exact .nil
  | cons segment segments ih =>
    obtain ⟨⟨hsound, hcomplete, hseparated⟩, hlater⟩ := List.forall_mem_cons.1 h
    exact .cons hsound (fun _ => hcomplete) (fun h => absurd h hseparated) (ih hlater)

/-- A chain that can stand in a document where a segment stands. Its first and last segments are
asked for what the segment gave to its neighbours. -/
structure Replaces (comment : Comment) (segment : Segment) (segments : List Segment) : Prop where
  chain : Chain comment segments
  ne_nil : segments ≠ []
  opens : segment.Opens → ∀ head ∈ segments.head?, head.Opens
  unseparated : ∀ last ∈ segments.getLast?, last.Unseparated → segment.Unseparated
  complete : Text.Complete segment.raw → ∀ last ∈ segments.getLast?, Text.Complete last.raw

theorem replaces_singleton {segment next : Segment} (sound : next.Sound comment)
    (opens : segment.Opens → next.Opens) (unseparated : next.Unseparated → segment.Unseparated)
    (complete : Text.Complete segment.raw → Text.Complete next.raw) :
    Replaces comment segment [next] := by
  refine ⟨.cons sound (by simp) (by simp) .nil, by simp, ?_, ?_, ?_⟩
  · intro hopens head hhead
    cases hhead
    exact opens hopens
  · intro last hlast hunseparated
    cases hlast
    exact unseparated hunseparated
  · intro hcomplete last hlast
    cases hlast
    exact complete hcomplete

/-- **A chain stays one when each of its segments gives place to a chain.** -/
theorem Chain.flatten {segments : List Segment} {chains : List (List Segment)}
    (h : Chain comment segments) (hr : List.Forall₂ (Replaces comment) segments chains) :
    Chain comment chains.flatten := by
  -- By induction on the segments and what takes their places. The two conditions between
  -- neighbours go through the ends of the chains.
  induction hr with
  | nil => exact .nil
  | @cons segment new segments chains hnew hlater ih =>
    cases h with
    | cons sound complete opens rest =>
      rw [List.flatten_cons]
      refine hnew.chain.append (ih rest) ?_ ?_
      · intro hne
        -- something follows the segment, since something follows its chain
        refine hnew.complete (complete ?_)
        rintro rfl
        cases hlater
        exact hne rfl
      · intro last hlast hsep next hnext
        -- its last block has no separator, so the segment had none, and the next one began with a
        -- line of markup
        have hopens := opens (hnew.unseparated last hlast hsep)
        cases hlater with
        | nil => simp at hnext
        | @cons segment' new' _ _ hnew' _ =>
          obtain ⟨head, tail, hhead⟩ := List.exists_cons_of_ne_nil hnew'.ne_nil
          rw [hhead] at hnext
          refine hnew'.opens (hopens segment' (by simp)) next ?_
          rw [hhead]
          simpa using hnext

end Segment

/-! ### From chains to documents -/

/-- The lines of a block are those of its header, of its text and of its separator. -/
theorem Block.Sound.lines_raw {block : Block} (h : block.Sound comment) :
    Text.lines block.raw =
      Text.lines block.headerText ++ (Text.lines block.text ++ Text.lines block.separator) := by
  have htext : Text.lines (block.headerText ++ block.text) =
      Text.lines block.headerText ++ Text.lines block.text := by
    by_cases hnil : block.text = []
    · rw [hnil, List.append_nil, Text.lines, List.append_nil]
    · exact Text.lines_append (h.complete hnil) _
  rcases h.separator with hsep | ⟨-, -, hcomplete⟩
  · rw [raw, hsep, List.append_nil, htext, Text.lines, List.append_nil]
  · rw [raw, Text.lines_append hcomplete, htext, List.append_assoc]

/-- No directive begins in a block. -/
theorem Block.Sound.unmarked {block : Block} (h : block.Sound comment) :
    ∀ line ∈ Text.lines block.raw, Directive.Unmarked line := by
  intro line hline
  rw [h.lines_raw, List.mem_append, List.mem_append] at hline
  -- the header, a line of the text, or the separator, which is blank and so has no brace
  rcases hline with hline | hline | hline
  · cases hheader : block.header with
    | none =>
      rw [Block.headerText, hheader] at hline
      cases hline
    | some header =>
      obtain ⟨hisLine, hkind, -⟩ := h.header header hheader
      rw [Block.headerText, hheader, Option.getD_some, Text.lines_of_isLine hisLine,
        List.mem_singleton] at hline
      rw [hline]
      exact (LineKind.is_header_iff.1 hkind).2.1
  · exact (LineKind.is_prose_iff.1 (h.text line hline)).2.1
  · rcases h.separator with hsep | ⟨hisLine, hblank, -⟩
    · rw [hsep] at hline
      cases hline
    · rw [Text.lines_of_isLine hisLine, List.mem_singleton] at hline
      refine Directive.unmarked_of_not_mem fun hbrace => ?_
      rw [hline] at hbrace
      exact absurd (List.all_eq_true.1 hblank '{' hbrace) (by decide)

namespace Segment

/-- The segment that an open block is if nothing more comes to it. An empty one is no segment. -/
def pending (current : Block) : List Segment :=
  if current.isEmpty then [] else [block (current.close [])]

theorem flushing_unnumbered (current : Block) (n : Nat) :
    (flushing current n).map unnumbered = (pending current).map unnumbered := by
  unfold flushing pending
  split
  · rfl
  · unfold closing Block.beginAt
    split <;> rfl

theorem pending_empty : pending .empty = [] := rfl

end Segment

/-- There is a spec in every header that is read, since there is a token in it. -/
theorem FieldSpec.isBlank_of_ofHeader {inner : Text} (h : ofHeader n inner = .ok []) :
    Text.isBlank inner = true := by
  unfold ofHeader at h
  induction inner with
  | nil => rfl
  | cons c inner ih =>
    rw [scanHeader] at h
    -- white space is passed over; anything else is a spec or an error
    split at h
    · rename_i hc
      rw [Text.isBlank, List.all_cons, hc, Bool.true_and]
      exact ih h
    · split at h
      · cases h
      · -- a spec that is read is one of the specs
        cases hl : scanHeader n (inner.length - (List.length _)) inner with
        | error e =>
          rw [hl] at h
          cases h
        | ok later =>
          rw [hl] at h
          cases h

theorem Block.Formed.specs_ne_nil {block : Block} (h : block.Formed comment)
    (hheader : block.header ≠ none) : block.specs ≠ [] := by
  obtain ⟨line, hline⟩ := Option.ne_none_iff_exists'.1 hheader
  obtain ⟨-, hkind, inner, hstrip, hspecs⟩ := h.header line hline
  intro hnil
  rw [hnil] at hspecs
  have hblank := FieldSpec.isBlank_of_ofHeader hspecs
  have hisHeader := (LineKind.is_header_iff.1 hkind).2.2
  rw [Comment.isHeader, hstrip] at hisHeader
  simp only [Bool.and_eq_true, Text.has_iff] at hisHeader
  have hmem : '{' ∈ inner := hisHeader.1.subset (by decide)
  have hspace := List.all_eq_true.1 hblank '{' hmem
  exact absurd hspace (by decide)

theorem Block.formed_empty : Block.Formed comment .empty :=
  ⟨by simp [Block.empty], fun _ => rfl, by simp [Block.empty, Text.lines], by simp [Block.empty]⟩

theorem Block.Formed.isEmpty_iff {block : Block} (h : block.Formed comment) :
    block.isEmpty = true ↔ block.header = none ∧ block.text = [] := by
  rw [Block.isEmpty, Bool.and_eq_true, decide_eq_true_eq, decide_eq_true_eq]
  constructor
  · rintro ⟨hspecs, htext⟩
    refine ⟨?_, htext⟩
    by_contra hheader
    exact h.specs_ne_nil hheader hspecs
  · rintro ⟨hheader, htext⟩
    exact ⟨h.noHeader hheader, htext⟩

theorem Block.beginAt_eq (block : Block) (n : Nat) :
    ∃ line, block.beginAt n = { block with line } := by
  unfold beginAt
  split
  · exact ⟨n, rfl⟩
  · exact ⟨block.line, rfl⟩

/-- The open block keeps all that came to it when it is closed. -/
theorem Segment.raw_closing {current : Block} (h : current.separator = []) (n : Nat)
    (separator : Text) : (closing current n separator).raw = current.raw ++ separator := by
  obtain ⟨line, hbegin⟩ := current.beginAt_eq n
  rw [closing, hbegin, Block.raw, h, List.append_nil]
  rfl

namespace Segmentation

open Segment

/-- A line that closes some segments puts them before those of the later lines. -/
theorem ofLines_cons_of_feed {ls : List Text} {current next : Block} {closed : List Segment}
    (h : feed comment n current raw = .ok (closed, next)) :
    ofLines comment n current (raw :: ls) =
      ⟨closed ++ (ofLines comment (n + 1) next ls).segments,
        (ofLines comment (n + 1) next ls).failure⟩ := by
  rw [ofLines, h]

/-- Lines of prose come to the text of the open block. -/
theorem ofLines_prose {ls : List Text} (h : ∀ line ∈ ls, LineKind.Is comment line .prose)
    (n : Nat) {current : Block} (hc : current.closed = false) (rest : List Text) :
    ∃ k line, ofLines comment n current (ls ++ rest) =
      ofLines comment k { current with text := current.text ++ ls.flatten, line } rest := by
  induction ls generalizing n current with
  | nil => exact ⟨n, current.line, by simp⟩
  | cons raw ls ih =>
    have hraw := h raw (List.mem_cons_self ..) n
    -- one line changes the text of the open block, and the number of its line
    have hstep : ∃ line, feed comment n current raw =
        .ok ([], { current with text := current.text ++ raw, line }) := by
      obtain ⟨line, hbegin⟩ := current.beginAt_eq n
      refine ⟨line, ?_⟩
      rw [feed, hraw, hbegin]
      simp only [bind, Except.bind, Block.append, hc]
      rfl
    obtain ⟨line, hstep⟩ := hstep
    have hnext : Block.closed { current with text := current.text ++ raw, line } = false := hc
    obtain ⟨k, line', hlater⟩ := ih (fun l hl => h l (List.mem_cons_of_mem raw hl)) (n + 1) hnext
    refine ⟨k, line', ?_⟩
    rw [List.cons_append, ofLines_cons_of_feed hstep, hlater, List.nil_append]
    simp

/-- The text and the separator of a block, with its header read already, close the block and
leave what follows it. -/
theorem ofLines_text_separator {b : Block} (hb : b.Sound comment) {segments : List Segment}
    {rest : List Text} (n l : Nat)
    (hrest : ∀ k current, current.closed = false →
      (current = .empty ∨ b.separator = []) →
      ∃ result, ofLines comment k current rest = ⟨result, none⟩ ∧
        result.map unnumbered = (pending current ++ segments).map unnumbered) :
    ∃ result, ofLines comment n ⟨b.header, b.specs, [], [], l, false⟩
        (Text.lines b.text ++ (Text.lines b.separator ++ rest)) = ⟨result, none⟩ ∧
      result.map unnumbered = (block b :: segments).map unnumbered := by
  have hcurrent : Block.closed ⟨b.header, b.specs, [], [], l, false⟩ = false := rfl
  obtain ⟨k, line, hprose⟩ := ofLines_prose hb.text n hcurrent (Text.lines b.separator ++ rest)
  rw [hprose]
  simp only [List.nil_append, Text.flatten_lines]
  rcases hb.separator with hsep | ⟨hline, hblank, -⟩
  · rw [hsep]
    obtain ⟨result, hresult, hmap⟩ :=
      hrest k ⟨b.header, b.specs, b.text, [], line, false⟩ rfl (.inr hsep)
    refine ⟨result, hresult, ?_⟩
    -- without a separator the block is still open and goes to what comes next
    have hne : (⟨b.header, b.specs, b.text, [], line, false⟩ : Block).isEmpty = false := by
      have hformed : Block.Formed comment ⟨b.header, b.specs, b.text, [], line, false⟩ :=
        ⟨hb.header, hb.noHeader, hb.text, hb.complete⟩
      rw [← Bool.not_eq_true, hformed.isEmpty_iff]
      rintro ⟨hheader, htext⟩
      exact hb.raw_ne_nil (by simp_all [Block.raw, Block.headerText])
    rw [hmap, pending, hne]
    simp [unnumbered, Block.unnumbered, Block.close, hsep, hb.closed]
  · obtain ⟨result, hresult, hmap⟩ := hrest (k + 1) .empty rfl (.inl rfl)
    -- the separator closes the block, and what comes next begins with no block open
    have hfeed : feed comment k ⟨b.header, b.specs, b.text, [], line, false⟩ b.separator =
        .ok ([closing ⟨b.header, b.specs, b.text, [], line, false⟩ k b.separator], .empty) := by
      rw [feed, LineKind.is_blank_iff.2 hblank k]
      rfl
    rw [Text.lines_of_isLine hline, List.singleton_append, ofLines_cons_of_feed hfeed, hresult]
    refine ⟨_, rfl, ?_⟩
    obtain ⟨line', hbegin⟩ :=
      Block.beginAt_eq ⟨b.header, b.specs, b.text, [], line, false⟩ k
    rw [List.map_append, hmap, pending_empty, closing, hbegin]
    simp [unnumbered, Block.unnumbered, Block.close, hb.closed]

/-- The lines of a block close the open one, if its first line is a header, and are cut into the
block. -/
theorem ofLines_block {b : Block} (hb : b.Sound comment) {segments : List Segment}
    {rest : List Text} (n : Nat) {current : Block}
    (hopen : current = .empty ∨ b.header.isSome = true)
    (hrest : ∀ k current, current.closed = false →
      (current = .empty ∨ b.separator = []) →
      ∃ result, ofLines comment k current rest = ⟨result, none⟩ ∧
        result.map unnumbered = (pending current ++ segments).map unnumbered) :
    ∃ result, ofLines comment n current (Text.lines b.raw ++ rest) = ⟨result, none⟩ ∧
      result.map unnumbered = (pending current ++ block b :: segments).map unnumbered := by
  cases hheader : b.header with
  | none =>
    -- a block without a header does not end the open block, so there is none
    have hempty : current = .empty := by
      refine hopen.resolve_right fun hsome => ?_
      rw [hheader] at hsome
      cases hsome
    obtain ⟨result, hresult, hmap⟩ := ofLines_text_separator hb n 0 hrest
    refine ⟨result, ?_, by rw [hmap, hempty, pending_empty, List.nil_append]⟩
    have hlines : Text.lines b.raw = Text.lines b.text ++ Text.lines b.separator := by
      rw [hb.lines_raw, Block.headerText, hheader]
      rfl
    rw [hlines, hempty, List.append_assoc, ← hresult, hheader, hb.noHeader hheader]
    rfl
  | some h =>
    obtain ⟨hline, hkind, inner, hstrip, hspecs⟩ := hb.header h hheader
    obtain ⟨later, hlater, hmap⟩ := ofLines_text_separator hb (n + 1) n hrest
    have hlines : Text.lines b.raw = h :: (Text.lines b.text ++ Text.lines b.separator) := by
      rw [hb.lines_raw, Block.headerText, hheader, Option.getD_some, Text.lines_of_isLine hline]
      rfl
    have hfeed : feed comment n current h = .ok (flushing current n,
        ⟨b.header, b.specs, [], [], n, false⟩) := by
      rw [feed, hkind n]
      simp only [bind, Except.bind, Block.ofHeader, hstrip,
        FieldSpec.ofHeader_ok_of_ok hspecs (k := n), Except.map, hheader]
      rfl
    rw [hlines, List.cons_append, ofLines_cons_of_feed hfeed, List.append_assoc, hlater]
    refine ⟨_, rfl, ?_⟩
    rw [List.map_append, hmap, flushing_unnumbered, List.map_append]

/-- The lines of a chain close the open block and are cut into the chain. -/
theorem ofLines_of_chain {segments : List Segment} (h : Chain comment segments) (n : Nat)
    {current : Block} (hc : current.closed = false)
    (hopen : current = .empty ∨ ∀ next ∈ segments.head?, next.Opens) :
    ∃ result, ofLines comment n current (Text.lines (segments.flatMap Segment.raw)) =
        ⟨result, none⟩ ∧
      result.map unnumbered = (pending current ++ segments).map unnumbered := by
  induction h generalizing n current with
  | nil =>
    exact ⟨flushing current n, rfl, by rw [flushing_unnumbered, List.append_nil]⟩
  | @cons segment segments sound complete opens rest ih =>
    -- the lines of the first segment come first, since it is complete if anything follows
    have hlines : Text.lines ((segment :: segments).flatMap Segment.raw) =
        Text.lines segment.raw ++ Text.lines (segments.flatMap Segment.raw) := by
      rw [List.flatMap_cons]
      by_cases hnil : segments = []
      · rw [hnil, List.flatMap_nil, List.append_nil, Text.lines, List.append_nil]
      · exact Text.lines_append (complete hnil) _
    rw [hlines]
    cases segment with
    | directive found raw l =>
      -- a directive closes the open block, and no block is open after it
      obtain ⟨later, hlater, hmap⟩ := ih (n + 1) rfl (.inl rfl)
      have hkind := sound.2 n
      have hraw : Text.lines (directive found raw l).raw = [raw] := Text.lines_of_isLine sound.1
      have hfeed : feed comment n current raw =
          .ok (flushing current n ++ [directive found raw n], .empty) := by
        rw [feed, hkind]
        rfl
      rw [hraw, List.singleton_append, ofLines_cons_of_feed hfeed, hlater]
      refine ⟨_, rfl, ?_⟩
      rw [List.map_append, List.map_append, flushing_unnumbered, hmap, pending_empty]
      simp [unnumbered]
    | block b =>
      -- after a block without a separator comes a line of markup, which ends it
      exact ofLines_block sound n (hopen.imp_right fun h => h (block b) (by simp))
        fun k current hclosed hstate => ih k hclosed (hstate.imp_right opens)

/-- **The texts of a chain put together are cut into the chain.** -/
theorem ofText_of_chain {segments : List Segment} (h : Chain comment segments) :
    ∃ result, ofText comment (segments.flatMap Segment.raw) = ⟨result, none⟩ ∧
      result.map unnumbered = segments.map unnumbered :=
  ofLines_of_chain h 1 rfl (.inl rfl)

/-- A text is cut into one chain only. -/
theorem unnumbered_eq_of_chain {segments others : List Segment} (h : Chain comment segments)
    (ho : Chain comment others) (hraw : segments.flatMap Segment.raw = others.flatMap Segment.raw) :
    segments.map unnumbered = others.map unnumbered := by
  obtain ⟨result, hresult, hmap⟩ := ofText_of_chain h
  obtain ⟨other, hother, hmap'⟩ := ofText_of_chain ho
  rw [hraw, hother] at hresult
  cases hresult
  exact hmap.symm.trans hmap'

/-! ### From documents to chains -/

/-- What one more line can do to the open block. This is the inversion of a step of the segmenter:
one case for each kind of a line, and all that the step does in it. -/
theorem feed_cases {current next : Block} {closed : List Segment} (hc : current.closed = false)
    (h : feed comment n current raw = .ok (closed, next)) :
    (Text.isBlank raw = true ∧ closed = [closing current n raw] ∧ next = .empty) ∨
    (∃ found, LineKind.Is comment raw (.directive found) ∧
      closed = flushing current n ++ [directive found raw n] ∧ next = .empty) ∨
    (∃ inner specs, LineKind.Is comment raw .header ∧ comment.strip? raw = some inner ∧
      FieldSpec.ofHeader 0 inner = .ok specs ∧ closed = flushing current n ∧
      next = ⟨some raw, specs, [], [], n, false⟩) ∨
    (LineKind.Is comment raw .prose ∧ closed = [] ∧
      next = { current with text := current.text ++ raw, line := (current.beginAt n).line }) := by
  rw [feed] at h
  -- The kind of the line decides, and a line without one is an error. Only the number of the line
  -- is lost on the way, since neither the kind nor the specs depend on it.
  cases hkind : LineKind.ofLine comment n raw with
  | error e =>
    rw [hkind] at h
    cases h
  | ok kind =>
    have his := LineKind.is_of_ofLine hkind
    rw [hkind] at h
    simp only [bind, Except.bind, pure, Except.pure] at h
    cases kind with
    | blank =>
      cases h
      exact .inl ⟨LineKind.is_blank_iff.1 his, rfl, rfl⟩
    | directive found =>
      cases h
      exact .inr (.inl ⟨found, his, rfl, rfl⟩)
    | header =>
      refine .inr (.inr (.inl ?_))
      -- a header has a frame, and specs in it that can be read, or the step had failed
      unfold Block.ofHeader at h
      cases hstrip : comment.strip? raw with
      | none =>
        rw [hstrip] at h
        cases h
      | some inner =>
        simp only [hstrip] at h
        cases hspecs : FieldSpec.ofHeader n inner with
        | error e =>
          rw [hspecs] at h
          cases h
        | ok specs =>
          rw [hspecs] at h
          cases h
          exact ⟨inner, specs, his, rfl, FieldSpec.ofHeader_ok_of_ok hspecs, rfl, rfl⟩
    | prose =>
      -- the open block takes prose as long as it is open, and it is
      obtain ⟨line, hbegin⟩ := current.beginAt_eq n
      rw [hbegin] at h ⊢
      simp only [Block.append, hc] at h
      cases h
      exact .inr (.inr (.inr ⟨his, rfl, by rw [hc]⟩))

/-- An open block that something ends is sound, and keeps all that came to it. -/
theorem sound_closing {current : Block} (hformed : current.Formed comment)
    (hsep : current.separator = []) (n : Nat) {separator : Text}
    (h : separator = [] ∨ Text.IsLine separator ∧ Text.isBlank separator = true ∧
      Text.Complete (current.headerText ++ current.text))
    (hne : current.raw ++ separator ≠ []) :
    (closing current n separator).Sound comment ∧
      (closing current n separator).raw = current.raw ++ separator ∧
      (current.header ≠ none → (closing current n separator).Opens) := by
  obtain ⟨line, hbegin⟩ := current.beginAt_eq n
  have hraw := raw_closing hsep n separator
  refine ⟨?_, hraw, ?_⟩
  · rw [← hraw] at hne
    rw [closing, hbegin] at hne ⊢
    exact ⟨⟨hformed.header, hformed.noHeader, hformed.text, hformed.complete⟩, rfl, h, hne⟩
  · intro hheader
    rw [closing, hbegin]
    exact Option.isSome_iff_ne_none.2 hheader

/-- The block that a header begins is formed. -/
theorem formed_header {inner : Text} {specs : List FieldSpec} (hline : Text.IsLine raw)
    (hheader : LineKind.Is comment raw .header) (hstrip : comment.strip? raw = some inner)
    (hspecs : FieldSpec.ofHeader 0 inner = .ok specs) :
    Block.Formed comment ⟨some raw, specs, [], [], n, false⟩ := by
  refine ⟨?_, by simp, by simp [Text.lines], by simp⟩
  rintro h ⟨⟩
  exact ⟨hline, hheader, inner, hstrip, hspecs⟩

/-- What comes to the text of an open block comes to its end. -/
theorem raw_grown {current : Block} (hsep : current.separator = []) (more : Text) (line : Nat) :
    Block.raw { current with text := current.text ++ more, line } = current.raw ++ more := by
  simp [Block.raw, Block.headerText, hsep]

/-- A block that a line of prose comes to stays formed. -/
theorem formed_prose {current : Block} (hformed : current.Formed comment)
    (hopen : Text.Complete (current.headerText ++ current.text)) (hline : Text.IsLine raw)
    (hprose : LineKind.Is comment raw .prose) (line : Nat) :
    Block.Formed comment { current with text := current.text ++ raw, line } := by
  refine ⟨hformed.header, hformed.noHeader, ?_, ?_⟩
  · intro l hl
    show LineKind.Is comment l .prose
    rw [Text.lines_append hopen.of_append, Text.lines_of_isLine hline] at hl
    rcases List.mem_append.1 hl with hl | hl
    · exact hformed.text l hl
    · rw [List.mem_singleton.1 hl]
      exact hprose
  · intro _
    by_cases hnil : current.text = []
    · rwa [hnil, List.append_nil] at hopen
    · exact hformed.complete hnil

/-- Segments that an open block and what comes after it are cut into. The open block is the
beginning of the first one, so a header in it begins that one. -/
structure CutFrom (comment : Comment) (current : Block) (later : Text)
    (segments : List Segment) : Prop where
  chain : Chain comment segments
  raw : segments.flatMap Segment.raw = current.raw ++ later
  opens : current.header ≠ none → ∀ next ∈ segments.head?, next.Opens

/-- A blank line ends the open block and is its separator. -/
theorem cutFrom_blank {current : Block} (hformed : current.Formed comment)
    (hsep : current.separator = []) (hcomplete : Text.Complete current.raw) (n : Nat)
    (hline : Text.IsLine raw) (hblank : Text.isBlank raw = true) {later : Text}
    {segments : List Segment} (hlater : CutFrom comment .empty later segments)
    (hraw : segments ≠ [] → Text.Complete raw) :
    CutFrom comment current (raw ++ later) (closing current n raw :: segments) := by
  have hopen : Text.Complete (current.headerText ++ current.text) := by
    rwa [Block.raw, hsep, List.append_nil] at hcomplete
  obtain ⟨hsound, hclosing, hopens⟩ := sound_closing hformed hsep n
    (.inr ⟨hline, hblank, hopen⟩) (List.append_ne_nil_of_right_ne_nil _ hline.1)
  refine ⟨.cons hsound ?_ (fun hunseparated => absurd hunseparated hline.1) hlater.chain, ?_, ?_⟩
  · intro hne
    rw [hclosing]
    exact hcomplete.append (hraw hne)
  · rw [List.flatMap_cons, hclosing, hlater.raw, List.append_assoc]
    rfl
  · intro hheader next hnext
    cases hnext
    exact hopens hheader

/-- The open block goes before segments that begin with a line of markup. -/
theorem cutFrom_flushing {current : Block} (hformed : current.Formed comment)
    (hsep : current.separator = []) (n : Nat) {segments : List Segment}
    (hchain : Chain comment segments) (hcomplete : segments ≠ [] → Text.Complete current.raw)
    (hopens : ∀ next ∈ segments.head?, next.Opens) :
    CutFrom comment current (segments.flatMap Segment.raw) (flushing current n ++ segments) := by
  unfold flushing
  split
  -- an empty block gives no segment, and has no text that could be lost
  · rename_i hempty
    obtain ⟨hheader, htext⟩ := hformed.isEmpty_iff.1 hempty
    have hraw : current.raw = [] := by simp [Block.raw, Block.headerText, hheader, htext, hsep]
    exact ⟨hchain, by rw [hraw]; rfl, fun h => absurd hheader h⟩
  -- any other one is closed without a separator, before a line of markup
  · rename_i hne
    have hrawNe : current.raw ++ [] ≠ [] := by
      intro hnil
      rw [List.append_nil, Block.raw, hsep, List.append_nil, List.append_eq_nil_iff] at hnil
      refine hne (hformed.isEmpty_iff.2 ⟨?_, hnil.2⟩)
      rw [Option.eq_none_iff_forall_ne_some]
      intro h hheader
      rw [Block.headerText, hheader] at hnil
      exact (hformed.header h hheader).1.1 hnil.1
    obtain ⟨hsound, hraw, hopensCurrent⟩ := sound_closing hformed hsep n (.inl rfl) hrawNe
    rw [List.append_nil] at hraw
    refine ⟨.cons hsound ?_ (fun _ => hopens) hchain, ?_, ?_⟩
    · rwa [hraw]
    · rw [List.singleton_append, List.flatMap_cons, hraw]
    · intro hheader next hnext
      cases hnext
      exact hopensCurrent hheader

/-- A directive ends the open block. -/
theorem cutFrom_directive {current : Block} (hformed : current.Formed comment)
    (hsep : current.separator = []) (hcomplete : Text.Complete current.raw) (n : Nat)
    (hline : Text.IsLine raw) {found : Directive}
    (hfound : LineKind.Is comment raw (.directive found)) {later : Text}
    {segments : List Segment} (hlater : CutFrom comment .empty later segments)
    (hraw : segments ≠ [] → Text.Complete raw) :
    CutFrom comment current (raw ++ later)
      (flushing current n ++ [directive found raw n] ++ segments) := by
  have hdirective : Chain comment (directive found raw n :: segments) :=
    .cons ⟨hline, hfound⟩ hraw (fun h => h.elim) hlater.chain
  have hflush := cutFrom_flushing hformed hsep n hdirective (fun _ => hcomplete) (by simp [Opens])
  rw [List.flatMap_cons, hlater.raw] at hflush
  rw [List.append_assoc, List.singleton_append]
  exact hflush

/-- A header ends the open block and opens one of its own. -/
theorem cutFrom_header {current opened : Block} (hformed : current.Formed comment)
    (hsep : current.separator = []) (hcomplete : Text.Complete current.raw) (n : Nat)
    (hheader : opened.header ≠ none) {later : Text} {segments : List Segment}
    (hlater : CutFrom comment opened later segments) :
    CutFrom comment current (opened.raw ++ later) (flushing current n ++ segments) := by
  have hflush := cutFrom_flushing hformed hsep n hlater.chain (fun _ => hcomplete)
    (hlater.opens hheader)
  rwa [hlater.raw] at hflush

/-- A line of prose goes to the open block. -/
theorem cutFrom_prose {current grown : Block} (hgrown : grown.raw = current.raw ++ raw)
    (hheader : grown.header = current.header) {later : Text} {segments : List Segment}
    (hlater : CutFrom comment grown later segments) :
    CutFrom comment current (raw ++ later) segments :=
  ⟨hlater.chain, by rw [hlater.raw, hgrown, List.append_assoc], hheader ▸ hlater.opens⟩

/-- Lines that are cut to their end are cut into a chain, of which the open block is the
beginning. -/
theorem cutFrom_of_ofLines {ls : List Text} (n : Nat) {current : Block} {segments : List Segment}
    (hformed : current.Formed comment) (hsep : current.separator = [])
    (hclosed : current.closed = false) (hcomplete : ls ≠ [] → Text.Complete current.raw)
    (hls : Text.lines ls.flatten = ls)
    (h : ofLines comment n current ls = ⟨segments, none⟩) :
    CutFrom comment current ls.flatten segments := by
  induction ls generalizing n current segments with
  | nil =>
    cases h
    have hflush := cutFrom_flushing hformed hsep n .nil (by simp) (by simp)
    rwa [List.append_nil] at hflush
  | cons raw ls ih =>
    obtain ⟨hline, hrawComplete, hlater⟩ := Text.eq_of_lines_eq_cons hls
    have hcur : Text.Complete current.raw := hcomplete (by simp)
    cases hfeed : feed comment n current raw with
    | error e =>
      rw [ofLines, hfeed] at h
      cases h
    | ok result =>
      obtain ⟨closed, next⟩ := result
      rw [ofLines_cons_of_feed hfeed, Segmentation.mk.injEq] at h
      obtain ⟨hsegments, hfailure⟩ := h
      have hofLines : ofLines comment (n + 1) next ls =
          ⟨(ofLines comment (n + 1) next ls).segments, none⟩ := by
        rw [← hfailure]
      -- there is nothing after the line unless the line is complete
      have hraw (hempty : next = .empty) :
          (ofLines comment (n + 1) next ls).segments ≠ [] → Text.Complete raw := by
        intro hne
        refine hrawComplete ?_
        rintro rfl
        rw [hempty] at hne
        exact hne rfl
      rw [← hsegments, List.flatten_cons]
      rcases feed_cases hclosed hfeed with ⟨hblank, rfl, rfl⟩ | ⟨found, hfound, rfl, rfl⟩ |
        ⟨inner, specs, hheader, hstrip, hspecs, rfl, rfl⟩ | ⟨hprose, rfl, rfl⟩
      · have hempty := ih (n + 1) Block.formed_empty rfl rfl (fun _ => Text.complete_nil) hlater
          hofLines
        exact cutFrom_blank hformed hsep hcur n hline hblank hempty (hraw rfl)
      · have hempty := ih (n + 1) Block.formed_empty rfl rfl (fun _ => Text.complete_nil) hlater
          hofLines
        exact cutFrom_directive hformed hsep hcur n hline hfound hempty (hraw rfl)
      · have hnewRaw : Block.raw ⟨some raw, specs, [], [], n, false⟩ = raw := by
          simp [Block.raw, Block.headerText]
        have hnew := ih (n + 1) (formed_header hline hheader hstrip hspecs) rfl rfl
          (fun hne => by rw [hnewRaw]; exact hrawComplete hne) hlater hofLines
        have hcut := cutFrom_header hformed hsep hcur n (by simp) hnew
        rwa [hnewRaw] at hcut
      · have hopen : Text.Complete (current.headerText ++ current.text) := by
          rwa [Block.raw, hsep, List.append_nil] at hcur
        have hnewRaw := raw_grown hsep raw (current.beginAt n).line
        have hnew := ih (n + 1) (formed_prose hformed hopen hline hprose _) hsep hclosed
          (fun hne => by rw [hnewRaw]; exact hcur.append (hrawComplete hne)) hlater hofLines
        exact cutFrom_prose hnewRaw rfl hnew

/-- **A document that is cut to its end is cut into a chain, and nothing of it is lost.** -/
theorem chain_of_ofText {document : Text} {segments : List Segment}
    (h : ofText comment document = ⟨segments, none⟩) :
    Chain comment segments ∧ segments.flatMap Segment.raw = document := by
  have hlines : Text.lines (Text.lines document).flatten = Text.lines document := by
    rw [Text.flatten_lines]
  have hcut := cutFrom_of_ofLines 1 Block.formed_empty rfl rfl (fun _ => Text.complete_nil)
    hlines h
  refine ⟨hcut.chain, ?_⟩
  rw [hcut.raw, Text.flatten_lines]
  rfl

end Segmentation

end FieldedText
