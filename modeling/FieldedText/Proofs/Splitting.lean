/-
FieldedText/Proofs/Splitting.lean

Where a document may be taken apart between its segments.

A blank line is the last one of its block, and a directive has a segment to itself.
So a text that is cut behind such a line is cut between two segments, and nothing
that is put there comes to the block before (`Chain.exists_split`).  A block that is
put there, with a blank line behind it, moves no other boundary (`chain_insert`), nor
does it change the settings (`ofText_insert`).
-/
import FieldedText.Proofs.Settings

namespace FieldedText

variable {comment : Comment} {line : Text}

theorem LineKind.Is.unique {kind other : LineKind} (h : Is comment line kind)
    (ho : Is comment line other) : kind = other :=
  Except.ok.inj ((h 0).symm.trans (ho 0))

/-- A line behind which a document may be taken apart. Behind any other line a block may be open,
and what is put there would come to it. -/
def LineKind.Ends (comment : Comment) (line : Text) : Prop :=
  Is comment line .blank ∨ ∃ found, Is comment line (.directive found)

theorem LineKind.Ends.not_header (h : Ends comment line) : ¬ Is comment line .header := by
  rintro hheader
  obtain hblank | ⟨found, hfound⟩ := h
  · cases hheader.unique hblank
  · cases hheader.unique hfound

theorem LineKind.Ends.not_prose (h : Ends comment line) : ¬ Is comment line .prose := by
  rintro hprose
  obtain hblank | ⟨found, hfound⟩ := h
  · cases hprose.unique hblank
  · cases hprose.unique hfound

instance (comment : Comment) (line : Text) : Decidable (LineKind.Ends comment line) :=
  match h : LineKind.ofLine comment 0 line with
  | .ok .blank => isTrue (.inl (LineKind.is_of_ofLine h))
  | .ok (.directive found) => isTrue (.inr ⟨found, LineKind.is_of_ofLine h⟩)
  | .ok .header => isFalse fun hends => hends.not_header (LineKind.is_of_ofLine h)
  | .ok .prose => isFalse fun hends => hends.not_prose (LineKind.is_of_ofLine h)
  | .error _ => isFalse fun hends => hends.elim (fun hblank => nomatch h.symm.trans (hblank 0))
      fun ⟨_, hfound⟩ => nomatch h.symm.trans (hfound 0)

/-! ### Lines of a segment -/

/-- The lines of a block before its separator are a header and prose. -/
theorem Block.Sound.kind_of_mem {block : Block} (h : block.Sound comment)
    (hline : line ∈ Text.lines block.headerText ++ Text.lines block.text) :
    LineKind.Is comment line .header ∨ LineKind.Is comment line .prose := by
  rcases List.mem_append.1 hline with hline | hline
  · cases hheader : block.header with
    | none =>
      rw [Block.headerText, hheader] at hline
      cases hline
    | some header =>
      obtain ⟨hisLine, hkind, -⟩ := h.header header hheader
      rw [Block.headerText, hheader, Option.getD_some, Text.lines_of_isLine hisLine,
        List.mem_singleton] at hline
      rw [hline]
      exact .inl hkind
  · exact .inr (h.text line hline)

/-- The separator of a block is a blank line. -/
theorem Block.Sound.blank_of_mem {block : Block} (h : block.Sound comment)
    (hline : line ∈ Text.lines block.separator) : LineKind.Is comment line .blank := by
  rcases h.separator with hsep | ⟨hisLine, hblank, -⟩
  · rw [hsep] at hline
    cases hline
  · rw [Text.lines_of_isLine hisLine, List.mem_singleton] at hline
    rw [hline]
    exact LineKind.is_blank_iff.2 hblank

namespace Segment

variable {segment : Segment} {segments before after : List Segment} {a b : Text}

/-- A blank line or a directive is the last line of its segment. -/
theorem Sound.eq_nil_of_ends (h : segment.Sound comment) {pre post : List Text}
    (hlines : Text.lines segment.raw = pre ++ line :: post) (hends : LineKind.Ends comment line) :
    post = [] := by
  by_contra hpost
  -- the line is not the last one, so it comes before the separator
  have hmem : line ∈ (Text.lines segment.raw).dropLast := by
    rw [hlines, List.dropLast_append_of_ne_nil (by simp), List.dropLast_cons_of_ne_nil hpost]
    simp
  cases segment with
  | directive found directiveLine n =>
    have hsound : Text.IsLine directiveLine ∧ _ := h
    rw [Segment.raw, Text.lines_of_isLine hsound.1] at hmem
    cases hmem
  | block b =>
    have hb : b.Sound comment := h
    have hbefore : line ∈ Text.lines b.headerText ++ Text.lines b.text := by
      rw [Segment.raw, hb.lines_raw, ← List.append_assoc] at hmem
      -- without a separator all lines are before it, and else all but the last one
      rcases hb.separator with hsep | ⟨hisLine, -, -⟩
      · rw [hsep, Text.lines, List.append_nil] at hmem
        exact List.dropLast_subset _ hmem
      · rw [Text.lines_of_isLine hisLine, List.dropLast_concat] at hmem
        exact hmem
    rcases hb.kind_of_mem hbefore with hheader | hprose
    · exact hends.not_header hheader
    · exact hends.not_prose hprose

/-- A block of which the last line is blank has that line as its separator. -/
theorem Sound.separated_of_ends (h : segment.Sound comment)
    (hlast : line ∈ (Text.lines segment.raw).getLast?) (hends : LineKind.Ends comment line) :
    ¬ segment.Unseparated := by
  cases segment with
  | directive found directiveLine n => exact id
  | block b =>
    have hb : b.Sound comment := h
    intro hsep
    have hseparator : b.separator = [] := hsep
    rw [Segment.raw, hb.lines_raw, hseparator, Text.lines, List.append_nil] at hlast
    rcases hb.kind_of_mem (List.mem_of_getLast? hlast) with hheader | hprose
    · exact hends.not_header hheader
    · exact hends.not_prose hprose

/-- A segment of which the first line is a header is a block under that header. -/
theorem Sound.header_of_head (h : segment.Sound comment)
    (hhead : (Text.lines segment.raw).head? = some line)
    (hheader : LineKind.Is comment line .header) :
    ∃ b, segment = .block b ∧ b.header = some line := by
  cases segment with
  | directive found directiveLine n =>
    have hsound : Text.IsLine directiveLine ∧ LineKind.Is comment directiveLine _ := h
    rw [Segment.raw, Text.lines_of_isLine hsound.1] at hhead
    cases hhead
    cases hheader.unique hsound.2
  | block b =>
    have hb : b.Sound comment := h
    refine ⟨b, rfl, ?_⟩
    rw [Segment.raw, hb.lines_raw] at hhead
    -- under a header the first line is that header
    cases hsome : b.header with
    | some header =>
      rw [Block.headerText, hsome, Option.getD_some,
        Text.lines_of_isLine (hb.header header hsome).1] at hhead
      exact hhead
    | none =>
      -- without a header the first line is prose, or blank if there is no text
      rw [Block.headerText, hsome, Option.getD_none, Text.lines, List.nil_append] at hhead
      rcases List.mem_append.1 (List.mem_of_head? hhead) with htext | hsep
      · cases hheader.unique (hb.text line htext)
      · cases hheader.unique (hb.blank_of_mem hsep)

/-! ### Chains taken apart -/

/-- Both parts of a chain are chains. -/
theorem Chain.of_append (h : Chain comment (before ++ after)) :
    Chain comment before ∧ Chain comment after := by
  induction before with
  | nil => exact ⟨.nil, h⟩
  | cons segment before ih =>
    rw [List.cons_append] at h
    cases h with
    | cons sound complete opens rest =>
      obtain ⟨hbefore, hafter⟩ := ih rest
      refine ⟨.cons sound (fun hne => complete (by simp [hne])) (fun hsep next hnext => ?_) hbefore,
        hafter⟩
      exact opens hsep next (List.mem_head?_append_of_mem_head? hnext)

/-- Lines that are cut behind a blank line or a directive are cut between two segments. -/
theorem exists_split_lines (h : ∀ segment ∈ segments, segment.Sound comment) {pre post : List Text}
    (hlines : (segments.flatMap fun segment => Text.lines segment.raw) = pre ++ post)
    (hends : ∀ line ∈ pre.getLast?, LineKind.Ends comment line) :
    ∃ before after, segments = before ++ after ∧
      (before.flatMap fun segment => Text.lines segment.raw) = pre ∧
      (after.flatMap fun segment => Text.lines segment.raw) = post := by
  induction segments generalizing pre with
  | nil =>
    obtain ⟨rfl, rfl⟩ := List.append_eq_nil_iff.1 hlines.symm
    exact ⟨[], [], rfl, rfl, rfl⟩
  | cons segment segments ih =>
    obtain ⟨hsegment, hsegments⟩ := List.forall_mem_cons.1 h
    obtain rfl | ⟨init, last, rfl⟩ := List.eq_nil_or_concat pre
    · exact ⟨[], segment :: segments, rfl, rfl, hlines⟩
    -- the first segment is whole: the last line of the lines cut off would be its last as well
    obtain ⟨more, hpre, hmore⟩ : ∃ more, init.concat last = Text.lines segment.raw ++ more ∧
        (segments.flatMap fun segment => Text.lines segment.raw) = more ++ post := by
      rw [List.flatMap_cons] at hlines
      rcases List.append_eq_append_iff.1 hlines with ⟨more, hpre, hmore⟩ | ⟨rest, hrest, hpost⟩
      · exact ⟨more, hpre, hmore⟩
      · rw [List.concat_eq_append, List.append_assoc, List.singleton_append] at hrest
        obtain rfl := hsegment.eq_nil_of_ends hrest (hends last (by simp))
        exact ⟨[], by simp [hrest], hpost.symm⟩
    have hlast : ∀ line ∈ more.getLast?, LineKind.Ends comment line := by
      intro line hline
      refine hends line ?_
      rw [hpre]
      exact List.mem_getLast?_append_of_mem_getLast? hline
    obtain ⟨before, after, rfl, rfl, hafter⟩ := ih hsegments hmore hlast
    exact ⟨segment :: before, after, rfl, hpre.symm, hafter⟩

/-- **A text that is cut behind a blank line or a directive is cut between two segments.** -/
theorem Chain.exists_split (h : Chain comment segments)
    (hraw : segments.flatMap Segment.raw = a ++ b) (ha : a.Complete)
    (hends : ∀ line ∈ (Text.lines a).getLast?, LineKind.Ends comment line) :
    ∃ before after, segments = before ++ after ∧ before.flatMap Segment.raw = a ∧
      after.flatMap Segment.raw = b := by
  have hlines : (segments.flatMap fun segment => Text.lines segment.raw) =
      Text.lines a ++ Text.lines b := by
    rw [← h.lines_raw, hraw, Text.lines_append ha]
  obtain ⟨before, after, rfl, hbefore, hafter⟩ := exists_split_lines h.sound hlines hends
  obtain ⟨hbeforeChain, hafterChain⟩ := h.of_append
  rw [← hbeforeChain.lines_raw] at hbefore
  rw [← hafterChain.lines_raw] at hafter
  refine ⟨before, after, rfl, ?_, ?_⟩
  · rw [← Text.flatten_lines (before.flatMap Segment.raw), hbefore, Text.flatten_lines]
  · rw [← Text.flatten_lines (after.flatMap Segment.raw), hafter, Text.flatten_lines]

/-- The segment before the cut is no block that the next line would come to. -/
theorem Chain.separated_of_ends (h : Chain comment before)
    (hends : ∀ line ∈ (Text.lines (before.flatMap Segment.raw)).getLast?,
      LineKind.Ends comment line)
    {last : Segment} (hlast : last ∈ before.getLast?) : ¬ last.Unseparated := by
  have hsound := h.sound last (List.mem_of_getLast? hlast)
  obtain ⟨line, hline⟩ := Option.ne_none_iff_exists'.1 fun hnone =>
    hsound.raw_ne_nil (Text.lines_eq_nil_iff.1 (List.getLast?_eq_none_iff.1 hnone))
  refine hsound.separated_of_ends hline (hends line ?_)
  obtain ⟨init, rfl⟩ := List.getLast?_eq_some_iff.1 hlast
  rw [h.lines_raw, List.flatMap_append, List.flatMap_singleton]
  exact List.mem_getLast?_append_of_mem_getLast? hline

/-! ### A block put between segments -/

/-- A complete block with a separator can stand between segments, where nothing more comes to the
one before. -/
theorem chain_insert {block : Block} (h : Chain comment (before ++ after))
    (hcomplete : Text.Complete (before.flatMap Segment.raw))
    (hseparated : ∀ last ∈ before.getLast?, ¬ last.Unseparated) (hsound : block.Sound comment)
    (hblock : block.raw.Complete) (hseparator : block.separator ≠ []) :
    Chain comment (before ++ .block block :: after) := by
  obtain ⟨hbefore, hafter⟩ := h.of_append
  refine hbefore.append (.cons hsound (fun _ => hblock) (fun h => absurd h hseparator) hafter) ?_
    fun last hlast hunseparated => absurd hunseparated (hseparated last hlast)
  intro _ last hlast
  obtain ⟨init, rfl⟩ := List.getLast?_eq_some_iff.1 hlast
  rw [List.flatMap_append, List.flatMap_singleton] at hcomplete
  exact hcomplete.of_append

end Segment

/-- **A document with a block put between its segments is cut into these and the block**, and its
settings stay. -/
theorem Segmentation.ofText_insert {settings scanned : Settings} {before after : List Segment}
    {block : Block} (hchain : Segment.Chain scanned.comment (before ++ after))
    (hnew : Segment.Chain scanned.comment (before ++ .block block :: after))
    (hscan : settings.scan ((before ++ after).flatMap Segment.raw) = .ok scanned) :
    ∃ result, ofText scanned.comment ((before ++ .block block :: after).flatMap Segment.raw) =
        ⟨result, none⟩ ∧
      result.map Segment.unnumbered =
        (before ++ .block block :: after).map Segment.unnumbered ∧
      settings.scan ((before ++ .block block :: after).flatMap Segment.raw) = .ok scanned := by
  obtain ⟨result, hresult, hmap⟩ := ofText_of_chain hnew
  refine ⟨result, hresult, hmap, ?_⟩
  have hsound : block.Sound scanned.comment := hnew.sound (.block block) (by simp)
  rw [Settings.scan_eq_ok_iff, hchain.lines_raw, List.flatMap_append,
    Settings.scans_append_iff] at hscan
  rw [Settings.scan_eq_ok_iff, hnew.lines_raw, List.flatMap_append, List.flatMap_cons,
    Settings.scans_append_iff]
  simp only [Settings.scans_append_iff, Settings.scans_of_unmarked hsound.unmarked,
    Segment.raw, exists_eq_left]
  exact hscan

end FieldedText
