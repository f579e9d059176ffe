/-
FieldedText/Proofs/Settings.lean

The settings after some lines.

Lines are scanned one after the other, and the number of a line shows in
complaints only; so the settings after two runs of lines are those after the
second, from those after the first (`scans_append_iff`).  Lines without a
directive, and list templates, change nothing (`scans_of_unmarked`,
`scans_listTemplate`).

When the segments of a document give place to others that change the settings as
they do, the document that comes of it has the same settings, and is cut into those
segments (`ofText_of_stands`).
-/
import FieldedText.Markup.Settings
import FieldedText.Proofs.Segment

namespace FieldedText.Settings

variable {settings result : Settings} {raw : Text} {ls more : List Text} {n : Nat}

/-- The settings that some lines leave, wherever the lines stand. A line that is complained about
leaves none, so this says that there is no such line as well. -/
def Scans (settings : Settings) (ls : List Text) (result : Settings) : Prop :=
  ∀ line, (Directive.ofLines line ls).map settings.applyAll = .ok result

/-- The settings after what was found on a line. -/
def applyFound (settings : Settings) : Option Directive → Settings
  | none => settings
  | some directive => settings.apply directive

theorem ofLines_cons_eq_ok_iff :
    (Directive.ofLines n (raw :: ls)).map settings.applyAll = .ok result ↔
      ∃ found, Directive.find n (Text.plain raw) = .ok found ∧
        (Directive.ofLines (n + 1) ls).map (settings.applyFound found).applyAll = .ok result := by
  rw [Directive.ofLines]
  cases Directive.find n (Text.plain raw) with
  | error e => simp [bind, Except.bind, Except.map]
  | ok found =>
    cases Directive.ofLines (n + 1) ls with
    | error e => simp [bind, Except.bind, Except.map]
    | ok later =>
      cases found with
      | none => simp [bind, Except.bind, Except.map, pure, Except.pure, applyFound]
      | some directive =>
        simp [bind, Except.bind, Except.map, pure, Except.pure, applyFound, applyAll]

theorem scans_of_ok (h : (Directive.ofLines n ls).map settings.applyAll = .ok result) :
    Scans settings ls result := by
  induction ls generalizing n settings with
  | nil => exact fun _ => h
  | cons raw ls ih =>
    obtain ⟨found, hfound, hlater⟩ := ofLines_cons_eq_ok_iff.1 h
    exact fun k => ofLines_cons_eq_ok_iff.2
      ⟨found, Directive.find_ok_of_find_ok hfound, ih hlater (k + 1)⟩

theorem scan_eq_ok_iff {document : Text} :
    settings.scan document = .ok result ↔ Scans settings (Text.lines document) result :=
  ⟨scans_of_ok, fun h => h 1⟩

theorem scans_nil_iff : Scans settings [] result ↔ result = settings := by
  constructor
  · intro h
    exact (Except.ok.inj (h 0)).symm
  · rintro rfl
    exact fun _ => rfl

theorem scans_cons_iff :
    Scans settings (raw :: ls) result ↔
      ∃ found, Directive.find 0 (Text.plain raw) = .ok found ∧
        Scans (settings.applyFound found) ls result := by
  constructor
  · intro h
    obtain ⟨found, hfound, hlater⟩ := ofLines_cons_eq_ok_iff.1 (h 0)
    exact ⟨found, hfound, scans_of_ok hlater⟩
  · rintro ⟨found, hfound, hlater⟩ k
    exact ofLines_cons_eq_ok_iff.2
      ⟨found, Directive.find_ok_of_find_ok hfound, hlater (k + 1)⟩

/-- **Two runs of lines are scanned one after the other.** -/
theorem scans_append_iff :
    Scans settings (ls ++ more) result ↔
      ∃ between, Scans settings ls between ∧ Scans between more result := by
  induction ls generalizing settings with
  | nil => simp [scans_nil_iff]
  | cons raw ls ih =>
    rw [List.cons_append, scans_cons_iff]
    constructor
    · rintro ⟨found, hfound, hlater⟩
      obtain ⟨between, hls, hmore⟩ := ih.1 hlater
      exact ⟨between, scans_cons_iff.2 ⟨found, hfound, hls⟩, hmore⟩
    · rintro ⟨between, hls, hmore⟩
      obtain ⟨found, hfound, hls⟩ := scans_cons_iff.1 hls
      exact ⟨found, hfound, ih.2 ⟨between, hls, hmore⟩⟩

/-- Lines without a directive change nothing. -/
theorem scans_of_unmarked (h : ∀ raw ∈ ls, Directive.Unmarked raw) :
    Scans settings ls result ↔ result = settings := by
  induction ls with
  | nil => exact scans_nil_iff
  | cons raw ls ih =>
    obtain ⟨hraw, hls⟩ := List.forall_mem_cons.1 h
    have hfind : Directive.find 0 (Text.plain raw) = .ok none :=
      Directive.find_eq_ok_none_iff.2 (Directive.unmarked_plain_iff.2 hraw)
    rw [scans_cons_iff, hfind, ← ih hls]
    simp [applyFound]

/-- The line of a list template changes nothing. -/
theorem scans_listTemplate {block : Text}
    (h : Directive.find 0 (Text.plain raw) = .ok (some (.listTemplate block))) :
    Scans settings [raw] result ↔ result = settings := by
  rw [scans_cons_iff, h]
  simp [applyFound, apply, scans_nil_iff]

/-! ### Framings within a line -/

end FieldedText.Settings

namespace FieldedText

/-- The framing that a directive chooses is the text around its token. -/
theorem Directive.of_find_comment {n : Nat} {t : Text} {framing : Comment}
    (h : find n t = .ok (some (.comment framing))) :
    t = framing.start ++ commentToken ++ framing.stop := by
  unfold find at h
  split at h
  · cases h
  · split at h
    · rename_i start stop hcut
      cases h
      exact Text.cut?_append hcut
    · split at h
      · rename_i side value hside
        cases side with
        | start => cases h
        | stop => cases h
        | pair =>
          simp only [ofSide] at h
          split at h <;> cases h
      · split at h <;> cases h

/-- **The framing of a document stands within a line** if the one does that was in force before. A
directive takes its framing from one line. -/
theorem Settings.inline_of_scans {settings result : Settings} {ls : List Text}
    (hls : ∀ raw ∈ ls, Text.IsLine raw) (hs : settings.comment.Inline)
    (h : settings.Scans ls result) : result.comment.Inline := by
  induction ls generalizing settings with
  | nil => rwa [scans_nil_iff.1 h]
  | cons raw ls ih =>
    obtain ⟨hraw, hls⟩ := List.forall_mem_cons.1 hls
    obtain ⟨found, hfound, hlater⟩ := scans_cons_iff.1 h
    refine ih hls ?_ hlater
    cases found with
    | none => exact hs
    | some directive =>
      cases directive with
      | comment framing =>
        -- the framing is what stands before and after the directive on its line
        have hplain := Directive.of_find_comment hfound
        have hnot := Text.not_mem_plain hraw
        rw [hplain, List.mem_append, List.mem_append, not_or, not_or] at hnot
        exact ⟨hnot.1.1, hnot.2⟩
      | delimiterStart start => exact hs
      | delimiterStop stop => exact hs
      | delimiterPair delimiter => exact hs
      | listTemplate block => exact hs

/-! ### Segments in place of others -/

/-- Blocks change nothing. -/
theorem Settings.scans_blocks {comment : Comment} {segments : List Segment}
    {before after : Settings}
    (h : ∀ segment ∈ segments, segment.Sound comment ∧ ∃ block, segment = .block block) :
    before.Scans (segments.flatMap fun segment => Text.lines segment.raw) after ↔
      after = before := by
  refine scans_of_unmarked fun line hline => ?_
  obtain ⟨segment, hsegment, hmem⟩ := List.mem_flatMap.1 hline
  obtain ⟨hsound, block, rfl⟩ := h segment hsegment
  exact Block.Sound.unmarked hsound line hmem

/-- A chain that can stand in a document where a segment stands, and changes the settings as the
segment does. Otherwise the segments behind it might be cut under another framing. -/
structure Segment.Stands (comment : Comment) (segment : Segment) (segments : List Segment) : Prop
    extends Segment.Replaces comment segment segments where
  scans : ∀ before after : Settings,
    before.Scans (segments.flatMap fun segment => Text.lines segment.raw) after ↔
      before.Scans (Text.lines segment.raw) after

/-- Chains that change the settings as segments do, each by itself, do so together. -/
theorem Settings.scans_flatten_iff {segments : List Segment} {chains : List (List Segment)}
    {before after : Settings}
    (h : List.Forall₂ (fun segment chain => ∀ before after : Settings,
      before.Scans (chain.flatMap fun segment => Text.lines segment.raw) after ↔
        before.Scans (Text.lines segment.raw) after) segments chains) :
    before.Scans (chains.flatten.flatMap fun segment => Text.lines segment.raw) after ↔
      before.Scans (segments.flatMap fun segment => Text.lines segment.raw) after := by
  induction h generalizing before with
  | nil => exact Iff.rfl
  | cons hchain _ ih =>
    rw [List.flatten_cons, List.flatMap_append, List.flatMap_cons, scans_append_iff,
      scans_append_iff]
    simp only [hchain, ih]

/-- **A document with other segments in place of its own is cut into these**, and its settings
stay. -/
theorem Segmentation.ofText_of_stands {settings scanned : Settings} {document : Text}
    {segments : List Segment} {chains : List (List Segment)}
    (hscan : settings.scan document = .ok scanned)
    (hsegments : ofText scanned.comment document = ⟨segments, none⟩)
    (h : List.Forall₂ (Segment.Stands scanned.comment) segments chains) :
    ∃ result, ofText scanned.comment (chains.flatten.flatMap Segment.raw) = ⟨result, none⟩ ∧
      result.map Segment.unnumbered = chains.flatten.map Segment.unnumbered ∧
      settings.scan (chains.flatten.flatMap Segment.raw) = .ok scanned := by
  obtain ⟨hchain, hraw⟩ := chain_of_ofText hsegments
  have hnew := hchain.flatten (h.imp fun _ _ hstands => hstands.toReplaces)
  obtain ⟨result, hresult, hmap⟩ := ofText_of_chain hnew
  refine ⟨result, hresult, hmap, ?_⟩
  rw [Settings.scan_eq_ok_iff] at hscan ⊢
  rw [← hraw, hchain.lines_raw] at hscan
  rw [hnew.lines_raw, Settings.scans_flatten_iff (h.imp fun _ _ hstands => hstands.scans)]
  exact hscan

end FieldedText
