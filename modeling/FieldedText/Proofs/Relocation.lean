/-
FieldedText/Proofs/Relocation.lean

Values that take the place of others, and are found there again.

Let a delimiter find a value between literal texts, and let another value stand there that
can be told from the text (`Text.Fresh`).  In each of the four shapes the delimiter finds
the new value in its place (`Delimiter.Frames`): a first or last occurrence of a mark, or a
first line, that is in the literal text is there whatever the value is, and no occurrence
reaches into the new value.  What has to be the same around the two values is said by the
sides of the placeholder that they take the place of (`frames_refill`).
-/
import FieldedText.Proofs.Cutting
import FieldedText.Proofs.Framing
import FieldedText.Proofs.Location

namespace FieldedText

variable {before other lead value fresh after after' mark a b line rest rest' ending u w : Text}

/-! ### Lines of a part of a text -/

namespace Text

/-- A line end that ends a line, or all the text. An empty one ends a text only. -/
structure EndsLine (ending rest : Text) : Prop where
  final : ending ∈ Occurrence.lineEnds
  ended : rest ≠ [] → ending ≠ [] ∧ Complete ending

namespace LineAt

/-- A line that begins in a complete part of a text is a line of that part, whatever stands
behind it. -/
theorem exchange (h : LineAt (a ++ b) u line rest) (ha : Complete a) (hlength : u.length < a.length)
    (other : Text) : ∃ rest', LineAt (a ++ other) u line rest' := by
  obtain ⟨pre, post, hlines, rfl, -⟩ := iff_lines.1 h
  rw [Text.lines_append ha] at hlines
  rcases List.append_eq_append_iff.1 hlines with ⟨more, rfl, -⟩ | ⟨more, hmore, hline⟩
  · rw [List.flatten_append, flatten_lines, List.length_append] at hlength
    omega
  · cases more with
    | nil =>
      rw [← flatten_lines a, hmore, List.append_nil] at hlength
      omega
    | cons first more =>
      obtain rfl := (List.cons.inj hline).1
      refine ⟨_, iff_lines.2 ⟨pre, more ++ lines other, ?_, rfl, rfl⟩⟩
      rw [Text.lines_append ha, hmore, List.append_assoc, List.cons_append]

/-- The first line of a text goes on behind what has no line feed. -/
theorem exists_first_append (hw : '\n' ∉ w) (hne : w ≠ []) (rest : Text) :
    ∃ left after, rest = left ++ after ∧ LineAt (w ++ rest) [] (w ++ left) after := by
  obtain ⟨line, after, hat⟩ := exists_first (t := w ++ rest) (by simp [hne])
  have happend : w ++ rest = line ++ after := hat.append
  rcases List.append_eq_append_iff.1 happend with ⟨left, rfl, hrest⟩ | ⟨more, rfl, hafter⟩
  · exact ⟨left, after, hrest, hat⟩
  · cases more with
    | nil =>
      rw [List.nil_append] at hafter
      rw [List.append_nil] at hat ⊢
      exact ⟨[], after, hafter.symm, by rwa [List.append_nil]⟩
    | cons c more =>
      -- a shorter line would end with a line feed
      obtain ⟨v, rfl⟩ := (hat.ended (by simp [hafter])).exists_eq hat.isLine.1
      simp at hw

/-- A text within a line and what ends the line are a line. -/
theorem of_endsLine (hu : Complete u) (hw : '\n' ∉ w) (hne : w ≠ []) (h : EndsLine ending rest) :
    LineAt (u ++ (w ++ ending) ++ rest) u (w ++ ending) rest := by
  refine ⟨rfl, hu, ⟨by simp [hne], ?_⟩, fun hrest => ?_⟩
  · by_cases hnil : ending = []
    · rw [hnil, List.append_nil]
      exact fun hmem => hw (List.dropLast_subset w hmem)
    · rw [List.dropLast_append_of_ne_nil hnil, List.mem_append, not_or]
      refine ⟨hw, ?_⟩
      have hfeed : ∀ e ∈ Occurrence.lineEnds, '\n' ∉ e.dropLast := by decide
      exact hfeed ending h.final
  · obtain ⟨hnil, hcomplete⟩ := h.ended hrest
    exact (complete_append_iff hnil).2 hcomplete

end LineAt

/-- A mark stands first behind a value that has none of its characters. -/
theorem Fresh.firstAt (h : Fresh mark fresh) (hm : mark ≠ []) :
    FirstAt mark (fresh ++ mark ++ rest) fresh rest := by
  refine ⟨rfl, fun {head' rest'} heq => ?_⟩
  by_contra hless
  rw [List.append_assoc, ← List.nil_append fresh] at heq
  obtain ⟨w, hw, -⟩ := h.exists_of_append_eq hm heq (by simpa using hless)
  simp [hm] at hw

end Text

/-! ### The four shapes -/

namespace Delimiter

open Text Occurrence

variable {delimiter : Delimiter}

/-- The first start is in the literal text, and so it is the first whatever the value is. -/
theorem Frames.refill_between (hstart : delimiter.start ≠ []) (hstop : delimiter.stop ≠ [])
    (h : delimiter.Frames before (lead ++ value ++ after) lead value after)
    (hfreshStart : Fresh delimiter.start fresh) (hfreshStop : Fresh delimiter.stop fresh)
    (hafter : delimiter.stop <+: after') :
    delimiter.Frames other (lead ++ fresh ++ after') lead fresh after' := by
  obtain ⟨rest', rfl⟩ := hafter
  cases h with
  | toLineEnd _ hunset => exact absurd hunset hstop
  | fromLineStart hunset => exact absurd hunset hstart
  | wholeText hunset => exact absurd hunset hstart
  | @between skipped _ _ _ _ _ opening _ =>
    have hopening : FirstAt delimiter.start
        (skipped ++ delimiter.start ++ fresh ++ (delimiter.stop ++ rest')) skipped
        (fresh ++ delimiter.stop ++ rest') := by
      refine ⟨by simp only [List.append_assoc], fun {head' rest''} heq => ?_⟩
      by_contra hless
      obtain ⟨w, hw, -⟩ := hfreshStart.exists_of_append_eq hstart heq (by
        simp only [List.length_append]
        omega)
      rw [hw] at opening
      exact hless (opening.first (by simp only [List.append_assoc]; rfl))
    exact .between hstart hstop hopening (hfreshStop.firstAt hstop)

/-- Behind a fresh value there is no start that is not behind any other value in its place. A
start that begins within the value would share a character with it. -/
theorem length_le_of_opens {start head head' value' ending' : Text} (hstart : start ≠ [])
    (hfresh : Fresh start fresh)
    (last : ∀ {head' value' ending'},
      Opens start (head ++ start ++ value ++ ending) head' value' ending' →
        head'.length ≤ head.length)
    (h : Opens start (head ++ start ++ fresh ++ ending) head' value' ending') :
    head'.length ≤ head.length := by
  have happend := h.append
  rw [List.append_assoc (head' ++ start)] at happend
  by_cases hbefore : head'.length < (head ++ start ++ fresh).length
  -- the start begins before the value ends, and so it is over before the value begins
  · obtain ⟨w, hw, -⟩ := hfresh.exists_of_append_eq hstart happend hbefore
    have hlength := congrArg List.length hw
    simp only [List.length_append] at hlength
    omega
  · -- the start is in the line end, and so it is behind the other value too
    have hprefix : head' <+: head ++ start ++ fresh ++ ending :=
      ⟨start ++ (value' ++ ending'), by rw [happend, List.append_assoc]⟩
    obtain ⟨u, rfl⟩ : head ++ start ++ fresh <+: head' :=
      List.prefix_of_prefix_length_le ⟨ending, rfl⟩ hprefix (Nat.not_lt.1 hbefore)
    rw [List.append_assoc _ u, List.append_assoc _ (u ++ start),
      List.append_cancel_left_eq] at happend
    have hbehind : Opens start (head ++ start ++ value ++ ending) (head ++ start ++ value ++ u)
        value' ending' :=
      ⟨by rw [happend]; simp only [List.append_assoc], h.value, h.ending⟩
    have hlength := last hbehind
    have hpos := List.length_pos_iff.2 hstart
    simp only [List.length_append] at hlength
    omega

/-- What opens on a line behind a fresh value opens at its end, whatever the value is. -/
theorem Frames.refill_toLineEnd (hstart : delimiter.start ≠ []) (hstop : delimiter.stop = [])
    (hinline : '\n' ∉ delimiter.start)
    (h : delimiter.Frames before (lead ++ value ++ after) lead value after)
    (hfresh : Fresh delimiter.start fresh)
    (hafter : after = ending ++ rest) (hends : EndsLine ending rest)
    (hafter' : after' = ending ++ rest') (hends' : EndsLine ending rest') :
    delimiter.Frames other (lead ++ fresh ++ after') lead fresh after' := by
  subst hafter'
  cases h with
  | between _ hset => exact absurd hstop hset
  | fromLineStart hunset => exact absurd hunset hstart
  | wholeText hunset => exact absurd hunset hstart
  | @toLineEnd skipped _ _ head _ _ _ _ here first opens last =>
    have hhead : '\n' ∉ head := by
      intro hmem
      refine here.isLine.2 ?_
      rw [opens.append, List.append_assoc, List.append_assoc,
        List.dropLast_append_of_ne_nil (by simp [hstart])]
      exact List.mem_append_left _ hmem
    have hvalue : '\n' ∉ value := fun hmem => absurd (opens.value '\n' hmem) (by decide)
    have hne : ∀ v : Text, head ++ delimiter.start ++ v ≠ [] := fun v => by simp [hstart]
    -- the line ends in both texts where the literal text ends it
    have hat : LineAt _ skipped (head ++ delimiter.start ++ value ++ ending) rest :=
      .of_endsLine here.complete (by simp [hhead, hinline, hvalue]) (hne value) hends
    have hat' : LineAt _ skipped (head ++ delimiter.start ++ fresh ++ ending) rest' :=
      .of_endsLine here.complete (by simp [hhead, hinline, hfresh.not_mem_lineFeed]) (hne fresh)
        hends'
    have htext : skipped ++ head ++ delimiter.start ++ fresh ++ (ending ++ rest') =
        skipped ++ (head ++ delimiter.start ++ fresh ++ ending) ++ rest' := by
      simp only [List.append_assoc]
    have htextOld : skipped ++ head ++ delimiter.start ++ value ++ (ending ++ rest) =
        skipped ++ (head ++ delimiter.start ++ value ++ ending) ++ rest := by
      simp only [List.append_assoc]
    -- the line that was found is this one, since both begin behind the same text
    rw [hafter, htextOld] at here first
    obtain ⟨-, rfl, hrest⟩ := here.unique hat rfl
    obtain rfl := hrest.symm
    obtain rfl := List.append_cancel_left opens.append
    rw [← htext] at hat'
    -- What is left to show is that it is the first line on which a value begins, that the value
    -- holds no line end, and that no later start is on the line.
    refine .toLineEnd hstart hstop hat' (fun {_ _ _ _ _ _} hbegin hopens => ?_)
      ⟨rfl, fun c hc => ?_, hends.final⟩ (fun {_ _ _} hopens => ?_)
    · -- an earlier line is in the literal text
      by_contra hless
      rw [htext, List.append_assoc] at hbegin
      obtain ⟨_, hold⟩ := hbegin.exchange here.complete (Nat.not_le.1 hless)
        ((head ++ delimiter.start ++ value ++ ending : Text) ++ rest)
      rw [← List.append_assoc] at hold
      exact hless (first hold hopens)
    · exact eq_false_of_ne_true fun hend => hfresh.not_mem_of_isSpace (isSpace_of_isLineEnd hend) hc
    · exact length_le_of_opens hstart hfresh last hopens

/-- A line that begins with a fresh value has its first stop behind it. -/
theorem Frames.refill_fromLineStart (hstart : delimiter.start = []) (hstop : delimiter.stop ≠ [])
    (hinline : '\n' ∉ delimiter.stop)
    (h : delimiter.Frames before (lead ++ value ++ after) lead value after)
    (hfresh : Fresh delimiter.stop fresh) (hafter : delimiter.stop <+: after')
    (hlead : Complete (other ++ lead)) (hother : Complete other → Complete before) :
    delimiter.Frames other (lead ++ fresh ++ after') lead fresh after' := by
  obtain ⟨rest', rfl⟩ := hafter
  cases h with
  | between hset => exact absurd hstart hset
  | toLineEnd hset => exact absurd hstart hset
  | wholeText _ hunset => exact absurd hunset hstop
  | @fromLineStart _ _ behind _ old _ _ here first _ =>
    have hinside : '\n' ∉ fresh ++ delimiter.stop := by
      simp [hfresh.not_mem_lineFeed, hinline]
    obtain ⟨left, after, rfl, hat⟩ :=
      LineAt.exists_first_append hinside (by simp [hstop]) rest'
    rw [← List.append_assoc delimiter.stop]
    refine .fromLineStart hstart hstop ⟨?_, hlead, hat.isLine, hat.ended⟩
      (fun {_ _ _} hbegin hstopLine => ?_) (hfresh.firstAt hstop)
    · simp only [List.append_assoc]
    · -- an earlier line is in the literal text
      by_contra hless
      obtain ⟨hbegin', hfirst⟩ := lineAt_append_iff.1 hbegin
      rw [List.append_assoc lead] at hbegin'
      obtain ⟨_, hold⟩ := hbegin'.exchange hlead.of_append (Nat.not_le.1 hless)
        (value ++ (delimiter.stop ++ old ++ behind))
      rw [← List.append_assoc lead] at hold
      exact hless (first (lineAt_append_iff.2 ⟨hold, fun hnil =>
        atLineStart_iff.2 (hother (atLineStart_iff.1 (hfirst hnil)))⟩) hstopLine)

/-- A fresh value that is all there is holds no line end. -/
theorem frames_wholeText (hstart : delimiter.start = []) (hstop : delimiter.stop = [])
    (hfresh : Fresh [] fresh) (hending : ending ∈ lineEnds) :
    delimiter.Frames [] (fresh ++ ending) [] fresh ending := by
  refine .wholeText hstart hstop rfl rfl hending fun {value' ending'} heq hending' => ?_
  by_contra hless
  rcases List.append_eq_append_iff.1 heq with ⟨w, -, rfl⟩ | ⟨w, rfl, rfl⟩
  · simp at hless
  · -- the longer line end would have a character of the value
    obtain ⟨c, w, rfl⟩ := List.exists_cons_of_ne_nil (l := w) (by rintro rfl; simp at hless)
    have hc := hfresh.visible c (by simp)
    have hends : ∀ e ∈ lineEnds, e.all isLineEnd = true := by decide
    rw [isSpace_of_isLineEnd (List.all_eq_true.1 (hends _ hending') c (by simp))] at hc
    cases hc

end Delimiter

/-! ### In the place of a placeholder -/

/-- Where nothing is left of a line, the line ends, or the text does. -/
theorem Text.lineRest_eq_nil {t : Text} (h : Surroundings.lineRest t = []) :
    ∃ ending rest, t = ending ++ rest ∧ EndsLine ending rest := by
  -- what is before the line feed is nothing, or the carriage return of a line end
  have hrest : t.takeWhile (· != '\n') = [] ∨ t.takeWhile (· != '\n') = ['\r'] := by
    simp only [Surroundings.lineRest] at h
    cases hbefore : before? ['\r'] (t.takeWhile (· != '\n')) with
    | none =>
      rw [hbefore] at h
      exact .inl h
    | some rest =>
      rw [hbefore, Option.getD_some] at h
      rw [before?_eq_some_iff.1 hbefore, h]
      exact .inr rfl
  have hsplit := List.takeWhile_append_dropWhile (p := (· != '\n')) (l := t)
  -- without a line feed the text itself ends here
  cases hdrop : t.dropWhile (· != '\n') with
  | nil =>
    rw [hdrop] at hsplit
    refine ⟨t.takeWhile (· != '\n'), [], hsplit.symm, ?_, fun hne => absurd rfl hne⟩
    rcases hrest with hrest | hrest <;> simp [hrest, Occurrence.lineEnds]
  | cons c rest =>
    have hc : c = '\n' := by
      have hhead := List.head?_dropWhile_not (· != '\n') t
      rw [hdrop] at hhead
      simpa using hhead
    rw [hdrop, hc, List.append_cons] at hsplit
    refine ⟨t.takeWhile (· != '\n') ++ ['\n'], rest, hsplit.symm, ?_, fun _ => ⟨by simp, ?_⟩⟩
    · rcases hrest with hrest | hrest <;> simp [hrest, Occurrence.lineEnds]
    · exact complete_concat _

namespace Surroundings

open Delimiter Occurrence Text

variable {around : Surroundings} {configured delimiter : Delimiter} {template : Text}

/-- **A fresh value is found again where another one was**, if the literal text around it is the
same: what follows up to the next value, the beginning and the end of the line where the
placeholder is there, and all there is where there is nothing else. -/
theorem frames_refill (hs : Template.Surrounds template around)
    (hmem : delimiter ∈ around.delimiters configured) (hfresh : Fresh template fresh)
    (h : delimiter.Frames before (around.lead ++ value ++ after) around.lead value after)
    (hfollow : around.follow <+: after')
    (hbegins : around.beginsLine = true → Complete (other ++ around.lead))
    (hother : Complete other → Complete before)
    (hends : around.endsLine = true → ∃ ending rest rest', after = ending ++ rest ∧
      EndsLine ending rest ∧ after' = ending ++ rest' ∧ EndsLine ending rest')
    (halone : around.isAlone = true → other = [] ∧ after' = around.after) :
    delimiter.Frames other (around.lead ++ fresh ++ after') around.lead fresh after' := by
  have hinline := inline_of_mem_delimiters hs hmem
  have hadmits := admits_of_mem_delimiters hmem
  obtain ⟨hstartIn, hstopIn⟩ := infix_of_mem_delimiters hs rfl rfl hmem
  have hfreshStart : Fresh delimiter.start fresh := hfresh.of_subset hstartIn.subset
  have hfreshStop : Fresh delimiter.stop fresh := hfresh.of_subset hstopIn.subset
  have hstop : delimiter.stop <+: after' :=
    ((of_mem_delimiters hmem).2.trans (List.take_prefix ..)).trans hfollow
  -- A side that is not set was admitted for a reason: the placeholder begins its line, ends its
  -- line, or is all there is. These are the conditions on the text around the new value, one for
  -- each shape.
  rw [admits] at hadmits
  split at hadmits
  · rename_i hnoStart hnoStop
    obtain ⟨rfl, rfl⟩ := halone hadmits
    simp only [isAlone, Bool.and_eq_true, Bool.or_eq_true, decide_eq_true_eq] at hadmits
    have hlead : around.lead = [] := List.suffix_nil.1 (hadmits.1 ▸ hs.lead)
    rw [hlead, List.nil_append]
    refine frames_wholeText hnoStart hnoStop (hfresh.of_subset (List.nil_subset _)) ?_
    rcases hadmits.2 with (hafter | hafter) | hafter <;> simp [hafter, lineEnds]
  · rename_i hnoStop hset
    obtain ⟨ending, rest, rest', hafter, hending, hafter', hending'⟩ := hends hadmits
    exact h.refill_toLineEnd hset hnoStop hinline.start hfreshStart hafter hending hafter' hending'
  · rename_i hnoStart hset
    exact h.refill_fromLineStart hnoStart hset hinline.stop hfreshStop hstop (hbegins hadmits)
      hother
  · rename_i hsetStart hsetStop _
    exact h.refill_between hsetStart hsetStop hfreshStart hfreshStop hstop

end Surroundings

end FieldedText
