/-
FieldedText/Proofs/HeaderPattern.lean

The expressions of tokens, and the headers that are read.

A header is read with two expressions: one is searched for at each token, and
what it matches is parsed with another, which is matched against all of it.
What is read is what the two find (`read?_eq_search?`, `ofToken?_eq_search?`):
the first match must begin at once, a name ends where the first of the other
characters is, and of the runs in a pattern each goes up to the first mark that
ends it.  A later mark would do as well, but it is never needed: what is not
found behind the first one on a line is not found behind another
(`findSome?_cuts_mark`).

So the headers that are read are those of the grammar, each in its one way, and
the tokens that are written for their specs are among them
(`headerFrom_iff_headerText`).
-/
import FieldedText.Proofs.CheckedMarkup
import FieldedText.Proofs.DelimiterPattern

namespace FieldedText

open Pattern

variable {t : Text}

/-! ### The sides of a pattern -/

namespace Pattern

/-- Where a search finds nothing, it finds nothing further on in the line either. This is what
spares a reader from going back: an expression would try a later mark, and find as little behind
it. -/
def NoneOnward {β : Type} (φ : Text → Option β) : Prop :=
  ∀ x t, onLine x = true → φ (x :: t) = none → φ t = none

section

variable {α β : Type} {φ : Text → Option β}

theorem NoneOnward.of_append (hφ : NoneOnward φ) {w : Text} (hw : ∀ x ∈ w, onLine x = true)
    (h : φ (w ++ t) = none) : φ t = none := by
  induction w with
  | nil => exact h
  | cons x w ih =>
    obtain ⟨hx, hw⟩ := List.forall_mem_cons.1 hw
    exact ih hw (hφ x _ hx h)

/-- What is not behind a mark on a line is not behind a later one on the line. -/
theorem NoneOnward.of_later (hφ : NoneOnward φ) {text u rest later : Text}
    (htext : ∀ x ∈ text, onLine x = true) (hu : ∀ x ∈ u, onLine x = true)
    (h : text ++ rest = u ++ (text ++ later)) (hrest : φ rest = none) : φ later = none := by
  have hlength : text.length ≤ (u ++ text).length := by
    rw [List.length_append]
    exact Nat.le_add_left ..
  have hsplit : rest = (u ++ text).drop text.length ++ later := by
    rw [← List.drop_append_of_le_length hlength, List.append_assoc, ← h, List.drop_left]
  rw [hsplit] at hrest
  refine hφ.of_append (fun x hx => ?_) hrest
  exact (List.mem_append.1 (List.mem_of_mem_drop hx)).elim (hu x) (htext x)

/-- A lazy run before a mark goes up to the first mark on the line: if what must follow is not
behind that, it is not behind a later one. -/
theorem findSome?_cuts_mark (hφ : NoneOnward φ) {text : Text}
    (htext : ∀ x ∈ text, onLine x = true) (g : Text → β → α) (t : Text) :
    ((cuts onLine t).findSome? fun cut =>
      (Text.after? text cut.2).bind fun rest => (φ rest).map (g cut.1)) =
      (Text.upTo? text t).bind fun cut => (φ cut.2).map (g cut.1) := by
  -- By induction on the text, for any way of using what was passed over. Only at the first mark
  -- do the two readings differ: one of them stops there, and the other would go on.
  induction t generalizing g with
  | nil =>
    rw [cuts, List.findSome?_singleton, Text.upTo?_eq_findSome?, cuts, List.findSome?_singleton]
    cases Text.after? text [] <;> rfl
  | cons x t ih =>
    rw [cuts, List.findSome?_cons, Text.upTo?_cons]
    by_cases hx : onLine x = true
    · have hlater := ih fun u => g (x :: u)
      rw [if_pos hx, if_pos hx, List.findSome?_map]
      cases hhere : Text.after? text (x :: t) with
      | none =>
        simp only [Function.comp_def, hlater, Option.bind_none, Option.map_none, Option.none_or,
          Option.bind_map]
      | some rest =>
        rw [Option.bind_some, Option.map_some, Option.some_or, Option.bind_some]
        cases hrest : φ rest with
        | some found => rfl
        | none =>
          -- nothing follows the first mark, and a later mark has less of the line behind it
          simp only [Option.map_none]
          rw [List.findSome?_eq_none_iff]
          rintro ⟨u, v⟩ hcut
          obtain ⟨rfl, hu⟩ := mem_cuts_iff.1 hcut
          rw [Function.comp_apply, Option.bind_eq_none_iff]
          intro later hv
          rw [Text.after?_eq_some_iff] at hhere hv
          have hsplit : text ++ rest = x :: u ++ (text ++ later) := by
            rw [← hhere, ← hv, List.cons_append]
          rw [hφ.of_later htext (List.forall_mem_cons.2 ⟨hx, hu⟩) hsplit hrest, Option.map_none]
    · rw [if_neg hx, if_neg hx, Option.or_none, List.findSome?_nil]
      cases Text.after? text (x :: t) with
      | none => rfl
      | some rest =>
        rw [Option.bind_some, Option.map_some, Option.bind_some]
        cases φ rest <;> rfl

end

section

variable {β : Type} {φ : Text → Option β} {text : Text} {q : Pattern}
  {g : Text → List Capture → β → Cursor}

/-- A lazy run on a line and a mark, and behind them what is matched where `φ` finds something. -/
theorem head?_ends_upTo_seq (hφ : NoneOnward φ) (htext : ∀ x ∈ text, onLine x = true)
    (hq : ∀ b t kept, (q.ends ⟨b, t, kept⟩).head? = (φ t).map (g b kept)) (b t : Text)
    (kept : List Capture) :
    ((seq (many false (one onLine)) (seq (mark text) q)).ends ⟨b, t, kept⟩).head? =
      (Text.upTo? text t).bind fun cut => (φ cut.2).map (g (b ++ cut.1 ++ text) kept) := by
  have hcuts := findSome?_cuts_mark hφ htext (fun u => g (b ++ u ++ text) kept) t
  rw [head?_ends_many_seq, if_neg (by simp), ← hcuts]
  congr 1
  funext cut
  simp only [head?_ends_mark_seq, Cursor.pass, hq]

/-- The same with the run kept. -/
theorem head?_ends_group_upTo_seq (hφ : NoneOnward φ) (htext : ∀ x ∈ text, onLine x = true)
    (hq : ∀ b t kept, (q.ends ⟨b, t, kept⟩).head? = (φ t).map (g b kept)) (n : Nat) (b t : Text)
    (kept : List Capture) :
    ((seq (group n (many false (one onLine))) (seq (mark text) q)).ends ⟨b, t, kept⟩).head? =
      (Text.upTo? text t).bind fun cut =>
        (φ cut.2).map (g (b ++ cut.1 ++ text) (⟨n, b, cut.1⟩ :: kept)) := by
  have hcuts := findSome?_cuts_mark hφ htext
    (fun u => g (b ++ u ++ text) (⟨n, b, u⟩ :: kept)) t
  rw [head?_ends_group_seq, if_neg (by simp), ← hcuts]
  congr 1
  funext cut
  simp only [head?_ends_mark_seq, Cursor.pass, hq]

end

end Pattern

namespace FieldSpec

/-- What may stand between the name and the closing braces of a token, of which the sides are
matched by two expressions. -/
def framing (start stop : Pattern) : Pattern :=
  seq (mark Sign.pattern) (seq start (seq (mark Sign.marker) (seq stop (mark ['"']))))

theorem ends_framing_seq (start stop q : Pattern) (c : Cursor) :
    (seq (framing start stop) q).ends c =
      (seq (mark Sign.pattern) (seq start (seq (mark Sign.marker)
        (seq stop (seq (mark ['"']) q))))).ends c := by
  have hseq (p q : Pattern) : (seq p q).ends = fun c => (p.ends c).flatMap q.ends := rfl
  simp only [framing, hseq, List.flatMap_assoc]

theorem after?_patternClosing (t : Text) :
    Text.after? Sign.patternClosing t = (Text.after? ['"'] t).bind (Text.after? Sign.closing) := by
  cases t with
  | nil => rfl
  | cons x t =>
    by_cases hx : x = '"'
    · subst hx
      rfl
    · simp [Sign.patternClosing, Text.after?, Ne.symm hx]

theorem onLine_of_mem_marker : ∀ x ∈ Sign.marker, onLine x = true :=
  List.all_eq_true.1 (by decide)

theorem noneOnward_upTo? (mark : Text) : NoneOnward (Text.upTo? mark) := by
  intro x t hx h
  rw [Text.upTo?_cons, if_pos hx, Option.or_eq_none_iff] at h
  exact Option.map_eq_none_iff.1 h.2

/-! ### The expression of a token in a header -/

/-- A token. -/
def tokenPattern : Pattern :=
  seq (mark Sign.opening) (seq (run true isNameChar)
    (seq (maybe (framing (many false (one onLine)) (many false (one onLine)))) (mark Sign.closing)))

/-- What is behind the name of a token, up to the end of the token. A pattern is tried first, as
the expression does; no text has both. -/
def behindName? (t : Text) : Option (Delimiter × Text × Text) :=
  ((Text.after? Sign.pattern t).bind fun framed => (Text.upTo? Sign.marker framed).bind fun start =>
    (Text.upTo? Sign.patternClosing start.2).map fun stop =>
      (⟨start.1, stop.1⟩, Sign.pattern ++ start.1 ++ Sign.marker ++ stop.1 ++ Sign.patternClosing,
        stop.2)).or
    ((Text.after? Sign.closing t).map fun rest => (.unset, Sign.closing, rest))

theorem head?_ends_stop (b t : Text) (kept : List Capture) :
    ((seq (many false (one onLine)) (seq (mark ['"']) (mark Sign.closing))).ends
      ⟨b, t, kept⟩).head? =
      (Text.upTo? Sign.patternClosing t).map fun stop =>
        ⟨b ++ stop.1 ++ Sign.patternClosing, stop.2, kept⟩ := by
  rw [head?_ends_many_seq, if_neg (by simp), Text.upTo?_eq_findSome?, List.map_findSome?]
  congr 1
  funext cut
  simp only [Function.comp_apply, head?_ends_mark_seq, head?_ends_mark, after?_patternClosing,
    Cursor.pass]
  cases Text.after? ['"'] cut.2 with
  | none => rfl
  | some rest =>
    rw [Option.bind_some, Option.bind_some]
    cases Text.after? Sign.closing rest with
    | none => rfl
    | some rest => simp [Sign.patternClosing, Sign.closing, Cursor.pass]

theorem head?_ends_behindName (b t : Text) (kept : List Capture) :
    ((seq (maybe (framing (many false (one onLine)) (many false (one onLine))))
      (mark Sign.closing)).ends ⟨b, t, kept⟩).head? =
      (behindName? t).map fun found => ⟨b ++ found.2.1, found.2.2, kept⟩ := by
  rw [head?_ends_maybe_seq, ends_framing_seq, head?_ends_mark_seq, head?_ends_mark, behindName?,
    Option.map_or]
  congr 1
  · cases Text.after? Sign.pattern t with
    | none => rfl
    | some framed =>
      rw [Option.bind_some, Option.bind_some, Cursor.pass,
        head?_ends_upTo_seq (noneOnward_upTo? _) onLine_of_mem_marker head?_ends_stop]
      cases Text.upTo? Sign.marker framed with
      | none => rfl
      | some start =>
        rw [Option.bind_some, Option.bind_some]
        cases Text.upTo? Sign.patternClosing start.2 with
        | none => rfl
        | some stop => simp
  · cases Text.after? Sign.closing t <;> rfl

/-- Neither a pattern nor the closing braces begin with a character of names. -/
theorem after?_cons_of_isNameChar {x : Char} (hx : isNameChar x = true) (t : Text) :
    Text.after? Sign.pattern (x :: t) = none ∧ Text.after? Sign.closing (x :: t) = none := by
  have hcolon : ':' ≠ x := by
    rintro rfl
    cases hx
  have hbrace : '}' ≠ x := by
    rintro rfl
    cases hx
  exact ⟨if_neg hcolon, if_neg hbrace⟩

theorem behindName?_cons {x : Char} (hx : isNameChar x = true) (t : Text) :
    behindName? (x :: t) = none := by
  obtain ⟨hpattern, hclosing⟩ := after?_cons_of_isNameChar hx t
  rw [behindName?, hpattern, hclosing]
  rfl

/-- The token that a text begins with: its spec, its text and what follows it. It stands between
the reader, which gives no text of the token, and the expression, which gives no spec. -/
def matched? (t : Text) : Option (FieldSpec × Text × Text) :=
  (Text.after? Sign.opening t).bind fun inner => (readName? inner).bind fun named =>
    (behindName? named.2).map fun found =>
      (⟨named.1, found.1⟩, Sign.opening ++ named.1 ++ found.2.1, found.2.2)

theorem at?_tokenPattern (b t : Text) :
    tokenPattern.at? b t = (matched? t).map fun found =>
      ⟨b ++ found.2.1, found.2.2, [⟨0, b, found.2.1⟩]⟩ := by
  rw [at?_eq, tokenPattern, head?_ends_mark_seq, matched?]
  cases Text.after? Sign.opening t with
  | none => rfl
  | some inner =>
    rw [Option.bind_some, Option.bind_some, Cursor.pass, head?_ends_seq, findSome?_ends_run,
      readName?_eq]
    · split
      · rfl
      · rw [head?_ends_behindName, Option.bind_some]
        cases behindName? (inner.dropWhile isNameChar) with
        | none => rfl
        | some found => simp [Cursor.keep]
    · -- a name cannot be over where one more of its characters follows
      intro b x v hx
      rw [head?_ends_behindName, behindName?_cons hx]
      rfl

/-- A bare name is closed where no pattern begins. -/
theorem after?_pattern_of_closing {t rest : Text} (h : Text.after? Sign.closing t = some rest) :
    Text.after? Sign.pattern t = none := by
  rw [Text.after?_eq_some_iff.1 h]
  rfl

theorem read?_eq (t : Text) : read? t = (matched? t).map fun found => (found.1, found.2.2) := by
  -- Both take the same steps, and differ in the order of two of them: the reader asks for closing
  -- braces before a pattern, and looks for line feeds in the sides at the end. Where one fails so
  -- does the other, whichever step it is.
  unfold read? matched?
  cases Text.after? Sign.opening t with
  | none => rfl
  | some inner =>
    rw [Option.bind_eq_bind, Option.bind_some, Option.bind_some]
    cases readName? inner with
    | none => rfl
    | some named =>
      obtain ⟨name, more⟩ := named
      simp only [Option.bind_eq_bind, Option.bind_some, behindName?, Text.upTo?]
      cases hclosing : Text.after? Sign.closing more with
      | some rest =>
        rw [after?_pattern_of_closing hclosing]
        rfl
      | none =>
        simp only
        cases Text.after? Sign.pattern more with
        | none => rfl
        | some framed =>
          simp only [Option.bind_some]
          cases Text.cut? Sign.marker framed with
          | none => rfl
          | some start =>
            obtain ⟨start, last⟩ := start
            simp only [Option.bind_some]
            cases oneLine? start with
            | none => cases Text.cut? Sign.patternClosing last <;> rfl
            | some start =>
              simp only [Option.bind_some, Option.map_some]
              cases Text.cut? Sign.patternClosing last with
              | none => rfl
              | some stop =>
                obtain ⟨stop, rest⟩ := stop
                simp only [Option.bind_some]
                cases oneLine? stop <;> rfl

theorem text_of_behindName? {more matched rest : Text} {delimiter : Delimiter}
    (h : behindName? more = some (delimiter, matched, rest)) : more = matched ++ rest := by
  rw [behindName?, Option.or_eq_some_iff] at h
  rcases h with h | ⟨-, h⟩
  · obtain ⟨framed, hframed, h⟩ := Option.bind_eq_some_iff.1 h
    obtain ⟨⟨start, last⟩, hstart, h⟩ := Option.bind_eq_some_iff.1 h
    obtain ⟨⟨stop, after⟩, hstop, h⟩ := Option.map_eq_some_iff.1 h
    cases h
    have hlast : last = stop ++ Sign.patternClosing ++ after := Text.upTo?_append hstop
    rw [Text.after?_eq_some_iff.1 hframed, Text.upTo?_append hstart, hlast]
    simp only [List.append_assoc]
  · obtain ⟨after, hafter, h⟩ := Option.map_eq_some_iff.1 h
    cases h
    exact Text.after?_eq_some_iff.1 hafter

theorem text_of_matched? {matched rest : Text} {spec : FieldSpec}
    (h : matched? t = some (spec, matched, rest)) : t = matched ++ rest := by
  obtain ⟨inner, hinner, h⟩ := Option.bind_eq_some_iff.1 h
  obtain ⟨⟨name, more⟩, hname, h⟩ := Option.bind_eq_some_iff.1 h
  obtain ⟨⟨delimiter, text, after⟩, hfound, h⟩ := Option.map_eq_some_iff.1 h
  cases h
  have hmore : more = text ++ after := text_of_behindName? hfound
  rw [Text.after?_eq_some_iff.1 hinner, (of_readName? hname).2, hmore]
  simp only [List.append_assoc]

/-- **A token is read where the search for its expression finds it at once, and what is matched is
parsed**: parsing never fails, and gives the spec that is read. So there is no match that cannot
be parsed. -/
theorem read?_eq_search? (b t : Text) :
    read? t = ((tokenPattern.search? b t).filter fun c => c.begins b).bind fun c =>
      (c.capture? 0).bind fun token => (ofToken? token.value).map fun spec => (spec, c.rest) := by
  rw [filter_search?, at?_tokenPattern, read?_eq]
  cases hmatched : matched? t with
  | none => rfl
  | some found =>
    obtain ⟨spec, matched, rest⟩ := found
    have hread : read? t = some (spec, rest) := by rw [read?_eq, hmatched]; rfl
    obtain ⟨token, rfl, htext⟩ := HeaderToken.of_read? hread
    have hsame : matched = token.text :=
      List.append_cancel_right ((text_of_matched? hmatched).symm.trans htext)
    simp [Cursor.capture?, hsame, token.ofToken?_text]

/-! ### The expression of a token by itself -/

/-- A token that is all of a text. -/
def wholePattern : Pattern :=
  seq textStart (seq (mark Sign.opening) (seq (group 1 (run false isNameChar))
    (seq (maybe (framing (group 2 (many false (one onLine))) (group 3 (many false (one onLine)))))
      (seq (mark Sign.closing) textEnd))))

/-- The spec that a match is for. -/
def ofMatch? (c : Cursor) : Option FieldSpec :=
  (c.capture? 1).map fun name =>
    ⟨name.value, ((c.capture? 2).elim [] Capture.value), ((c.capture? 3).elim [] Capture.value)⟩

/-- The stop of a delimiter of which the token ends where the text does. It may hold what closes a
pattern, which ends it only at the very end. -/
def lastStop? (t : Text) : Option Text := (Text.before? Sign.patternClosing t).bind oneLine?

theorem before?_cons {m : Text} (x : Char) (t : Text) :
    Text.before? m (x :: t) =
      if x :: t = m then some [] else (Text.before? m t).map (x :: ·) := by
  ext r
  rw [Text.before?_eq_some_iff]
  -- the text is the mark itself, or what comes before the mark begins with the character
  split
  · rename_i h
    constructor
    · intro hr
      rw [← h] at hr
      have hnil : r = [] := by simpa using hr
      rw [hnil]
    · intro hr
      cases hr
      exact h
  · rename_i h
    rw [Option.map_eq_some_iff]
    constructor
    · intro hr
      cases r with
      | nil => exact absurd hr h
      | cons y r =>
        obtain ⟨rfl, htail⟩ := List.cons.inj hr
        exact ⟨r, Text.before?_eq_some_iff.2 htail, rfl⟩
    · rintro ⟨r, hr, rfl⟩
      rw [Text.before?_eq_some_iff.1 hr, List.cons_append]

theorem lastStop?_cons (x : Char) (t : Text) :
    lastStop? (x :: t) = if x :: t = Sign.patternClosing then some []
      else if onLine x then (lastStop? t).map (x :: ·) else none := by
  rw [lastStop?, lastStop?, before?_cons]
  split
  · rfl
  · by_cases hx : x = '\n'
    · cases Text.before? Sign.patternClosing t <;> simp [hx, onLine, oneLine?]
    · have hkind : onLine x = true := by simpa [onLine] using hx
      rw [if_pos hkind]
      cases Text.before? Sign.patternClosing t with
      | none => rfl
      | some stop => exact oneLine?_cons hx stop

theorem noneOnward_lastStop? : NoneOnward lastStop? := by
  intro x t hx h
  rw [lastStop?_cons, if_pos hx] at h
  split at h
  · cases h
  · exact Option.map_eq_none_iff.1 h

theorem lastStop?_eq_findSome? (t : Text) :
    lastStop? t = (cuts onLine t).findSome? fun cut =>
      if cut.2 = Sign.patternClosing then some cut.1 else none := by
  induction t with
  | nil => rfl
  | cons x t ih =>
    have hlater (u v : Text) : (if v = Sign.patternClosing then some (x :: u) else none) =
        (if v = Sign.patternClosing then some u else none).map (x :: ·) := by
      split <;> rfl
    rw [findSome?_cuts_cons hlater, ← ih, lastStop?_cons]
    split <;> rfl

/-- What is behind the name of a token that is all of a text. -/
def lastBehindName? (t : Text) : Option Delimiter :=
  ((Text.after? Sign.pattern t).bind fun framed => (Text.upTo? Sign.marker framed).bind fun start =>
    (lastStop? start.2).map fun stop => ⟨start.1, stop⟩).or
      (if t = Sign.closing then some .unset else none)

theorem head?_ends_mark_textEnd (m b t : Text) (kept : List Capture) :
    ((seq (mark m) textEnd).ends ⟨b, t, kept⟩).head? =
      if t = m then some ⟨b ++ m, [], kept⟩ else none := by
  rw [head?_ends_mark_seq]
  cases hafter : Text.after? m t with
  | none =>
    have hne : t ≠ m := by
      rintro rfl
      rw [Text.after?_eq_none_iff] at hafter
      exact hafter List.prefix_rfl
    rw [if_neg hne]
    rfl
  | some rest =>
    rw [Text.after?_eq_some_iff.1 hafter]
    cases rest <;> simp [ends, Cursor.pass]

theorem head?_ends_quote_textEnd (b t : Text) (kept : List Capture) :
    ((seq (mark ['"']) (seq (mark Sign.closing) textEnd)).ends ⟨b, t, kept⟩).head? =
      if t = Sign.patternClosing then some ⟨b ++ Sign.patternClosing, [], kept⟩ else none := by
  rw [head?_ends_mark_seq]
  cases hafter : Text.after? ['"'] t with
  | none =>
    have hne : t ≠ Sign.patternClosing := by
      rintro rfl
      cases hafter
    rw [if_neg hne]
    rfl
  | some rest =>
    rw [Text.after?_eq_some_iff.1 hafter, Option.bind_some, Cursor.pass, head?_ends_mark_textEnd]
    simp [Sign.patternClosing, Sign.closing]

theorem head?_ends_lastStop (b t : Text) (kept : List Capture) :
    ((seq (group 3 (many false (one onLine)))
      (seq (mark ['"']) (seq (mark Sign.closing) textEnd))).ends ⟨b, t, kept⟩).head? =
      (lastStop? t).map fun stop =>
        ⟨b ++ stop ++ Sign.patternClosing, [], ⟨3, b, stop⟩ :: kept⟩ := by
  rw [head?_ends_group_seq, if_neg (by simp), lastStop?_eq_findSome?, List.map_findSome?]
  congr 1
  funext cut
  rw [Function.comp_apply, head?_ends_quote_textEnd]
  split <;> rfl

/-- What is matched behind a name is for what is parsed there. -/
theorem ofMatch?_behindName (b t lead name : Text) :
    ((seq (maybe (framing (group 2 (many false (one onLine))) (group 3 (many false (one onLine)))))
      (seq (mark Sign.closing) textEnd)).ends ⟨b, t, [⟨1, lead, name⟩]⟩).head?.bind ofMatch? =
      (lastBehindName? t).map (FieldSpec.mk name) := by
  rw [head?_ends_maybe_seq, ends_framing_seq, head?_ends_mark_seq, head?_ends_mark_textEnd,
    lastBehindName?]
  -- Without a pattern the sides were not matched, and count as empty; with one the second and the
  -- third group are the sides.
  cases hpattern : Text.after? Sign.pattern t with
  | none =>
    rw [Option.bind_none, Option.bind_none, Option.none_or, Option.none_or]
    split <;> rfl
  | some framed =>
    have hne : t ≠ Sign.closing := by
      rintro rfl
      cases hpattern
    rw [if_neg hne, if_neg hne, Option.or_none, Option.or_none, Option.bind_some, Option.bind_some,
      Cursor.pass, head?_ends_group_upTo_seq noneOnward_lastStop? onLine_of_mem_marker
        head?_ends_lastStop]
    cases Text.upTo? Sign.marker framed with
    | none => rfl
    | some start =>
      rw [Option.bind_some, Option.bind_some]
      cases lastStop? start.2 <;> rfl

theorem head?_ends_lastBehindName_cons {x : Char} (hx : isNameChar x = true) (b t : Text)
    (kept : List Capture) (start stop : Pattern) :
    ((seq (maybe (framing start stop)) (seq (mark Sign.closing) textEnd)).ends
      ⟨b, x :: t, kept⟩).head? = none := by
  obtain ⟨hpattern, hclosing⟩ := after?_cons_of_isNameChar hx t
  rw [head?_ends_maybe_seq, ends_framing_seq, head?_ends_mark_seq, head?_ends_mark_seq, hpattern,
    hclosing]
  rfl

theorem ofToken?_eq (t : Text) :
    ofToken? t = (Text.after? Sign.opening t).bind fun inner => (readName? inner).bind fun named =>
      (lastBehindName? named.2).map (FieldSpec.mk named.1) := by
  -- step by step, as for a token in a header; here the closing braces are asked for by comparing
  -- all that is left
  unfold ofToken?
  cases Text.after? Sign.opening t with
  | none => rfl
  | some inner =>
    rw [Option.bind_eq_bind, Option.bind_some, Option.bind_some]
    cases readName? inner with
    | none => rfl
    | some named =>
      obtain ⟨name, more⟩ := named
      simp only [Option.bind_eq_bind, Option.bind_some, lastBehindName?, Text.upTo?, lastStop?]
      by_cases hclosing : more = Sign.closing
      · rw [if_pos hclosing, if_pos hclosing, hclosing]
        rfl
      · rw [if_neg hclosing, if_neg hclosing, Option.or_none]
        cases Text.after? Sign.pattern more with
        | none => rfl
        | some framed =>
          simp only [Option.bind_some]
          cases Text.cut? Sign.marker framed with
          | none => rfl
          | some start =>
            obtain ⟨start, last⟩ := start
            simp only [Option.bind_some]
            cases oneLine? start with
            | none => cases Text.before? Sign.patternClosing last <;> rfl
            | some start =>
              simp only [Option.bind_some, Option.map_some]
              cases Text.before? Sign.patternClosing last with
              | none => rfl
              | some stop =>
                simp only [Option.bind_some]
                cases oneLine? stop <;> rfl

/-- **A token by itself is parsed as its expression matches it.** -/
theorem ofToken?_eq_search? (t : Text) :
    ofToken? t = (wholePattern.search? [] t).bind ofMatch? := by
  have hkeep (c d : Cursor) : ofMatch? (c.keep 0 d) = ofMatch? c := rfl
  have hstart : textStart.ends ⟨[], t, []⟩ = [⟨[], t, []⟩] := if_pos rfl
  rw [wholePattern, search?_textStart, at?_eq, Option.bind_map, head?_ends_seq, hstart,
    List.findSome?_singleton, head?_ends_mark_seq, ofToken?_eq]
  simp only [Function.comp_def, hkeep]
  cases Text.after? Sign.opening t with
  | none => rfl
  | some inner =>
    rw [Option.bind_some, Option.bind_some, Cursor.pass, head?_ends_seq, ends_group,
      List.findSome?_map, findSome?_ends_run, readName?_eq]
    · split
      · rfl
      · rw [Option.bind_some, Function.comp_apply, Cursor.keep, ofMatch?_behindName]
        simp
    · intro b x v hx
      exact head?_ends_lastBehindName_cons hx _ _ _ _ _

end FieldSpec

/-! ### Headers -/

/-- **A header is read exactly as it is written.**  A text is read as some specs when it is tokens
of these with white space around them; it is so in one way only; the tokens of the specs, framed
with a space between each two and taken out of the frame, are read as the specs again; and any text
that is no header is complained about, on its line. -/
theorem Checked.headerFrom_iff_headerText :
    (∀ (n : Nat) (inner : Text) (specs : List FieldSpec), headerFrom n inner 0 = .ok specs ↔
        ∃ header : HeaderText, header.text = inner ∧ header.specs = specs) ∧
      Function.Injective HeaderText.text ∧
      (∀ (header : HeaderText) (comment : Comment) (n : Nat), ∃ inner,
        comment.strip? (comment.wrap (Text.join [' '] (header.specs.map FieldSpec.token))) =
            some inner ∧
          headerFrom n inner 0 = .ok header.specs) ∧
      ∀ (n : Nat) (inner : Text),
        (∃ context,
            headerFrom n inner 0 = .error (.error (.grammar n .malformedField (some context)))) ↔
          ¬ ∃ header : HeaderText, header.text = inner := by
  -- The checked loop has the outcome of the reader, whose outcomes are those of the grammar; all
  -- four parts are read off this.
  have hread (n : Nat) (inner : Text) : headerFrom n inner 0 = done (FieldSpec.ofHeader n inner) :=
    headerFrom_eq n [] inner
  have hok (n : Nat) (inner : Text) (specs : List FieldSpec) :
      headerFrom n inner 0 = .ok specs ↔ FieldSpec.ofHeader n inner = .ok specs := by
    rw [hread]
    cases FieldSpec.ofHeader n inner <;> simp
  refine ⟨fun n inner specs => ?_, HeaderText.text_injective, fun header comment n => ?_,
    fun n inner => ?_⟩
  · rw [hok, HeaderText.ofHeader_eq_ok_iff]
  · have hparts {spec : FieldSpec} (hspec : spec ∈ header.specs) : spec.Writable ∧ spec.Readable :=
      HeaderText.writable_readable_of_mem hspec
    have hframed : ∃ inner, comment.strip? (comment.headerLine header.specs) = some inner ∧
        FieldSpec.ofHeader n inner = .ok header.specs :=
      (Comment.ofHeader_headerLine_iff fun spec hspec => (hparts hspec).1).2
        fun spec hspec => (hparts hspec).2
    obtain ⟨inner, hstrip, hspecs⟩ := hframed
    exact ⟨inner, hstrip, (hok n inner _).2 hspecs⟩
  · rw [← HeaderText.ofHeader_eq_error_iff (n := n), hread]
    cases FieldSpec.ofHeader n inner <;> simp

end FieldedText
