/-
FieldedText/Proofs/CheckedMarkup.lean

Lines of markup are read without a panic.

Each checked reader is shown to have the outcome of the reader that cuts texts in
pieces.  The loop that reads a header holds the size of what it has read, and each
token it reads begins with a brace, so that the next round begins further on
(`headerFrom_eq`).  A block is open from its first line to its last: what a line leaves
open is never closed, and so no line is added to a closed block (`feed_eq`).
-/
import FieldedText.Checked.Segment
import FieldedText.Proofs.Access
import FieldedText.Proofs.Header
import FieldedText.Proofs.Segment

namespace FieldedText.Checked

variable {comment : Comment} {n : Nat} {a t : Text} {current : Block}

/-! ### Directives -/

theorem directive_eq (n : Nat) (content : Text) :
    directive n content = done (Directive.find n content) := by
  rw [directive]
  cases hlist : Directive.findList? content with
  | some block => simp [Directive.find, hlist]
  | none =>
    cases hcut : Text.cut? Directive.commentToken content with
    | none => rw [indexOf?_eq_none hcut]
    | some found =>
      obtain ⟨start, stop⟩ := found
      have hcontent := Text.cut?_append hcut
      have hstart : sliceTo content start.byteLength = .ok start :=
        sliceTo_eq (by rw [hcontent, List.append_assoc]) rfl
      have hstop : sliceFrom content (start.byteLength + Directive.commentToken.byteLength) =
          .ok stop :=
        sliceFrom_eq hcontent (by rw [Text.byteLength_append])
      simp [indexOf?_of_cut? hcut, hstart, hstop, Directive.find, hlist, hcut]

theorem scanLines_eq (settings : Settings) (n : Nat) (ls : List Text) :
    scanLines settings n ls = done ((Directive.ofLines n ls).map settings.applyAll) := by
  induction ls generalizing settings n with
  | nil => rfl
  | cons raw ls ih =>
    rw [scanLines, directive_eq, Directive.ofLines]
    cases Directive.find n (Text.plain raw) with
    | error e => rfl
    | ok found =>
      cases found with
      | none =>
        simp only [done_ok, bind_ok, ih]
        cases Directive.ofLines (n + 1) ls <;> rfl
      | some directive =>
        simp only [done_ok, bind_ok, ih]
        cases Directive.ofLines (n + 1) ls <;> rfl

theorem scan_eq (settings : Settings) (document : Text) :
    scan settings document = done (settings.scan document) :=
  scanLines_eq settings 1 _

theorem lineKind_eq (comment : Comment) (n : Nat) (raw : Text) :
    lineKind comment n raw = done (LineKind.ofLine comment n raw) := by
  rw [lineKind, LineKind.ofLine, directive_eq]
  by_cases hblank : (Text.content raw).isBlank = true
  · simp [hblank]
  · simp only [hblank]
    cases Directive.find n (Text.content raw) with
    | error e => rfl
    | ok found => cases found <;> rfl

theorem isProse_eq (comment : Comment) (n : Nat) (raw : Text) :
    isProse comment n raw = .ok (LineKind.isProse comment n raw) := by
  rw [isProse, lineKind_eq, LineKind.isProse]
  cases LineKind.ofLine comment n raw with
  | error e => rfl
  | ok kind => cases kind <;> rfl

/-! ### Headers -/

theorem suspect_eq (t : Text) : suspect t = .ok (FieldSpec.suspect t) := by
  rw [suspect, FieldSpec.suspect]
  cases hcut : Text.cut? Sign.closing t with
  | none => rw [indexOf?_eq_none hcut]
  | some found =>
    obtain ⟨head, rest⟩ := found
    rw [indexOf?_of_cut? hcut]
    exact sliceTo_eq (Text.cut?_append hcut) (by rw [Text.byteLength_append])

/-- The white space at the beginning of a text is as long as the text is longer than without. -/
theorem skip_eq (t : Text) : minus t.byteLength (Text.trimStart t).byteLength =
    .ok (Text.byteLength (t.takeWhile Text.isSpace)) := by
  refine minus_eq ?_
  rw [Text.trimStart, ← Text.byteLength_append, List.takeWhile_append_dropWhile]

theorem headerFrom_nil (n : Nat) (a : Text) : headerFrom n a a.byteLength = .ok [] := by
  rw [headerFrom, sliceFrom_eq (List.append_nil a).symm rfl, bind_ok, skip_eq, bind_ok]
  exact dif_pos (Nat.le_refl _)

/-- White space is passed over: the loop does what it does behind it. The program passes over all
of it at once, and the reader character by character. -/
theorem headerFrom_of_space {c : Char} (hc : Text.isSpace c = true) (n : Nat) (a text : Text) :
    headerFrom n (a ++ c :: text) a.byteLength =
      headerFrom n (a ++ c :: text) (Text.byteLength (a ++ [c])) := by
  have hrest : sliceFrom (a ++ c :: text) a.byteLength = .ok (c :: text) := sliceFrom_eq rfl rfl
  have hlater : sliceFrom (a ++ c :: text) (Text.byteLength (a ++ [c])) = .ok text :=
    sliceFrom_eq (by simp) rfl
  have hreached : a.byteLength + Text.byteLength ((c :: text).takeWhile Text.isSpace) =
      Text.byteLength (a ++ [c]) + Text.byteLength (text.takeWhile Text.isSpace) := by
    rw [List.takeWhile_cons_of_pos hc]
    simp [Nat.add_assoc]
  rw [headerFrom, headerFrom, hrest, hlater, bind_ok, bind_ok, skip_eq, skip_eq, bind_ok, bind_ok]
  simp only [hreached]

theorem byteLength_lt (a : Text) (c : Char) (b : Text) :
    a.byteLength < Text.byteLength (a ++ c :: b) := by
  have hpos := c.utf8Size_pos
  rw [Text.byteLength_append, Text.byteLength_cons]
  omega

/-- What is no token is complained about. -/
theorem headerFrom_of_unread {c : Char} (hc : Text.isSpace c = false)
    (hread : FieldSpec.read? (c :: t) = none) (n : Nat) (a : Text) :
    headerFrom n (a ++ c :: t) a.byteLength =
      done (.error (.grammar n .malformedField (some (FieldSpec.suspect (c :: t))))) := by
  have hrest : sliceFrom (a ++ c :: t) a.byteLength = .ok (c :: t) := sliceFrom_eq rfl rfl
  rw [headerFrom, hrest, bind_ok, skip_eq, List.takeWhile_cons_of_neg (by simp [hc]), bind_ok,
    Text.byteLength_nil, Nat.add_zero, dif_neg (Nat.not_le.2 (byteLength_lt a c t)), hrest, bind_ok,
    hread, suspect_eq]
  rfl

/-- A token is read, and the loop goes on behind it, further on than it was. -/
theorem headerFrom_of_read? {c : Char} (hc : Text.isSpace c = false) {spec : FieldSpec}
    {rest : Text} (hread : FieldSpec.read? (c :: t) = some (spec, rest)) {next : Nat}
    (hnext : a.byteLength + (Text.byteLength (c :: t) - rest.byteLength) = next)
    (hon : a.byteLength < next) (n : Nat) :
    headerFrom n (a ++ c :: t) a.byteLength =
      headerFrom n (a ++ c :: t) next >>= fun specs => .ok (spec :: specs) := by
  have hrest : sliceFrom (a ++ c :: t) a.byteLength = .ok (c :: t) := sliceFrom_eq rfl rfl
  rw [headerFrom, hrest, bind_ok, skip_eq, List.takeWhile_cons_of_neg (by simp [hc]), bind_ok,
    Text.byteLength_nil, Nat.add_zero, dif_neg (Nat.not_le.2 (byteLength_lt a c t)), hrest, bind_ok,
    hread]
  simp only [hnext, dif_pos hon, pure_eq]

/-- **The loop that reads a header reads what is left of it, and goes on in every round.** The
offset it holds is the size of what it has read. -/
theorem headerFrom_eq (n : Nat) (a b : Text) :
    headerFrom n (a ++ b) a.byteLength = done (FieldSpec.scanHeader n 0 b) := by
  -- By strong induction on the text that is left, since a round takes a whole token, or one
  -- character of white space.
  induction hlen : b.length using Nat.strongRecOn generalizing a b with
  | ind k ih =>
    cases b with
    | nil =>
      rw [List.append_nil, headerFrom_nil]
      rfl
    | cons c text =>
      by_cases hc : Text.isSpace c = true
      · have hlater := ih text.length (by rw [← hlen]; simp) (a ++ [c]) text rfl
        rw [List.append_assoc, List.singleton_append] at hlater
        rw [headerFrom_of_space hc, hlater, FieldSpec.scanHeader, if_pos hc]
      · have hspace : Text.isSpace c = false := eq_false_of_ne_true hc
        cases hread : FieldSpec.read? (c :: text) with
        | none =>
          rw [headerFrom_of_unread hspace hread, FieldSpec.scanHeader, if_neg hc, hread]
        | some found =>
          obtain ⟨spec, rest⟩ := found
          obtain ⟨read, htoken⟩ := FieldSpec.eq_append_of_read? hread
          have hnext : a.byteLength + (Text.byteLength (c :: text) - rest.byteLength) =
              Text.byteLength (a ++ '{' :: read) := by
            rw [htoken, ← List.cons_append, Text.byteLength_append, Text.byteLength_append]
            omega
          have hshort : rest.length < k := by
            rw [← hlen, htoken, List.length_cons, List.length_append]
            omega
          have hlater := ih rest.length hshort (a ++ '{' :: read) rest rfl
          rw [List.append_assoc, List.cons_append, ← htoken] at hlater
          -- what was read begins with a brace, which takes room
          rw [headerFrom_of_read? hspace hread hnext (byteLength_lt a '{' read), hlater,
            FieldSpec.scanHeader_of_read? hread, done_map]

theorem blockOfHeader_eq (comment : Comment) (n : Nat) (header : Text) :
    blockOfHeader comment n header = done (Block.ofHeader comment n header) := by
  rw [blockOfHeader, Block.ofHeader]
  cases comment.strip? header with
  | none => rfl
  | some inner =>
    have hheader : headerFrom n inner 0 = done (FieldSpec.ofHeader n inner) :=
      headerFrom_eq n [] inner
    simp only [hheader, done_map, pure_eq]

/-! ### List templates -/

/-- The first asterisk of a name ends the path of its list, and the ones after it are left.
Counting them all, and looking behind the first, come to the same. -/
theorem first_marker {parts : List Name} {position : Nat}
    (h : parts.findIdx? (· = ListTemplate.marker) = some position) :
    position < parts.length ∧
      parts.takeWhile (· ≠ ListTemplate.marker) = parts.take position ∧
      parts.count ListTemplate.marker =
        (parts.drop (position + 1)).count ListTemplate.marker + 1 := by
  induction parts generalizing position with
  | nil => cases h
  | cons part parts ih =>
    rw [List.findIdx?_cons] at h
    by_cases hpart : part = ListTemplate.marker
    · simp only [hpart, decide_true, if_true, Option.some.injEq] at h
      subst h
      simp [hpart]
    · simp only [hpart, decide_false, Bool.false_eq_true, if_false, Option.map_eq_some_iff] at h
      obtain ⟨position, hposition, rfl⟩ := h
      obtain ⟨hlt, htake, hcount⟩ := ih hposition
      simpa [hpart, hlt, hcount] using htake

theorem prefixOf_eq (n : Nat) (name : Name) :
    prefixOf n name = done (ListTemplate.prefixOf n name) := by
  rw [prefixOf, ListTemplate.prefixOf]
  -- By the first asterisk: without one the name belongs to no list, and with it only another one
  -- behind it is an error.
  cases hfind : (Text.splitOn '.' name).findIdx? (· = ListTemplate.marker) with
  | none =>
    rw [List.findIdx?_eq_none_iff] at hfind
    have hcount : (Text.splitOn '.' name).count ListTemplate.marker = 0 :=
      List.count_eq_zero.2 fun hmem => by simpa using hfind _ hmem
    simp [hcount]
  | some position =>
    obtain ⟨hlt, htake, hcount⟩ := first_marker hfind
    by_cases hmore : ListTemplate.marker ∈ (Text.splitOn '.' name).drop (position + 1)
    · -- a second asterisk: the count is neither none nor one
      obtain ⟨k, hk⟩ : ∃ k,
          ((Text.splitOn '.' name).drop (position + 1)).count ListTemplate.marker = k + 1 :=
        Nat.exists_eq_add_one.2 (List.count_pos_iff.2 hmore)
      simp [hmore, hcount, hk]
    · have hzero := List.count_eq_zero.2 hmore
      have hfirst : elementsTo (Text.splitOn '.' name) position =
          .ok ((Text.splitOn '.' name).take position) :=
        if_pos (Nat.le_of_lt hlt)
      have hnone : ((Text.splitOn '.' name).drop (position + 1)).any
          (· = ListTemplate.marker) = false :=
        List.any_eq_false.2 fun part hpart heq => hmore (of_decide_eq_true heq ▸ hpart)
      simp only [hnone, hcount, hzero, hfirst, htake, Bool.false_eq_true, if_false, bind_ok,
        pure_eq, done_ok]

theorem prefixFrom_eq (n : Nat) (known : Option Text) (names : List Name) :
    prefixFrom n known names = done (ListTemplate.prefixFrom n known names) := by
  -- Both go through the names in the same way; only what a name says is asked of different
  -- readers.
  induction names generalizing known with
  | nil => rfl
  | cons name names ih =>
    rw [prefixFrom, ListTemplate.prefixFrom, prefixOf_eq]
    cases ListTemplate.prefixOf n name with
    | error e => rfl
    | ok found =>
      cases known with
      | none => cases found <;> exact ih _
      | some first =>
        cases found with
        | none => exact ih _
        | some second =>
          by_cases h : first = second
          · simpa only [done_ok, bind_ok, if_pos h] using ih _
          · simp only [done_ok, bind_ok, if_neg h, done_error]

/-! ### Segments -/

theorem append_eq (hc : current.closed = false) (more : Text) :
    append current more = .ok { current with text := current.text ++ more } := by
  simp [append, hc]

/-- **No line is added to a closed block**, when the block that is open is not closed. Prose is
the one kind of line that is added to it. -/
theorem feed_eq (hc : current.closed = false) (n : Nat) (raw : Text) :
    feed comment n current raw = done (Segment.feed comment n current raw) := by
  rw [feed, Segment.feed, lineKind_eq]
  cases LineKind.ofLine comment n raw with
  | error e => rfl
  | ok kind =>
    cases kind with
    | blank => rfl
    | directive found => rfl
    | header =>
      simp only [done_ok, bind_ok, blockOfHeader_eq]
      cases Block.ofHeader comment n raw <;> rfl
    | prose =>
      have hbegun : (current.beginAt n).closed = false := by
        rw [Block.beginAt]
        split <;> exact hc
      simp only [done_ok, bind_ok, append_eq hbegun]
      simp [Block.append, hbegun]

/-- What a line leaves open is not closed. -/
theorem closed_of_feed {next : Block} {closed : List Segment} {raw : Text}
    (hc : current.closed = false) (h : Segment.feed comment n current raw = .ok (closed, next)) :
    next.closed = false := by
  rcases FieldedText.Segmentation.feed_cases hc h with ⟨-, -, rfl⟩ | ⟨_, -, -, rfl⟩ |
    ⟨_, _, -, -, -, -, rfl⟩ | ⟨-, -, rfl⟩
  · rfl
  · rfl
  · rfl
  · exact hc

/-- A segmentation of which the failure, if there is one, is no panic. -/
def Segmentation.done (segmentation : FieldedText.Segmentation) : Segmentation :=
  ⟨segmentation.segments, segmentation.failure.map .error⟩

/-- A document is cut as it is without checks, from any open block that is not closed. By
induction on the lines, as what a line leaves open is not closed either. -/
theorem Segmentation.ofLines_eq (hc : current.closed = false) (n : Nat) (ls : List Text) :
    ofLines comment n current ls =
      done (FieldedText.Segmentation.ofLines comment n current ls) := by
  induction ls generalizing n current with
  | nil => rfl
  | cons raw ls ih =>
    rw [ofLines, FieldedText.Segmentation.ofLines, feed_eq hc]
    cases hfeed : Segment.feed comment n current raw with
    | error e => rfl
    | ok result =>
      obtain ⟨closed, next⟩ := result
      simp only [done_ok, ih (closed_of_feed hc hfeed)]
      rfl

theorem Segmentation.ofText_eq (comment : Comment) (document : Text) :
    ofText comment document = done (FieldedText.Segmentation.ofText comment document) :=
  ofLines_eq rfl 1 _

theorem Segmentation.complete_done (segmentation : FieldedText.Segmentation) :
    (done segmentation).complete = Checked.done segmentation.complete := by
  obtain ⟨segments, failure⟩ := segmentation
  cases failure <;> rfl

end FieldedText.Checked
