/-
FieldedText/Proofs/PlaceholderPattern.lean

The expression of placeholders, and all of its matches in a text.

A placeholder is read where its expression matches (`at?_pattern`): each of the
runs in it goes as far as it can, for nothing that may follow a run begins with
one of its characters.

The placeholders of a text are all of the matches in it, the first one and then
those in what is left behind it (`placesOf_eq_searchAll`).  A search passes over
a literal text, and so the text before a match is the literal text of its hole;
it may end in opening braces, which belong to no placeholder.
-/
import FieldedText.Proofs.CheckedFraming
import FieldedText.Proofs.HeaderPattern
import FieldedText.Proofs.Location

namespace FieldedText

open Pattern

/-! ### All matches -/

namespace Pattern

/-- The ends of the matches in a text that follows `before`: of the first one, and of those in what
is left behind it.  The expression is one that does not match the empty text. -/
def searchAll (p : Pattern) (before text : Text) : List Cursor :=
  match p.search? before text with
  | none => []
  | some found =>
    if found.rest.length < text.length then found :: p.searchAll found.before found.rest
    else [found]
termination_by text.length

variable {p q : Pattern} {kind : Char → Bool} {b t : Text} {c : Cursor}

theorem searchAll_of_none (h : p.search? b t = none) : p.searchAll b t = [] := by
  rw [searchAll, h]

theorem searchAll_of_some (h : p.search? b t = some c) (hless : c.rest.length < t.length) :
    p.searchAll b t = c :: p.searchAll c.before c.rest := by
  rw [searchAll, h]
  exact if_pos hless

/-- A greedy run goes as far as it can where nothing follows it before a character of the kind. -/
theorem head?_ends_greedy_seq
    (hq : ∀ b x v kept, kind x = true → (q.ends ⟨b, x :: v, kept⟩).head? = none) (b t : Text)
    (kept : List Capture) :
    ((seq (many true (one kind)) q).ends ⟨b, t, kept⟩).head? =
      (q.ends ⟨b ++ t.takeWhile kind, t.dropWhile kind, kept⟩).head? := by
  rw [head?_ends_many_seq, findSome?_cuts_of_stop]
  intro u x v hx
  exact hq _ x v kept hx

end Pattern

namespace Placeholder

variable {b t lead : Text} {p : Placeholder}

/-! ### The expression of a placeholder -/

/-- A placeholder: a name between braces, with white space around it. -/
def pattern : Pattern :=
  seq (mark Sign.opening) (seq (many true (one Text.isSpace))
    (seq (group 1 (run true FieldSpec.isNameChar))
      (seq (many true (one Text.isSpace)) (mark Sign.closing))))

/-- The white space before the name of a placeholder. -/
def space (p : Placeholder) : Text := (p.token.drop Sign.opening.length).takeWhile Text.isSpace

/-- The end of a placeholder as a match ends there: the match is kept, and the name in it. The
numbers are those of the groups of the expression. -/
def cursor (before : Text) (p : Placeholder) (rest : Text) : Cursor where
  before := before ++ p.token
  rest := rest
  kept := [⟨0, before, p.token⟩, ⟨1, before ++ Sign.opening ++ p.space, p.name⟩]

/-- Behind a name: white space, and the closing braces. -/
theorem head?_ends_behindName (b t : Text) (kept : List Capture) :
    ((seq (many true (one Text.isSpace)) (mark Sign.closing)).ends ⟨b, t, kept⟩).head? =
      (Text.after? Sign.closing (Text.trimStart t)).map fun rest =>
        ⟨b ++ t.takeWhile Text.isSpace ++ Sign.closing, rest, kept⟩ := by
  rw [head?_ends_greedy_seq, head?_ends_mark]
  · rfl
  · intro b x v kept hx
    have hbrace : '}' ≠ x := by
      rintro rfl
      cases hx
    rw [head?_ends_mark, Sign.closing, Text.after?, if_neg hbrace]
    rfl

/-- A name cannot be over where one more of its characters follows. -/
theorem head?_ends_behindName_cons {x : Char} (hx : FieldSpec.isNameChar x = true) (b t : Text)
    (kept : List Capture) :
    ((seq (many true (one Text.isSpace)) (mark Sign.closing)).ends ⟨b, x :: t, kept⟩).head? =
      none := by
  have hspace : Text.isSpace x = false := FieldSpec.isSpace_eq_false_of_isNameChar hx
  have htrim : Text.trimStart (x :: t) = x :: t := List.dropWhile_cons_of_neg (by simp [hspace])
  rw [head?_ends_behindName, htrim, (FieldSpec.after?_cons_of_isNameChar hx t).2]
  rfl

/-- The name, which is kept, and what is behind it. -/
theorem head?_ends_name (b t : Text) (kept : List Capture) :
    ((seq (group 1 (run true FieldSpec.isNameChar))
      (seq (many true (one Text.isSpace)) (mark Sign.closing))).ends ⟨b, t, kept⟩).head? =
      (FieldSpec.readName? t).bind fun named =>
        (Text.after? Sign.closing (Text.trimStart named.2)).map fun rest =>
          ⟨b ++ named.1 ++ named.2.takeWhile Text.isSpace ++ Sign.closing, rest,
            ⟨1, b, named.1⟩ :: kept⟩ := by
  rw [head?_ends_seq, ends_group, List.findSome?_map, findSome?_ends_run, FieldSpec.readName?_eq]
  · split
    · rfl
    · rw [Option.bind_some, Function.comp_apply, Cursor.keep, head?_ends_behindName]
      simp
  · intro b x v hx
    exact head?_ends_behindName_cons hx _ _ _

/-- The white space before a name is not a part of it. -/
theorem head?_ends_name_cons {x : Char} (hx : Text.isSpace x = true) (b t : Text)
    (kept : List Capture) :
    ((seq (group 1 (run true FieldSpec.isNameChar))
      (seq (many true (one Text.isSpace)) (mark Sign.closing))).ends ⟨b, x :: t, kept⟩).head? =
      none := by
  have hname : FieldSpec.isNameChar x = false := by simp [FieldSpec.isNameChar, hx]
  rw [head?_ends_name, FieldSpec.readName?_eq, List.takeWhile_cons_of_neg (by simp [hname]),
    if_pos rfl]
  rfl

theorem space_of_readName? {inner more : Text} {name : Name}
    (h : FieldSpec.readName? (Text.trimStart inner) = some (name, more)) (after : Text) :
    space ⟨Sign.opening ++ inner.takeWhile Text.isSpace ++ name ++ after, name⟩ =
      inner.takeWhile Text.isSpace := by
  obtain ⟨hne, hall⟩ := (FieldSpec.of_readName? h).1
  obtain ⟨c, name, rfl⟩ := List.exists_cons_of_ne_nil hne
  have hc : Text.isSpace c = false :=
    FieldSpec.isSpace_eq_false_of_isNameChar (hall c (List.mem_cons_self ..))
  have hspace : ∀ d ∈ inner.takeWhile Text.isSpace, Text.isSpace d = true :=
    fun d hd => List.all_eq_true.1 (List.all_takeWhile (l := inner)) d hd
  rw [space, List.append_assoc, List.append_assoc, List.drop_left]
  exact (trimStart_of_not_space hc hspace _).2

/-- **A placeholder is read where its expression matches.** -/
theorem at?_pattern (b t : Text) :
    pattern.at? b t = (read? t).map fun found => found.1.cursor b found.2 := by
  rw [at?_eq, pattern, head?_ends_mark_seq, read?]
  simp only [Option.bind_eq_bind]
  cases Text.after? Sign.opening t with
  | none => rfl
  | some inner =>
    rw [Option.bind_some, Option.bind_some, Cursor.pass,
      head?_ends_greedy_seq fun b x v kept hx => head?_ends_name_cons hx b v kept, head?_ends_name,
      ← Text.trimStart]
    cases hname : FieldSpec.readName? (Text.trimStart inner) with
    | none => rfl
    | some named =>
      obtain ⟨name, more⟩ := named
      rw [Option.bind_some, Option.bind_some]
      cases Text.after? Sign.closing (Text.trimStart more) with
      | none => rfl
      | some rest =>
        have hspace := space_of_readName? hname (more.takeWhile Text.isSpace ++ Sign.closing)
        simpa [Cursor.keep, cursor] using hspace.symm

/-! ### The placeholders of a text -/

/-- A search passes over a literal text. -/
theorem search?_pattern_append (hlead : Silent lead) (hp : p.IsToken) (b rest : Text) :
    pattern.search? b (lead ++ p.token ++ rest) = some (p.cursor (b ++ lead) rest) := by
  induction lead generalizing b with
  | nil =>
    have hhere : pattern.at? b (p.token ++ rest) = some (p.cursor b rest) := by
      rw [at?_pattern, read?_append hp]
      rfl
    obtain ⟨u, hu, -, -⟩ := hp.eq_cons
    rw [hu] at hhere
    rw [List.nil_append, List.append_nil, hu]
    exact search?_cons_of_some hhere
  | cons c lead ih =>
    have hhere : pattern.at? b (c :: (lead ++ p.token ++ rest)) = none := by
      rw [at?_pattern, Template.read?_eq_none_of_silent hlead hp]
      rfl
    rw [List.cons_append, List.cons_append, search?_cons_of_none hhere,
      ih (silent_cons_iff.1 hlead).2]
    simp

theorem search?_pattern_of_silent (h : Silent t) (b : Text) : pattern.search? b t = none := by
  refine search?_eq_none fun passed rest ht => ?_
  rw [at?_pattern, Option.map_eq_none_iff]
  cases hread : read? rest with
  | none => rfl
  | some found =>
    obtain ⟨q, after⟩ := found
    have hin : q.token <:+: t := ⟨passed, after, by rw [ht, eq_append_of_read? hread]; simp⟩
    exact absurd hin (h q (isToken_of_read? hread))

end Placeholder

namespace Checked

/-- The place of a match. -/
def Place.ofMatch? (c : Cursor) : Option Place :=
  (c.capture? 0).bind fun token => (c.capture? 1).map fun name => ⟨name.value, token.extent⟩

theorem Place.ofMatch?_cursor (before : Text) (p : Placeholder) (rest : Text) :
    ofMatch? (p.cursor before rest) =
      some ⟨p.name, before.byteLength, (before ++ p.token).byteLength⟩ := rfl

/-- The matches in a template that was cut are the places of its holes. By induction on the holes:
the search passes over the literal text before the first one and goes on behind it. -/
theorem filterMap_searchAll {template : Template} (h : template.IsCut) (b : Text) :
    (Placeholder.pattern.searchAll b template.text).filterMap Place.ofMatch? =
      placesFrom b.byteLength template.holes := by
  obtain ⟨holes, tail⟩ := template
  induction holes generalizing b with
  | nil =>
    have hnone : Placeholder.pattern.search? b (Template.text ⟨[], tail⟩) = none :=
      Placeholder.search?_pattern_of_silent h.tail b
    rw [searchAll_of_none hnone]
    rfl
  | cons hole holes ih =>
    obtain ⟨⟨hlead, hp⟩, hholes⟩ := List.forall_mem_cons.1 h.holes
    have htext : Template.text ⟨hole :: holes, tail⟩ =
        hole.lead ++ hole.placeholder.token ++ Template.text ⟨holes, tail⟩ := by
      rw [Template.text_cons]
    have hfound := Placeholder.search?_pattern_append hlead hp b (Template.text ⟨holes, tail⟩)
    obtain ⟨u, hu, -, -⟩ := hp.eq_cons
    -- a placeholder is not empty, so the search goes on in a shorter text
    have hless : (Template.text ⟨holes, tail⟩).length <
        (hole.lead ++ hole.placeholder.token ++ Template.text ⟨holes, tail⟩).length := by
      rw [List.length_append, List.length_append, hu, List.length_cons]
      omega
    have hlater := ih (b ++ hole.lead ++ hole.placeholder.token) ⟨hholes, h.tail⟩
    rw [htext, searchAll_of_some hfound hless, List.filterMap_cons_some (Place.ofMatch?_cursor ..),
      placesFrom]
    simp only [Text.byteLength_append] at hlater ⊢
    exact congrArg _ hlater

/-- **The placeholders of a text are the matches of their expression**, from left to right. -/
theorem placesOf_eq_searchAll (t : Text) :
    placesOf t = (Placeholder.pattern.searchAll [] t).filterMap Place.ofMatch? := by
  have hall := filterMap_searchAll (Template.isCut_ofText t) []
  rw [Template.text_ofText] at hall
  exact hall.symm

end Checked

end FieldedText
