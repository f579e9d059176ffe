/-
FieldedText/Proofs/Renaming.lean

Other names in the placeholders of a text.

The places of placeholders ascend and do not overlap (`placesFrom_ascending`), and
so a text can be taken apart at them and put together with other placeholders by
byte offsets, without a panic (`gapsFrom_eq`, `replaceFrom_eq`).  A placeholder
whose name is changed is written without white space.

What a renamed text is cut into is what it was put together from, since its
literal texts are those of a text that was cut (`Template.ofText_rename`): a brace
before a placeholder or behind it makes no placeholder together with the new name.
So the texts beside the placeholders are the same as before, and the names are the
changed ones, one for each (`renameAll_faithful`).
-/
import FieldedText.Proofs.NoPanic
import FieldedText.Proofs.PlaceholderPattern

namespace FieldedText

namespace Template

/-- The literal texts of a template: before, between and behind its placeholders. There is one
more of them than there are placeholders. -/
def literals (template : Template) : List Text :=
  template.holes.map Hole.lead ++ [template.tail]

theorem literals_rename (change : Name → Name) (template : Template) :
    (template.rename change).literals = template.literals := by
  simp [literals, rename]

theorem text_rename_cons (change : Name → Name) (hole : Hole) (holes : List Hole) (tail : Text) :
    (rename change ⟨hole :: holes, tail⟩).text =
      hole.lead ++ (Placeholder.ofName (change hole.placeholder.name)).token ++
        (rename change ⟨holes, tail⟩).text :=
  text_cons ⟨hole.lead, .ofName (change hole.placeholder.name)⟩ _ tail

end Template

namespace Checked

open Template

variable {before t : Text} {offset : Nat} {hole : Hole} {holes : List Hole} {template : Template}
  {place : Place} {change : Name → Name}

/-! ### Places -/

/-- The places of placeholders lie within the text that the holes are. -/
theorem placesFrom_within (h : place ∈ placesFrom offset holes) :
    offset ≤ place.extent.start ∧ place.extent.start ≤ place.extent.stop ∧
      place.extent.stop ≤ offset + Text.byteLength (holes.flatMap holeText) := by
  induction holes generalizing offset with
  | nil => cases h
  | cons hole holes ih =>
    rw [placesFrom, List.mem_cons] at h
    rw [List.flatMap_cons, holeText, Text.byteLength_append, Text.byteLength_append]
    rcases h with rfl | h
    · dsimp only
      omega
    · have hlater := ih h
      omega

/-- **Each placeholder begins where the one before it has ended, or further on.** -/
theorem placesFrom_ascending (offset : Nat) (holes : List Hole) :
    (placesFrom offset holes).Pairwise fun p q => p.extent.stop ≤ q.extent.start := by
  induction holes generalizing offset with
  | nil => exact .nil
  | cons hole holes ih => exact .cons (fun q hq => (placesFrom_within hq).1) (ih _)

/-- A text that follows another, cut behind its first hole. -/
theorem append_text_cons (before : Text) (hole : Hole) (holes : List Hole) (tail : Text) :
    before ++ Template.text ⟨hole :: holes, tail⟩ =
      before ++ hole.lead ++ hole.placeholder.token ++ Template.text ⟨holes, tail⟩ := by
  rw [Template.text_cons]
  simp

/-- The first literal text is sliced out of the text. -/
theorem slice_hole_lead (before : Text) (hole : Hole) (rest : Text) :
    slice (before ++ hole.lead ++ hole.placeholder.token ++ rest) before.byteLength
      (before.byteLength + hole.lead.byteLength) = .ok hole.lead :=
  slice_eq (by rw [List.append_assoc _ _ rest]) rfl (by rw [Text.byteLength_append])

/-- What stands in a place is the placeholder of a hole. -/
theorem exists_slice_placesFrom (before : Text) (htext : t = before ++ template.text)
    (h : place ∈ placesFrom before.byteLength template.holes) :
    ∃ hole ∈ template.holes, hole.placeholder.name = place.name ∧
      place.extent.stop = place.extent.start + hole.placeholder.token.byteLength ∧
      slice t place.extent.start place.extent.stop = .ok hole.placeholder.token := by
  obtain ⟨holes, tail⟩ := template
  induction holes generalizing before with
  | nil => cases h
  | cons hole holes ih =>
    rw [append_text_cons] at htext
    rcases List.mem_cons.1 h with rfl | h
    · refine ⟨hole, List.mem_cons_self .., rfl, rfl, slice_eq htext ?_ ?_⟩
      · rw [Text.byteLength_append]
      · rw [Text.byteLength_append, Text.byteLength_append]
    · rw [← Text.byteLength_append, ← Text.byteLength_append] at h
      obtain ⟨other, hother, hfound⟩ := ih _ htext h
      exact ⟨other, List.mem_cons_of_mem _ hother, hfound⟩

/-! ### Taking a text apart -/

/-- The texts before, between and behind some places of a text, from an offset on. -/
def gapsFrom (text : Text) : Nat → List Place → Run (List Text)
  | offset, [] => do return [← sliceFrom text offset]
  | offset, place :: places => do
    let gap ← slice text offset place.extent.start
    return gap :: (← gapsFrom text place.extent.stop places)

/-- The texts before, between and behind the placeholders of a text. They are sliced out of the
text by byte offsets, and so they speak of the text and not of how it is cut. -/
def gaps (text : Text) : Run (List Text) := gapsFrom text 0 (placesOf text)

theorem gapsFrom_eq (before : Text) (template : Template) :
    gapsFrom (before ++ template.text) before.byteLength
      (placesFrom before.byteLength template.holes) = .ok template.literals := by
  obtain ⟨holes, tail⟩ := template
  induction holes generalizing before with
  | nil =>
    rw [placesFrom, gapsFrom, sliceFrom_eq rfl rfl]
    rfl
  | cons hole holes ih =>
    have hlater := ih (before ++ hole.lead ++ hole.placeholder.token)
    simp only [Text.byteLength_append] at hlater
    rw [append_text_cons, placesFrom, gapsFrom]
    simp only [slice_hole_lead, hlater, bind_ok, pure_eq]
    rfl

/-- The texts beside the placeholders are the literal texts that the text is cut into. -/
theorem gaps_eq (t : Text) : gaps t = .ok (Template.ofText t).literals := by
  have hgaps := gapsFrom_eq [] (Template.ofText t)
  rwa [List.nil_append, Template.text_ofText] at hgaps

/-! ### Putting a text together -/

/-- A text from an offset on, with other texts in some places. -/
def replaceFrom (text : Text) (new : Place → Text) : Nat → List Place → Run Text
  | offset, [] => sliceFrom text offset
  | offset, place :: places => do
    let gap ← slice text offset place.extent.start
    return gap ++ new place ++ (← replaceFrom text new place.extent.stop places)

/-- A text with every name in its placeholders changed, and no white space in these. The text is
put together from slices, each of which might panic. -/
def renameAll (change : Name → Name) (text : Text) : Run Text :=
  replaceFrom text (fun place => (Placeholder.ofName (change place.name)).token) 0 (placesOf text)

theorem replaceFrom_eq (change : Name → Name) (before : Text) (template : Template) :
    replaceFrom (before ++ template.text)
        (fun place => (Placeholder.ofName (change place.name)).token) before.byteLength
        (placesFrom before.byteLength template.holes) =
      .ok (template.rename change).text := by
  obtain ⟨holes, tail⟩ := template
  induction holes generalizing before with
  | nil => exact sliceFrom_eq rfl rfl
  | cons hole holes ih =>
    have hlater := ih (before ++ hole.lead ++ hole.placeholder.token)
    simp only [Text.byteLength_append] at hlater
    rw [append_text_cons, placesFrom, replaceFrom, text_rename_cons]
    simp only [slice_hole_lead, hlater, bind_ok, pure_eq]

theorem renameAll_eq (change : Name → Name) (t : Text) :
    renameAll change t = .ok ((Template.ofText t).rename change).text := by
  have hreplaced := replaceFrom_eq change [] (Template.ofText t)
  rwa [List.nil_append, Template.text_ofText] at hreplaced

/-! ### Renamed texts -/

/-- Some places of a text are those of its placeholders. -/
structure Located (t : Text) (places : List Place) : Prop where
  /-- They are the matches of the expression of placeholders. -/
  searched : places = (Placeholder.pattern.searchAll [] t).filterMap Place.ofMatch?
  /-- They are in order, and do not overlap. -/
  ascending : places.Pairwise fun p q => p.extent.stop ≤ q.extent.start
  /-- They have an extent, and do not go beyond the text. -/
  within : ∀ place ∈ places,
    place.extent.start < place.extent.stop ∧ place.extent.stop ≤ t.byteLength
  /-- In each there is a placeholder of its name. -/
  written : ∀ place ∈ places, ∃ p : Placeholder, p.IsToken ∧ p.name = place.name ∧
    slice t place.extent.start place.extent.stop = .ok p.token

/-- A text differs from another one in what is written in its placeholders only. Both are taken
apart anew, so a brace that came to stand beside another one would show. -/
structure Renames (change : Name → Name) (t renamed : Text) : Prop where
  /-- There is a changed name for each name, in the same order. -/
  names : (placesOf renamed).map Place.name = (placesOf t).map fun place => change place.name
  /-- The texts before, between and behind the placeholders are the same. -/
  gaps : ∃ texts, gaps t = .ok texts ∧ gaps renamed = .ok texts
  /-- No white space is left in the placeholders. -/
  written : ∀ place ∈ placesOf renamed,
    slice renamed place.extent.start place.extent.stop =
      .ok (Placeholder.ofName place.name).token

/-- A placeholder takes room. -/
theorem byteLength_token_pos {p : Placeholder} (hp : p.IsToken) : 0 < p.token.byteLength := by
  obtain ⟨u, hu, -, -⟩ := hp.eq_cons
  rw [hu, Text.byteLength_cons]
  exact Nat.add_pos_left (Char.utf8Size_pos _) _

/-- In the place of a placeholder it is written. -/
theorem exists_token_of_mem_placesOf (h : place ∈ placesOf t) :
    ∃ p : Placeholder, p.IsToken ∧ p.name = place.name ∧
      place.extent.stop = place.extent.start + p.token.byteLength ∧
      slice t place.extent.start place.extent.stop = .ok p.token := by
  have htext : t = [] ++ (Template.ofText t).text := (Template.text_ofText t).symm
  obtain ⟨hole, hhole, hfound⟩ := exists_slice_placesFrom [] htext h
  exact ⟨hole.placeholder, ((isCut_ofText t).holes hole hhole).2, hfound⟩

theorem isName_of_mem_placesOf (h : place ∈ placesOf t) : FieldSpec.IsName place.name := by
  obtain ⟨p, hp, hname, -⟩ := exists_token_of_mem_placesOf h
  rw [← hname]
  exact hp.1

/-- The placeholders of a text take no more room than the text. -/
theorem byteLength_holes_le (t : Text) :
    Text.byteLength ((Template.ofText t).holes.flatMap holeText) ≤ t.byteLength := by
  conv => rhs; rw [← Template.text_ofText t, Template.text, Text.byteLength_append]
  exact Nat.le_add_right ..

theorem located_placesOf (t : Text) : Located t (placesOf t) where
  searched := placesOf_eq_searchAll t
  ascending := placesFrom_ascending 0 _
  within := by
    intro place h
    obtain ⟨p, hp, -, hstop, -⟩ := exists_token_of_mem_placesOf h
    have hpos := byteLength_token_pos hp
    have hwithin := (placesFrom_within h).2.2
    have hholes := byteLength_holes_le t
    omega
  written := by
    intro place h
    obtain ⟨p, hp, hname, -, hslice⟩ := exists_token_of_mem_placesOf h
    exact ⟨p, hp, hname, hslice⟩

/-- The renamed text is cut into the renamed template, from which all three parts follow. That is
where the new names have to be names. -/
theorem renames_rename (h : ∀ place ∈ placesOf t, FieldSpec.IsName (change place.name)) :
    Renames change t ((Template.ofText t).rename change).text := by
  have hnames : ∀ name ∈ (Template.ofText t).names, FieldSpec.IsName (change name) := by
    rw [← names_placesOf]
    exact List.forall_mem_map.2 h
  -- the renamed text is cut where it was put together, from which the three parts are read off
  have hcut : Template.ofText ((Template.ofText t).rename change).text =
      (Template.ofText t).rename change :=
    Template.ofText_rename (isCut_ofText t) hnames
  refine ⟨?_, ⟨_, gaps_eq t, ?_⟩, fun place hplace => ?_⟩
  · have hchanged : (placesOf t).map (fun place => change place.name) =
        ((placesOf t).map Place.name).map change := by
      rw [List.map_map]
      rfl
    rw [hchanged, names_placesOf, names_placesOf, hcut, names_rename]
  · rw [gaps_eq, hcut, literals_rename]
  · rw [placesOf, hcut] at hplace
    obtain ⟨hole, hhole, hname, -, hslice⟩ := exists_slice_placesFrom [] rfl hplace
    obtain ⟨old, -, rfl⟩ := List.mem_map.1 hhole
    rw [← hname]
    exact hslice

/-- **An entry of a list is its list template with the names of the entry.** -/
theorem renames_entryText {ordinal : Name} (ho : Name.isOrdinal ordinal = true) (t : Text) :
    Renames (ListTemplate.entryName ordinal) t (Document.entryText ordinal t) :=
  renames_rename fun _ h => ListTemplate.isName_entryName ho (isName_of_mem_placesOf h)

/-- **Renaming placeholders is faithful.**  The placeholders of a text are found from left to right
and do not overlap; and with other names put into them, each made of characters of names, the text
has these names in its placeholders, one for each and in the same order, and the same texts before,
between and behind them. -/
theorem renameAll_faithful (t : Text) :
    Located t (placesOf t) ∧
      ∀ change : Name → Name,
        renameAll change t = .ok ((Template.ofText t).rename change).text ∧
          ((∀ place ∈ placesOf t, FieldSpec.IsName (change place.name)) →
            Renames change t ((Template.ofText t).rename change).text) :=
  ⟨located_placesOf t, fun change => ⟨renameAll_eq change t, renames_rename⟩⟩

/-- Four placeholders among braces that belong to none: one in three braces, one behind opening
braces, one that may be written over two lines, and one that touches it. -/
def strayBraces (part before after : Text) : Text :=
  "«\x7b\x7b\x7ba.".toList ++ part ++ ".b\x7d\x7d\x7d \x7b\x7b \x7b\x7b".toList ++ part ++
    "\x7d\x7d\n\x7b\x7b".toList ++ before ++ part ++ ".c".toList ++ after ++
    "\x7d\x7d\x7b\x7b".toList ++ part ++ "\x7d\x7d\x7d\x7d \x7b\x7bx y\x7d\x7d \x7b\x7b\x7b".toList

/-- All of the braces stay where they are, and white space goes from the third placeholder only. -/
theorem renames_strayBraces :
    (placesOf (strayBraces ['*'] ['\t'] ['\n'])).map Place.name =
        ["a.*.b".toList, ['*'], "*.c".toList, ['*']] ∧
      (∀ place ∈ placesOf (strayBraces ['*'] ['\t'] ['\n']),
        FieldSpec.IsName (ListTemplate.entryName "12".toList place.name)) ∧
      Renames (ListTemplate.entryName "12".toList) (strayBraces ['*'] ['\t'] ['\n'])
        (strayBraces "12".toList [] []) := by
  have hnames : ∀ place ∈ placesOf (strayBraces ['*'] ['\t'] ['\n']),
      FieldSpec.IsName (ListTemplate.entryName "12".toList place.name) :=
    fun _ h => ListTemplate.isName_entryName (by decide) (isName_of_mem_placesOf h)
  have htext : ((Template.ofText (strayBraces ['*'] ['\t'] ['\n'])).rename
      (ListTemplate.entryName "12".toList)).text = strayBraces "12".toList [] [] := by
    decide +kernel
  have hrenames := ((renameAll_faithful (strayBraces ['*'] ['\t'] ['\n'])).2
    (ListTemplate.entryName "12".toList)).2 hnames
  rw [htext] at hrenames
  exact ⟨by decide +kernel, hnames, hrenames⟩

end Checked

end FieldedText
