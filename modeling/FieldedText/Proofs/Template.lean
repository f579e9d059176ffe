/-
FieldedText/Proofs/Template.lean

Templates that are cut where they were put together.

A template whose literal texts hold no placeholder is the one that its text is
cut into (`ofText_text`).  Since a placeholder holds no brace after its opening,
it cannot begin in a literal text and end in the placeholder that follows; so
other names may be put into the placeholders of a template, and the text is still
cut at the same places (`ofText_rename`).

The second part is about the names of a list's entries: they are names wherever
the names that they come from are.
-/
import FieldedText.Data.Order
import FieldedText.Document.ListTemplate
import FieldedText.Markup.Template
import FieldedText.Proofs.Header

namespace FieldedText

/-! ### Placeholders -/

namespace Placeholder

variable {t rest s x : Text} {p : Placeholder}

/-- A placeholder as it may be written: a name between braces, with white space around it. This is
what a reader of placeholders accepts, said without reading. -/
def IsToken (p : Placeholder) : Prop :=
  FieldSpec.IsName p.name ∧ ∃ a b, (∀ c ∈ a, Text.isSpace c = true) ∧
    (∀ c ∈ b, Text.isSpace c = true) ∧
    p.token = Sign.opening ++ (a ++ (p.name ++ (b ++ Sign.closing)))

theorem isToken_ofName {name : Name} (h : FieldSpec.IsName name) : IsToken (ofName name) :=
  ⟨h, [], [], by simp, by simp, by simp [ofName]⟩

/-- After its first two characters a placeholder holds no opening brace. -/
theorem IsToken.eq_cons (h : IsToken p) : ∃ u, p.token = '{' :: '{' :: u ∧ u ≠ [] ∧ '{' ∉ u := by
  obtain ⟨hname, a, b, ha, hb, htoken⟩ := h
  refine ⟨a ++ (p.name ++ (b ++ Sign.closing)), htoken, by simp [Sign.closing], ?_⟩
  have hspace {u : Text} (hu : ∀ c ∈ u, Text.isSpace c = true) : '{' ∉ u :=
    fun hmem => absurd (hu '{' hmem) (by decide)
  have hclose : '{' ∉ Sign.closing := by decide
  simp only [List.mem_append, not_or]
  exact ⟨hspace ha, hname.not_mem (by decide), hspace hb, hclose⟩

theorem trimStart_of_not_space {c : Char} (hc : Text.isSpace c = false) {a : Text}
    (ha : ∀ d ∈ a, Text.isSpace d = true) (u : Text) :
    Text.trimStart (a ++ c :: u) = c :: u ∧ (a ++ c :: u).takeWhile Text.isSpace = a := by
  constructor
  · rw [Text.trimStart, List.dropWhile_append_of_pos ha,
      List.dropWhile_cons_of_neg (by simp [hc])]
  · rw [List.takeWhile_append_of_pos ha, List.takeWhile_cons_of_neg (by simp [hc]),
      List.append_nil]

/-- **A placeholder is read as it was written, whatever follows it.** -/
theorem read?_append (h : IsToken p) (rest : Text) : read? (p.token ++ rest) = some (p, rest) := by
  obtain ⟨hname, a, b, ha, hb, htoken⟩ := h
  obtain ⟨token, name⟩ := p
  obtain ⟨c, name', rfl⟩ := List.exists_cons_of_ne_nil hname.1
  have hc : Text.isSpace c = false :=
    FieldSpec.isSpace_eq_false_of_isNameChar (hname.2 c (List.mem_cons_self ..))
  have hclosing : Sign.closing ++ rest = '}' :: ('}' :: rest) := rfl
  -- the name is over at the white space behind it, or at the closing braces
  have hmore : FieldSpec.readName? ((c :: name') ++ (b ++ (Sign.closing ++ rest))) =
      some (c :: name', b ++ (Sign.closing ++ rest)) := by
    cases b with
    | nil => exact FieldSpec.readName?_append hname (by decide) _
    | cons d b =>
      refine FieldSpec.readName?_append hname ?_ _
      have hd := hb d (List.mem_cons_self ..)
      simp [FieldSpec.isNameChar, hd]
  have hinner := trimStart_of_not_space hc ha (name' ++ (b ++ (Sign.closing ++ rest)))
  have hafter := trimStart_of_not_space (c := '}') (by decide) hb ('}' :: rest)
  have hsplit : token ++ rest =
      Sign.opening ++ (a ++ ((c :: name') ++ (b ++ (Sign.closing ++ rest)))) := by
    simp [show token = _ from htoken]
  rw [← hclosing] at hafter
  rw [hsplit, read?]
  simp only [Text.after?_append, Option.bind_eq_bind, Option.bind_some]
  rw [List.cons_append, hinner.1, hinner.2, ← List.cons_append, hmore]
  simp only [Option.bind_some, hafter.1, hafter.2, Text.after?_append]
  simp [show token = _ from htoken]

theorem isToken_of_read? (h : read? t = some (p, rest)) : IsToken p := by
  simp only [read?, Option.bind_eq_bind, Option.bind_eq_some_iff] at h
  obtain ⟨inner, -, ⟨name, more⟩, hname, last, -, h⟩ := h
  cases h
  have hspace (u : Text) : ∀ c ∈ u.takeWhile Text.isSpace, Text.isSpace c = true :=
    fun c hc => List.all_eq_true.1 (List.all_takeWhile (l := u)) c hc
  exact ⟨(FieldSpec.of_readName? hname).1, _, _, hspace inner, hspace more, by simp⟩

/-- A text that holds no placeholder. -/
def Silent (t : Text) : Prop := ∀ p, IsToken p → ¬ p.token <:+: t

theorem silent_nil : Silent [] := by
  intro p hp hin
  obtain ⟨u, hu, -⟩ := hp.eq_cons
  rw [hu, List.infix_nil] at hin
  cases hin

theorem silent_cons_iff {c : Char} :
    Silent (c :: t) ↔ read? (c :: t) = none ∧ Silent t := by
  constructor
  · intro h
    refine ⟨?_, fun p hp hin => h p hp (hin.trans (List.suffix_cons c t).isInfix)⟩
    cases hread : read? (c :: t) with
    | none => rfl
    | some found =>
      obtain ⟨p, rest⟩ := found
      exact absurd ⟨[], rest, by rw [eq_append_of_read? hread]; rfl⟩ (h p (isToken_of_read? hread))
  · rintro ⟨hread, ht⟩ p hp hin
    rcases List.infix_cons_iff.1 hin with ⟨rest, hrest⟩ | hin
    · rw [← hrest, read?_append hp] at hread
      cases hread
    · exact ht p hp hin

/-- A placeholder that begins in a text ends in it, if a placeholder follows the text. So no
placeholder is made of a literal text and the opening braces behind it. -/
theorem prefix_of_prefix_append (hp : IsToken p) (hs : s ≠ [])
    (h : p.token <+: s ++ '{' :: '{' :: x) : p.token <+: s := by
  obtain ⟨u, hu, hne, hmem⟩ := hp.eq_cons
  -- a longer token would reach into the braces that follow, and holds no opening brace itself but
  -- its first two
  by_cases hlength : p.token.length ≤ s.length
  · exact List.prefix_of_prefix_length_le h ⟨_, rfl⟩ hlength
  · exfalso
    obtain ⟨r, hr⟩ : s <+: p.token :=
      List.prefix_of_prefix_length_le ⟨_, rfl⟩ h (by omega)
    have hrest : r <+: '{' :: '{' :: x := by
      rw [← hr] at h
      exact (List.prefix_append_right_inj s).1 h
    have hrne : r ≠ [] := by
      rintro rfl
      rw [List.append_nil] at hr
      exact hlength (by rw [hr])
    obtain ⟨d, r, rfl⟩ := List.exists_cons_of_ne_nil hrne
    obtain ⟨hd, hafter⟩ := List.cons_prefix_cons.1 hrest
    subst hd
    obtain ⟨c, s, rfl⟩ := List.exists_cons_of_ne_nil hs
    rw [hu, List.cons_append, List.cons.injEq] at hr
    obtain ⟨-, hr⟩ := hr
    cases s with
    | nil =>
      -- only the first brace is in the text, and a third one would follow the second
      rw [List.nil_append, List.cons.injEq] at hr
      obtain ⟨d, v, rfl⟩ := List.exists_cons_of_ne_nil hne
      rw [hr.2] at hafter
      have hbrace := (List.cons_prefix_cons.1 hafter).1
      exact hmem (by rw [hbrace]; exact List.mem_cons_self ..)
    | cons e s =>
      rw [List.cons_append, List.cons.injEq] at hr
      exact hmem (by rw [← hr.2]; simp)

end Placeholder

namespace Template

open Placeholder

variable {template : Template} {t lead tail rest : Text} {p : Placeholder}

/-! ### Cut templates -/

/-- A template whose literal texts hold no placeholder. Every template that is read from a text is
of this kind; one that is put together need not be. -/
structure IsCut (template : Template) : Prop where
  holes : ∀ hole ∈ template.holes, Silent hole.lead ∧ hole.placeholder.IsToken
  tail : Silent template.tail

theorem scan_eq_drop (passed : Nat) (t : Text) : scan passed t = scan 0 (t.drop passed) := by
  induction t generalizing passed with
  | nil => cases passed <;> simp [scan]
  | cons c t ih =>
    cases passed with
    | zero => rfl
    | succ passed => rw [scan, ih, List.drop_succ_cons]

theorem scan_of_silent (h : Silent t) : scan 0 t = ⟨[], t⟩ := by
  induction t with
  | nil => rfl
  | cons c t ih =>
    obtain ⟨hread, ht⟩ := silent_cons_iff.1 h
    rw [scan, hread]
    simp only [ih ht]
    rfl

/-- No placeholder is read within a literal text before a placeholder. -/
theorem read?_eq_none_of_silent {c : Char} (hlead : Silent (c :: lead)) (hp : p.IsToken)
    (rest : Text) : read? (c :: (lead ++ p.token ++ rest)) = none := by
  obtain ⟨u, hu, -, -⟩ := hp.eq_cons
  cases hread : read? (c :: (lead ++ p.token ++ rest)) with
  | none => rfl
  | some found =>
    -- a placeholder that began in the literal text would end in it, and it holds none
    obtain ⟨q, after⟩ := found
    have hq := isToken_of_read? hread
    have hprefix : q.token <+: (c :: lead) ++ '{' :: '{' :: (u ++ rest) := by
      refine ⟨after, ?_⟩
      rw [← eq_append_of_read? hread, hu]
      simp
    exact absurd (prefix_of_prefix_append hq (by simp) hprefix).isInfix (hlead q hq)

/-- A literal text and a placeholder are cut off the text that follows them. -/
theorem scan_append (hlead : Silent lead) (hp : p.IsToken) (rest : Text) :
    scan 0 (lead ++ p.token ++ rest) =
      ⟨⟨lead, p⟩ :: (scan 0 rest).holes, (scan 0 rest).tail⟩ := by
  obtain ⟨u, hu, -, -⟩ := hp.eq_cons
  induction lead with
  | nil =>
    have hread : read? ('{' :: ('{' :: u ++ rest)) = some (p, rest) := by
      have h := read?_append hp rest
      rwa [hu] at h
    have hpassed : ('{' :: u ++ rest).length - rest.length = ('{' :: u).length := by
      rw [List.length_append, Nat.add_sub_cancel]
    rw [List.nil_append, hu, List.cons_append, scan, hread]
    simp only
    rw [hpassed, scan_eq_drop, List.drop_left]
  | cons c lead ih =>
    obtain ⟨-, hlater⟩ := silent_cons_iff.1 hlead
    rw [List.cons_append, List.cons_append, scan, read?_eq_none_of_silent hlead hp]
    simp only [ih hlater]
    rfl

/-- **A template whose literal texts hold no placeholder is read from its text.** -/
theorem ofText_text (h : template.IsCut) : ofText template.text = template := by
  obtain ⟨holes, tail⟩ := template
  unfold ofText
  induction holes with
  | nil => exact scan_of_silent h.tail
  | cons hole holes ih =>
    obtain ⟨⟨hlead, hp⟩, hholes⟩ := List.forall_mem_cons.1 h.holes
    have htext : text ⟨hole :: holes, tail⟩ =
        hole.lead ++ hole.placeholder.token ++ text ⟨holes, tail⟩ := by
      simp [text, holeText]
    rw [htext, scan_append hlead hp, ih ⟨hholes, h.tail⟩]

theorem isCut_scan (passed : Nat) (t : Text) : (scan passed t).IsCut := by
  -- the characters of a placeholder that was read are passed over one at a time
  induction t generalizing passed with
  | nil => cases passed <;> exact ⟨by simp [scan], silent_nil⟩
  | cons c t ih =>
    cases passed with
    | succ passed => exact ih passed
    | zero =>
      rw [scan]
      cases hread : read? (c :: t) with
      | some found =>
        obtain ⟨p, rest⟩ := found
        have hlater := ih (t.length - rest.length)
        exact ⟨List.forall_mem_cons.2 ⟨⟨silent_nil, isToken_of_read? hread⟩, hlater.holes⟩,
          hlater.tail⟩
      | none =>
        have hlater := ih 0
        have htext : (scan 0 t).text = t := text_scan 0 t
        -- the character comes to the first literal text, which no placeholder begins
        have hfirst {u v : Text} (huv : t = u ++ v) (hu : Silent u) : Silent (c :: u) := by
          refine silent_cons_iff.2 ⟨?_, hu⟩
          cases hread' : read? (c :: u) with
          | none => rfl
          | some found =>
            obtain ⟨p, rest⟩ := found
            have hp := isToken_of_read? hread'
            have hsome : read? (c :: t) = some (p, rest ++ v) := by
              rw [huv, ← List.cons_append, eq_append_of_read? hread', List.append_assoc,
                read?_append hp]
            rw [hsome] at hread
            cases hread
        simp only [push]
        split
        · rename_i hnil
          have htail : t = (scan 0 t).tail ++ [] := by
            conv => lhs; rw [← htext]
            simp [text, hnil]
          exact ⟨by simp [hnil], hfirst htail hlater.tail⟩
        · rename_i hole holes hcons
          have hholes := hlater.holes
          rw [hcons] at hholes
          obtain ⟨⟨hlead, hp⟩, hholes⟩ := List.forall_mem_cons.1 hholes
          have hhead : t = hole.lead ++ (hole.placeholder.token ++
              text ⟨holes, (scan 0 t).tail⟩) := by
            conv => lhs; rw [← htext]
            simp [text, holeText, hcons]
          exact ⟨List.forall_mem_cons.2 ⟨⟨hfirst hhead hlead, hp⟩, hholes⟩, hlater.tail⟩

theorem isCut_ofText (t : Text) : (ofText t).IsCut := isCut_scan 0 t

theorem names_rename (change : Name → Name) (template : Template) :
    (template.rename change).names = template.names.map change := by
  simp [names, rename, Placeholder.ofName]

theorem isName_of_mem_names (h : template.IsCut) {name : Name} (hname : name ∈ template.names) :
    FieldSpec.IsName name := by
  obtain ⟨hole, hhole, rfl⟩ := List.mem_map.1 hname
  exact (h.holes hole hhole).2.1

/-- **A template is cut at the same places with other names in it.** -/
theorem ofText_rename {change : Name → Name} (h : template.IsCut)
    (hchange : ∀ name ∈ template.names, FieldSpec.IsName (change name)) :
    ofText (template.rename change).text = template.rename change := by
  refine ofText_text ⟨?_, h.tail⟩
  intro hole hhole
  obtain ⟨old, hold, rfl⟩ := List.mem_map.1 hhole
  exact ⟨(h.holes old hold).1, isToken_ofName (hchange _ (List.mem_map_of_mem hold))⟩

end Template

end FieldedText
