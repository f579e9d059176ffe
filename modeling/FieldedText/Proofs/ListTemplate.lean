/-
FieldedText/Proofs/ListTemplate.lean

The names of the entries of a list.

The name that a placeholder stands for in an entry is a name again, and it does
not begin with an at sign unless the placeholder's name does
(`isName_entryName`, `head_entryName`).

Entries are told from other blocks by their names alone.  A name with an asterisk
is owned by the list of its prefix in every entry (`ownsField_entryName`), and a
list owns no name without an ordinal among its parts (`exists_ordinal_of_ownsField`).
-/
import FieldedText.Data.Order
import FieldedText.Document.Revision
import FieldedText.Proofs.Template

namespace FieldedText

/-! ### Pieces and what joins them -/

namespace Text

variable {mark c : Char} {a b t piece : Text} {pieces others : List Text}

theorem splitOn_append_cons (mark : Char) (a b : Text) :
    splitOn mark (a ++ mark :: b) = splitOn mark a ++ splitOn mark b := by
  induction a with
  | nil => simp [splitOn]
  | cons c a ih =>
    by_cases hc : c = mark
    · rw [List.cons_append, splitOn, if_pos hc, ih, splitOn, if_pos hc, List.cons_append]
    · cases hs : splitOn mark a with
      | nil => exact absurd hs (splitOn_ne_nil mark a)
      | cons p ps =>
        rw [List.cons_append, splitOn, if_neg hc, ih, splitOn, if_neg hc, hs]
        rfl

/-- The first piece goes up to the first occurrence. -/
theorem splitOn_eq_cons (mark : Char) (t : Text) :
    ∃ later, splitOn mark t = t.takeWhile (· != mark) :: later := by
  induction t with
  | nil => exact ⟨[], rfl⟩
  | cons c t ih =>
    obtain ⟨later, hlater⟩ := ih
    by_cases hc : c = mark
    · exact ⟨splitOn mark t, by simp [splitOn, hc]⟩
    · exact ⟨later, by simp [splitOn, hc, hlater]⟩

/-- A piece holds characters of the text, but not the one that it was cut at. -/
theorem of_mem_splitOn (h : piece ∈ splitOn mark t) : ∀ c ∈ piece, c ∈ t ∧ c ≠ mark := by
  induction t generalizing piece with
  | nil =>
    rw [splitOn, List.mem_singleton] at h
    simp [h]
  | cons d t ih =>
    have hlater {q : Text} (hq : q ∈ splitOn mark t) : ∀ c ∈ q, c ∈ d :: t ∧ c ≠ mark :=
      fun c hc => ⟨List.mem_cons_of_mem d (ih hq c hc).1, (ih hq c hc).2⟩
    rw [splitOn] at h
    -- A character that is no mark goes to the front of the first piece; so pieces of the rest are
    -- pieces of the whole, but for this one.
    by_cases hd : d = mark
    · rw [if_pos hd, List.mem_cons] at h
      rcases h with rfl | h
      · simp
      · exact hlater h
    · rw [if_neg hd] at h
      cases hs : splitOn mark t with
      | nil => exact absurd hs (splitOn_ne_nil mark t)
      | cons p ps =>
        rw [hs] at h hlater
        rcases List.mem_cons.1 h with rfl | h
        · exact List.forall_mem_cons.2 ⟨⟨List.mem_cons_self .., hd⟩, hlater (List.mem_cons_self ..)⟩
        · exact hlater (List.mem_cons_of_mem p h)

theorem join_cons {separator : Text} (h : pieces ≠ []) :
    join separator (piece :: pieces) = piece ++ separator ++ join separator pieces := by
  cases pieces with
  | nil => exact absurd rfl h
  | cons q qs => simp [join]

theorem join_eq_append (separator piece : Text) (pieces : List Text) :
    ∃ rest, join separator (piece :: pieces) = piece ++ rest := by
  cases pieces with
  | nil => exact ⟨[], by simp [join]⟩
  | cons q qs => exact ⟨separator ++ join separator (q :: qs), by simp [join]⟩

theorem join_singleton (separator piece : Text) : join separator [piece] = piece := by
  simp [join]

theorem join_append {separator : Text} (h : pieces ≠ []) (ho : others ≠ []) :
    join separator (pieces ++ others) =
      join separator pieces ++ separator ++ join separator others := by
  induction pieces with
  | nil => exact absurd rfl h
  | cons p ps ih =>
    cases ps with
    | nil => rw [List.singleton_append, join_cons ho, join_singleton]
    | cons q qs =>
      rw [List.cons_append, join_cons (List.append_ne_nil_of_left_ne_nil (by simp) others),
        ih (by simp), join_cons (List.cons_ne_nil q qs)]
      simp only [List.append_assoc]

theorem mem_join {separator : Text} (h : c ∈ join separator pieces) :
    c ∈ separator ∨ ∃ piece ∈ pieces, c ∈ piece := by
  induction pieces with
  | nil => simp [join] at h
  | cons p ps ih =>
    by_cases hnil : ps = []
    · rw [hnil, join_singleton] at h
      exact .inr ⟨p, by simp, h⟩
    · rw [join_cons hnil, List.mem_append, List.mem_append] at h
      rcases h with (h | h) | h
      · exact .inr ⟨p, by simp, h⟩
      · exact .inl h
      · rcases ih h with h | ⟨piece, hpiece, hc⟩
        · exact .inl h
        · exact .inr ⟨piece, List.mem_cons_of_mem p hpiece, hc⟩

end Text

/-! ### Names in entries -/

namespace ListTemplate

variable {n k : Nat} {name ordinal path : Name} {names : List Name}

theorem isNameChar_of_isDigit {c : Char} (h : c.isDigit = true) :
    FieldSpec.isNameChar c = true := by
  have hrange : 48 ≤ c.toNat ∧ c.toNat ≤ 57 := by
    simpa [Char.isDigit, UInt32.le_iff_toNat_le] using h
  have hne {d : Char} (hd : d.toNat < 48 ∨ 57 < d.toNat) : c ≠ d := by
    rintro rfl
    omega
  have hspace : Text.isSpace c = false := by
    simp only [Text.isSpace, Bool.or_eq_false_iff, Bool.and_eq_false_iff, decide_eq_false_iff_not,
      beq_eq_false_iff_ne]
    omega
  have hopen : c ≠ '{' := hne (by decide)
  have hclose : c ≠ '}' := hne (by decide)
  have hcolon : c ≠ ':' := hne (by decide)
  have hquote : c ≠ '"' := hne (by decide)
  simp [FieldSpec.isNameChar, hspace, hopen, hclose, hcolon, hquote]

/-- What an ordinal is made of. -/
theorem of_isOrdinal (h : Name.isOrdinal ordinal = true) :
    ordinal ≠ [] ∧ ∀ c ∈ ordinal, c.isDigit = true := by
  simpa [Name.isOrdinal, isDigits] using h

/-- A part of a name, as it stands in an entry. An asterisk is a part of its own; one that is only
a character of a part stays. -/
def entryPart (ordinal part : Name) : Name := if part = marker then ordinal else part

theorem entryName_eq (ordinal name : Name) :
    entryName ordinal name = Text.join ['.'] ((Text.splitOn '.' name).map (entryPart ordinal)) :=
  rfl

/-- Parts without an asterisk among them are the same in every entry. -/
theorem map_entryPart_eq_self {parts : List Name} (h : marker ∉ parts) :
    parts.map (entryPart ordinal) = parts := by
  have hparts : ∀ part ∈ parts, entryPart ordinal part = part := by
    intro part hpart
    refine if_neg ?_
    rintro rfl
    exact h hpart
  rw [List.map_congr_left hparts, List.map_id']

theorem entryName_eq_self (h : marker ∉ Text.splitOn '.' name) : entryName ordinal name = name := by
  rw [entryName_eq, map_entryPart_eq_self h, Text.join_splitOn]

/-- A name in an entry begins with a digit, or as the name does that it comes from. So an entry's
names cannot come to be settings, which begin with an at sign. -/
theorem entryName_eq_cons (ho : Name.isOrdinal ordinal = true) (hne : name ≠ []) :
    ∃ c rest, entryName ordinal name = c :: rest ∧ (c.isDigit = true ∨ name.head? = some c) := by
  obtain ⟨later, hsplit⟩ := Text.splitOn_eq_cons '.' name
  generalize name.takeWhile (· != '.') = first at hsplit
  have hjoin : name = Text.join ['.'] (first :: later) := by
    rw [← hsplit, Text.join_splitOn]
  rw [entryName_eq, hsplit, List.map_cons]
  cases first with
  | nil =>
    -- the first part is empty and stays so, and both names begin with the dot after it
    have hlater : later ≠ [] := by
      rintro rfl
      exact hne hjoin
    have hpart : entryPart ordinal [] = [] := if_neg (by decide)
    rw [Text.join_cons hlater] at hjoin
    rw [hpart, Text.join_cons (by simpa using hlater)]
    exact ⟨'.', _, rfl, .inr (by rw [hjoin]; rfl)⟩
  | cons d first =>
    obtain ⟨more, hmore⟩ := Text.join_eq_append ['.'] (d :: first) later
    obtain ⟨more', hmore'⟩ :=
      Text.join_eq_append ['.'] (entryPart ordinal (d :: first)) (later.map (entryPart ordinal))
    rw [hmore']
    unfold entryPart
    split
    · obtain ⟨hnonempty, hdigits⟩ := of_isOrdinal ho
      obtain ⟨c, rest, rfl⟩ := List.exists_cons_of_ne_nil hnonempty
      exact ⟨c, _, rfl, .inl (hdigits c (List.mem_cons_self ..))⟩
    · exact ⟨d, _, rfl, .inr (by rw [hjoin, hmore]; rfl)⟩

/-- **A name is a name in every entry.** -/
theorem isName_entryName (ho : Name.isOrdinal ordinal = true) (h : FieldSpec.IsName name) :
    FieldSpec.IsName (entryName ordinal name) := by
  refine ⟨?_, ?_⟩
  · obtain ⟨c, rest, hcons, -⟩ := entryName_eq_cons ho h.1
    rw [hcons]
    simp
  · intro c hc
    rw [entryName_eq] at hc
    rcases Text.mem_join hc with hdot | ⟨part, hpart, hc⟩
    · rw [List.mem_singleton] at hdot
      rw [hdot]
      decide
    · obtain ⟨old, hold, rfl⟩ := List.mem_map.1 hpart
      unfold entryPart at hc
      split at hc
      · exact isNameChar_of_isDigit ((of_isOrdinal ho).2 c hc)
      · exact h.2 c (Text.of_mem_splitOn hold c hc).1

/-- A name in an entry begins with an at sign only if the name does that it comes from. -/
theorem head_entryName (ho : Name.isOrdinal ordinal = true) (hne : name ≠ [])
    (h : (entryName ordinal name).head? = some '@') : name.head? = some '@' := by
  obtain ⟨c, rest, hcons, hc⟩ := entryName_eq_cons ho hne
  rw [hcons, List.head?_cons, Option.some.injEq] at h
  subst h
  rcases hc with hdigit | hhead
  · exact absurd hdigit (by decide)
  · exact hhead

/-! ### The path of a list -/

/-- The path of a list is what stands before the asterisk, which occurs once among the parts of
the name. -/
theorem mem_parts_of_prefixOf {path : Text} (h : prefixOf n name = .ok (some path)) :
    ∃ pre post, Text.splitOn '.' name = pre ++ marker :: post ∧ marker ∉ pre ∧
      path = Text.join ['.'] pre := by
  simp only [prefixOf] at h
  -- names without an asterisk, with one, and with several; only the second case has a path
  split at h
  · cases h
  · rename_i hcount
    cases h
    have hmem : marker ∈ Text.splitOn '.' name := by
      rw [← List.count_pos_iff, hcount]
      exact Nat.one_pos
    have hsplit := List.takeWhile_append_dropWhile (p := fun part => decide (part ≠ marker))
      (l := Text.splitOn '.' name)
    cases hdrop : (Text.splitOn '.' name).dropWhile fun part => decide (part ≠ marker) with
    | nil =>
      -- the marker would be among the parts before it
      rw [hdrop, List.append_nil] at hsplit
      rw [← hsplit] at hmem
      have h := List.all_eq_true.1 (List.all_takeWhile (l := Text.splitOn '.' name)) marker hmem
      simp at h
    | cons part post =>
      have hpart : part = marker := by
        have h := List.head?_dropWhile_not (fun part => decide (part ≠ marker))
          (Text.splitOn '.' name)
        rw [hdrop] at h
        simpa using h
      rw [hdrop, hpart] at hsplit
      refine ⟨_, post, hsplit.symm, ?_, rfl⟩
      intro hbefore
      have h := List.all_eq_true.1 (List.all_takeWhile (l := Text.splitOn '.' name)) marker hbefore
      simp at h
  · cases h

theorem not_mem_parts_of_prefixOf (h : prefixOf n name = .ok none) :
    marker ∉ Text.splitOn '.' name := by
  simp only [prefixOf] at h
  split at h
  · rename_i hcount
    exact List.count_eq_zero.1 hcount
  · cases h
  · cases h

theorem prefixOf_ok_of_ok {result : Option Text} (h : prefixOf n name = .ok result) :
    prefixOf k name = .ok result := by
  simp only [prefixOf] at h ⊢
  split at h
  · exact h
  · exact h
  · cases h

/-- The path of a list among some names, one name at a time. -/
theorem prefixFrom_cons_eq_ok_iff {known result : Option Text} :
    prefixFrom n known (name :: names) = .ok result ↔
      ∃ found, prefixOf n name = .ok found ∧ (known = none ∨ found = none ∨ known = found) ∧
        prefixFrom n (known.or found) names = .ok result := by
  rw [prefixFrom]
  cases hfound : prefixOf n name with
  | error e => simp [bind, Except.bind]
  | ok found =>
    simp only [bind, Except.bind, Except.ok.injEq, exists_eq_left']
    cases known with
    | none => cases found <;> simp
    | some first =>
      cases found with
      | none => simp
      | some second =>
        by_cases h : first = second
        · simp [h]
        · simp [h]

theorem prefixFrom_ok_of_ok {known result : Option Text}
    (h : prefixFrom n known names = .ok result) : prefixFrom k known names = .ok result := by
  induction names generalizing known with
  | nil => exact h
  | cons name names ih =>
    obtain ⟨found, hfound, hagree, hlater⟩ := prefixFrom_cons_eq_ok_iff.1 h
    exact prefixFrom_cons_eq_ok_iff.2 ⟨found, prefixOf_ok_of_ok hfound, hagree, ih hlater⟩

theorem listPath_ok_of_ok {result : Option Text} (h : listPath n names = .ok result) :
    listPath k names = .ok result :=
  prefixFrom_ok_of_ok h

/-- Names that belong to one list have its path or none. A path that was known before the first of
them is that of the list too. -/
theorem of_prefixFrom {known result : Option Text} (h : prefixFrom n known names = .ok result) :
    (known = none ∨ known = result) ∧
      ∀ name ∈ names, prefixOf n name = .ok none ∨ prefixOf n name = .ok result := by
  induction names generalizing known with
  | nil =>
    cases h
    exact ⟨.inr rfl, by simp⟩
  | cons name names ih =>
    obtain ⟨found, hfound, hagree, hlater⟩ := prefixFrom_cons_eq_ok_iff.1 h
    obtain ⟨hknown, hnames⟩ := ih hlater
    -- The path that is known after the first name is the one that was known before, if there was
    -- one; the first name must then agree with it.
    cases known with
    | none =>
      rw [Option.none_or] at hknown
      refine ⟨.inl rfl, List.forall_mem_cons.2 ⟨?_, hnames⟩⟩
      obtain rfl | rfl := hknown
      · exact .inl hfound
      · exact .inr hfound
    | some first =>
      have hresult : some first = result := hknown.resolve_left (by simp)
      refine ⟨.inr hresult, List.forall_mem_cons.2 ⟨?_, hnames⟩⟩
      obtain hnone | rfl | rfl := hagree
      · cases hnone
      · exact .inl hfound
      · exact .inr (hresult ▸ hfound)

theorem of_prefixFrom_some {known : Option Text} {path : Text}
    (h : prefixFrom n known names = .ok (some path)) :
    known = some path ∨ ∃ name ∈ names, prefixOf n name = .ok (some path) := by
  induction names generalizing known with
  | nil =>
    cases h
    exact .inl rfl
  | cons name names ih =>
    obtain ⟨found, hfound, -, hlater⟩ := prefixFrom_cons_eq_ok_iff.1 h
    rcases ih hlater with hor | ⟨other, hother, hprefix⟩
    · cases known with
      | some first => exact .inl hor
      | none =>
        rw [Option.none_or] at hor
        subst hor
        exact .inr ⟨name, List.mem_cons_self .., hfound⟩
    · exact .inr ⟨other, List.mem_cons_of_mem name hother, hprefix⟩

/-- Names that belong to no list have no asterisk among their parts. -/
theorem not_mem_parts_of_listPath (h : listPath n names = .ok none) :
    ∀ name ∈ names, marker ∉ Text.splitOn '.' name := by
  intro name hname
  exact not_mem_parts_of_prefixOf (or_self_iff.1 ((of_prefixFrom h).2 name hname))

/-- Names that belong to a list have one among them with the path of the list before its
asterisk. -/
theorem exists_starred_of_listPath {path : Text} (h : listPath n names = .ok (some path)) :
    ∃ name ∈ names, ∃ pre post, Text.splitOn '.' name = pre ++ marker :: post ∧ marker ∉ pre ∧
      path = Text.join ['.'] pre := by
  rcases of_prefixFrom_some h with hnone | ⟨name, hname, hprefix⟩
  · cases hnone
  · exact ⟨name, hname, mem_parts_of_prefixOf hprefix⟩

end ListTemplate

/-! ### Names that a list owns -/

namespace ListSection

variable {list : ListSection} {name ordinal : Name}

/-- **Every name that a list owns has an ordinal among its parts.** -/
theorem exists_ordinal_of_ownsField (h : list.ownsField name = true) :
    ∃ part ∈ Text.splitOn '.' name, Name.isOrdinal part = true := by
  unfold ownsField at h
  split at h
  · cases h
  · rename_i rest hwithin
    refine ⟨_, ?_, h⟩
    obtain ⟨later, hsplit⟩ := Text.splitOn_eq_cons '.' rest
    have hmem : rest.takeWhile (· != '.') ∈ Text.splitOn '.' rest := by
      rw [hsplit]
      exact List.mem_cons_self ..
    unfold nameWithin? at hwithin
    split at hwithin
    · cases hwithin
      exact hmem
    · rw [Text.after?_eq_some_iff.1 hwithin, List.append_assoc, List.singleton_append,
        Text.splitOn_append_cons]
      exact List.mem_append_right _ hmem

/-- **A name with an asterisk is owned by the list of its prefix in every entry.** -/
theorem ownsField_entryName {pre post : List Name} (ho : Name.isOrdinal ordinal = true)
    (hsplit : Text.splitOn '.' name = pre ++ ListTemplate.marker :: post)
    (hpath : list.path = Text.join ['.'] pre) (hfirst : ListTemplate.marker ∉ pre)
    (hparts : ∀ part ∈ Text.splitOn '.' name, part ≠ []) :
    list.ownsField (ListTemplate.entryName ordinal name) = true := by
  have hentry : ListTemplate.entryName ordinal name =
      Text.join ['.'] (pre ++ ordinal :: post.map (ListTemplate.entryPart ordinal)) := by
    -- no part of the path is an asterisk, so the path is the same in every entry
    rw [ListTemplate.entryName_eq, hsplit, List.map_append, List.map_cons,
      ListTemplate.map_entryPart_eq_self hfirst]
    rfl
  generalize post.map (ListTemplate.entryPart ordinal) = later at hentry
  -- an ordinal has no dot, so it is all that stands before the next one
  have htake : (Text.join ['.'] (ordinal :: later)).takeWhile (· != '.') = ordinal := by
    have hdigits : ∀ c ∈ ordinal, (c != '.') = true := by
      intro c hc
      rw [bne_iff_ne]
      rintro rfl
      exact absurd ((ListTemplate.of_isOrdinal ho).2 '.' hc) (by decide)
    by_cases hlater : later = []
    · rw [hlater, Text.join_singleton]
      exact List.takeWhile_eq_self_iff.2 hdigits
    · rw [Text.join_cons hlater, List.append_assoc, List.takeWhile_append_of_pos hdigits]
      simp
  have hwithin : list.nameWithin? (ListTemplate.entryName ordinal name) =
      some (Text.join ['.'] (ordinal :: later)) := by
    unfold nameWithin?
    -- a list at the root has an empty path, and then there is no dot to look for
    cases pre with
    | nil =>
      have hnil : list.path = [] := hpath
      rw [if_pos hnil, hentry, List.nil_append]
    | cons part pre =>
      have hne : part ≠ [] := hparts part (by rw [hsplit]; simp)
      obtain ⟨rest, hrest⟩ := Text.join_eq_append ['.'] part pre
      have hpathNe : list.path ≠ [] := by
        rw [hpath, hrest]
        exact List.append_ne_nil_of_left_ne_nil hne rest
      rw [if_neg hpathNe, hentry, Text.join_append (by simp) (by simp), ← hpath,
        Text.after?_append]
  rw [ownsField, hwithin]
  show Name.isOrdinal ((Text.join ['.'] (ordinal :: later)).takeWhile (· != '.')) = true
  rw [htake]
  exact ho

end ListSection

end FieldedText
