/-
FieldedText/Proofs/Path.lean

What is at a path once a value is stored.

A path without an empty name leads to its last name through the records of the
others (`Path.names_eq`).  What is stored is at the path then, and everything off the
way stays as it was (`follow?_put`, `follow?_put_apart`).  Of texts that are stored one
after the other under paths that part at their first names, each one stays alone under
the first name of its path (`exists_get?_foldl_put`, `get?_put_within`).

A record is distinct when no record in it repeats a name.  What is stored into a
distinct record leaves it distinct (`Distinct.put`).
-/
import FieldedText.Data.Path
import FieldedText.Proofs.ListTemplate

namespace FieldedText

namespace Text

theorem splitOn_of_not_mem {mark : Char} {t : Text} (h : mark ∉ t) : splitOn mark t = [t] := by
  induction t with
  | nil => rfl
  | cons c t ih =>
    rw [List.mem_cons, not_or] at h
    rw [splitOn, if_neg (Ne.symm h.1), ih h.2]

/-- The last piece is what comes after the last occurrence. -/
theorem splitOn_eq_concat (mark : Char) (t : Text) :
    ∃ init, splitOn mark t = init ++ [afterLast mark t] := by
  -- The last piece is read from the end, up to the first mark there, if there is any.
  by_cases h : mark ∈ t.reverse
  · obtain ⟨later, before, hreverse, hlater⟩ := List.eq_append_cons_of_mem h
    have ht : t = before.reverse ++ mark :: later.reverse := by
      rw [← List.reverse_reverse t, hreverse]
      simp
    have hlast : afterLast mark t = later.reverse := by
      have hpass : ∀ c ∈ later, (c != mark) = true := by
        intro c hc
        rw [bne_iff_ne]
        rintro rfl
        exact hlater hc
      rw [afterLast, hreverse, List.takeWhile_append_of_pos hpass,
        List.takeWhile_cons_of_neg (by simp), List.append_nil]
    refine ⟨splitOn mark before.reverse, ?_⟩
    rw [hlast, ht, splitOn_append_cons]
    exact congrArg _ (splitOn_of_not_mem (by simpa using hlater))
  · have hpass : ∀ c ∈ t.reverse, (c != mark) = true := by
      intro c hc
      rw [bne_iff_ne]
      rintro rfl
      exact h hc
    have hlast : afterLast mark t = t := by
      rw [afterLast, List.takeWhile_eq_self_iff.2 hpass, List.reverse_reverse]
    rw [hlast]
    exact ⟨[], splitOn_of_not_mem (by simpa using h)⟩

/-- Pieces without the character that they are joined by come apart again. -/
theorem splitOn_join {mark : Char} {pieces : List Text} (hne : pieces ≠ [])
    (h : ∀ piece ∈ pieces, mark ∉ piece) : splitOn mark (join [mark] pieces) = pieces := by
  induction pieces with
  | nil => exact absurd rfl hne
  | cons piece pieces ih =>
    obtain ⟨hpiece, hpieces⟩ := List.forall_mem_cons.1 h
    by_cases hnil : pieces = []
    · rw [hnil, join_singleton, splitOn_of_not_mem hpiece]
    · rw [join_cons hnil, List.append_assoc, List.singleton_append, splitOn_append_cons,
        splitOn_of_not_mem hpiece, ih hnil hpieces, List.singleton_append]

end Text

namespace Path

theorem withoutFinalEmpty_eq_self {names : List Name} (h : ∀ name ∈ names, name ≠ []) :
    withoutFinalEmpty names = names := by
  induction names with
  | nil => rfl
  | cons name names ih =>
    obtain ⟨hname, hnames⟩ := List.forall_mem_cons.1 h
    cases name with
    | nil => exact absurd rfl hname
    | cons c name =>
      rw [withoutFinalEmpty]
      · rw [ih hnames]
      · simp

/-- **A path without an empty name** is the way to its last name and that name. -/
theorem names_eq {path : Text} (h : ∀ name ∈ names path, name ≠ []) :
    names path = parentScope path ++ [last path] := by
  obtain ⟨init, hinit⟩ := Text.splitOn_eq_concat '.' path
  have hnames : names path = init ++ [last path] := hinit
  rw [hnames, List.forall_mem_append] at h
  rw [parentScope, hnames, List.dropLast_concat, withoutFinalEmpty_eq_self h.1]

theorem names_eq_cons (path : Text) : ∃ first later, names path = first :: later :=
  List.exists_cons_of_ne_nil (Text.splitOn_ne_nil '.' path)

/-- A path that a longer one goes on from, behind a dot. A path that merely begins the text of a
longer one need not be above it, as `a.b` is not above `a.bc`. -/
def Above (path longer : Text) : Prop := ∃ more, longer = path ++ '.' :: more

theorem above_iff_isPrefix {path longer : Text} : Above path longer ↔ path ++ ['.'] <+: longer := by
  constructor
  · rintro ⟨more, rfl⟩
    exact ⟨more, by simp⟩
  · rintro ⟨more, rfl⟩
    exact ⟨more, by simp⟩

instance (path longer : Text) : Decidable (Above path longer) :=
  decidable_of_iff _ above_iff_isPrefix.symm

/-- The names of a longer path begin with those of the path that it goes on from. -/
theorem above_iff {path longer : Text} :
    Above path longer ↔ ∃ more, more ≠ [] ∧ names longer = names path ++ more := by
  constructor
  · rintro ⟨more, rfl⟩
    exact ⟨names more, Text.splitOn_ne_nil '.' more, Text.splitOn_append_cons '.' path more⟩
  · rintro ⟨more, hmore, hnames⟩
    refine ⟨Text.join ['.'] more, ?_⟩
    have hjoin : Text.join ['.'] (names longer) = longer := Text.join_splitOn '.' longer
    have hpath : Text.join ['.'] (names path) = path := Text.join_splitOn '.' path
    have hne : names path ≠ [] := Text.splitOn_ne_nil '.' path
    rw [← hjoin, hnames, Text.join_append hne hmore, hpath]
    simp

/-- The first names of a path are those of a path by themselves. -/
theorem exists_of_names_prefix {path : Text} {way : List Name} (hway : way ≠ [])
    (h : way <+: names path) : ∃ first, names first = way ∧ (first = path ∨ Above first path) := by
  have hfirst : names (Text.join ['.'] way) = way :=
    Text.splitOn_join hway fun name hname hdot =>
      (Text.of_mem_splitOn (h.subset hname) '.' hdot).2 rfl
  refine ⟨Text.join ['.'] way, hfirst, ?_⟩
  obtain ⟨more, hmore⟩ := h
  by_cases hnil : more = []
  · rw [hnil, List.append_nil] at hmore
    left
    rw [hmore]
    exact Text.join_splitOn '.' path
  · exact .inr (above_iff.2 ⟨more, hnil, by rw [hfirst, hmore]⟩)

/-- An ordinal is one part of a path. -/
theorem not_mem_of_isOrdinal {ordinal : Name} (ho : Name.isOrdinal ordinal = true) :
    '.' ∉ ordinal :=
  fun hdot => absurd ((ListTemplate.of_isOrdinal ho).2 '.' hdot) (by decide)

/-- **The path in an entry** is the path of the template with the ordinal in it. -/
theorem names_entryName {ordinal : Name} (ho : Name.isOrdinal ordinal = true) (path : Text) :
    names (ListTemplate.entryName ordinal path) =
      (names path).map (ListTemplate.entryPart ordinal) := by
  rw [names, ListTemplate.entryName_eq]
  refine Text.splitOn_join (by simpa using Text.splitOn_ne_nil '.' path) ?_
  intro part hpart
  obtain ⟨old, hold, rfl⟩ := List.mem_map.1 hpart
  unfold ListTemplate.entryPart
  split
  · exact not_mem_of_isOrdinal ho
  · exact fun hdot => (Text.of_mem_splitOn hold '.' hdot).2 rfl

/-- Paths that part at their first names, without an empty name in any of them. What is stored at
one of them can then not be disturbed by what is stored at another. -/
structure Parted (paths : List Text) : Prop where
  nonempty : ∀ path ∈ paths, ∀ name ∈ names path, name ≠ []
  heads : (paths.map fun path => (names path).head?).Nodup

theorem Parted.sublist {paths others : List Text} (h : Parted paths)
    (hothers : others.Sublist paths) : Parted others :=
  ⟨fun path hpath => h.nonempty path (hothers.subset hpath), h.heads.sublist (hothers.map _)⟩

theorem Parted.perm {paths others : List Text} (h : Parted paths) (hothers : others.Perm paths) :
    Parted others :=
  ⟨fun path hpath => h.nonempty path (hothers.subset hpath),
    (hothers.map _).nodup_iff.2 h.heads⟩

/-- A path begins in an entry as it does in the template. -/
theorem head?_names_entryName {ordinal : Name} (ho : Name.isOrdinal ordinal = true) {path : Text}
    (h : (names path).head? ≠ some ListTemplate.marker) :
    (names (ListTemplate.entryName ordinal path)).head? = (names path).head? := by
  obtain ⟨name, later, hnames⟩ := names_eq_cons path
  rw [hnames, List.head?_cons, ne_eq, Option.some.injEq] at h
  rw [names_entryName ho, hnames, List.map_cons, List.head?_cons, ListTemplate.entryPart,
    if_neg h, List.head?_cons]

/-- Paths that part do so in an entry, when none begins with the asterisk. -/
theorem Parted.map_entryName {paths : List Text} {ordinal : Name} (h : Parted paths)
    (ho : Name.isOrdinal ordinal = true)
    (hmarker : ∀ path ∈ paths, (names path).head? ≠ some ListTemplate.marker) :
    Parted (paths.map (ListTemplate.entryName ordinal)) := by
  refine ⟨List.forall_mem_map.2 fun path hpath => ?_, ?_⟩
  · rw [names_entryName ho, List.forall_mem_map]
    intro name hname
    unfold ListTemplate.entryPart
    split
    · exact (ListTemplate.of_isOrdinal ho).1
    · exact h.nonempty path hpath name hname
  · rw [List.map_map]
    convert h.heads using 1
    exact List.map_congr_left fun path hpath => head?_names_entryName ho (hmarker path hpath)

end Path

/-! ### Ways through a record -/

/-- Two ways of which neither is the beginning of the other. Storing at the end of one of them
leaves the other one as it was. -/
def Path.Apart (way other : List Name) : Prop := ¬ way <+: other ∧ ¬ other <+: way

instance (way other : List Name) : Decidable (Path.Apart way other) :=
  inferInstanceAs (Decidable (¬ way <+: other ∧ ¬ other <+: way))

/-- The value that a way leads on to from a value, possibly this one. -/
def Value.followOn? : Value → List Name → Option Value
  | v, [] => some v
  | .record r, way => Record.follow? r way
  | .scalar _, _ => none

theorem Value.followOn?_record {r : Record} {way : List Name} (hway : way ≠ []) :
    (Value.record r).followOn? way = r.follow? way := by
  obtain ⟨name, way, rfl⟩ := List.exists_cons_of_ne_nil hway
  rfl

namespace Record

variable {r : Record} {name : Name} {way parent more : List Name} {value : Value} {s : Scalar}

theorem follow?_cons (r : Record) (name : Name) (way : List Name) :
    r.follow? (name :: way) = (r.get? name).bind fun value => value.followOn? way := by
  cases way with
  | nil =>
    rw [follow?]
    cases r.get? name <;> rfl
  | cons next way =>
    rw [follow?]
    · cases r.get? name with
      | none => rfl
      | some value =>
        cases value with
        | scalar s => rfl
        | record inner => exact (Value.followOn?_record (List.cons_ne_nil next way)).symm
    · simp

theorem follow?_insert (r : Record) (name other : Name) (value : Value) (way : List Name) :
    (r.insert name value).follow? (other :: way) =
      if name = other then value.followOn? way else r.follow? (other :: way) := by
  rw [follow?_cons, follow?_cons, get?_insert]
  split <;> rfl

/-- In the record under a name is what the name leads to. -/
theorem follow?_scopeUnder (hway : way ≠ []) :
    (r.scopeUnder name).follow? way = r.follow? (name :: way) := by
  obtain ⟨next, way, rfl⟩ := List.exists_cons_of_ne_nil hway
  rw [follow?_cons r, scopeUnder]
  cases r.get? name with
  | none => rw [follow?_cons]; rfl
  | some value =>
    cases value with
    | record inner => exact (Value.followOn?_record (List.cons_ne_nil next way)).symm
    | scalar s => rw [follow?_cons]; rfl

/-- A way through a record may be gone in two parts. -/
theorem follow?_append (hway : way ≠ []) (more : List Name) :
    r.follow? (way ++ more) = (r.follow? way).bind fun value => value.followOn? more := by
  induction way generalizing r with
  | nil => exact absurd rfl hway
  | cons name way ih =>
    rw [List.cons_append, follow?_cons, follow?_cons, Option.bind_assoc]
    apply congrArg
    funext value
    cases way with
    | nil => rfl
    | cons next way =>
      cases value with
      | scalar s => rfl
      | record inner => exact ih (by simp)

/-- Beyond a scalar is nothing. -/
theorem follow?_beyond (h : r.follow? way = some (.scalar s)) (hmore : more ≠ []) :
    r.follow? (way ++ more) = none := by
  have hway : way ≠ [] := by
    rintro rfl
    cases h
  obtain ⟨next, more, rfl⟩ := List.exists_cons_of_ne_nil hmore
  rw [follow?_append hway, h]
  rfl

/-! ### Storing -/

/-- What is stored is at the end of its way. -/
theorem follow?_changeScope_self :
    (r.changeScope (fun scope => scope.insert name value) parent).follow? (parent ++ [name]) =
      some value := by
  induction parent generalizing r with
  | nil =>
    show (r.insert name value).follow? [name] = some value
    rw [follow?_insert, if_pos rfl]
    rfl
  | cons first parent ih =>
    rw [changeScope, List.cons_append, follow?_insert, if_pos rfl]
    exact (Value.followOn?_record (by simp)).trans ih

/-- Off the way to what is stored nothing changes. Neither way may be the beginning of the other:
a longer one could go through what is stored, and a shorter one leads to a record that it changes.
-/
theorem follow?_changeScope_apart (h : ¬ way <+: parent ++ [name])
    (ho : ¬ parent ++ [name] <+: way) :
    (r.changeScope (fun scope => scope.insert name value) parent).follow? way =
      r.follow? way := by
  -- By induction on the names of the scopes; the two ways part at the first name, or go on into
  -- the same scope.
  induction parent generalizing r way with
  | nil =>
    cases way with
    | nil => exact absurd List.nil_prefix h
    | cons other way =>
      have hne : name ≠ other := by
        rintro rfl
        exact ho (List.cons_prefix_cons.2 ⟨rfl, List.nil_prefix⟩)
      show (r.insert name value).follow? (other :: way) = _
      rw [follow?_insert, if_neg hne]
  | cons first parent ih =>
    cases way with
    | nil => exact absurd List.nil_prefix h
    | cons other way =>
      rw [changeScope, follow?_insert]
      split
      · rename_i heq
        subst heq
        rw [List.cons_append, List.cons_prefix_cons, not_and] at h ho
        have hway : way ≠ [] := by
          rintro rfl
          exact h rfl List.nil_prefix
        rw [← follow?_scopeUnder hway, ← ih (h rfl) (ho rfl)]
        exact Value.followOn?_record hway
      · rfl

section Put

variable {path : Text} (hpath : ∀ name ∈ Path.names path, name ≠ [])

include hpath

/-- **What is put at a path is there.** -/
theorem follow?_put : (r.put path value).follow? (Path.names path) = some value := by
  rw [Path.names_eq hpath]
  exact follow?_changeScope_self

/-- **Putting changes nothing off the way to the path.** -/
theorem follow?_put_apart (h : ¬ way <+: Path.names path) (ho : ¬ Path.names path <+: way) :
    (r.put path value).follow? way = r.follow? way := by
  rw [Path.names_eq hpath] at h ho
  exact follow?_changeScope_apart h ho

/-- Putting changes nothing under any but the first name of the path. -/
theorem get?_put_apart (h : (Path.names path).head? ≠ some name) :
    (r.put path value).get? name = r.get? name := by
  obtain ⟨first, later, hnames⟩ := Path.names_eq_cons path
  rw [hnames, List.head?_cons, ne_eq, Option.some.injEq] at h
  have hway : ¬ [name] <+: Path.names path := by
    rw [hnames, List.cons_prefix_cons]
    exact fun hpre => h hpre.1.symm
  have hpre : ¬ Path.names path <+: [name] := by
    rw [hnames, List.cons_prefix_cons]
    exact fun hpre => h hpre.1
  exact follow?_put_apart hpath hway hpre

/-- What is put under a name that is not there yet is all that is under it. -/
theorem get?_put_within {within : Name} (hnames : Path.names path = [name, within])
    (hnone : r.get? name = none) :
    (r.put path value).get? name = some (.record [(within, value)]) := by
  have heq : [name] ++ [within] = Path.parentScope path ++ [Path.last path] :=
    hnames.symm.trans (Path.names_eq hpath)
  obtain ⟨hscope, hlast⟩ := List.append_inj' heq rfl
  obtain rfl : within = Path.last path := List.singleton_inj.1 hlast
  have hinner : r.scopeUnder name = [] := by
    rw [scopeUnder, hnone]
  rw [put, ← hscope, changeScope, changeScope, hinner, get?_insert, if_pos rfl]
  rfl

end Put

/-! ### Storing texts -/

section Texts

variable {entries : List (Text × Text)} {path t : Text}

/-- Texts stored one after the other leave alone what no path begins with. -/
theorem get?_foldl_put_apart (hpath : ∀ entry ∈ entries, ∀ name ∈ Path.names entry.1, name ≠ [])
    (h : ∀ entry ∈ entries, (Path.names entry.1).head? ≠ some name) (r : Record) :
    (entries.foldl (fun (r : Record) entry => r.put entry.1 (.scalar (.text entry.2))) r).get?
      name = r.get? name := by
  induction entries generalizing r with
  | nil => rfl
  | cons entry entries ih =>
    obtain ⟨hentry, hentries⟩ := List.forall_mem_cons.1 hpath
    obtain ⟨hfirst, hlater⟩ := List.forall_mem_cons.1 h
    rw [List.foldl_cons, ih hentries hlater, get?_put_apart hentry hfirst]

/-- Of texts stored under paths that part, one is stored where nothing is, and stays. The texts
before it leave its name alone, and so do those after it. -/
theorem exists_get?_foldl_put (h : Path.Parted (entries.map Prod.fst))
    (hentry : (path, t) ∈ entries) (hname : (Path.names path).head? = some name) :
    ∃ r : Record, r.get? name = none ∧
      (entries.foldl (fun (r : Record) entry => r.put entry.1 (.scalar (.text entry.2))) []).get?
        name = (r.put path (.scalar (.text t))).get? name := by
  obtain ⟨before, after, rfl⟩ := List.append_of_mem hentry
  have hpath := List.forall_mem_map.1 h.nonempty
  obtain ⟨hbefore, hafter⟩ := List.forall_mem_append.1 hpath
  -- no other path begins with the name
  have hheads := h.heads
  rw [List.map_map, List.map_append, List.map_cons, List.nodup_append, List.nodup_cons] at hheads
  have hb : ∀ entry ∈ before, (Path.names entry.1).head? ≠ some name := by
    intro entry hmem
    rw [← hname]
    exact hheads.2.2 _ (List.mem_map_of_mem hmem) _ (List.mem_cons_self ..)
  have ha : ∀ entry ∈ after, (Path.names entry.1).head? ≠ some name := by
    intro entry hmem heq
    exact hheads.2.1.1 (List.mem_map.2 ⟨entry, hmem, heq.trans hname.symm⟩)
  rw [List.foldl_append, List.foldl_cons]
  exact ⟨_, get?_foldl_put_apart hbefore hb [],
    get?_foldl_put_apart (List.forall_mem_cons.1 hafter).2 ha _⟩

end Texts

/-! ### Records without repeated names -/

/-- A record in which no record repeats a name, at any depth. A record that is built by insertions
alone is of this kind, but the type of records does not say so. -/
def Distinct (r : Record) : Prop :=
  ∀ way inner, r.inner? way = some inner → inner.names.Nodup

theorem inner?_cons (r : Record) (name : Name) (way : List Name) :
    r.inner? (name :: way) =
      (r.get? name).bind fun value => value.record?.bind fun inner => Record.inner? inner way := by
  rw [inner?]
  cases r.get? name with
  | none => rfl
  | some value => cases value <;> rfl

theorem distinct_iff :
    r.Distinct ↔ r.names.Nodup ∧ ∀ name inner, r.get? name = some (.record inner) →
      Distinct inner := by
  constructor
  · intro h
    refine ⟨h [] r rfl, fun name inner hname way deeper hdeeper => h (name :: way) deeper ?_⟩
    rw [inner?_cons, hname]
    exact hdeeper
  · rintro ⟨hnames, hinner⟩ way deeper hdeeper
    cases way with
    | nil =>
      cases hdeeper
      exact hnames
    | cons name way =>
      rw [inner?_cons, Option.bind_eq_some_iff] at hdeeper
      obtain ⟨value, hvalue, hdeeper⟩ := hdeeper
      cases value with
      | scalar s => cases hdeeper
      | record inner => exact hinner name inner hvalue way deeper hdeeper

theorem distinct_nil : Distinct [] :=
  distinct_iff.2 ⟨List.nodup_nil, fun _ _ h => nomatch h⟩

theorem Distinct.insert (h : r.Distinct)
    (hvalue : ∀ inner, value = .record inner → Distinct inner) :
    (r.insert name value).Distinct := by
  obtain ⟨hnames, hinner⟩ := distinct_iff.1 h
  refine distinct_iff.2 ⟨nodup_names_insert hnames name value, ?_⟩
  intro other inner hother
  rw [get?_insert] at hother
  split at hother
  · exact hvalue inner (Option.some.inj hother)
  · exact hinner other inner hother

theorem Distinct.scopeUnder (h : r.Distinct) (name : Name) : (r.scopeUnder name).Distinct := by
  unfold Record.scopeUnder
  split
  · rename_i inner hinner
    exact (distinct_iff.1 h).2 name inner hinner
  · exact distinct_nil

theorem Distinct.changeScope {change : Record → Record}
    (hchange : ∀ scope : Record, scope.Distinct → (change scope).Distinct) (h : r.Distinct) :
    (r.changeScope change parent).Distinct := by
  induction parent generalizing r with
  | nil => exact hchange r h
  | cons first parent ih =>
    refine h.insert ?_
    rintro inner ⟨⟩
    exact ih (h.scopeUnder first)

theorem Distinct.put (h : r.Distinct) (path : Text) (s : Scalar) :
    (r.put path (.scalar s)).Distinct := by
  refine h.changeScope fun _ hscope => hscope.insert ?_
  intro inner hrecord
  cases hrecord

theorem Distinct.foldl_put (h : r.Distinct) (entries : List (Text × Text)) :
    (entries.foldl (fun (r : Record) entry =>
      r.put entry.1 (.scalar (.text entry.2))) r).Distinct := by
  induction entries generalizing r with
  | nil => exact h
  | cons entry entries ih => exact ih (h.put entry.1 (.text entry.2))

end Record

end FieldedText
