/-
FieldedText/Proofs/Listing.lean

What is listed of records that hold the same entries.

Two values are the same but for the order in which their entries were stored when they are
one scalar, or records with the same names that have such values under each of them
(`Value.Same`).  What is sorted without ties does not hang on the order that it had before
(`sort_eq_of_perm`), and so neither the text of a value (`shown_eq_of_same`) nor the ordinals
at a path (`ordinalsAt_eq_of_same`) do.

In the text of a record the names come by the rules of `Name.Before` (`textListed`); the
ordinals of a list are all there, once each, and in the order of their numbers
(`ordinalsListed`).  The main result is all of this at every path and at every depth
(`sameListings`).
-/
import FieldedText.Data.Shown
import FieldedText.Proofs.Appending
import FieldedText.Proofs.Ordering
import Mathlib.Data.List.Nodup
import Mathlib.Data.List.Perm.Subperm

namespace FieldedText

/-! ### Sorting -/

section Sorting

variable {α β : Type} {le : α → α → Bool} {xs ys : List α}

/-- **What is sorted without ties does not hang on the order that it had before.** Only elements
of the list have to be told apart by the order, not all of the type. -/
theorem sort_eq_of_perm (total : ∀ x y, le x y || le y x)
    (trans : ∀ x y z, le x y → le y z → le x z)
    (antisymm : ∀ x ∈ xs, ∀ y ∈ xs, le x y = true → le y x = true → x = y) (h : xs.Perm ys) :
    sort le xs = sort le ys := by
  have hperm : (sort le xs).Perm (sort le ys) :=
    (sort_perm le xs).trans (h.trans (sort_perm le ys).symm)
  refine List.Perm.eq_of_pairwise ?_ (pairwise_sort total trans xs)
    (pairwise_sort total trans ys) hperm
  intro x y hx hy hxy hyx
  exact antisymm x ((sort_perm le xs).mem_iff.1 hx) y
    (h.mem_iff.2 ((sort_perm le ys).mem_iff.1 hy)) hxy hyx

/-- Two orders that agree on the elements sort them alike. -/
theorem sort_congr {other : α → α → Bool} (h : ∀ x ∈ xs, ∀ y ∈ xs, le x y = other x y) :
    sort le xs = sort other xs := by
  have hinsert {x : α} {ys : List α} (hx : ∀ y ∈ ys, le x y = other x y) :
      insertSorted le x ys = insertSorted other x ys := by
    induction ys with
    | nil => rfl
    | cons y ys ih =>
      obtain ⟨hy, hys⟩ := List.forall_mem_cons.1 hx
      rw [insertSorted, insertSorted, hy, ih hys]
  induction xs with
  | nil => rfl
  | cons x xs ih =>
    have hsort (le : α → α → Bool) : sort le (x :: xs) = insertSorted le x (sort le xs) := rfl
    rw [hsort, hsort, ← ih fun y hy z hz => h y (List.mem_cons_of_mem x hy) z
      (List.mem_cons_of_mem x hz)]
    exact hinsert fun y hy => h x (List.mem_cons_self ..) y
      (List.mem_cons_of_mem x ((sort_perm le xs).mem_iff.1 hy))

/-- What is changed without changing the order may be changed once it is sorted. -/
theorem sort_map (le : β → β → Bool) (f : α → β) (xs : List α) :
    sort le (xs.map f) = (sort (fun x y => le (f x) (f y)) xs).map f := by
  have hinsert (x : α) (ys : List α) : insertSorted le (f x) (ys.map f) =
      (insertSorted (fun x y => le (f x) (f y)) x ys).map f := by
    induction ys with
    | nil => rfl
    | cons y ys ih =>
      rw [List.map_cons, insertSorted, insertSorted, ih]
      split <;> rfl
  induction xs with
  | nil => rfl
  | cons x xs ih =>
    have hsort : sort le ((x :: xs).map f) = insertSorted le (f x) (sort le (xs.map f)) := rfl
    rw [hsort, ih, hinsert]
    rfl

end Sorting

/-! ### The same entries -/

/-- That two values are the same but for the order in which entries were stored, at every depth.
The names are asked to be the same as often as they occur, so a record that repeats none is not
the same as one that does. -/
inductive Value.Same : Value → Value → Prop
  | scalar (s : Scalar) : Same (.scalar s) (.scalar s)
  | record {r s : Record} (names : r.names.Perm s.names)
      (values : ∀ name v w, r.get? name = some v → s.get? name = some w → Same v w) :
      Same (.record r) (.record s)

namespace Record

variable {r s : Record} {name : Name} {way : List Name} {value : Value} {path : Text}

theorem mem_of_get? (h : r.get? name = some value) : (name, value) ∈ r := by
  induction r with
  | nil => cases h
  | cons entry r ih =>
    obtain ⟨first, v⟩ := entry
    rw [get?] at h
    split at h
    · rename_i heq
      cases h
      exact heq ▸ List.mem_cons_self ..
    · exact List.mem_cons_of_mem _ (ih h)

end Record

namespace Value.Same

variable {r s inner : Record} {v w : Value} {name : Name} {way : List Name}

theorem symm (h : Same v w) : Same w v := by
  induction h with
  | scalar s => exact .scalar s
  | record names _ ih => exact .record names.symm fun name v w hv hw => ih name w v hw hv

theorem names (h : Same (.record r) (.record s)) : r.names.Perm s.names := by
  cases h with
  | record names _ => exact names

theorem of_forall (names : r.names.Perm s.names)
    (h : ∀ entry ∈ r, ∃ w, s.get? entry.1 = some w ∧ Same entry.2 w) :
    Same (.record r) (.record s) := by
  refine .record names fun name v w hv hw => ?_
  obtain ⟨other, hother, hsame⟩ := h _ (Record.mem_of_get? hv)
  rw [hw] at hother
  cases hother
  exact hsame

/-- What is under a name is the same in both records. -/
theorem exists_get? (h : Same (.record r) (.record s)) (hv : r.get? name = some v) :
    ∃ w, s.get? name = some w ∧ Same v w := by
  cases h with
  | record names values =>
    obtain ⟨w, hw⟩ := Record.mem_names_iff.1 (names.mem_iff.1 (Record.mem_names_of_get? hv))
    exact ⟨w, hw, values name v w hv hw⟩

/-- **A way leads to the same in both records.** By induction on the way, one name at a time. -/
theorem exists_inner? (h : Same (.record r) (.record s)) (hr : r.inner? way = some inner) :
    ∃ other, s.inner? way = some other ∧ Same (.record inner) (.record other) := by
  induction way generalizing r s with
  | nil =>
    cases hr
    exact ⟨s, rfl, h⟩
  | cons first way ih =>
    rw [Record.inner?_cons, Option.bind_eq_some_iff] at hr
    obtain ⟨v, hv, hr⟩ := hr
    cases v with
    | scalar t => cases hr
    | record next =>
      obtain ⟨w, hw, hsame⟩ := h.exists_get? hv
      cases w with
      | scalar t => cases hsame
      | record other =>
        obtain ⟨found, hfound, hinner⟩ := ih hsame hr
        refine ⟨found, ?_, hinner⟩
        rw [Record.inner?_cons, hw]
        exact hfound

end Value.Same

/-! ### Ordinals -/

namespace Record

variable {r s a b : Record} {name : Name} {way : List Name} {value : Value} {path : Text}

theorem recordAt?_eq (r : Record) (path : Text) :
    r.recordAt? path = if path = [] then some r else r.inner? (Path.names path) := by
  have hnames : Path.names path ≠ [] := Text.splitOn_ne_nil '.' path
  rw [recordAt?, inner?_eq_bind hnames]
  rfl

theorem ordinals_eq_of_perm (h : r.names.Perm s.names) : r.ordinals = s.ordinals := by
  refine sort_eq_of_perm Name.ordinalLe_total Name.ordinalLe_trans ?_ (h.filter _)
  intro a ha b hb
  exact Name.ordinalLe_antisymm (List.mem_filter.1 ha).2 (List.mem_filter.1 hb).2

/-- Ordinals depend on the names at a path only, and these are the same in any order. -/
theorem ordinalsAt_eq_of_same (h : Value.Same (.record r) (.record s)) (path : Text) :
    r.ordinalsAt path = s.ordinalsAt path := by
  -- what a path leads to in one record it leads to in the other; used both ways, since `Same` is
  -- symmetric
  have hrecord : ∀ {r s : Record}, Value.Same (.record r) (.record s) → ∀ {scope},
      r.recordAt? path = some scope →
        ∃ other, s.recordAt? path = some other ∧ scope.names.Perm other.names := by
    intro r s h scope hscope
    rw [recordAt?_eq] at hscope ⊢
    split_ifs at hscope ⊢
    · cases hscope
      exact ⟨s, rfl, h.names⟩
    · obtain ⟨other, hother, hsame⟩ := h.exists_inner? hscope
      exact ⟨other, hother, hsame.names⟩
  rw [ordinalsAt, ordinalsAt]
  cases hr : r.recordAt? path with
  | some scope =>
    obtain ⟨other, hother, hnames⟩ := hrecord h hr
    rw [hother]
    exact ordinals_eq_of_perm hnames
  | none =>
    cases hs : s.recordAt? path with
    | none => rfl
    | some other =>
      obtain ⟨scope, hscope, -⟩ := hrecord h.symm hs
      rw [hr] at hscope
      cases hscope

/-- What the ordinals at a path are: all ordinals among the names there, each once, and ordered as
numbers. -/
structure OrdinalsListed (r : Record) (path : Text) : Prop where
  mem : ∀ name, name ∈ r.ordinalsAt path ↔ ∃ scope, r.recordAt? path = some scope ∧
    name ∈ scope.names ∧ Name.isOrdinal name = true
  nodup : (r.ordinalsAt path).Nodup
  order : (r.ordinalsAt path).Pairwise Name.OrdinalBefore
  /-- No number has to be computed for the order. -/
  textual : r.ordinalsAt path =
    sort Name.textualLe ((r.listAt path).names.filter Name.isOrdinal)

theorem pairwise_ordinals (h : r.names.Nodup) : r.ordinals.Pairwise Name.OrdinalBefore := by
  have hnodup : r.ordinals.Nodup := (sort_perm _ _).nodup_iff.2 (h.filter _)
  have hsorted := pairwise_sort Name.ordinalLe_total Name.ordinalLe_trans
    (r.names.filter Name.isOrdinal)
  refine (hsorted.and hnodup).imp_of_mem ?_
  intro a b ha hb hab
  exact Name.ordinalBefore_of_ordinalLe (mem_ordinals_iff.1 ha).2 (mem_ordinals_iff.1 hb).2 hab.1
    hab.2

theorem Distinct.listAt (h : r.Distinct) (path : Text) : (r.listAt path).names.Nodup := by
  rw [Record.listAt, recordAt?_eq]
  split_ifs
  · exact (distinct_iff.1 h).1
  · cases hinner : r.inner? (Path.names path) with
    | none => exact List.nodup_nil
    | some inner => exact h _ inner hinner

/-- **The ordinals at a path** are all that are there, once each, and in the order of their
numbers. -/
theorem ordinalsListed (h : r.Distinct) (path : Text) : OrdinalsListed r path := by
  have hnames := h.listAt path
  constructor
  case mem =>
    intro name
    rw [ordinalsAt]
    cases r.recordAt? path with
    | none => simp
    | some scope => simp [mem_ordinals_iff]
  case nodup =>
    rw [ordinalsAt_eq]
    exact (sort_perm _ _).nodup_iff.2 (hnames.filter _)
  case order =>
    rw [ordinalsAt_eq]
    exact pairwise_ordinals hnames
  case textual =>
    rw [ordinalsAt_eq]
    refine sort_congr fun a ha b hb => ?_
    exact Name.ordinalLe_eq_textual (List.mem_filter.1 ha).2 (List.mem_filter.1 hb).2

/-! ### Texts -/

theorem shownEntries_eq (r : Record) :
    Value.shownEntries r = r.map fun entry => (entry.1, entry.2.shown) := by
  induction r with
  | nil => rfl
  | cons entry r ih => exact congrArg ((entry.1, entry.2.shown) :: ·) ih

theorem map_fst_shownEntries (r : Record) : (Value.shownEntries r).map Prod.fst = r.names := by
  rw [shownEntries_eq, List.map_map]
  rfl

theorem nodup_shownEntries (h : r.names.Nodup) : (Value.shownEntries r).Nodup :=
  List.Nodup.of_map Prod.fst (map_fst_shownEntries r ▸ h)

/-- **The text of a value** does not hang on the order in which entries were stored. -/
theorem shown_eq_of_same {v w : Value} (h : Value.Same v w)
    (hdistinct : ∀ r : Record, v = .record r → r.Distinct) : v.shown = w.shown := by
  induction h with
  | scalar s => rfl
  | @record r s hnames values ih =>
    obtain ⟨hnodup, hinner⟩ := distinct_iff.1 (hdistinct r rfl)
    -- each entry of one record is in the other one, with a value that has the same text
    have hsubset : Value.shownEntries r ⊆ Value.shownEntries s := by
      rw [shownEntries_eq, shownEntries_eq]
      refine List.forall_mem_map.2 fun entry hentry => ?_
      obtain ⟨name, v⟩ := entry
      have hv := get?_of_mem hnodup hentry
      obtain ⟨w, hw⟩ := mem_names_iff.1 (hnames.mem_iff.1 (mem_names_of_get? hv))
      have hshown := ih name v w hv hw fun inner hrecord => hinner name inner (hrecord ▸ hv)
      exact List.mem_map.2 ⟨(name, w), mem_of_get? hw, by rw [hshown]⟩
    have hlength : (Value.shownEntries s).length ≤ (Value.shownEntries r).length := by
      rw [← List.length_map (f := Prod.fst), map_fst_shownEntries, ← hnames.length_eq,
        ← map_fst_shownEntries r, List.length_map]
    have hperm : (Value.shownEntries r).Perm (Value.shownEntries s) :=
      ((nodup_shownEntries hnodup).subperm hsubset).perm_of_length_le hlength
    have hsort : sort (fun x y => Name.listedLe x.1 y.1) (Value.shownEntries r) =
        sort (fun x y => Name.listedLe x.1 y.1) (Value.shownEntries s) := by
      refine sort_eq_of_perm (fun _ _ => Name.listedLe_total ..)
        (fun _ _ _ => Name.listedLe_trans _ _ _) ?_ hperm
      intro x hx y hy hxy hyx
      exact List.inj_on_of_nodup_map (map_fst_shownEntries r ▸ hnodup) hx hy
        (Name.listedLe_antisymm hxy hyx)
    rw [Value.shown, Value.shown, parenthesised, parenthesised, hsort]

/-- That the text of a record shows its entries by the rules for their names. It says that there
is an order of this kind, and not how it is found. -/
def TextListed (r : Record) : Prop :=
  ∃ listed : Record, listed.Perm r ∧ listed.Pairwise (fun x y => Name.Before x.1 y.1) ∧
    r.shown = ['('] ++ Text.join [','] (listed.map fun entry =>
      entry.1 ++ ['='] ++ entry.2.shown) ++ [')']

theorem textListed (h : r.names.Nodup) : TextListed r := by
  have hperm := sort_perm (fun x y => Name.listedLe x.1 y.1) r
  have hnodup : (names (sort (fun x y => Name.listedLe x.1 y.1) r)).Nodup :=
    (hperm.map Prod.fst).nodup_iff.2 h
  have hsorted : (sort (fun x y => Name.listedLe x.1 y.1) r).Pairwise fun x y =>
      Name.listedLe x.1 y.1 = true :=
    pairwise_sort (fun x y => Name.listedLe_total x.1 y.1)
      (fun x y z => Name.listedLe_trans x.1 y.1 z.1) r
  refine ⟨_, hperm, ?_, ?_⟩
  · exact (hsorted.and (List.pairwise_map.1 hnodup)).imp fun hxy =>
      Name.before_of_listedLe hxy.1 hxy.2
  · rw [shown, Value.shown, parenthesised, shownEntries_eq, sort_map, List.map_map]
    rfl

/-! ### All listings -/

/-- What is listed of two records that hold the same entries. The rules are stated for one of them
only, since the listings of the other one are the same. -/
structure SameListings (r s : Record) : Prop where
  shown : r.shown = s.shown
  ordinals : ∀ path, r.ordinalsAt path = s.ordinalsAt path
  ordinalsListed : ∀ path, OrdinalsListed r path
  /-- At every depth. -/
  textListed : ∀ way inner, r.inner? way = some inner → TextListed inner

/-- **Listings depend on content only**, not on the order in which entries were stored. What they
are is said for one of the records, and holds of the other one with it; the record must not repeat
a name, which no record does that was built by storing. -/
theorem sameListings (hr : r.Distinct) (h : Value.Same (.record r) (.record s)) :
    SameListings r s where
  shown := shown_eq_of_same h fun _ hrecord => Value.record.inj hrecord ▸ hr
  ordinals := ordinalsAt_eq_of_same h
  ordinalsListed := Record.ordinalsListed hr
  textListed way inner hinner := Record.textListed (hr way inner hinner)

/-- Ordinals of one number, and ordinals of two lengths beside a name. -/
def shuffled : Record :=
  [(['0', '2'], .scalar (.text ['u'])),
    (['a'], .record [(['1', '0'], .scalar (.text ['w'])), (['b'], .scalar (.text ['x'])),
      (['2'], .scalar (.text ['v']))]),
    (['2'], .scalar (.text ['t']))]

/-- The entries of `shuffled` in other orders. -/
def reshuffled : Record :=
  [(['2'], .scalar (.text ['t'])), (['0', '2'], .scalar (.text ['u'])),
    (['a'], .record [(['2'], .scalar (.text ['v'])), (['1', '0'], .scalar (.text ['w'])),
      (['b'], .scalar (.text ['x']))])]

theorem sameListings_shuffled :
    shuffled.Distinct ∧ Value.Same (.record shuffled) (.record reshuffled) ∧
      SameListings shuffled reshuffled ∧
      shuffled.shown = "(a=(b=x,2=v,10=w),2=t,02=u)".toList ∧
      shuffled.ordinalsAt ['a'] = [['2'], ['1', '0']] := by
  have hdistinct : shuffled.Distinct :=
    ((((distinct_nil.put "02".toList (.text ['u'])).put "a.10".toList (.text ['w'])).put
      "a.b".toList (.text ['x'])).put "a.2".toList (.text ['v'])).put "2".toList (.text ['t'])
  have hlist : Value.Same
      (.record [(['1', '0'], .scalar (.text ['w'])), (['b'], .scalar (.text ['x'])),
        (['2'], .scalar (.text ['v']))])
      (.record [(['2'], .scalar (.text ['v'])), (['1', '0'], .scalar (.text ['w'])),
        (['b'], .scalar (.text ['x']))]) := by
    refine .of_forall (by decide) ?_
    simp only [List.forall_mem_cons]
    exact ⟨⟨_, rfl, .scalar _⟩, ⟨_, rfl, .scalar _⟩, ⟨_, rfl, .scalar _⟩, nofun⟩
  have hsame : Value.Same (.record shuffled) (.record reshuffled) := by
    refine .of_forall (by decide) ?_
    simp only [shuffled, List.forall_mem_cons]
    exact ⟨⟨_, rfl, .scalar _⟩, ⟨_, rfl, hlist⟩, ⟨_, rfl, .scalar _⟩, nofun⟩
  exact ⟨hdistinct, hsame, sameListings hdistinct hsame, by decide +kernel, by decide +kernel⟩

end Record

end FieldedText
