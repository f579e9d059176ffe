/-
FieldedText/Proofs/Appending.lean

Entries that are added to a list.

The ordinal of a new entry is read from the names of the list: it is the number after the
largest one that an ordinal stands for.  The list itself orders ordinals as numbers of any
length.  As long as no ordinal reaches the end of the sixty-four bits that count, both
readings agree, and the new ordinal stands for more than any other one
(`lt_of_nextOrdinal`).  So it is new, whatever zeros other ordinals begin with and whatever
was removed before, and it comes last (`appends_add`).
-/
import FieldedText.Data.Listing
import FieldedText.Proofs.Decimal
import FieldedText.Proofs.Merge
import FieldedText.Proofs.Storing

namespace FieldedText

/-- What comes after all the others stays at the end when it is sorted, and the others are sorted
as they are without it. -/
theorem sort_concat {α : Type} {le : α → α → Bool} {xs : List α} {y : α}
    (h : ∀ x ∈ xs, le x y = true) : sort le (xs ++ [y]) = sort le xs ++ [y] := by
  have hinsert {x : α} (hx : le x y = true) (ys : List α) :
      insertSorted le x (ys ++ [y]) = insertSorted le x ys ++ [y] := by
    induction ys with
    | nil => exact if_pos hx
    | cons z ys ih =>
      rw [List.cons_append, insertSorted, insertSorted, ih]
      split <;> rfl
  induction xs with
  | nil => rfl
  | cons x xs ih =>
    obtain ⟨hx, hxs⟩ := List.forall_mem_cons.1 h
    have hsort (zs : List α) : sort le (x :: zs) = insertSorted le x (sort le zs) := rfl
    rw [List.cons_append, hsort, ih hxs, hinsert hx, ← hsort]

namespace Record

variable {r : Record} {name : Name} {path : Text} {value : Value}

theorem mem_ordinals_iff : name ∈ r.ordinals ↔ name ∈ r.names ∧ Name.isOrdinal name = true := by
  rw [ordinals, (sort_perm _ _).mem_iff, List.mem_filter]

/-! ### The next ordinal -/

theorem isOrdinal_nextOrdinal (r : Record) : Name.isOrdinal r.nextOrdinal = true := by
  unfold nextOrdinal
  split <;> exact isDigits_natText _

/-- That each ordinal of a record, and the number after it, has at most sixty-four bits. Beyond
that the next ordinal is chosen without regard to the larger ones. -/
def Countable (r : Record) : Prop :=
  ∀ ordinal ∈ r.ordinals, digitsValue ordinal < 18446744073709551615

section Countable

variable (h : r.Countable)

include h

/-- All ordinals count when the next one is chosen. This is what `Countable` is for, and nothing
else of it is used. -/
theorem counted_eq : r.counted = (r.names.filter Name.isOrdinal).map digitsValue := by
  rw [counted, ← List.filterMap_eq_map]
  refine List.filterMap_congr fun ordinal hordinal => if_pos ?_
  have hvalue := h ordinal (mem_ordinals_iff.2 (List.mem_filter.1 hordinal))
  exact hvalue.trans (by decide)

theorem mem_counted_iff {n : Nat} :
    n ∈ r.counted ↔ ∃ ordinal ∈ r.ordinals, digitsValue ordinal = n := by
  simp only [counted_eq h, List.mem_map, List.mem_filter, mem_ordinals_iff]

/-- The next ordinal of a list without entries is zero. -/
theorem nextOrdinal_of_nil (hnil : r.ordinals = []) : r.nextOrdinal = natText 0 := by
  have hcounted : r.counted = [] := by
    rw [List.eq_nil_iff_forall_not_mem]
    intro n hn
    obtain ⟨ordinal, hordinal, -⟩ := (mem_counted_iff h).1 hn
    rw [hnil] at hordinal
    cases hordinal
  rw [nextOrdinal, hcounted]
  rfl

/-- The next ordinal is the number after the largest one. -/
theorem nextOrdinal_of_largest {largest : Name} (hmem : largest ∈ r.ordinals)
    (hle : ∀ ordinal ∈ r.ordinals, digitsValue ordinal ≤ digitsValue largest) :
    r.nextOrdinal = natText (digitsValue largest + 1) := by
  have hmax : r.counted.max? = some (digitsValue largest) := by
    rw [List.max?_eq_some_iff]
    refine ⟨(mem_counted_iff h).2 ⟨largest, hmem, rfl⟩, fun n hn => ?_⟩
    obtain ⟨ordinal, hordinal, rfl⟩ := (mem_counted_iff h).1 hn
    exact hle ordinal hordinal
  rw [nextOrdinal, hmax]

/-- **The next ordinal stands for more than any other one.** So it is none of them, and in the
order by numbers it comes last. -/
theorem lt_of_nextOrdinal (hmem : name ∈ r.ordinals) :
    digitsValue name < digitsValue r.nextOrdinal := by
  have hcounted := (mem_counted_iff h).2 ⟨name, hmem, rfl⟩
  rw [nextOrdinal]
  split
  · rename_i largest hlargest
    rw [digitsValue_natText]
    exact Nat.lt_succ_of_le ((List.max?_eq_some_iff.1 hlargest).2 _ hcounted)
  · rename_i hnone
    rw [List.max?_eq_none_iff] at hnone
    rw [hnone] at hcounted
    cases hcounted

theorem nextOrdinal_not_mem : r.nextOrdinal ∉ r.names := by
  intro hmem
  exact Nat.lt_irrefl _
    (lt_of_nextOrdinal h (mem_ordinals_iff.2 ⟨hmem, isOrdinal_nextOrdinal r⟩))

/-- A value that is pushed comes behind all entries, since nothing was stored under its ordinal
before. -/
theorem push_eq_append (value : Value) : r.push value = r ++ [(r.nextOrdinal, value)] :=
  insert_of_not_mem (nextOrdinal_not_mem h)

/-- **The ordinal of a value that is pushed comes last.** -/
theorem ordinals_push (value : Value) :
    (r.push value).ordinals = r.ordinals ++ [r.nextOrdinal] := by
  have hnames : (r.push value).names = r.names ++ [r.nextOrdinal] := by
    rw [push_eq_append h, names, List.map_append]
    rfl
  rw [ordinals, hnames, List.filter_append, List.filter_singleton, isOrdinal_nextOrdinal]
  refine sort_concat fun ordinal hordinal => ?_
  have hlt := lt_of_nextOrdinal h (mem_ordinals_iff.2 (List.mem_filter.1 hordinal))
  rw [Name.ordinalLe, Bool.or_eq_true]
  exact .inl (decide_eq_true hlt)

end Countable

/-! ### Lists at paths -/

/-- The record at a path, empty where there is none. -/
def listAt (r : Record) (path : Text) : Record := (r.recordAt? path).getD []

theorem ordinalsAt_eq (r : Record) (path : Text) :
    r.ordinalsAt path = (r.listAt path).ordinals := by
  rw [ordinalsAt, listAt]
  cases r.recordAt? path <;> rfl

/-- What adding a value to the list at a path does, under the ordinal that it is given: the
ordinal is new, it is the one after the largest, it comes last in the list, and no entry is
touched. -/
structure Appends (r : Record) (path : Text) (value : Value) : Prop where
  fresh : r.addedOrdinal path ∉ (r.listAt path).names
  first : r.ordinalsAt path = [] → r.addedOrdinal path = natText 0
  next : ∀ largest ∈ r.ordinalsAt path,
    (∀ ordinal ∈ r.ordinalsAt path, digitsValue ordinal ≤ digitsValue largest) →
      r.addedOrdinal path = natText (digitsValue largest + 1)
  listed : (r.add path value).ordinalsAt path = r.ordinalsAt path ++ [r.addedOrdinal path]
  /-- All entries keep their names, their values and their places. -/
  kept : (r.add path value).recordAt? path =
    some (r.listAt path ++ [(r.addedOrdinal path, value)])

section Path

variable (hpath : path = [] ∨ ∀ name ∈ Path.names path, name ≠ [])

include hpath

/-- A path without an empty name leads to the same record when it is read and when it is made. An
empty name at its end would be dropped in one of the two. -/
theorem recordAt?_eq_inner? (r : Record) : r.recordAt? path = r.inner? (Path.scope path) := by
  rcases hpath with rfl | hpath
  · rfl
  · have hne : path ≠ [] := by
      rintro rfl
      exact hpath [] (List.mem_singleton_self []) rfl
    have hnames : Path.names path ≠ [] := Text.splitOn_ne_nil '.' path
    rw [recordAt?, if_neg hne, Path.scope, Path.withoutFinalEmpty_eq_self hpath, lookup,
      inner?_eq_bind hnames]

/-- **What is added to a list never takes the place of anything, and comes last.** The list may
have gaps, leading zeros and names that are no ordinals. -/
theorem appends_add
    (hcount : ∀ ordinal ∈ r.ordinalsAt path, digitsValue ordinal < 18446744073709551615)
    (value : Value) : r.Appends path value := by
  -- Reading and making lead to the same record, so that all five parts speak of one list, and of
  -- that list with a value pushed to it.
  have hlist : r.scopeAt (Path.scope path) = r.listAt path := by
    rw [scopeAt_eq, listAt, recordAt?_eq_inner? hpath]
  have hordinal : r.addedOrdinal path = (r.listAt path).nextOrdinal := by
    rw [addedOrdinal, hlist]
  have hadd : (r.add path value).recordAt? path = some ((r.listAt path).push value) := by
    rw [recordAt?_eq_inner? hpath, add, inner?_changeScope, hlist]
  have hcountable : (r.listAt path).Countable := by
    rwa [ordinalsAt_eq] at hcount
  constructor
  case fresh => exact hordinal ▸ nextOrdinal_not_mem hcountable
  case first =>
    rw [ordinalsAt_eq, hordinal]
    exact nextOrdinal_of_nil hcountable
  case next =>
    rw [ordinalsAt_eq, hordinal]
    exact fun _ => nextOrdinal_of_largest hcountable
  case listed =>
    have hafter : (r.add path value).listAt path = (r.listAt path).push value := by
      rw [listAt, hadd]
      rfl
    rw [ordinalsAt_eq, hafter, ordinals_push hcountable, ordinalsAt_eq, hordinal]
  case kept => rw [hadd, push_eq_append hcountable, hordinal]

end Path

/-- A list with a gap, with two ordinals for one number and with a name that is no ordinal. -/
def gapped : Record :=
  [("l".toList, .record [("007".toList, .scalar (.char 'a')), ("x".toList, .scalar (.char 'b')),
    ("7".toList, .scalar (.char 'c')), ("2".toList, .scalar (.char 'd'))])]

/-- A gap is not filled, and an ordinal counts whatever zeros it begins with. -/
theorem appends_gapped :
    (∀ ordinal ∈ gapped.ordinalsAt "l".toList, digitsValue ordinal < 18446744073709551615) ∧
    gapped.Appends "l".toList (.scalar (.char 'e')) ∧
    gapped.addedOrdinal "l".toList = "8".toList ∧
    (gapped.add "l".toList (.scalar (.char 'e'))).ordinalsAt "l".toList =
      ["2".toList, "7".toList, "007".toList, "8".toList] := by
  have hcount : ∀ ordinal ∈ gapped.ordinalsAt "l".toList,
      digitsValue ordinal < 18446744073709551615 := by decide +kernel
  exact ⟨hcount, appends_add (.inr (by decide +kernel)) hcount _, by decide +kernel,
    by decide +kernel⟩

end Record

end FieldedText
