/-
FieldedText/Data/Order.lean

The orders in which names are listed, and sorting by them.

A name that is a run of digits is an *ordinal*, the name of a list's entry.
Ordinals come by their value, however many digits they have, and ordinals of
one value by their length.  In a listing of all the names of a record the other
names come first, by code points.

Sorting is by insertion.  It keeps every element (`sort_perm`) and puts any two
in order (`pairwise_sort`).
-/
import FieldedText.Number.Decimal

namespace FieldedText

/-! ### Sorting -/

section Sorting

variable {α : Type}

/-- A list in order with one more element, put before the first one that it does not come after.
Of two that are each before the other the new one goes first. -/
def insertSorted (le : α → α → Bool) (x : α) : List α → List α
  | [] => [x]
  | y :: ys => if le x y then x :: y :: ys else y :: insertSorted le x ys

/-- A list in order; elements that are each before the other stay as they are. -/
def sort (le : α → α → Bool) (xs : List α) : List α := xs.foldr (insertSorted le) []

theorem insertSorted_perm (le : α → α → Bool) (x : α) (xs : List α) :
    (insertSorted le x xs).Perm (x :: xs) := by
  induction xs with
  | nil => exact List.Perm.refl _
  | cons y ys ih =>
    rw [insertSorted]
    split
    · exact List.Perm.refl _
    · exact (ih.cons y).trans (List.Perm.swap x y ys)

/-- Sorting keeps every element. -/
theorem sort_perm (le : α → α → Bool) (xs : List α) : (sort le xs).Perm xs := by
  induction xs with
  | nil => exact List.Perm.refl _
  | cons x xs ih => exact (insertSorted_perm le x _).trans (ih.cons x)

theorem pairwise_insertSorted {le : α → α → Bool} (total : ∀ x y, le x y || le y x)
    (trans : ∀ x y z, le x y → le y z → le x z) (x : α) {xs : List α}
    (h : xs.Pairwise fun a b => le a b) : (insertSorted le x xs).Pairwise fun a b => le a b := by
  induction xs with
  | nil => simp [insertSorted]
  | cons y ys ih =>
    have ⟨hy, hys⟩ := List.pairwise_cons.1 h
    rw [insertSorted]
    split
    · rename_i hxy
      refine List.pairwise_cons.2 ⟨fun z hz => ?_, h⟩
      rcases List.mem_cons.1 hz with rfl | hz
      · exact hxy
      · exact trans x y z hxy (hy z hz)
    · rename_i hxy
      have hyx : le y x = true := by
        have := total x y
        simpa [hxy] using this
      refine List.pairwise_cons.2 ⟨fun z hz => ?_, ih hys⟩
      rcases List.mem_cons.1 ((insertSorted_perm le x ys).mem_iff.1 hz) with rfl | hz
      · exact hyx
      · exact hy z hz

/-- Sorting puts every element before those it should be before. -/
theorem pairwise_sort {le : α → α → Bool} (total : ∀ x y, le x y || le y x)
    (trans : ∀ x y z, le x y → le y z → le x z) (xs : List α) :
    (sort le xs).Pairwise fun a b => le a b := by
  induction xs with
  | nil => exact List.Pairwise.nil
  | cons x xs ih => exact pairwise_insertSorted total trans x ih

end Sorting

/-! ### Names -/

namespace Name

/-- Whether a name is that of a list's entry: a run of digits. -/
def isOrdinal (name : Name) : Bool := isDigits name

/-- Whether one ordinal comes before another, or is the same: the one of smaller value, and of two
with one value the shorter. Two that differ in leading zeros are two names. -/
def ordinalLe (a b : Name) : Bool :=
  digitsValue a < digitsValue b || (digitsValue a == digitsValue b && a.length ≤ b.length)

/-- Whether one name comes before another by code points, or is the same. -/
def codeLe : Name → Name → Bool
  | [], _ => true
  | _ :: _, [] => false
  | c :: a, d :: b => c.toNat < d.toNat || (c.toNat == d.toNat && codeLe a b)

/-- Whether one name comes before another in a listing, or is the same: names that are no ordinals
by code points, then ordinals. For UTF-8 the order by code points is that by bytes. -/
def listedLe (a b : Name) : Bool :=
  match isOrdinal a, isOrdinal b with
  | false, false => codeLe a b
  | false, true => true
  | true, false => false
  | true, true => ordinalLe a b

theorem ordinalLe_total (a b : Name) : ordinalLe a b || ordinalLe b a := by
  simp only [ordinalLe, Bool.or_eq_true, Bool.and_eq_true, decide_eq_true_eq, beq_iff_eq]
  omega

theorem ordinalLe_trans (a b c : Name) (hab : ordinalLe a b) (hbc : ordinalLe b c) :
    ordinalLe a c := by
  simp only [ordinalLe, Bool.or_eq_true, Bool.and_eq_true, decide_eq_true_eq, beq_iff_eq] at *
  omega

end Name

end FieldedText
