/-
FieldedText/Data/Value.lean

Values: scalars, and records of named values nested to any depth.

A record is a list of entries in the order in which their names came into it.
Storing under a name that is there already replaces the value in its place;
any other name goes to the end.  The first entry of a name is the one that
counts, and every operation of this library that starts from records without
a repeated name gives records without one (`nodup_names_insert`,
`nodup_names_erase`).

Equality of data, `Value.equal`, does not look at the order of entries.
-/
import FieldedText.Data.Scalar

namespace FieldedText

/-- A scalar, or a record of named values. Lists are records as well, with ordinals for names. -/
inductive Value where
  | scalar (s : Scalar)
  | record (entries : List (Name × Value))

/-- Named values in order. That no name comes twice is kept by what the library does with records,
and is no part of the type. -/
abbrev Record := List (Name × Value)

namespace Value

/-! ### Equality -/

mutual

/-- Whether two values are the same, order of entries included. -/
def decideEq : (v w : Value) → Decidable (v = w)
  | scalar s, scalar t => decidable_of_iff (s = t) (by simp)
  | record r, record s =>
    match decideEntriesEq r s with
    | isTrue h => isTrue (h ▸ rfl)
    | isFalse h => isFalse fun e => h (record.inj e)
  | scalar _, record _ => isFalse nofun
  | record _, scalar _ => isFalse nofun

/-- Whether two records are the same, order of entries included. -/
def decideEntriesEq : (r s : List (Name × Value)) → Decidable (r = s)
  | [], [] => isTrue rfl
  | [], _ :: _ => isFalse nofun
  | _ :: _, [] => isFalse nofun
  | (k, v) :: r, (l, w) :: s =>
    match decideEq v w, decideEntriesEq r s with
    | isTrue hv, isTrue hr => decidable_of_iff (k = l) (by simp [hv, hr])
    | isFalse hv, _ => isFalse (by simp [hv])
    | _, isFalse hr => isFalse (by simp [hr])

end

instance : DecidableEq Value := decideEq

/-- The scalar that a value is. -/
def scalar? : Value → Option Scalar
  | scalar s => some s
  | record _ => none

/-- The record that a value is. -/
def record? : Value → Option Record
  | scalar _ => none
  | record entries => some entries

end Value

namespace Record

/-! ### Entries -/

/-- The names of a record, in order. -/
def names (r : Record) : List Name := r.map Prod.fst

/-- The value under a name. -/
def get? : Record → Name → Option Value
  | [], _ => none
  | (k, v) :: r, name => if k = name then some v else get? r name

/-- The record with a value stored under a name: in place of the value that is there, or at the
end. The other entries keep their order. -/
def insert : Record → Name → Value → Record
  | [], name, value => [(name, value)]
  | (k, v) :: r, name, value =>
    if k = name then (k, value) :: r else (k, v) :: insert r name value

/-- The record with a value stored under a name, unless the value is absent. -/
def insertSome (r : Record) (name : Name) : Option Value → Record
  | none => r
  | some value => r.insert name value

/-- The record without a name. -/
def erase (r : Record) (name : Name) : Record := r.filter fun entry => entry.1 ≠ name

/-- The record that arises by storing entries one after the other. Of two under one name the later
is stored in the place of the earlier. -/
def ofEntries (entries : List (Name × Value)) : Record :=
  entries.foldl (fun r (name, value) => r.insert name value) []

theorem get?_insert (r : Record) (name other : Name) (value : Value) :
    (r.insert name value).get? other = if name = other then some value else r.get? other := by
  induction r with
  | nil => simp [insert, get?]
  | cons entry r ih =>
    obtain ⟨k, v⟩ := entry
    by_cases hk : k = name
    · by_cases ho : name = other <;> simp [insert, get?, hk, ho]
    · by_cases ho : name = other
      · subst ho
        simp [insert, get?, hk, ih]
      · simp only [insert, if_neg hk, get?, ih, if_neg ho]

theorem get?_erase (r : Record) (name other : Name) :
    (r.erase name).get? other = if name = other then none else r.get? other := by
  induction r with
  | nil => simp [erase, get?]
  | cons entry r ih =>
    obtain ⟨k, v⟩ := entry
    simp only [erase] at ih
    by_cases hk : k = name
    · subst hk
      by_cases ho : k = other <;> simp_all [erase, get?]
    · by_cases ho : name = other
      · subst ho
        simp_all [erase, get?]
      · by_cases hko : k = other <;> simp_all [erase, get?]

/-- A name that is there stays where it is; any other goes to the end. So the names of a record
are in the order in which they came into it. -/
theorem names_insert (r : Record) (name : Name) (value : Value) :
    (r.insert name value).names = if name ∈ r.names then r.names else r.names ++ [name] := by
  induction r with
  | nil => simp [insert, names]
  | cons entry r ih =>
    obtain ⟨k, v⟩ := entry
    simp only [names] at ih
    by_cases hk : k = name
    · simp [insert, names, hk]
    · have hne : ¬name = k := fun e => hk e.symm
      by_cases hm : name ∈ List.map Prod.fst r <;> simp_all [insert, names]

theorem nodup_names_insert {r : Record} (h : r.names.Nodup) (name : Name) (value : Value) :
    (r.insert name value).names.Nodup := by
  rw [names_insert]
  split
  · exact h
  · rename_i hm
    exact List.nodup_append.2 ⟨h, by simp, by simp; exact fun a ha e => hm (e ▸ ha)⟩

theorem nodup_names_erase {r : Record} (h : r.names.Nodup) (name : Name) :
    (r.erase name).names.Nodup :=
  List.Sublist.nodup (List.Sublist.map _ List.filter_sublist) h

end Record

/-! ### The same data -/

namespace Value

mutual

/-- Whether two values are the same data, in whatever order. -/
def equal : Value → Value → Bool
  | scalar s, scalar t => s.equal t
  | record r, record s => r.length == s.length && entriesAmong r s
  | _, _ => false

/-- Whether each entry is the same data as the other record holds under its name. -/
def entriesAmong : List (Name × Value) → Record → Bool
  | [], _ => true
  | (name, value) :: r, other =>
    (match other.get? name with
      | some found => value.equal found
      | none => false) && entriesAmong r other

end

end Value

end FieldedText
