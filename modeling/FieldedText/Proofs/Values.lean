/-
FieldedText/Proofs/Values.lean

Values as trees: what holds of all their parts, and what changes in all of them.

An induction over values has a case for scalars and one for records, which has what is to be
shown for the value of every entry (`Value.induction`).  A record whose values change while its
names stay (`Record.mapValues`) is read as before, and what is read of it are the changed
values.  `Value.mapScalars` changes the scalars of a value at every depth.

`Value.Everywhere` says what holds of the scalars and of the records in a value.  A value is
distinct when no record in it repeats a name (`Value.Distinct`), which for a record is what it
is for its ways (`distinct_record_iff`).
-/
import FieldedText.Proofs.Listing

namespace FieldedText

namespace Value

/-- What holds of scalars, and of a record once it holds of the values in it, holds of every
value. -/
@[elab_as_elim]
theorem induction {P : Value → Prop} (scalar : ∀ s, P (.scalar s))
    (record : ∀ r : Record, (∀ entry ∈ r, P entry.2) → P (.record r)) (v : Value) : P v :=
  @Value.rec P (fun r => ∀ entry ∈ r, P entry.2) (fun entry => P entry.2) scalar record
    (List.forall_mem_nil _) (fun _ _ hentry hr => List.forall_mem_cons.2 ⟨hentry, hr⟩)
    (fun _ _ hvalue => hvalue) v

end Value

/-! ### Other values under the same names -/

namespace Record

variable {r : Record} {f g : Value → Value} {name : Name} {v : Value}

/-- The record with its values changed. Its names stay, and with them whether it is a list and
which of its entries come first. -/
def mapValues (f : Value → Value) (r : Record) : Record := r.map fun entry => (entry.1, f entry.2)

@[simp] theorem mapValues_nil : mapValues f [] = [] := rfl

@[simp] theorem mapValues_cons (entry : Name × Value) (r : Record) :
    mapValues f (entry :: r) = (entry.1, f entry.2) :: mapValues f r := rfl

@[simp] theorem length_mapValues : (r.mapValues f).length = r.length := List.length_map _

@[simp] theorem names_mapValues : (r.mapValues f).names = r.names := by
  rw [names, mapValues, List.map_map]
  rfl

@[simp] theorem get?_mapValues : (r.mapValues f).get? name = (r.get? name).map f := by
  induction r with
  | nil => rfl
  | cons entry r ih =>
    obtain ⟨first, value⟩ := entry
    rw [mapValues_cons, get?, get?, ih]
    split <;> rfl

@[simp] theorem ordinals_mapValues : (r.mapValues f).ordinals = r.ordinals := by
  rw [ordinals, names_mapValues, ordinals]

/-- **The elements of a list change with its values**, and keep their order. -/
@[simp] theorem elements_mapValues : (r.mapValues f).elements = r.elements.map f := by
  rw [elements, ordinals_mapValues, elements, List.map_filterMap]
  exact List.filterMap_congr fun _ _ => get?_mapValues

theorem isList_iff : r.isList = true ↔ r ≠ [] ∧ ∀ name ∈ r.names, Name.isOrdinal name = true := by
  rw [isList, Bool.and_eq_true, decide_eq_true_eq, List.all_eq_true]

@[simp] theorem isList_mapValues : (r.mapValues f).isList = r.isList := by
  rw [isList, isList, names_mapValues, mapValues]
  simp only [ne_eq, List.map_eq_nil_iff]

theorem mapValues_congr (h : ∀ entry ∈ r, f entry.2 = g entry.2) :
    r.mapValues f = r.mapValues g :=
  List.map_congr_left fun entry hentry => by rw [h entry hentry]

theorem mapValues_eq_self (h : ∀ entry ∈ r, f entry.2 = entry.2) : r.mapValues f = r := by
  rw [mapValues_congr (g := id) h]
  exact List.map_id r

theorem exists_of_mem_elements (h : v ∈ r.elements) : ∃ name, (name, v) ∈ r := by
  obtain ⟨name, -, hname⟩ := List.mem_filterMap.1 h
  exact ⟨name, mem_of_get? hname⟩

end Record

/-! ### Everywhere in a value -/

namespace Value

variable {f : Scalar → Scalar} {p : Scalar → Prop} {q : Record → Prop} {r : Record}

mutual

/-- The value with its scalars changed, at every depth. -/
def mapScalars (f : Scalar → Scalar) : Value → Value
  | scalar s => scalar (f s)
  | record r => record (mapScalarsIn f r)

/-- The entries of a record with their scalars changed. -/
def mapScalarsIn (f : Scalar → Scalar) : List (Name × Value) → Record
  | [] => []
  | (name, value) :: r => (name, value.mapScalars f) :: mapScalarsIn f r

end

@[simp] theorem mapScalars_scalar (s : Scalar) : (scalar s).mapScalars f = scalar (f s) := rfl

@[simp] theorem mapScalars_record (r : Record) :
    (record r).mapScalars f = record (r.mapValues (mapScalars f)) := by
  rw [mapScalars, record.injEq]
  induction r with
  | nil => rfl
  | cons entry r ih => exact congrArg ((entry.1, entry.2.mapScalars f) :: ·) ih

mutual

/-- That all scalars in a value have one property and all records in it another one, at every
depth. The records are found by going through the value and not by following ways, so that an
induction on the value can use it. -/
def Everywhere (p : Scalar → Prop) (q : Record → Prop) : Value → Prop
  | scalar s => p s
  | record r => q r ∧ EverywhereIn p q r

/-- That all scalars and all records in the values of entries have the properties. -/
def EverywhereIn (p : Scalar → Prop) (q : Record → Prop) : List (Name × Value) → Prop
  | [] => True
  | (_, value) :: r => value.Everywhere p q ∧ EverywhereIn p q r

end

@[simp] theorem everywhere_scalar (s : Scalar) : (scalar s).Everywhere p q ↔ p s := Iff.rfl

@[simp] theorem everywhere_record :
    (record r).Everywhere p q ↔ q r ∧ ∀ entry ∈ r, entry.2.Everywhere p q := by
  have hentries : EverywhereIn p q r ↔ ∀ entry ∈ r, entry.2.Everywhere p q := by
    induction r with
    | nil => exact iff_of_true trivial (List.forall_mem_nil _)
    | cons entry r ih => rw [EverywhereIn, List.forall_mem_cons, ih]
  rw [Everywhere, hentries]

/-- That no record in a value repeats a name. It is the condition under which each entry of a
record is the one that is found under its name. -/
def Distinct (v : Value) : Prop := v.Everywhere (fun _ => True) fun r => r.names.Nodup

theorem distinct_scalar (s : Scalar) : (scalar s).Distinct := trivial

theorem distinct_record : (record r).Distinct ↔ r.names.Nodup ∧ ∀ entry ∈ r, entry.2.Distinct :=
  everywhere_record

/-- **The records in a distinct record are those at the end of its ways.** -/
theorem distinct_record_iff : (record r).Distinct ↔ r.Distinct := by
  induction hv : record r using Value.induction generalizing r with
  | scalar s => cases hv
  | record s ih =>
    cases hv
    rw [distinct_record, Record.distinct_iff, and_congr_right_iff]
    intro hnames
    constructor
    · intro h name inner hinner
      have hentry := Record.mem_of_get? hinner
      exact (ih _ hentry rfl).1 (h _ hentry)
    · rintro h ⟨name, value⟩ hentry
      cases value with
      | scalar t => exact distinct_scalar t
      | record inner => exact (ih _ hentry rfl).2 (h name inner (Record.get?_of_mem hnames hentry))

end Value

end FieldedText
