/-
FieldedText/Proofs/Coercion.lean

A reader that asks for types sees the texts of scalars only.

A request for a type is met from a scalar's text, whatever the scalar's kind.  So a value is read
as if all its scalars were texts (`Value.flattened`): with the same outcome, unless a scalar
stands where a record was expected; the complaint then names the scalar's kind (`Alike`).

A request for whatever is there is shown the kinds, and so are requests for values.  `Typed`
holds of the shapes that have no such request for a value; keys are texts, and may be asked for
as anything.  The main result (`decode_alike_flattened`) is by induction on it, with one lemma for
each way of building shapes.
-/
import FieldedText.Proofs.RoundTrip
import FieldedText.Proofs.Values

namespace FieldedText

/-! ### Outcomes -/

/-- That two readings have the same outcome, or end in complaints that differ only in the kind of
the scalar that they are about. Equality would be too much: a complaint about a scalar where a
record was expected names its kind. -/
inductive Alike {α : Type} : Except Error α → Except Error α → Prop
  | same (outcome : Except Error α) : Alike outcome outcome
  | kind (expected : Text) (s t : Scalar) :
      Alike (.error (.typeMismatch expected s.kind)) (.error (.typeMismatch expected t.kind))

namespace Alike

variable {α β : Type} {x y : Except Error α} {f g : α → Except Error β}

/-- Alike readings succeed in the same cases and with the same data. -/
theorem ok_iff (h : Alike x y) (a : α) : x = .ok a ↔ y = .ok a := by
  cases h with
  | same => exact Iff.rfl
  | kind => exact iff_of_false (fun h => by cases h) (fun h => by cases h)

theorem bind (h : Alike x y) (hfg : ∀ a, Alike (f a) (g a)) : Alike (x >>= f) (y >>= g) := by
  cases h with
  | kind expected s t => exact kind expected s t
  | same =>
    cases x with
    | error e => exact same _
    | ok a => exact hfg a

theorem map (h : Alike x y) (f : α → β) : Alike (x.map f) (y.map f) := by
  cases h with
  | same => exact same _
  | kind expected s t => exact kind expected s t

/-- Readings of the elements of a list one by one are alike where those of each element are. -/
theorem mapM {xs : List α} (h : ∀ a ∈ xs, Alike (f a) (g a)) : Alike (xs.mapM f) (xs.mapM g) := by
  induction xs with
  | nil => exact same _
  | cons a xs ih =>
    obtain ⟨ha, hxs⟩ := List.forall_mem_cons.1 h
    rw [List.mapM_cons, List.mapM_cons]
    refine ha.bind fun b => (ih hxs).bind fun bs => ?_
    exact same _

end Alike

/-! ### Values as texts -/

namespace Value

variable {v : Value}

/-- The value with its scalars as text, at every depth. Names and the order of entries stay, and
so lists stay lists. -/
def flattened (v : Value) : Value := v.mapScalars Scalar.flattened

theorem flattened_record (r : Record) : (record r).flattened = record (r.mapValues flattened) :=
  mapScalars_record r

theorem parsed_flattened {α : Type} (expected : Text) (read? : Text → Option α) (v : Value) :
    v.flattened.parsed expected read? = v.parsed expected read? := by
  cases v <;> rfl

theorem asText_flattened (v : Value) : v.flattened.asText = v.asText := by
  cases v <;> rfl

theorem asInstant_flattened (v : Value) : v.flattened.asInstant = v.asInstant := by
  rw [asInstant, v.asText_flattened, asInstant]

theorem asAddress_flattened (v : Value) : v.flattened.asAddress = v.asAddress := by
  rw [asAddress, v.asText_flattened, asAddress]

theorem asChar_flattened (v : Value) : v.flattened.asChar = v.asChar := by
  cases v <;> rfl

/-- Where a record is expected, a scalar is complained about with its kind. This is the one place
where two readings come to differ, and all shapes of records go through it. -/
theorem asRecord_alike {α : Type} (expected : Text) (v : Value) {f g : Record → Except Error α}
    (h : ∀ r : Record, v = record r → Alike (f r) (g (r.mapValues flattened))) :
    Alike (v.asRecord expected >>= f) (v.flattened.asRecord expected >>= g) := by
  cases v with
  | scalar s => exact .kind expected s s.flattened
  | record r =>
    rw [flattened_record]
    exact h r rfl

/-- The variant that a value is has the same name when its scalars are texts. -/
theorem asVariant_flattened (v : Value) :
    v.flattened.asVariant =
      v.asVariant.map fun variant => ⟨variant.name, variant.content.map flattened⟩ := by
  cases v with
  | scalar s => rfl
  | record r =>
    rw [flattened_record]
    obtain _ | ⟨entry, _ | ⟨other, r⟩⟩ := r <;> rfl

end Value

/-! ### Shapes -/

namespace Shape

variable {shape keys contents : Shape} {shapes : List Shape} {fields : List (Name × Shape)}
  {variants : List (Name × VariantShape)}

/-- That a shape asks for types, wherever it asks for a value. The shapes that are shown the kinds
of scalars have no case, namely those that ask for whatever is there, for a value, or for a
record. -/
inductive Typed : Shape → Prop
  | ignored : Typed .ignored
  | truth : Typed .truth
  | integer (type : IntegerType) : Typed (.integer type)
  | float (format : Format) : Typed (.float format)
  | char : Typed .char
  | text : Typed .text
  | unit : Typed .unit
  | instant : Typed .instant
  | url : Typed .url
  | optional {shape : Shape} (typed : Typed shape) : Typed (.optional shape)
  | newtype {shape : Shape} (typed : Typed shape) : Typed (.newtype shape)
  | sequence {shape : Shape} (typed : Typed shape) : Typed (.sequence shape)
  | tuple {shapes : List Shape} (typed : ∀ shape ∈ shapes, Typed shape) : Typed (.tuple shapes)
  /-- The keys of a map are no values. -/
  | map {contents : Shape} (keys : Shape) (typed : Typed contents) : Typed (.map keys contents)
  /-- No value is read before a key. -/
  | valueFirst (keys contents : Shape) : Typed (.valueFirst keys contents)
  | struct {fields : List (Name × Shape)} (typed : ∀ field ∈ fields, Typed field.2) :
      Typed (.struct fields)
  | enumeration {variants : List (Name × VariantShape)}
      (typed : ∀ name shape, (name, .newtype shape) ∈ variants → Typed shape) :
      Typed (.enumeration variants)

/-- That values are read alike as a shape when their scalars are texts. It is said of a shape, for
all values, so that each way of building shapes has one lemma. -/
def SeesText (shape : Shape) : Prop := ∀ v, Alike (shape.decode v) (shape.decode v.flattened)

theorem seesText_of_eq (h : ∀ v, shape.decode v.flattened = shape.decode v) : shape.SeesText := by
  intro v
  rw [h v]
  exact .same _

theorem SeesText.optional (h : shape.SeesText) : (optional shape).SeesText := by
  intro v
  rw [decode, decode]
  exact (h v).map _

theorem SeesText.newtype (h : shape.SeesText) : (newtype shape).SeesText := by
  intro v
  rw [decode, decode]
  exact (h v).map _

theorem SeesText.sequence (h : shape.SeesText) : (sequence shape).SeesText := by
  intro v
  rw [decode, decode]
  refine v.asRecord_alike _ fun r _ => ?_
  rw [Record.elements_mapValues, List.mapM_map, List.length_map]
  exact (Alike.mapM fun element _ => h element).bind fun items => .same _

/-- The elements of a tuple are read each as its own type. How many were read, and how many there
should be, does not depend on the scalars. -/
theorem decodeTuple_alike (h : ∀ shape ∈ shapes, shape.SeesText) (size count : Nat)
    (values : List Value) :
    Alike (decodeTuple shapes size count values)
      (decodeTuple shapes size count (values.map Value.flattened)) := by
  induction shapes generalizing count values with
  | nil => exact .same _
  | cons shape shapes ih =>
    obtain ⟨hshape, hshapes⟩ := List.forall_mem_cons.1 h
    cases values with
    | nil => exact .same _
    | cons v values =>
      rw [List.map_cons, decodeTuple, decodeTuple]
      refine (hshape v).bind fun visit => ?_
      exact (ih hshapes (count + 1) values).bind fun visits => .same _

theorem SeesText.tuple (h : ∀ shape ∈ shapes, shape.SeesText) : (tuple shapes).SeesText := by
  intro v
  rw [decode, decode]
  refine v.asRecord_alike _ fun r _ => ?_
  rw [Record.elements_mapValues, List.length_map]
  exact (decodeTuple_alike h _ _ _).bind fun items => .same _

/-- The keys of a map are read from the names of the entries, which are the same. -/
theorem SeesText.map (h : contents.SeesText) : (map keys contents).SeesText := by
  intro v
  rw [decode, decode]
  refine v.asRecord_alike _ fun r _ => ?_
  rw [Record.mapValues, List.mapM_map, List.length_map]
  refine (Alike.mapM fun entry _ => ?_).bind fun entries => .same _
  exact (Alike.same _).bind fun key => (h entry.2).bind fun content => .same _

theorem seesText_valueFirst : (valueFirst keys contents).SeesText := by
  intro v
  rw [decode, decode]
  exact v.asRecord_alike _ fun r _ => .same _

/-- An entry that a structure does not know is passed over, whatever it holds. -/
theorem decodeEntry_alike (h : ∀ field ∈ fields, field.2.SeesText) (entry : Name × Value) :
    Alike (decodeEntry fields entry) (decodeEntry fields (entry.1, entry.2.flattened)) := by
  have hfields : fields = fields.map fun field => (field.1, id field.2) := (List.map_id _).symm
  rw [decodeEntry, decodeEntry, hfields, decodeField_eq, decodeField_eq]
  cases hfield : fields.lookup entry.1 with
  | none => exact .same _
  | some shape => exact (h _ (mem_of_lookup_eq_some hfield) entry.2).map _

theorem SeesText.struct (h : ∀ field ∈ fields, field.2.SeesText) : (struct fields).SeesText := by
  intro v
  rw [decode, decode]
  refine v.asRecord_alike _ fun r _ => ?_
  rw [Record.mapValues, List.mapM_map]
  exact (Alike.mapM fun entry _ => decodeEntry_alike h entry).bind fun found => .same _

theorem decodeContent_alike {known : VariantShape}
    (h : ∀ shape, known = .newtype shape → shape.SeesText) (content : Option Value) :
    Alike (decodeContent known content) (decodeContent known (content.map Value.flattened)) := by
  cases known with
  | unit => cases content <;> exact .same _
  | newtype shape =>
    cases content with
    | none => exact .same _
    | some v => exact h shape rfl v
  | tuple => cases content <;> exact .same _
  | struct => cases content <;> exact .same _

theorem SeesText.enumeration
    (h : ∀ name shape, (name, .newtype shape) ∈ variants → shape.SeesText) :
    (enumeration variants).SeesText := by
  intro v
  rw [decode, decode, Value.asVariant_flattened]
  cases v.asVariant with
  | error e => exact .same _
  | ok variant =>
    simp only [bind, Except.bind, Except.map, Datum.decodeVariant_eq]
    cases hknown : variants.lookup variant.name with
    | none => exact .same _
    | some known =>
      have hcontent : ∀ shape, known = .newtype shape → shape.SeesText := by
        rintro shape rfl
        exact h _ shape (mem_of_lookup_eq_some hknown)
      exact (decodeContent_alike hcontent variant.content).bind fun content => .same _

theorem Typed.seesText (h : shape.Typed) : shape.SeesText := by
  -- The shapes without parts are read from the text at once, and so are equal; the others have a
  -- lemma each, which takes what holds of their parts.
  induction h with
  | ignored | unit => exact seesText_of_eq fun _ => rfl
  | truth | integer | float =>
    refine seesText_of_eq fun v => ?_
    rw [decode, decode, v.parsed_flattened]
  | char =>
    refine seesText_of_eq fun v => ?_
    rw [decode, decode, v.asChar_flattened]
  | text =>
    refine seesText_of_eq fun v => ?_
    rw [decode, decode, v.asText_flattened]
  | instant =>
    refine seesText_of_eq fun v => ?_
    rw [decode, decode, v.asInstant_flattened]
  | url =>
    refine seesText_of_eq fun v => ?_
    rw [decode, decode, v.asAddress_flattened]
  | optional _ ih => exact ih.optional
  | newtype _ ih => exact ih.newtype
  | sequence _ ih => exact ih.sequence
  | tuple _ ih => exact .tuple ih
  | map keys _ ih => exact ih.map
  | valueFirst keys contents => exact seesText_valueFirst
  | struct _ ih => exact .struct ih
  | enumeration _ ih => exact .enumeration ih

/-! ### Main result -/

/-- **A reader that asks for types sees the texts of scalars only.**  A value and the same value
with all its scalars as text are both refused, or both read, and then as the same data; what is
refused is refused for the same reason. -/
theorem decode_alike_flattened (h : shape.Typed) (v : Value) :
    (∀ visit, shape.decode v = .ok visit ↔ shape.decode v.flattened = .ok visit) ∧
      Alike (shape.decode v) (shape.decode v.flattened) :=
  ⟨(h.seesText v).ok_iff, h.seesText v⟩

/-- The type of a parcel: a count, an initial, a state, marks, and whether it is insured. -/
def parcelShape : Shape :=
  .struct [("count".toList, .integer ⟨false, 8⟩), ("initial".toList, .char),
    ("state".toList, .enumeration [("Open".toList, .unit),
      ("Late".toList, .newtype (.integer .i64))]),
    ("marks".toList, .sequence .text), ("insured".toList, .optional .truth)]

/-- A parcel with scalars of other kinds than its type has, and with something that it does not
know. -/
def parcel : Record :=
  [("count".toList, .scalar (.char '7')), ("initial".toList, .scalar (.integer 5)),
    ("sent".toList, .scalar (.instant ⟨1705314600, 0⟩)),
    ("state".toList, .record [("Late".toList, .scalar (.text [' ', '2']))]),
    ("marks".toList, .record [(['1'], .scalar (.truth true)), (['0'], .scalar (.integer (-3)))])]

/-- A parcel is read from its texts. -/
theorem decode_alike_flattened_parcel :
    parcelShape.Typed ∧
    ((∀ visit, parcelShape.decode (.record parcel) = .ok visit ↔
        parcelShape.decode (Value.flattened (.record parcel)) = .ok visit) ∧
      Alike (parcelShape.decode (.record parcel))
        (parcelShape.decode (Value.flattened (.record parcel)))) ∧
    parcelShape.decode (.record parcel) = .ok (.struct
      [("count".toList, .integer ⟨false, 8⟩ 7), ("initial".toList, .char '5'),
        ("state".toList, .variant "Late".toList (.integer .i64 2)),
        ("marks".toList, .sequence [.text "-3".toList, .text "true".toList] 2),
        ("insured".toList, .nothing)]) := by
  have htyped : parcelShape.Typed := by
    refine .struct ?_
    simp only [List.forall_mem_cons, List.not_mem_nil, false_implies, implies_true, and_true]
    refine ⟨.integer _, .char, .enumeration ?_, .sequence .text, .optional .truth⟩
    simp only [List.mem_cons, Prod.mk.injEq, List.not_mem_nil, or_false]
    rintro name shape (⟨-, hnone⟩ | ⟨-, hshape⟩)
    · cases hnone
    · cases hshape
      exact .integer _
  exact ⟨htyped, decode_alike_flattened htyped _, rfl⟩

end Shape

end FieldedText
