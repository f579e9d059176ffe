/-
FieldedText/Proofs/Plain.lean

Plain data, and the record that it becomes.

A plain structure has texts, integers, truth values, characters and sequences of
texts in its fields.  The record that it becomes has each of them under its name
(`eq_record_of_toRecord`).  A document keeps the texts of scalars alone; the structure is
read again from every record that has these texts under its names (`decode_of_get?`).

The placeholder of a field is its name, with an asterisk behind it for the elements of
a sequence.  The placeholders of a structure part at their first names
(`parted_holes`), which are the names of the fields.
-/
import FieldedText.Binding.Datum
import FieldedText.Document.Rendering
import FieldedText.Proofs.Decoding

namespace FieldedText

/-- **The values of a sequence are those that its elements become**, in their order. -/
theorem Datum.encodeItems_eq {α : Type} {items : List α} {datum : α → Datum}
    {value : α → Option Value} (h : ∀ item ∈ items, (datum item).encode = .ok (value item)) :
    encodeItems (items.map datum) = .ok (items.map value) := by
  induction items with
  | nil => rfl
  | cons item items ih =>
    obtain ⟨hitem, hitems⟩ := List.forall_mem_cons.1 h
    rw [List.map_cons, encodeItems, hitem, ih hitems]
    rfl

/-! ### Plain values -/

/-- A value that is neither absent nor made of others: a text, an integer of a type that holds it,
a truth value or a character. -/
inductive Plain where
  | text (content : Text)
  | integer (type : IntegerType) (n : Int) (held : type.holds n = true)
  | truth (b : Bool)
  | char (c : Char)

theorem Scalar.shown_ofInt (n : Int) : (ofInt n).shown = intText n := by
  unfold ofInt
  split
  · rename_i h
    obtain ⟨hleast, hbound⟩ : IntegerType.i64.least ≤ n ∧ n < IntegerType.i64.bound := by
      simpa [IntegerType.holds] using h
    exact congrArg intText (Int64.toInt_ofInt_of_le hleast hbound)
  · rfl

namespace Plain

variable {plain : Plain} {value : Option Value}

/-- The value as typed data. -/
def datum : Plain → Datum
  | text content => .text content
  | integer type n _ => .integer type n
  | truth b => .truth b
  | char c => .char c

/-- The scalar that the value becomes. -/
def scalar : Plain → Scalar
  | text content => .text content
  | integer _ n _ => .ofInt n
  | truth b => .truth b
  | char c => .char c

/-- The type of the value. -/
def shape : Plain → Shape
  | text _ => .text
  | integer type _ _ => .integer type
  | truth _ => .truth
  | char _ => .char

/-- The value as a reader of its type is shown it. -/
def visit : Plain → Visit
  | text content => .text content
  | integer type n _ => .integer type n
  | truth b => .truth b
  | char c => .char c

theorem eq_of_encode (h : plain.datum.encode = .ok value) :
    value = some (.scalar plain.scalar) := by
  cases plain with
  | integer type n held =>
    rw [datum, Datum.encode] at h
    split at h
    · cases h
    · cases h
      rfl
  | text content | truth b | char c =>
    cases h
    rfl

/-- **A plain value is read from its text.** -/
theorem decode_flattened (plain : Plain) :
    plain.shape.decode (.scalar plain.scalar.flattened) = .ok plain.visit := by
  cases plain with
  | text content => rfl
  | char c => rfl
  | truth b => cases b <;> rfl
  | integer type n held =>
    have hshown : (Scalar.flattened (.ofInt n)).shown = intText n := by
      rw [Scalar.shown_flattened, Scalar.shown_ofInt]
    simp only [shape, Shape.decode, Value.parsed, scalar, hshown, trim_intText,
      IntegerType.read?_intText held]
    rfl

end Plain

/-! ### Fields -/

/-- What is in a field of a plain structure. -/
inductive Content where
  | single (plain : Plain)
  | texts (items : List Text)

namespace Content

variable {content : Content} {name : Name}

/-- The content as typed data. -/
def datum : Content → Datum
  | single plain => plain.datum
  | texts items => .sequence (items.map .text)

/-- The entries of a list of texts. -/
def entries (items : List Text) : Record :=
  Record.ofElements ((items.map fun item => Value.scalar (.text item)).map some)

/-- The value that the content becomes. -/
def value : Content → Value
  | single plain => .scalar plain.scalar
  | texts items => .record (entries items)

/-- The value that is left of it in a document. A document keeps texts only, and a list of texts
is a list of them already. -/
def kept : Content → Value
  | single plain => .scalar plain.scalar.flattened
  | texts items => .record (entries items)

/-- The type of the content. -/
def shape : Content → Shape
  | single plain => plain.shape
  | texts _ => .sequence .text

/-- The content as a reader of its type is shown it. -/
def visit : Content → Visit
  | single plain => plain.visit
  | texts items => .sequence (items.map .text) items.length

/-- The placeholder for the content of a field. That of a sequence has an asterisk in place of the
ordinals. -/
def hole (name : Name) : Content → Name
  | single _ => name
  | texts _ => name ++ '.' :: ListTemplate.marker

theorem eq_of_encode {value : Option Value} (h : content.datum.encode = .ok value) :
    value = some content.value := by
  cases content with
  | single plain => exact Plain.eq_of_encode h
  | texts items =>
    have hitems : Datum.encodeItems (items.map .text) =
        .ok ((items.map fun item => Value.scalar (.text item)).map some) := by
      rw [List.map_map]
      exact Datum.encodeItems_eq fun _ _ => rfl
    rw [datum, Datum.encode, hitems] at h
    cases h
    rfl

/-- **The content of a field is read from what is left of it.** -/
theorem decode_kept (content : Content) :
    content.shape.decode content.kept = .ok content.visit := by
  cases content with
  | single plain => exact plain.decode_flattened
  | texts items => exact Shape.decode_sequence fun _ _ => rfl

theorem isOptional_shape (content : Content) : content.shape.isOptional = false := by
  cases content with
  | single plain => cases plain <;> rfl
  | texts items => rfl

theorem nodup_names_entries (items : List Text) : (entries items).names.Nodup :=
  Record.nodup_names_ofElements _

/-- The entries of a list of texts are texts. -/
theorem exists_text_of_mem_entries {items : List Text} {entry : Name × Value}
    (h : entry ∈ entries items) : ∃ t, entry.2 = .scalar (.text t) := by
  have hvalue : entry.2 ∈ items.map fun item => Value.scalar (.text item) := by
    rw [← reduceOption_map_some (items.map _), ← Record.map_snd_fill 0]
    exact List.mem_map_of_mem h
  obtain ⟨t, -, ht⟩ := List.mem_map.1 hvalue
  exact ⟨t, ht.symm⟩

end Content

/-- A name that a field can have: one part, which stands for no ordinal. A name with a dot would
be a path, and the text of another field could be stored on the way. -/
structure IsFieldName (name : Name) : Prop where
  nonempty : name ≠ []
  undotted : '.' ∉ name
  unmarked : name ≠ ListTemplate.marker

instance (name : Name) : Decidable (IsFieldName name) :=
  decidable_of_iff (name ≠ [] ∧ '.' ∉ name ∧ name ≠ ListTemplate.marker)
    ⟨fun h => ⟨h.1, h.2.1, h.2.2⟩, fun h => ⟨h.nonempty, h.undotted, h.unmarked⟩⟩

section Holes

variable {name : Name} {content : Content} {items : List Text} {n : Nat}

theorem IsFieldName.names_eq (h : IsFieldName name) : Path.names name = [name] :=
  Text.splitOn_of_not_mem h.undotted

theorem IsFieldName.names_append (h : IsFieldName name) {part : Name} (hpart : '.' ∉ part) :
    Path.names (name ++ '.' :: part) = [name, part] := by
  rw [Path.names, Text.splitOn_append_cons, Text.splitOn_of_not_mem h.undotted,
    Text.splitOn_of_not_mem hpart]
  rfl

theorem Content.names_hole_texts (h : IsFieldName name) :
    Path.names ((texts items).hole name) = [name, ListTemplate.marker] :=
  h.names_append (by decide)

/-- In an entry the ordinal stands in place of the asterisk. -/
theorem Content.entryName_hole_texts (h : IsFieldName name) (ordinal : Name) :
    ListTemplate.entryName ordinal ((texts items).hole name) = name ++ '.' :: ordinal := by
  have hsplit : Text.splitOn '.' ((texts items).hole name) = [name, ListTemplate.marker] :=
    names_hole_texts h
  have hname : ListTemplate.entryPart ordinal name = name := if_neg h.unmarked
  have hmarker : ListTemplate.entryPart ordinal ListTemplate.marker = ordinal := if_pos rfl
  rw [ListTemplate.entryName_eq, hsplit, List.map_cons, List.map_singleton, hname, hmarker,
    Text.join_cons (by simp), Text.join_singleton, List.append_assoc]
  rfl

theorem Content.head?_names_hole (h : IsFieldName name) (content : Content) :
    (Path.names (content.hole name)).head? = some name := by
  cases content with
  | single plain =>
    rw [hole, h.names_eq]
    rfl
  | texts items =>
    rw [names_hole_texts h]
    rfl

/-- The placeholder of a field belongs to a list when there is a sequence in the field. -/
theorem Content.prefixOf_hole (h : IsFieldName name) (content : Content) :
    ListTemplate.prefixOf n (content.hole name) =
      .ok (match content with
        | single _ => none
        | texts _ => some name) := by
  cases content with
  | single plain =>
    have hsplit : Text.splitOn '.' name = [name] := h.names_eq
    have hcount : [name].count ListTemplate.marker = 0 :=
      List.count_eq_zero.2 (by simpa using Ne.symm h.unmarked)
    simp only [ListTemplate.prefixOf, hole, hsplit, hcount]
  | texts items =>
    have hsplit : Text.splitOn '.' ((texts items).hole name) = [name, ListTemplate.marker] :=
      names_hole_texts h
    have hcount : [name, ListTemplate.marker].count ListTemplate.marker = 1 := by
      simp [h.unmarked]
    simp only [ListTemplate.prefixOf, hsplit, hcount]
    simp [h.unmarked, Text.join_singleton]

end Holes

/-! ### Structures -/

/-- A structure of plain fields, each with a name of its own. The two conditions are those that a
type with named fields has by itself. -/
structure PlainStruct where
  fields : List (Name × Content)
  nodup : (fields.map Prod.fst).Nodup
  named : ∀ field ∈ fields, IsFieldName field.1

namespace PlainStruct

variable {x : PlainStruct} {r values : Record} {name : Name} {content : Content}

/-- The structure as typed data. -/
def datum (x : PlainStruct) : Datum := .struct (x.fields.map fun field => (field.1, field.2.datum))

/-- The record that the structure becomes. -/
def record (x : PlainStruct) : Record := x.fields.map fun field => (field.1, field.2.value)

/-- The type of the structure. -/
def shape (x : PlainStruct) : Shape := .struct (x.fields.map fun field => (field.1, field.2.shape))

/-- The structure as a reader of its type is shown it. -/
def visit (x : PlainStruct) : Visit := .struct (x.fields.map fun field => (field.1, field.2.visit))

/-- The placeholders for the fields. -/
def holes (x : PlainStruct) : List Name := x.fields.map fun field => field.2.hole field.1

/-! #### Written -/

theorem eq_of_encodeFields {fields : List (Name × Content)}
    (hnames : (r.names ++ fields.map Prod.fst).Nodup)
    (h : Datum.encodeFields r (fields.map fun field => (field.1, field.2.datum)) = .ok values) :
    values = r ++ fields.map fun field => (field.1, field.2.value) := by
  induction fields generalizing r with
  | nil =>
    cases h
    exact (List.append_nil _).symm
  | cons field fields ih =>
    rw [List.map_cons, Datum.encodeFields] at h
    obtain ⟨value, hvalue, hlater⟩ := bind_eq_ok_iff.1 h
    rw [Content.eq_of_encode hvalue, Record.insertSome, Record.insert_of_not_mem] at hlater
    · rw [ih _ hlater, List.map_cons, List.append_assoc, List.singleton_append]
      rw [Record.names, List.map_append, List.append_assoc]
      exact hnames
    · exact fun hmem => (List.nodup_append.1 hnames).2.2 _ hmem _ (List.mem_cons_self ..) rfl

/-- **A structure becomes the record of its fields**, if it becomes one at all: an integer type may
be too wide. -/
theorem eq_record_of_toRecord (h : x.datum.toRecord = .ok values) : values = x.record := by
  rw [Datum.toRecord, datum, Datum.encode] at h
  cases hfields : Datum.encodeFields [] (x.fields.map fun field => (field.1, field.2.datum)) with
  | error e =>
    rw [hfields] at h
    cases h
  | ok r =>
    rw [hfields] at h
    cases h
    exact eq_of_encodeFields (r := []) x.nodup hfields

theorem names_record (x : PlainStruct) : x.record.names = x.fields.map Prod.fst := by
  rw [Record.names, record, List.map_map]
  rfl

theorem get?_record (h : (name, content) ∈ x.fields) : x.record.get? name = some content.value := by
  refine Record.get?_of_mem ?_ (List.mem_map.2 ⟨_, h, rfl⟩)
  rw [names_record]
  exact x.nodup

/-- The text of a field that is not a sequence. -/
theorem renderedValue_single {plain : Plain} (h : (name, .single plain) ∈ x.fields)
    (settings : Settings) : Document.renderedValue settings x.record name = plain.scalar.shown := by
  have hscalar : x.record.scalarAt? name = some plain.scalar := by
    rw [Record.scalarAt?, Record.lookup, (x.named _ h).names_eq, Record.follow?, get?_record h]
    rfl
  rw [Document.renderedValue, hscalar]

section Texts

variable {items : List Text} (h : (name, .texts items) ∈ x.fields)

include h

/-- The ordinals of a sequence are the names of its entries. -/
theorem ordinalsAt_record : x.record.ordinalsAt name = (Content.entries items).names := by
  have hrecord : x.record.recordAt? name = some (Content.entries items) := by
    rw [Record.recordAt?, if_neg (x.named _ h).nonempty, Record.lookup, (x.named _ h).names_eq,
      Record.follow?, get?_record h]
    rfl
  rw [Record.ordinalsAt, hrecord]
  exact Record.ordinals_ofElements _

/-- The text of an entry of a sequence. -/
theorem renderedValue_entry {ordinal : Name} {t : Text} (ho : Name.isOrdinal ordinal = true)
    (hentry : (ordinal, .scalar (.text t)) ∈ Content.entries items) (settings : Settings) :
    Document.renderedValue settings x.record (name ++ '.' :: ordinal) = t := by
  have hscalar : x.record.scalarAt? (name ++ '.' :: ordinal) = some (.text t) := by
    rw [Record.scalarAt?, Record.lookup,
      (x.named _ h).names_append (Path.not_mem_of_isOrdinal ho),
      Record.follow?_cons_of_record (List.cons_ne_nil ordinal []) (get?_record h), Record.follow?,
      Record.get?_of_mem (Content.nodup_names_entries items) hentry]
    rfl
  rw [Document.renderedValue, hscalar]
  rfl

end Texts

/-! #### Read -/

/-- **A structure is read from what is left of its fields.** What else the record holds does not
matter, and neither does the order of its entries. -/
theorem decode_of_get? (hr : r.names.Nodup)
    (h : ∀ field ∈ x.fields, r.get? field.1 = some field.2.kept) :
    x.shape.decode (.record r) = .ok x.visit :=
  Shape.decode_struct hr x.nodup fun field hfield => ⟨_, h field hfield, field.2.decode_kept⟩

/-- A structure is not read where something is missing. -/
theorem exists_get?_of_decode {v : Visit} (h : x.shape.decode (.record r) = .ok v)
    (hfield : (name, content) ∈ x.fields) : ∃ value, r.get? name = some value :=
  Shape.get?_of_decode_struct h (name, content.shape) (List.mem_map.2 ⟨_, hfield, rfl⟩)
    content.isOptional_shape

/-! #### Placeholders -/

/-- Each placeholder begins with the name of its own field, so that no two of them are in each
other's way. -/
theorem parted_holes (x : PlainStruct) : Path.Parted x.holes := by
  constructor
  · refine List.forall_mem_map.2 fun field hfield => ?_
    have hname := x.named field hfield
    obtain ⟨name, content⟩ := field
    cases content with
    | single plain => simpa [Content.hole, hname.names_eq] using hname.nonempty
    | texts items =>
      simpa [Content.names_hole_texts hname, ListTemplate.marker] using hname.nonempty
  · have hheads : x.holes.map (fun hole => (Path.names hole).head?) =
        (x.fields.map Prod.fst).map some := by
      rw [holes, List.map_map, List.map_map]
      exact List.map_congr_left fun field hfield =>
        Content.head?_names_hole (x.named field hfield) field.2
    rw [hheads]
    exact x.nodup.map fun _ _ => Option.some.inj

theorem exists_field_of_mem_holes {hole : Name} (h : hole ∈ x.holes) :
    ∃ name content, (name, content) ∈ x.fields ∧ content.hole name = hole := by
  obtain ⟨⟨name, content⟩, hfield, rfl⟩ := List.mem_map.1 h
  exact ⟨name, content, hfield, rfl⟩

/-- A placeholder that begins with the name of a field is that of the field. -/
theorem eq_hole_of_head? {hole : Name} (h : hole ∈ x.holes) (hfield : (name, content) ∈ x.fields)
    (hhead : (Path.names hole).head? = some name) : hole = content.hole name := by
  obtain ⟨other, found, hother, rfl⟩ := exists_field_of_mem_holes h
  rw [Content.head?_names_hole (x.named _ hother), Option.some.injEq] at hhead
  cases List.inj_on_of_nodup_map x.nodup hother hfield hhead
  rfl

end PlainStruct

end FieldedText
