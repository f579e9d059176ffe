/-
FieldedText/Proofs/RoundTrip.lean

Typed data comes back from the value that it becomes.

`Datum.Fits` says which data is data of a type and survives as a value: truth values,
characters, texts and integers of at most sixty-four bits, and what is built from these
by options, wrappers, variants, sequences, tuples, maps and structures.  Data that may be
absent is not among it; an absent element would leave its place empty, and an absent
entry would not be stored at all.  A map's keys are scalars, and no two of them have the
same text.

`Datum.visit` is what a reader of its type is shown of a datum that is all there.  The
main result is that the reader is shown exactly this of the value (`decode_encoded`).
The induction is on `Datum.Fits` (`Fits.returns`), one lemma for each way of building data;
keys have a lemma of their own, since a record keeps their texts alone (`decode_key`).
-/
import FieldedText.Proofs.Plain

namespace FieldedText

namespace Datum

/-! ### Data as its reader is shown it -/

mutual

/-- A datum as a reader of its type is shown it, if it is of a kind that comes back as it was. -/
def visit : Datum → Visit
  | truth b => .truth b
  | integer type n => .integer type n
  | char c => .char c
  | text content => .text content
  | something datum => .something datum.visit
  | newtype datum => .newtype datum.visit
  | unitVariant variant => .variant variant .unit
  | newtypeVariant variant datum => .variant variant datum.visit
  | sequence items => .sequence (visitItems items) items.length
  | tuple items => .sequence (visitItems items) items.length
  | map entries => .map (visitEntries entries) entries.length
  | struct fields => .struct (visitFields fields)
  | _ => .ignored

/-- The elements of a sequence as their reader is shown them. -/
def visitItems : List Datum → List Visit
  | [] => []
  | item :: items => item.visit :: visitItems items

/-- The entries of a map as their reader is shown them. -/
def visitEntries : List (Datum × Datum) → List (Visit × Visit)
  | [] => []
  | (key, datum) :: entries => (key.visit, datum.visit) :: visitEntries entries

/-- The fields of a structure as their reader is shown them. -/
def visitFields : List (Name × Datum) → List (Name × Visit)
  | [] => []
  | (name, datum) :: fields => (name, datum.visit) :: visitFields fields

end

theorem visitItems_eq (items : List Datum) : visitItems items = items.map visit := by
  induction items with
  | nil => rfl
  | cons item items ih => exact congrArg (item.visit :: ·) ih

theorem visitEntries_eq (entries : List (Datum × Datum)) :
    visitEntries entries = entries.map fun entry => (entry.1.visit, entry.2.visit) := by
  induction entries with
  | nil => rfl
  | cons entry entries ih => exact congrArg ((entry.1.visit, entry.2.visit) :: ·) ih

theorem visitFields_eq (fields : List (Name × Datum)) :
    visitFields fields = fields.map fun field => (field.1, field.2.visit) := by
  induction fields with
  | nil => rfl
  | cons field fields ih => exact congrArg ((field.1, field.2.visit) :: ·) ih

theorem visit_sequence (items : List Datum) :
    (sequence items).visit = .sequence (items.map visit) items.length :=
  congrArg (Visit.sequence · _) (visitItems_eq items)

theorem visit_tuple (items : List Datum) :
    (tuple items).visit = .sequence (items.map visit) items.length :=
  congrArg (Visit.sequence · _) (visitItems_eq items)

theorem visit_map (entries : List (Datum × Datum)) :
    (map entries).visit =
      .map (entries.map fun entry => (entry.1.visit, entry.2.visit)) entries.length :=
  congrArg (Visit.map · _) (visitEntries_eq entries)

theorem visit_struct (fields : List (Name × Datum)) :
    (struct fields).visit = .struct (fields.map fun field => (field.1, field.2.visit)) :=
  congrArg Visit.struct (visitFields_eq fields)

/-- The text of a datum that becomes a scalar. This is what a record keeps of a key, and all that
a reader of the key is given. -/
def scalarText? : Datum → Option Text
  | truth b => some (Scalar.truthText b)
  | integer _ n => some (intText n)
  | char c => some [c]
  | text content => some content
  | something datum => datum.scalarText?
  | newtype datum => datum.scalarText?
  | unitVariant variant => some variant
  | _ => none

/-! ### Data of a type -/

/-- Data of a type that comes back from the value it becomes. The type goes along, since a value
does not say what it was: a character and a text of one character become the same when they are
keys. -/
inductive Fits : Datum → Shape → Prop
  | truth (b : Bool) : Fits (truth b) .truth
  | integer {type : IntegerType} {n : Int} (narrow : type.bits ≤ 64)
      (holds : type.holds n = true) : Fits (integer type n) (.integer type)
  | char (c : Char) : Fits (char c) .char
  | text (content : Text) : Fits (text content) .text
  | something {datum : Datum} {shape : Shape} (fits : Fits datum shape) :
      Fits (something datum) (.optional shape)
  | newtype {datum : Datum} {shape : Shape} (fits : Fits datum shape) :
      Fits (newtype datum) (.newtype shape)
  | unitVariant {variant : Name} {variants : List (Name × VariantShape)}
      (known : variants.lookup variant = some .unit) :
      Fits (unitVariant variant) (.enumeration variants)
  | newtypeVariant {variant : Name} {variants : List (Name × VariantShape)} {datum : Datum}
      {shape : Shape} (known : variants.lookup variant = some (.newtype shape))
      (fits : Fits datum shape) : Fits (newtypeVariant variant datum) (.enumeration variants)
  | sequence {items : List Datum} {shape : Shape} (fits : ∀ item ∈ items, Fits item shape) :
      Fits (sequence items) (.sequence shape)
  /-- The elements of a tuple, each with its type. -/
  | tuple {items : List (Datum × Shape)} (fits : ∀ item ∈ items, Fits item.1 item.2) :
      Fits (tuple (items.map Prod.fst)) (.tuple (items.map Prod.snd))
  | map {entries : List (Datum × Datum)} {keys contents : Shape}
      (keysFit : ∀ entry ∈ entries, Fits entry.1 keys)
      (scalarKeys : ∀ entry ∈ entries, entry.1.scalarText?.isSome = true)
      (distinct : (entries.map fun entry => entry.1.scalarText?).Nodup)
      (fits : ∀ entry ∈ entries, Fits entry.2 contents) :
      Fits (map entries) (.map keys contents)
  /-- The fields of a structure, each with its type. -/
  | struct {fields : List (Name × Datum × Shape)} (distinct : (fields.map Prod.fst).Nodup)
      (fits : ∀ field ∈ fields, Fits field.2.1 field.2.2) :
      Fits (struct (fields.map fun field => (field.1, field.2.1)))
        (.struct (fields.map fun field => (field.1, field.2.2)))

/-- The value that a datum becomes, if it becomes one. -/
def toValue (datum : Datum) : Value :=
  match datum.encode with
  | .ok (some v) => v
  | _ => .record []

/-- A datum becomes a value, and a reader of the type is shown the datum again. There is one lemma
below for each way in which data is made of other data. -/
structure Returns (datum : Datum) (shape : Shape) : Prop where
  encode : datum.encode = .ok (some datum.toValue)
  decode : shape.decode datum.toValue = .ok datum.visit

variable {datum : Datum} {shape : Shape} {v : Value}

theorem toValue_eq (h : datum.encode = .ok (some v)) : datum.toValue = v := by
  rw [toValue, h]

theorem Returns.of_encode (h : datum.encode = .ok (some v))
    (hdecode : shape.decode v = .ok datum.visit) : datum.Returns shape := by
  obtain rfl := toValue_eq h
  exact ⟨h, hdecode⟩

/-! ### Scalars -/

theorem encode_integer {type : IntegerType} (hnarrow : type.bits ≤ 64) (n : Int) :
    (integer type n).encode = .ok (some (.scalar (.ofInt n))) := by
  rw [encode, if_neg (Nat.not_lt.2 hnarrow)]

/-- An integer is read from its text, which may stand for it in a value. -/
theorem decode_integer {type : IntegerType} {n : Int} (hholds : type.holds n = true)
    {scalar : Scalar} (hshown : scalar.shown = intText n) :
    (Shape.integer type).decode (.scalar scalar) = .ok (.integer type n) := by
  simp only [Shape.decode, Value.parsed, hshown, trim_intText, IntegerType.read?_intText hholds]
  rfl

/-- The content of a variant is what the type knows under its name. -/
theorem decodeVariant_eq (variants : List (Name × VariantShape)) (variant : Variant) :
    Shape.decodeVariant variants variant =
      (variants.lookup variant.name).map fun known =>
        Shape.decodeContent known variant.content := by
  induction variants with
  | nil => rfl
  | cons first variants ih =>
    obtain ⟨known, content⟩ := first
    by_cases heq : known = variant.name
    · simp [Shape.decodeVariant, heq]
    · have hbeq : (variant.name == known) = false := beq_false_of_ne (Ne.symm heq)
      simp [Shape.decodeVariant, List.lookup_cons, heq, hbeq, ih]

/-- A variant without content is read from its name. -/
theorem decode_unitVariant {variant : Name} {variants : List (Name × VariantShape)}
    (hknown : variants.lookup variant = some .unit) {scalar : Scalar}
    (hshown : scalar.shown = variant) :
    (Shape.enumeration variants).decode (.scalar scalar) = .ok (.variant variant .unit) := by
  subst hshown
  simp only [Shape.decode, Value.asVariant, bind, Except.bind, decodeVariant_eq, hknown,
    Option.map_some, Shape.decodeContent]
  rfl

/-- **A key becomes a scalar, and is read from the text that is left of it.** -/
theorem decode_key (h : Fits datum shape) {t : Text} (hkey : datum.scalarText? = some t) :
    (∃ scalar, datum.encode = .ok (some (.scalar scalar)) ∧ scalar.shown = t) ∧
      shape.decode (.scalar (.text t)) = .ok datum.visit := by
  -- By induction on the data, since an option or a wrapper is the key that it holds. What is no
  -- scalar has no text, and so is no key.
  induction h with
  | truth b =>
    cases hkey
    exact ⟨⟨_, rfl, rfl⟩, by cases b <;> rfl⟩
  | integer hnarrow hholds =>
    cases hkey
    exact ⟨⟨_, encode_integer hnarrow _, Scalar.shown_ofInt _⟩, decode_integer hholds rfl⟩
  | char c =>
    cases hkey
    exact ⟨⟨_, rfl, rfl⟩, rfl⟩
  | text content =>
    cases hkey
    exact ⟨⟨_, rfl, rfl⟩, rfl⟩
  | something fits ih =>
    obtain ⟨hencode, hdecode⟩ := ih hkey
    refine ⟨hencode, ?_⟩
    rw [Shape.decode, hdecode]
    rfl
  | newtype fits ih =>
    obtain ⟨hencode, hdecode⟩ := ih hkey
    refine ⟨hencode, ?_⟩
    rw [Shape.decode, hdecode]
    rfl
  | unitVariant known =>
    cases hkey
    exact ⟨⟨_, rfl, rfl⟩, decode_unitVariant known rfl⟩
  | newtypeVariant | sequence | tuple | map | struct => cases hkey

/-! ### Variants and wrappers -/

theorem Returns.something (h : datum.Returns shape) :
    (something datum).Returns (.optional shape) := by
  refine .of_encode (v := datum.toValue) (by rw [Datum.encode, h.encode]) ?_
  rw [Shape.decode, h.decode]
  rfl

theorem Returns.newtype (h : datum.Returns shape) : (newtype datum).Returns (.newtype shape) := by
  refine .of_encode (v := datum.toValue) (by rw [Datum.encode, h.encode]) ?_
  rw [Shape.decode, h.decode]
  rfl

/-- A variant with content is told from other records by having one name. -/
theorem Returns.newtypeVariant {variant : Name} {variants : List (Name × VariantShape)}
    (hknown : variants.lookup variant = some (.newtype shape)) (h : datum.Returns shape) :
    (newtypeVariant variant datum).Returns (.enumeration variants) := by
  refine .of_encode (v := .record [(variant, datum.toValue)]) ?_ ?_
  · rw [Datum.encode, h.encode]
    rfl
  · simp only [Shape.decode, Value.asVariant, bind, Except.bind, decodeVariant_eq, hknown,
      Option.map_some, Shape.decodeContent, h.decode]
    rfl

/-! ### Sequences and tuples -/

/-- **The elements of a sequence come back in their order**, however many they are. -/
theorem Returns.sequence {items : List Datum} (h : ∀ item ∈ items, item.Returns shape) :
    (sequence items).Returns (.sequence shape) := by
  refine .of_encode (v := .record (Record.ofElements ((items.map toValue).map some))) ?_ ?_
  · have hitems : encodeItems items = .ok ((items.map toValue).map some) := by
      rw [← List.map_id items, List.map_map, List.map_map]
      exact encodeItems_eq fun item hitem => (h item hitem).encode
    rw [Datum.encode, hitems]
    rfl
  · rw [Shape.decode_sequence fun item hitem => (h item hitem).decode, visit_sequence]

theorem Returns.tuple {items : List (Datum × Shape)} (h : ∀ item ∈ items, item.1.Returns item.2) :
    (tuple (items.map Prod.fst)).Returns (.tuple (items.map Prod.snd)) := by
  have hencode : encodeItems (items.map Prod.fst) =
      .ok ((items.map fun item => item.1.toValue).map some) := by
    rw [List.map_map]
    exact encodeItems_eq fun item hitem => (h item hitem).encode
  refine .of_encode (v := .record (Record.ofElements
    ((items.map fun item => item.1.toValue).map some))) ?_ ?_
  · rw [Datum.encode, hencode]
    rfl
  · rw [Shape.decode, Value.asRecord, visit_tuple]
    simp only [bind, Except.bind, Record.elements_ofElements, reduceOption_map_some]
    rw [Shape.decodeTuple_eq fun item hitem => (h item hitem).decode]
    simp only [List.length_map, List.map_map]
    rfl

/-! ### Maps and structures -/

/-- **The entries of a map are stored in their order**, each under the text of its key. -/
theorem encodeEntries_eq (key : Datum → Name) {entries : List (Datum × Datum)}
    (hkeys : ∀ entry ∈ entries, ∃ scalar, entry.1.encode = .ok (some (.scalar scalar)) ∧
      scalar.shown = key entry.1)
    (hcontents : ∀ entry ∈ entries, entry.2.encode = .ok (some entry.2.toValue)) {r : Record}
    (hnames : (r.names ++ entries.map fun entry => key entry.1).Nodup) :
    encodeEntries r entries =
      .ok (r ++ entries.map fun entry => (key entry.1, entry.2.toValue)) := by
  induction entries generalizing r with
  | nil =>
    rw [encodeEntries, List.map_nil, List.append_nil]
  | cons entry entries ih =>
    obtain ⟨⟨scalar, hscalar, hshown⟩, hkeys⟩ := List.forall_mem_cons.1 hkeys
    obtain ⟨hcontent, hcontents⟩ := List.forall_mem_cons.1 hcontents
    have hnew : key entry.1 ∉ r.names := fun hmem =>
      (List.nodup_append.1 hnames).2.2 _ hmem _ (List.mem_cons_self ..) rfl
    have hlater := ih hkeys hcontents (r := r ++ [(key entry.1, entry.2.toValue)]) (by
      rw [Record.names, List.map_append, List.append_assoc]
      exact hnames)
    obtain ⟨key, content⟩ := entry
    rw [encodeEntries, hscalar, hcontent]
    simp only [bind, Except.bind, Value.keyText, hshown, Record.insertSome,
      Record.insert_of_not_mem hnew, hlater]
    rw [List.append_assoc]
    rfl

theorem Returns.map {entries : List (Datum × Datum)} {keys contents : Shape}
    (hkeysFit : ∀ entry ∈ entries, Fits entry.1 keys)
    (hscalarKeys : ∀ entry ∈ entries, entry.1.scalarText?.isSome = true)
    (hdistinct : (entries.map fun entry => entry.1.scalarText?).Nodup)
    (h : ∀ entry ∈ entries, entry.2.Returns contents) :
    (map entries).Returns (.map keys contents) := by
  -- the texts of the keys differ, so the entries are stored one behind the other and none
  -- replaces another one
  have hkey : ∀ entry ∈ entries, entry.1.scalarText? = some (entry.1.scalarText?.getD []) := by
    intro entry hentry
    obtain ⟨t, ht⟩ := Option.isSome_iff_exists.1 (hscalarKeys entry hentry)
    rw [ht, Option.getD_some]
  have hnames : (entries.map fun entry => entry.1.scalarText?.getD []).Nodup := by
    rw [List.map_congr_left hkey] at hdistinct
    exact List.Nodup.of_map some (by rwa [List.map_map])
  refine .of_encode (v := .record
    (entries.map fun entry => (entry.1.scalarText?.getD [], entry.2.toValue))) ?_ ?_
  · rw [Datum.encode, encodeEntries_eq (fun key => key.scalarText?.getD [])
      (fun entry hentry => (decode_key (hkeysFit entry hentry) (hkey entry hentry)).1)
      (fun entry hentry => (h entry hentry).encode) (r := []) hnames]
    rfl
  -- a reader is shown each key as its text and each content as its value
  · rw [Shape.decode, bind_eq_ok_iff]
    refine ⟨_, rfl, bind_eq_ok_iff.2
      ⟨entries.map fun entry => (entry.1.visit, entry.2.visit), ?_, ?_⟩⟩
    · rw [mapM_eq_ok_iff, List.forall₂_map_left_iff, List.forall₂_map_right_iff, List.forall₂_same]
      intro entry hentry
      exact bind_eq_ok_iff.2 ⟨_, (decode_key (hkeysFit entry hentry) (hkey entry hentry)).2,
        bind_eq_ok_iff.2 ⟨_, (h entry hentry).decode, rfl⟩⟩
    · rw [visit_map, List.length_map]
      rfl

/-- A structure is stored as a map that has the names of its fields for keys. -/
theorem encodeFields_eq (fields : List (Name × Datum)) (r : Record) :
    encodeFields r fields =
      encodeEntries r (fields.map fun field => (text field.1, field.2)) := by
  induction fields generalizing r with
  | nil => rfl
  | cons field fields ih =>
    rw [List.map_cons, encodeFields, encodeEntries]
    simp only [ih]
    rfl

theorem Returns.struct {fields : List (Name × Datum × Shape)}
    (hdistinct : (fields.map Prod.fst).Nodup)
    (h : ∀ field ∈ fields, field.2.1.Returns field.2.2) :
    (struct (fields.map fun field => (field.1, field.2.1))).Returns
      (.struct (fields.map fun field => (field.1, field.2.2))) := by
  -- a structure is stored like a map, and read by the names of its fields instead of in order
  have hencode : encodeFields [] (fields.map fun field => (field.1, field.2.1)) =
      .ok (fields.map fun field => (field.1, field.2.1.toValue)) := by
    rw [encodeFields_eq, encodeEntries_eq (fun key => key.scalarText?.getD [])]
    · rw [List.map_map, List.map_map]
      rfl
    · simp only [List.forall_mem_map]
      exact fun field _ => ⟨.text field.1, rfl, rfl⟩
    · simp only [List.forall_mem_map]
      exact fun field hfield => (h field hfield).encode
    · rw [List.map_map, List.map_map]
      exact hdistinct
  have hnames : Record.names (fields.map fun field => (field.1, field.2.1.toValue)) =
      fields.map Prod.fst := by
    rw [Record.names, List.map_map]
    rfl
  refine .of_encode (v := .record (fields.map fun field => (field.1, field.2.1.toValue))) ?_ ?_
  · rw [Datum.encode, hencode]
    rfl
  · rw [visit_struct, List.map_map]
    refine @Shape.decode_struct _ _ fields Prod.snd (fun field => field.1.visit)
      (hnames ▸ hdistinct) hdistinct
      fun field hfield => ⟨field.2.1.toValue, ?_, (h field hfield).decode⟩
    exact Record.get?_of_mem (hnames ▸ hdistinct) (List.mem_map.2 ⟨field, hfield, rfl⟩)

theorem Fits.returns (h : Fits datum shape) : datum.Returns shape := by
  induction h with
  | truth b => exact .of_encode rfl (by cases b <;> rfl)
  | integer hnarrow hholds =>
    exact .of_encode (encode_integer hnarrow _) (decode_integer hholds (Scalar.shown_ofInt _))
  | char c => exact .of_encode rfl rfl
  | text content => exact .of_encode rfl rfl
  | something _ ih => exact ih.something
  | newtype _ ih => exact ih.newtype
  | unitVariant hknown => exact .of_encode rfl (decode_unitVariant hknown rfl)
  | newtypeVariant hknown _ ih => exact .newtypeVariant hknown ih
  | sequence _ ih => exact .sequence ih
  | tuple _ ih => exact .tuple ih
  | map hkeysFit hscalarKeys hdistinct _ _ ih => exact .map hkeysFit hscalarKeys hdistinct ih
  | struct hdistinct _ ih => exact .struct hdistinct ih

/-- **Typed data comes back from the value that it becomes.**  Data of a type becomes a value, and
a reader of that type is shown the data again: the same scalars and variants, the elements of
sequences and the entries of maps and structures in their order. -/
theorem decode_encoded (h : Fits datum shape) :
    ∃ value, datum.encode = .ok (some value) ∧ shape.decode value = .ok datum.visit :=
  ⟨_, h.returns.encode, h.returns.decode⟩

/-- The states that an order is in. -/
def orderStates : List (Name × VariantShape) :=
  [("Open".toList, .unit), ("Late".toList, .newtype .char)]

/-- The fields of an order, each with its type: a number that sixty-four bits with a sign do not
hold, marks that are more than ten, a map from numbers, and a pair of states. -/
def orderFields : List (Name × Datum × Shape) :=
  [("id".toList, integer .u64 18446744073709551615, .integer .u64),
    ("marks".toList, sequence ("zyxwvutsrqp".toList.map char), .sequence .char),
    ("paid".toList, map [(integer .i64 (-3), something (truth true)),
      (integer .i64 (-12), something (truth false))], .map (.integer .i64) (.optional .truth)),
    ("states".toList, tuple [newtypeVariant "Late".toList (char ' '), unitVariant "Open".toList],
      .tuple [.enumeration orderStates, .enumeration orderStates])]

/-- An order comes back. -/
theorem decode_encoded_order :
    Fits (struct (orderFields.map fun field => (field.1, field.2.1)))
      (.struct (orderFields.map fun field => (field.1, field.2.2))) ∧
    ∃ value,
      (struct (orderFields.map fun field => (field.1, field.2.1))).encode = .ok (some value) ∧
      (Shape.struct (orderFields.map fun field => (field.1, field.2.2))).decode value =
        .ok (.struct
          [("id".toList, .integer .u64 18446744073709551615),
            ("marks".toList, .sequence ("zyxwvutsrqp".toList.map .char) 11),
            ("paid".toList, .map [(.integer .i64 (-3), .something (.truth true)),
              (.integer .i64 (-12), .something (.truth false))] 2),
            ("states".toList, .sequence [.variant "Late".toList (.char ' '),
              .variant "Open".toList .unit] 2)]) := by
  have hmarks : Fits (sequence ("zyxwvutsrqp".toList.map char)) (.sequence .char) :=
    .sequence (List.forall_mem_map.2 fun c _ => .char c)
  have hpaid : Fits (map [(integer .i64 (-3), something (truth true)),
      (integer .i64 (-12), something (truth false))])
      (.map (.integer .i64) (.optional .truth)) := by
    refine .map ?_ (by simp [scalarText?]) (by decide +kernel) ?_
    all_goals simp only [List.forall_mem_cons, List.not_mem_nil, false_implies, implies_true,
      and_true]
    · exact ⟨.integer (by decide) (by decide), .integer (by decide) (by decide)⟩
    · exact ⟨.something (.truth true), .something (.truth false)⟩
  have hstates : Fits
      (tuple [newtypeVariant "Late".toList (char ' '), unitVariant "Open".toList])
      (.tuple [.enumeration orderStates, .enumeration orderStates]) := by
    have hitems : ∀ item ∈
        [(newtypeVariant "Late".toList (char ' '), Shape.enumeration orderStates),
          (unitVariant "Open".toList, .enumeration orderStates)], Fits item.1 item.2 := by
      simp only [List.forall_mem_cons, List.not_mem_nil, false_implies, implies_true, and_true]
      exact ⟨.newtypeVariant rfl (.char ' '), .unitVariant rfl⟩
    exact .tuple hitems
  have horder : Fits (struct (orderFields.map fun field => (field.1, field.2.1)))
      (.struct (orderFields.map fun field => (field.1, field.2.2))) := by
    refine .struct (by decide +kernel) ?_
    simp only [orderFields, List.forall_mem_cons, List.not_mem_nil, false_implies, implies_true,
      and_true]
    exact ⟨.integer (by decide) (by decide), hmarks, hpaid, hstates⟩
  exact ⟨horder, decode_encoded horder⟩

end Datum

end FieldedText
