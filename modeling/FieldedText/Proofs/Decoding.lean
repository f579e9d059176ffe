/-
FieldedText/Proofs/Decoding.lean

Records read as structures and as sequences.

A structure is read from a record that has something of the right type under each of
its names (`decode_struct`), and from no record that lacks one of them, unless the
type of the field is an optional one (`get?_of_decode_struct`).  A sequence is read from
a list as the elements of the list, in the order in which they were put there and
without those that are absent (`decode_sequence_present`): the names of the entries are
numbers in their order, and sorting leaves them as they are (`elements_ofElements`).
A tuple has one element for each of its types, and no fewer (`length_le_of_decodeTuple`).
-/
import Mathlib.Data.List.Nodup
import Mathlib.Data.List.ReduceOption
import FieldedText.Binding.Shape
import FieldedText.Proofs.Decimal
import FieldedText.Proofs.Merge
import FieldedText.Proofs.Rendering

namespace FieldedText

/-! ### Lists -/

/-- What is in order stays as it is when it is sorted. -/
theorem sort_eq_self {α : Type} {le : α → α → Bool} {xs : List α}
    (h : xs.Pairwise fun a b => le a b = true) : sort le xs = xs := by
  induction xs with
  | nil => rfl
  | cons x xs ih =>
    obtain ⟨hx, hxs⟩ := List.pairwise_cons.1 h
    have hsort : sort le (x :: xs) = insertSorted le x (sort le xs) := rfl
    rw [hsort, ih hxs]
    cases xs with
    | nil => rfl
    | cons y ys => exact if_pos (hx y (List.mem_cons_self ..))

/-- Nothing is dropped where nothing is absent. -/
theorem reduceOption_map_some {α : Type} (xs : List α) : (xs.map some).reduceOption = xs := by
  rw [List.reduceOption, List.filterMap_map]
  exact List.filterMap_some

namespace Record

variable {r : Record}

/-- The names of a record that repeats none lead to its values, in order. -/
theorem filterMap_get?_names (h : r.names.Nodup) :
    r.names.filterMap r.get? = r.map Prod.snd := by
  rw [names, List.filterMap_map, ← List.filterMap_eq_map]
  apply List.filterMap_congr
  intro entry hentry
  exact get?_of_mem h hentry

/-- The names of a list are numbers, in their order. Absent elements leave numbers out, and
nothing else does. -/
theorem names_fill_sublist (k : Nat) (values : List (Option Value)) :
    (names (ofElements.fill k values)).Sublist ((List.range' k values.length).map natText) := by
  induction values generalizing k with
  | nil => exact List.Sublist.refl _
  | cons value values ih =>
    rw [List.length_cons, List.range'_succ, List.map_cons]
    cases value with
    | none => exact (ih (k + 1)).cons _
    | some value => exact (ih (k + 1)).cons_cons _

theorem map_snd_fill (k : Nat) (values : List (Option Value)) :
    (ofElements.fill k values).map Prod.snd = values.reduceOption := by
  induction values generalizing k with
  | nil => rfl
  | cons value values ih =>
    cases value with
    | none => exact ih (k + 1)
    | some value => exact congrArg (value :: ·) (ih (k + 1))

theorem nodup_names_ofElements (values : List (Option Value)) :
    (names (ofElements values)).Nodup :=
  (names_fill_sublist 0 values).nodup (List.Nodup.map natText_injective (List.nodup_range' ..))

/-- The ordinals of a list are the names of its entries, in their order: all of them are ordinals,
and sorting finds them in order. -/
theorem ordinals_ofElements (values : List (Option Value)) :
    ordinals (ofElements values) = names (ofElements values) := by
  have hsublist := names_fill_sublist 0 values
  rw [ordinals, List.filter_eq_self.2]
  · refine sort_eq_self (List.Pairwise.sublist hsublist ?_)
    rw [List.pairwise_map]
    exact List.pairwise_le_range'.imp ordinalLe_natText
  · intro name hname
    obtain ⟨n, -, rfl⟩ := List.mem_map.1 (hsublist.subset hname)
    exact isDigits_natText n

/-- **The elements of a list are those that it was made of**, without the absent ones. -/
theorem elements_ofElements (values : List (Option Value)) :
    elements (ofElements values) = values.reduceOption := by
  rw [elements, ordinals_ofElements, filterMap_get?_names (nodup_names_ofElements values)]
  exact map_snd_fill 0 values

end Record

namespace Shape

variable {α : Type} {r : Record} {name : Name} {xs : List (Name × α)} {shape : α → Shape}
  {visit : α → Visit}

/-! ### Sequences -/

/-- **A list is read as the sequence of its elements**, without the absent ones. Their ordinals
are lost by it, so that what follows an absent element moves up. -/
theorem decode_sequence_present {element : Shape} {items : List (Option α)} {value : α → Value}
    (h : ∀ item, some item ∈ items → decode element (value item) = .ok (visit item)) :
    decode (.sequence element) (.record (Record.ofElements (items.map (Option.map value)))) =
      .ok (.sequence (items.reduceOption.map visit) items.reduceOption.length) := by
  have hitems : (items.reduceOption.map value).mapM (decode element) =
      .ok (items.reduceOption.map visit) := by
    rw [mapM_eq_ok_iff, List.forall₂_map_left_iff, List.forall₂_map_right_iff, List.forall₂_same]
    exact fun item hitem => h item (List.reduceOption_mem_iff.1 hitem)
  rw [decode, Value.asRecord]
  simp only [bind, Except.bind, Record.elements_ofElements, List.reduceOption_map]
  rw [hitems, List.length_map]
  rfl

theorem decode_sequence {element : Shape} {items : List α} {value : α → Value}
    (h : ∀ item ∈ items, decode element (value item) = .ok (visit item)) :
    decode (.sequence element) (.record (Record.ofElements ((items.map value).map some))) =
      .ok (.sequence (items.map visit) items.length) := by
  have hpresent : ∀ item, some item ∈ items.map some →
      decode element (value item) = .ok (visit item) :=
    fun item hitem => h item (by simpa using hitem)
  have hdecode := decode_sequence_present hpresent
  rw [reduceOption_map_some] at hdecode
  rw [← hdecode, List.map_map, List.map_map]
  rfl

/-! ### Tuples -/

/-- The elements of a tuple are read each as its own type. Size and count stand for the complaint
only. -/
theorem decodeTuple_eq {items : List α} {value : α → Value}
    (h : ∀ item ∈ items, decode (shape item) (value item) = .ok (visit item))
    (size count : Nat) :
    decodeTuple (items.map shape) size count (items.map value) = .ok (items.map visit) := by
  induction items generalizing count with
  | nil => rfl
  | cons item items ih =>
    obtain ⟨hitem, hitems⟩ := List.forall_mem_cons.1 h
    simp only [List.map_cons, decodeTuple, hitem, ih hitems]
    rfl

/-- A tuple is read only where there is an element for each of its types. -/
theorem length_le_of_decodeTuple {shapes : List Shape} {size count : Nat} {values : List Value}
    {visits : List Visit} (h : decodeTuple shapes size count values = .ok visits) :
    shapes.length ≤ values.length := by
  induction shapes generalizing count values visits with
  | nil => exact Nat.zero_le _
  | cons shape shapes ih =>
    cases values with
    | nil => cases h
    | cons v values =>
      rw [decodeTuple, bind_eq_ok_iff] at h
      obtain ⟨first, -, h⟩ := h
      obtain ⟨later, hlater, -⟩ := bind_eq_ok_iff.1 h
      exact Nat.succ_le_succ (ih hlater)

/-- Where the elements run out, their number and the size of the tuple are in the complaint. -/
theorem decodeTuple_of_lt {element : Shape} {items : List α} {value : α → Value} {missing : Nat}
    (h : ∀ item ∈ items, decode element (value item) = .ok (visit item))
    (hmissing : items.length < missing) (size count : Nat) :
    decodeTuple (List.replicate missing element) size count (items.map value) =
      .error (.binding (.tooShort (count + items.length) size)) := by
  induction items generalizing count missing with
  | nil =>
    obtain ⟨missing, rfl⟩ := Nat.exists_eq_succ_of_ne_zero (Nat.ne_zero_of_lt hmissing)
    rfl
  | cons item items ih =>
    obtain ⟨missing, rfl⟩ := Nat.exists_eq_succ_of_ne_zero (Nat.ne_zero_of_lt hmissing)
    obtain ⟨hitem, hitems⟩ := List.forall_mem_cons.1 h
    have hlater := ih hitems (Nat.lt_of_succ_lt_succ hmissing) (count + 1)
    have hcount : count + 1 + items.length = count + (items.length + 1) := by omega
    simp only [List.replicate_succ, List.map_cons, decodeTuple, hitem, hlater, hcount]
    rfl

/-! ### Structures -/

theorem mem_of_lookup_eq_some {x : α} (h : xs.lookup name = some x) : (name, x) ∈ xs := by
  obtain ⟨before, after, rfl, -⟩ := List.lookup_eq_some_iff.1 h
  simp

theorem lookup_eq_some_of_mem {x : α} (h : (xs.map Prod.fst).Nodup) (hx : (name, x) ∈ xs) :
    xs.lookup name = some x := by
  obtain ⟨before, after, rfl⟩ := List.append_of_mem hx
  refine List.lookup_eq_some_iff.2 ⟨before, after, rfl, fun other hother => ?_⟩
  rw [List.map_append, List.map_cons, List.nodup_append] at h
  rw [bne_iff_ne]
  exact Ne.symm (h.2.2 _ (List.mem_map_of_mem hother) _ (List.mem_cons_self ..))

/-- The field of a name is the first one with that name, which is what looking it up gives. -/
theorem decodeField_eq (name : Name) (v : Value) :
    decodeField (xs.map fun x => (x.1, shape x.2)) name v =
      (xs.lookup name).map fun x => decode (shape x) v := by
  induction xs with
  | nil => rfl
  | cons first xs ih =>
    obtain ⟨known, y⟩ := first
    by_cases heq : known = name
    · simp [decodeField, heq]
    · have hbeq : (name == known) = false := beq_false_of_ne (Ne.symm heq)
      simp [decodeField, List.lookup_cons, heq, hbeq, ih]

/-- What is found for the names of a record, by name. -/
theorem lookup_filterMap_names (found : Name → Option Visit) (r : Record) (name : Name) :
    (r.filterMap fun entry => (found entry.1).map (Prod.mk entry.1)).lookup name =
      if name ∈ Record.names r then found name else none := by
  induction r with
  | nil => rfl
  | cons entry r ih =>
    obtain ⟨first, v⟩ := entry
    have hnames : Record.names ((first, v) :: r) = first :: Record.names r := rfl
    rw [List.filterMap_cons, hnames]
    by_cases heq : name = first
    · subst heq
      cases hfound : found name with
      | none => simp [ih, hfound]
      | some visit => simp
    · have hbeq : (name == first) = false := beq_false_of_ne heq
      cases found first with
      | none => simp [ih, heq]
      | some visit => simp [List.lookup_cons, ih, heq, hbeq]

/-- The fields of a structure are assembled when each of them was read. -/
theorem assemble_eq_ok {found : List (Name × Visit)}
    (h : ∀ x ∈ xs, found.lookup x.1 = some (visit x.2)) :
    assemble found (xs.map fun x => (x.1, shape x.2)) = .ok (xs.map fun x => (x.1, visit x.2)) := by
  induction xs with
  | nil => rfl
  | cons x xs ih =>
    obtain ⟨hx, hxs⟩ := List.forall_mem_cons.1 h
    rw [List.map_cons, assemble, hx, ih hxs]
    rfl

/-- What is assembled was read for every field of a type that is not optional. -/
theorem exists_lookup_of_assemble {found visits : List (Name × Visit)}
    {fields : List (Name × Shape)} (h : assemble found fields = .ok visits) :
    ∀ field ∈ fields, field.2.isOptional = false → ∃ v, found.lookup field.1 = some v := by
  -- By induction on the fields: each was found or has an optional type, or nothing would have
  -- been assembled.
  induction fields generalizing visits with
  | nil => simp
  | cons field fields ih =>
    obtain ⟨name, shape⟩ := field
    rw [assemble] at h
    cases hfound : found.lookup name with
    | some v =>
      simp only [hfound, bind_eq_ok_iff] at h
      obtain ⟨-, -, later, hlater, -⟩ := h
      exact List.forall_mem_cons.2 ⟨fun _ => ⟨v, hfound⟩, ih hlater⟩
    | none =>
      simp only [hfound] at h
      split at h
      · rename_i hoptional
        simp only [bind_eq_ok_iff] at h
        obtain ⟨-, -, later, hlater, -⟩ := h
        exact List.forall_mem_cons.2
          ⟨fun hshape => absurd (hoptional.symm.trans hshape) (by simp), ih hlater⟩
      · cases h

/-- What a structure does with one entry of a record. A name that it does not know gives nothing,
and is no error. -/
def decodeEntry (fields : List (Name × Shape)) (entry : Name × Value) :
    Except Error (Option (Name × Visit)) :=
  match decodeField fields entry.1 entry.2 with
  | none => .ok none
  | some visit => visit.map fun visit => some (entry.1, visit)

theorem decode_struct_eq (fields : List (Name × Shape)) (r : Record) :
    decode (.struct fields) (.record r) =
      (r.mapM (decodeEntry fields) >>= fun found =>
        assemble (found.filterMap id) fields >>= fun visits => pure (.struct visits)) := by
  rw [decode]
  rfl

/-- **A structure is read from a record with a value of the right type under each name.** Other
names may stand among them, and the order does not matter. -/
theorem decode_struct (hr : r.names.Nodup) (hxs : (xs.map Prod.fst).Nodup)
    (h : ∀ x ∈ xs, ∃ value, r.get? x.1 = some value ∧ decode (shape x.2) value = .ok (visit x.2)) :
    decode (.struct (xs.map fun x => (x.1, shape x.2))) (.record r) =
      .ok (.struct (xs.map fun x => (x.1, visit x.2))) := by
  -- Each entry is read by itself first, as a field or as nothing; then the fields are looked up
  -- among what was read, and found, as no name comes twice.
  have hentries : r.mapM (decodeEntry (xs.map fun x => (x.1, shape x.2))) =
      .ok (r.map fun entry => ((xs.lookup entry.1).map visit).map (Prod.mk entry.1)) := by
    rw [mapM_eq_ok_iff, List.forall₂_map_right_iff, List.forall₂_same]
    rintro ⟨name, v⟩ hentry
    rw [decodeEntry, decodeField_eq]
    cases hx : xs.lookup name with
    | none => rfl
    | some x =>
      obtain ⟨value, hvalue, hdecode⟩ := h (name, x) (mem_of_lookup_eq_some hx)
      obtain rfl : value = v := Option.some.inj (hvalue.symm.trans (Record.get?_of_mem hr hentry))
      simp only [Option.map_some, hdecode]
      rfl
  have hassemble : assemble
      (r.filterMap fun entry => ((xs.lookup entry.1).map visit).map (Prod.mk entry.1))
      (xs.map fun x => (x.1, shape x.2)) = .ok (xs.map fun x => (x.1, visit x.2)) := by
    refine assemble_eq_ok fun x hx => ?_
    obtain ⟨value, hvalue, -⟩ := h x hx
    rw [lookup_filterMap_names (fun name => (xs.lookup name).map visit),
      if_pos (Record.mem_names_of_get? hvalue), lookup_eq_some_of_mem hxs hx]
    rfl
  rw [decode_struct_eq, hentries]
  show (assemble (List.filterMap id (List.map _ r)) _ >>= _) = _
  rw [List.filterMap_map, Function.id_comp, hassemble]
  rfl

/-- **No structure is read from a record that lacks a field**, unless the field is optional. So
what was read as a structure has a value under each of the other names. -/
theorem get?_of_decode_struct {fields : List (Name × Shape)} {v : Visit}
    (h : decode (.struct fields) (.record r) = .ok v) :
    ∀ field ∈ fields, field.2.isOptional = false → ∃ value, r.get? field.1 = some value := by
  intro field hfield hshape
  rw [decode_struct_eq, bind_eq_ok_iff] at h
  obtain ⟨found, hfound, h⟩ := h
  obtain ⟨visits, hassemble, -⟩ := bind_eq_ok_iff.1 h
  obtain ⟨v, hv⟩ := exists_lookup_of_assemble hassemble field hfield hshape
  -- what was found for the field was found in an entry of its name
  obtain ⟨result, hresult, hsome⟩ := List.mem_filterMap.1 (mem_of_lookup_eq_some hv)
  obtain rfl : result = some (field.1, v) := hsome
  obtain ⟨⟨name, value⟩, hentry, hdecode⟩ :=
    exists_of_forall₂_right (mapM_eq_ok_iff.1 hfound) hresult
  rw [decodeEntry] at hdecode
  split at hdecode
  · cases hdecode
  · rename_i decoded _
    cases decoded with
    | error e => cases hdecode
    | ok visit =>
      cases hdecode
      exact Record.mem_names_iff.1 (List.mem_map_of_mem hentry)

end Shape

end FieldedText
