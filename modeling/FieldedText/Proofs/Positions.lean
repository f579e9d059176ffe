/-
FieldedText/Proofs/Positions.lean

Where the elements of a sequence with gaps come back.

An element that is absent takes its position when a sequence is stored: the elements behind it
have the ordinals that they have with it.  A reader of the sequence is shown the elements in the
order of their ordinals, and not the ordinals, so that all elements behind a gap move up
(`decode_listOf`).  A reader of a tuple lacks one element for each gap, and reads nothing
(`exists_error_of_absent`).

So the elements of a sequence come back in their places when those that are absent come last,
and the elements of a tuple when none is absent, and in no other case (`optional_items`).
-/
import FieldedText.Proofs.RoundTrip

namespace FieldedText

namespace Datum

variable {items : List (Option Datum)} {parts : List (Option Datum × Shape)} {shape : Shape}

/-- Optional data. -/
def optional : Option Datum → Datum
  | none => nothing
  | some datum => something datum

/-- Optional data that is there, as a reader is shown it. -/
def visitPresent (datum : Datum) : Visit := .something datum.visit

/-- The value that optional elements become. -/
def listOf (items : List (Option Datum)) : Value :=
  .record (Record.ofElements (items.map (Option.map toValue)))

/-- That a reader is shown the elements that are there in their places, and nothing in the places
of those that are absent in front of them. Behind the last element that is there nothing is asked:
whether absent elements come there cannot be told from the record. -/
def InPlace (items : List (Option Datum)) (result : Except Error Visit) : Prop :=
  ∃ visits announced, result = .ok (.sequence visits announced) ∧
    ∀ (i : Nat) (datum : Datum), items[i]? = some (some datum) →
      visits[i]? = some datum.visitPresent ∧
        ∀ j < i, items[j]? = some none → visits[j]? = some Visit.nothing

/-! ### Values -/

theorem encodeItems_optional
    (h : ∀ datum, some datum ∈ items → datum.encode = .ok (some datum.toValue)) :
    encodeItems (items.map optional) = .ok (items.map (Option.map toValue)) := by
  refine encodeItems_eq fun item hitem => ?_
  cases item with
  | none => rfl
  | some datum => exact h datum hitem

theorem Fits.decode_optional {datum : Datum} (h : Fits datum shape) :
    (Shape.optional shape).decode datum.toValue = .ok datum.visitPresent := by
  rw [Shape.decode, h.returns.decode]
  rfl

/-- **The elements behind a gap move up**: a reader is shown those that are there, in their order,
and no more. -/
theorem decode_listOf (h : ∀ datum, some datum ∈ items → Fits datum shape) :
    (Shape.sequence (.optional shape)).decode (listOf items) =
      .ok (.sequence (items.reduceOption.map visitPresent) items.reduceOption.length) :=
  Shape.decode_sequence_present fun datum hdatum => (h datum hdatum).decode_optional

/-! ### Sequences -/

/-- Elements that are all there are what is left of them. -/
theorem map_some_reduceOption {α : Type} {xs : List (Option α)} (h : ∀ x ∈ xs, x.isSome = true) :
    xs.reduceOption.map some = xs := by
  induction xs with
  | nil => rfl
  | cons x xs ih =>
    obtain ⟨hx, hxs⟩ := List.forall_mem_cons.1 h
    obtain ⟨y, rfl⟩ := Option.isSome_iff_exists.1 hx
    rw [List.reduceOption_cons_of_some, List.map_cons, ih hxs]

theorem getElem?_of_absent_last {α : Type} {present : List α} {n i : Nat} {x : α}
    (h : (present.map some ++ List.replicate n none)[i]? = some (some x)) :
    present[i]? = some x := by
  by_cases hi : i < present.length
  · rw [List.getElem?_append_left (by simpa using hi)] at h
    simpa using h
  · rw [List.getElem?_append_right (by simpa using hi), List.getElem?_replicate] at h
    split at h <;> cases h

/-- **Elements come back in their places exactly when the absent ones come last.** A reader is
shown the elements that are there one after the other, so a gap in front of any of them moves it.
-/
theorem inPlace_iff {announced : Nat} :
    InPlace items (.ok (.sequence (items.reduceOption.map visitPresent) announced)) ↔
      ∃ (present : List Datum) (n : Nat), items = present.map some ++ List.replicate n none := by
  constructor
  · rintro ⟨visits, _, hvisits, hplaces⟩
    cases hvisits
    -- either no element is there at all, or there is a last one, and the gaps in front of it
    -- would move it
    obtain hnone | ⟨init, last, hlast⟩ := List.eq_nil_or_concat' items.reduceOption
    · obtain ⟨n, hn⟩ := (List.reduceOption_eq_nil_iff _).1 hnone
      exact ⟨[], n, hn⟩
    · rw [← List.concat_eq_append, List.reduceOption_eq_concat_iff] at hlast
      obtain ⟨before, after, rfl, -, hafter⟩ := hlast
      obtain ⟨n, rfl⟩ := (List.reduceOption_eq_nil_iff _).1 hafter
      -- the last element that is there has as many in front of it as were put there
      have hlength : before.reduceOption.length = before.length := by
        have hfound := (hplaces before.length last (by simp)).1
        refine Nat.le_antisymm (List.reduceOption_length_le before) ?_
        have hlt := (List.getElem?_eq_some_iff.1 hfound).1
        exact Nat.le_of_lt_succ (by simpa [List.reduceOption_append] using hlt)
      have hbefore := map_some_reduceOption (List.reduceOption_length_eq_iff.1 hlength)
      refine ⟨before.reduceOption ++ [last], n, ?_⟩
      rw [List.map_append, hbefore, List.append_assoc]
      rfl
  · rintro ⟨present, n, rfl⟩
    refine ⟨_, _, rfl, fun i datum hi => ?_⟩
    have hpresent := getElem?_of_absent_last hi
    have hlt := (List.getElem?_eq_some_iff.1 hpresent).1
    refine ⟨?_, fun j hj hnone => ?_⟩
    · simp [List.reduceOption_append, reduceOption_map_some, hpresent]
    · rw [List.getElem?_append_left (by simpa using hj.trans hlt)] at hnone
      simp at hnone

/-! ### Tuples -/

/-- A tuple of elements that are all there is a tuple of optional data. -/
theorem exists_eq_map_some (h : none ∉ parts.map Prod.fst) :
    ∃ full : List (Datum × Shape), parts = full.map fun part => (some part.1, part.2) := by
  induction parts with
  | nil => exact ⟨[], rfl⟩
  | cons part parts ih =>
    obtain ⟨item, shape⟩ := part
    obtain ⟨hitem, hparts⟩ := not_or.1 (List.mem_cons.not.1 h)
    obtain ⟨full, rfl⟩ := ih hparts
    obtain ⟨datum, rfl⟩ := Option.ne_none_iff_exists'.1 (Ne.symm hitem)
    exact ⟨(datum, shape) :: full, rfl⟩

theorem decode_tuple_listOf (shapes : List Shape) (items : List (Option Datum)) :
    (Shape.tuple shapes).decode (listOf items) =
      Shape.decodeTuple shapes shapes.length 0 (items.reduceOption.map toValue) >>= fun visits =>
        .ok (.sequence visits items.reduceOption.length) := by
  rw [Shape.decode, listOf, Value.asRecord]
  simp only [bind, Except.bind, Record.elements_ofElements, List.reduceOption_map, List.length_map]
  rfl

theorem exists_error_of_absent (h : none ∈ items) {shapes : List Shape}
    (hlength : shapes.length = items.length) :
    ∃ e, (Shape.tuple shapes).decode (listOf items) = .error e := by
  cases hdecode : (Shape.tuple shapes).decode (listOf items) with
  | error e => exact ⟨e, rfl⟩
  | ok visit =>
    rw [decode_tuple_listOf, bind_eq_ok_iff] at hdecode
    obtain ⟨visits, hvisits, -⟩ := hdecode
    have hle := Shape.length_le_of_decodeTuple hvisits
    have hlt := List.reduceOption_length_lt_iff.2 h
    rw [List.length_map] at hle
    omega

/-- The type of a tuple of optional elements. -/
def tupleShape (parts : List (Option Datum × Shape)) : Shape :=
  .tuple (parts.map fun part => .optional part.2)

theorem decode_tuple_whole (hfits : ∀ datum shape, (some datum, shape) ∈ parts → Fits datum shape)
    (h : none ∉ parts.map Prod.fst) :
    (tupleShape parts).decode (listOf (parts.map Prod.fst)) =
      .ok (.sequence ((parts.map Prod.fst).reduceOption.map visitPresent) parts.length) := by
  obtain ⟨full, rfl⟩ := exists_eq_map_some h
  have hpresent : ((full.map fun part => (some part.1, part.2)).map Prod.fst).reduceOption =
      full.map Prod.fst := by
    rw [← reduceOption_map_some (full.map Prod.fst), List.map_map, List.map_map]
    rfl
  have hdecode : ∀ part ∈ full,
      (Shape.optional part.2).decode part.1.toValue = .ok part.1.visitPresent := by
    intro part hpart
    exact (hfits part.1 part.2 (List.mem_map.2 ⟨part, hpart, rfl⟩)).decode_optional
  have htuple := Shape.decodeTuple_eq hdecode full.length 0
  rw [tupleShape, decode_tuple_listOf, hpresent, List.map_map, List.map_map, List.map_map,
    List.length_map, List.length_map, List.length_map]
  exact congrArg (· >>= fun visits => Except.ok (Visit.sequence visits full.length)) htuple

/-! ### Main results -/

/-- What becomes of a sequence of optional elements. The third part says exactly when it comes
back. -/
structure SequenceShown (items : List (Option Datum)) (shape : Shape) : Prop where
  encode : (sequence (items.map optional)).encode = .ok (some (listOf items))
  /-- The elements that are there move up. -/
  decode : (Shape.sequence (.optional shape)).decode (listOf items) =
    .ok (.sequence (items.reduceOption.map visitPresent) items.reduceOption.length)
  /-- They are in their places when those that are absent come last. -/
  inPlace : InPlace items ((Shape.sequence (.optional shape)).decode (listOf items)) ↔
    ∃ (present : List Datum) (n : Nat), items = present.map some ++ List.replicate n none

/-- What becomes of a tuple of optional elements, each of which has its type. -/
structure TupleShown (parts : List (Option Datum × Shape)) : Prop where
  encode : (tuple (parts.map fun part => optional part.1)).encode =
    .ok (some (listOf (parts.map Prod.fst)))
  /-- The elements are in their places when none of them is absent. -/
  inPlace : InPlace (parts.map Prod.fst)
      ((tupleShape parts).decode (listOf (parts.map Prod.fst))) ↔ none ∉ parts.map Prod.fst
  failed : none ∈ parts.map Prod.fst →
    ∃ e, (tupleShape parts).decode (listOf (parts.map Prod.fst)) = .error e
  /-- Elements of one type are all read before the complaint. -/
  tooShort : ∀ shape, (∀ part ∈ parts, part.2 = shape) → none ∈ parts.map Prod.fst →
    (tupleShape parts).decode (listOf (parts.map Prod.fst)) =
      .error (.binding (.tooShort (parts.map Prod.fst).reduceOption.length parts.length))

theorem sequenceShown (h : ∀ datum, some datum ∈ items → Fits datum shape) :
    SequenceShown items shape where
  encode := by
    rw [Datum.encode, encodeItems_optional fun datum hdatum => (h datum hdatum).returns.encode]
    rfl
  decode := decode_listOf h
  inPlace := by rw [decode_listOf h, inPlace_iff]

theorem tupleShown (h : ∀ datum shape, (some datum, shape) ∈ parts → Fits datum shape) :
    TupleShown parts where
  encode := by
    have hsplit : (parts.map fun part => optional part.1) = (parts.map Prod.fst).map optional := by
      rw [List.map_map]
      rfl
    have hencode : ∀ datum, some datum ∈ parts.map Prod.fst →
        datum.encode = .ok (some datum.toValue) := by
      intro datum hdatum
      obtain ⟨⟨item, shape⟩, hpart, rfl⟩ := List.mem_map.1 hdatum
      exact (h datum shape hpart).returns.encode
    rw [hsplit, Datum.encode, encodeItems_optional hencode]
    rfl
  inPlace := by
    constructor
    -- a tuple with a gap is not read at all
    · rintro ⟨visits, announced, hok, -⟩ habsent
      have hlength : (parts.map fun part => Shape.optional part.2).length =
          (parts.map Prod.fst).length := by simp
      obtain ⟨e, herror⟩ := exists_error_of_absent habsent hlength
      rw [tupleShape, herror] at hok
      cases hok
    -- without gaps the elements are read as they are, and none is absent behind them either
    · intro hpresent
      rw [decode_tuple_whole h hpresent, inPlace_iff]
      obtain ⟨full, rfl⟩ := exists_eq_map_some hpresent
      exact ⟨full.map Prod.fst, 0, by simp⟩
  failed habsent := exists_error_of_absent habsent (by rw [List.length_map, List.length_map])
  tooShort shape hshape habsent := by
    have hshapes : (parts.map fun part => Shape.optional part.2) =
        List.replicate parts.length (.optional shape) := by
      rw [← List.map_const', List.map_congr_left]
      exact fun part hpart => congrArg Shape.optional (hshape part hpart)
    have hdecode : ∀ datum ∈ (parts.map Prod.fst).reduceOption,
        (Shape.optional shape).decode datum.toValue = .ok datum.visitPresent := by
      intro datum hdatum
      obtain ⟨⟨item, other⟩, hpart, rfl⟩ := List.mem_map.1 (List.reduceOption_mem_iff.1 hdatum)
      obtain rfl : other = shape := hshape _ hpart
      exact (h datum other hpart).decode_optional
    have hlt := List.reduceOption_length_lt_iff.2 habsent
    rw [List.length_map] at hlt
    rw [tupleShape, decode_tuple_listOf, hshapes, List.length_replicate,
      Shape.decodeTuple_of_lt hdecode hlt, Nat.zero_add]
    rfl

/-- **Where the elements of a sequence, or of a tuple, of optional data come back.**  Those of a
sequence are in their places exactly when the absent ones come last; a tuple comes back exactly when
none is absent. -/
theorem optional_items (hitems : ∀ datum, some datum ∈ items → Fits datum shape)
    (hparts : ∀ datum shape, (some datum, shape) ∈ parts → Fits datum shape) :
    SequenceShown items shape ∧ TupleShown parts :=
  ⟨sequenceShown hitems, tupleShown hparts⟩

/-- One and three, and nothing between them. -/
def gappedNumbers : List (Option Datum) :=
  [some (integer .i64 1), none, some (integer .i64 3)]

theorem fits_gappedNumbers :
    ∀ datum, some datum ∈ gappedNumbers → Fits datum (.integer .i64) := by
  intro datum hdatum
  simp only [gappedNumbers, List.mem_cons, List.not_mem_nil, Option.some.injEq, or_false,
    reduceCtorEq, false_or] at hdatum
  obtain rfl | rfl := hdatum
  · exact .integer (by decide) (by decide)
  · exact .integer (by decide) (by decide)

/-- The second of two numbers is stored under its position, and read in the place of the one that
is absent. The value keeps the position, but the reader of a sequence is not shown it. -/
theorem not_inPlace_gappedNumbers :
    (sequence (gappedNumbers.map optional)).encode = .ok (some (.record
      [(['0'], .scalar (.integer 1)), (['2'], .scalar (.integer 3))])) ∧
    (Shape.sequence (.optional (.integer .i64))).decode (.record
      [(['0'], .scalar (.integer 1)), (['2'], .scalar (.integer 3))]) =
        .ok (.sequence [.something (.integer .i64 1), .something (.integer .i64 3)] 2) ∧
    ¬ InPlace gappedNumbers
      (.ok (.sequence [.something (.integer .i64 1), .something (.integer .i64 3)] 2)) := by
  refine ⟨?_, decode_listOf fits_gappedNumbers, ?_⟩
  · rfl
  · rintro ⟨visits, announced, hvisits, hplaces⟩
    cases hvisits
    cases (hplaces 2 _ rfl).1

/-- A gap between two numbers, and one between elements of different types. -/
theorem optional_items_gapped :
    (∀ datum, some datum ∈ gappedNumbers → Fits datum (.integer .i64)) ∧
    (∀ datum shape, (some datum, shape) ∈ [(some (truth true), .truth), (none, Shape.char),
      (some (text ['x']), .text)] → Fits datum shape) ∧
    SequenceShown gappedNumbers (.integer .i64) ∧
      TupleShown [(some (truth true), .truth), (none, .char), (some (text ['x']), .text)] := by
  have hparts : ∀ datum shape, (some datum, shape) ∈ [(some (truth true), .truth),
      (none, Shape.char), (some (text ['x']), .text)] → Fits datum shape := by
    intro datum shape hpart
    simp only [List.mem_cons, List.not_mem_nil, Prod.mk.injEq, Option.some.injEq, or_false,
      reduceCtorEq, false_and, false_or] at hpart
    obtain ⟨rfl, rfl⟩ | ⟨rfl, rfl⟩ := hpart
    · exact .truth true
    · exact .text ['x']
  exact ⟨fits_gappedNumbers, hparts, optional_items fits_gappedNumbers hparts⟩

end Datum

end FieldedText
