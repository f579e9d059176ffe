/-
FieldedText/Proofs/JsonTree.lean

JSON trees become the same values in two ways: read as values, and stored as typed data.

A reader of values is shown a tree node by node, and a program that stores the data of a tree
makes one call for each node.  Both ways drop null, the one as what is shown as nothing and the
other as data that is absent, and both turn integers into text that need all sixty-four bits for
their size (`encode_toDatum`).

`Holds` says what the value of a tree is, node by node and without either way: the items of an
array are under their positions, and each name of an object is in the place of its first entry
with the content of its last one, entries with null left out.  The main result is that there is
one such value, and that both ways lead to it (`exists_holds`).
-/
import FieldedText.Json.Tree
import FieldedText.Proofs.Binary
import FieldedText.Proofs.Rereading
import FieldedText.Proofs.RoundTrip

namespace FieldedText

/-! ### What is stored in a record -/

namespace Record

variable {name : Name}

theorem ofEntries_concat (entries : List (Name × Value)) (entry : Name × Value) :
    ofEntries (entries ++ [entry]) = (ofEntries entries).insert entry.1 entry.2 := by
  rw [ofEntries, List.foldl_append, List.foldl_cons, List.foldl_nil, ofEntries]

/-- **Names have the order in which they came into a record.** -/
theorem names_ofEntries (entries : List (Name × Value)) :
    (ofEntries entries).names = (entries.map Prod.fst).eraseDups := by
  induction entries using List.reverseRecOn with
  | nil => rfl
  | append_singleton entries entry ih =>
    rw [ofEntries_concat, names_insert, ih, List.map_append, List.eraseDups_append]
    by_cases hmem : entry.1 ∈ entries.map Prod.fst
    · rw [if_pos (List.mem_eraseDups.2 hmem)]
      simp [List.removeAll, hmem]
    · rw [if_neg (mt List.mem_eraseDups.1 hmem)]
      simp [List.removeAll, hmem, List.eraseDups_cons]

/-- **The last of the values that are stored under a name stays.** The place of the name is that
of its first entry, though; see `names_ofEntries`. -/
theorem get?_ofEntries (entries : List (Name × Value)) (name : Name) :
    (ofEntries entries).get? name = entries.reverse.lookup name := by
  induction entries using List.reverseRecOn with
  | nil => rfl
  | append_singleton entries entry ih =>
    obtain ⟨last, v⟩ := entry
    rw [ofEntries_concat, get?_insert, ih, List.reverse_append, List.reverse_singleton,
      List.singleton_append, List.lookup_cons]
    by_cases heq : last = name
    · simp [heq]
    · simp [heq, beq_false_of_ne (Ne.symm heq)]

theorem nodup_names_ofEntries (entries : List (Name × Value)) :
    (ofEntries entries).names.Nodup := by
  induction entries using List.reverseRecOn with
  | nil => exact List.nodup_nil
  | append_singleton entries entry ih =>
    rw [ofEntries_concat]
    exact nodup_names_insert ih _ _

/-- Records are the same if the names are, in order, and the values under each name. -/
theorem ext_get? {r s : Record} (hnames : r.names = s.names) (hnodup : r.names.Nodup)
    (h : ∀ name v w, r.get? name = some v → s.get? name = some w → v = w) : r = s := by
  induction r generalizing s with
  | nil => exact (List.map_eq_nil_iff.1 hnames.symm).symm
  | cons entry r ih =>
    obtain ⟨name, v⟩ := entry
    match s, hnames with
    | (other, w) :: s, hnames =>
      obtain ⟨rfl, hrest⟩ : name = other ∧ names r = names s := List.cons.inj hnames
      obtain ⟨hnew, hnodup⟩ := List.nodup_cons.1 hnodup
      obtain rfl := h name v w (if_pos rfl) (if_pos rfl)
      refine congrArg _ (ih hrest hnodup fun other v w hv hw => ?_)
      have hne : name ≠ other := fun heq => hnew (heq ▸ mem_names_of_get? hv)
      exact h other v w ((if_neg hne).trans hv) ((if_neg hne).trans hw)

theorem names_fill (k : Nat) (values : List (Option Value)) :
    names (ofElements.fill k values) =
      ((values.zipIdx k).filter fun x => x.1.isSome).map fun x => natText x.2 := by
  induction values generalizing k with
  | nil => rfl
  | cons value values ih =>
    rw [List.zipIdx_cons]
    cases value with
    | none => exact ih (k + 1)
    | some v => exact congrArg (natText k :: ·) (ih (k + 1))

/-- A list has no entries before its first position. -/
theorem get?_fill_of_lt {i k : Nat} (h : i < k) (values : List (Option Value)) :
    get? (ofElements.fill k values) (natText i) = none := by
  rw [get?_eq_none_iff]
  intro hmem
  obtain ⟨j, hj, hname⟩ := List.mem_map.1 ((names_fill_sublist k values).subset hmem)
  have hle := (List.mem_range'_1.1 hj).1
  rw [natText_injective hname] at hle
  omega

theorem get?_fill (k i : Nat) (values : List (Option Value)) :
    get? (ofElements.fill k values) (natText (k + i)) = values[i]?.join := by
  induction values generalizing k i with
  | nil => rfl
  | cons value values ih =>
    cases i with
    | zero =>
      cases value with
      | none => exact get?_fill_of_lt (Nat.lt_succ_self k) values
      | some v => exact if_pos rfl
    | succ i =>
      have hshift : k + (i + 1) = k + 1 + i := by omega
      rw [List.getElem?_cons_succ, hshift, ← ih (k + 1) i]
      cases value with
      | none => rfl
      | some v => exact if_neg fun h => by have := natText_injective h; omega

/-- **The elements of a list are under their positions.** -/
theorem get?_ofElements (values : List (Option Value)) (i : Nat) :
    (ofElements values).get? (natText i) = values[i]?.join := by
  have hfill := get?_fill 0 i values
  rwa [Nat.zero_add] at hfill

end Record

namespace Json

namespace Tree

variable {tree : Tree} {items : List Tree} {entries : List (Name × Tree)} {v : Value}

/-! ### Trees node by node -/

/-- That the numbers of a tree are integers of sixty-four bits, with or without a sign, and
floating-point numbers of sixty-four bits. These are the numbers that a reader of JSON texts makes
by default. -/
inductive Standard : Tree → Prop
  | null : Standard .null
  | truth (b : Bool) : Standard (.truth b)
  | integer {n : Int} (held : IntegerType.i64.holds n = true ∨ IntegerType.u64.holds n = true) :
      Standard (.integer n)
  | float {x : Binary} (isOf : x.IsOf .double) : Standard (.float x)
  | text (content : Text) : Standard (.text content)
  | array {items : List Tree} (standard : ∀ item ∈ items, Standard item) : Standard (.array items)
  | object {entries : List (Name × Tree)} (standard : ∀ entry ∈ entries, Standard entry.2) :
      Standard (.object entries)

/-- Whether a tree is null. -/
def isNull : Tree → Bool
  | null => true
  | _ => false

/-- The positions of the items that are not null, as names. Positions are counted with the items
that are null, so that these leave gaps. -/
def positions (items : List Tree) : List Name :=
  (items.zipIdx.filter fun x => !x.1.isNull).map fun x => natText x.2

/-- The entries that are not null. -/
def present (entries : List (Name × Tree)) : List (Name × Tree) :=
  entries.filter fun entry => !entry.2.isNull

/-- That a value is what a tree holds. It is said of a record by its names and by what is under
each of them, and so without the order in which entries are stored. -/
inductive Holds : Tree → Value → Prop
  | truth (b : Bool) : Holds (.truth b) (.scalar (.truth b))
  | integer {n : Int} (least : -9223372036854775808 ≤ n) (bound : n < 9223372036854775808) :
      Holds (.integer n) (.scalar (.integer (Int64.ofInt n)))
  /-- An integer that is too large for a sign beside it becomes text. -/
  | large {n : Int} (large : 9223372036854775808 ≤ n) :
      Holds (.integer n) (.scalar (.text (intText n)))
  | float (x : Binary) : Holds (.float x) (.scalar (.float x))
  | text (content : Text) : Holds (.text content) (.scalar (.text content))
  /-- An item that is null leaves its position unused. -/
  | array {items : List Tree} {r : Record} (names : r.names = positions items)
      (values : ∀ (i : Nat) (item : Tree) (v : Value), items[i]? = some item →
        r.get? (natText i) = some v → Holds item v) : Holds (.array items) (.record r)
  /-- An entry that is null neither stores anything nor takes anything away. -/
  | object {entries : List (Name × Tree)} {r : Record}
      (names : r.names = ((present entries).map Prod.fst).eraseDups)
      (values : ∀ (name : Name) (tree : Tree) (v : Value),
        (present entries).reverse.lookup name = some tree → r.get? name = some v →
          Holds tree v) : Holds (.object entries) (.record r)

theorem visitItems_eq (items : List Tree) : visitItems items = items.map visit := by
  induction items with
  | nil => rfl
  | cons item items ih => exact congrArg (item.visit :: ·) ih

theorem visitEntries_eq (entries : List (Name × Tree)) :
    visitEntries entries = entries.map fun entry => (.text entry.1, entry.2.visit) := by
  induction entries with
  | nil => rfl
  | cons entry entries ih => exact congrArg ((.text entry.1, entry.2.visit) :: ·) ih

theorem itemData_eq (items : List Tree) : itemData items = items.map toDatum := by
  induction items with
  | nil => rfl
  | cons item items ih => exact congrArg (item.toDatum :: ·) ih

theorem isSome_toValue? (tree : Tree) : tree.toValue?.isSome = !tree.isNull := by
  cases tree <;> rfl

/-! ### Arrays and objects -/

theorem toValue?_array (items : List Tree) :
    (array items).toValue? = some (.record (Record.ofElements (items.map toValue?))) := by
  rw [toValue?, visit, Visit.value?, visitItems_eq, Visit.itemValues_eq, List.map_map]
  rfl

/-- The value of an entry under its name, unless it is null. -/
def namedValue? (entry : Name × Tree) : Option (Name × Value) :=
  entry.2.toValue?.map (Prod.mk entry.1)

theorem storeEntries_visitEntries (r : Record) (entries : List (Name × Tree)) :
    Visit.storeEntries r (visitEntries entries) =
      (entries.filterMap namedValue?).foldl (fun r entry => r.insert entry.1 entry.2) r := by
  induction entries generalizing r with
  | nil => rfl
  | cons entry entries ih =>
    obtain ⟨name, tree⟩ := entry
    have hvalue : tree.visit.value? = tree.toValue? := rfl
    rw [visitEntries, Visit.storeEntries, ih, hvalue, List.filterMap_cons, namedValue?]
    cases tree.toValue? <;> rfl

theorem toValue?_object (entries : List (Name × Tree)) :
    (object entries).toValue? =
      some (.record (Record.ofEntries (entries.filterMap namedValue?))) := by
  rw [toValue?, visit, Visit.value?, storeEntries_visitEntries]
  rfl

/-! ### Stored as typed data -/

theorem encodeEntries_entryData (r : Record)
    (h : ∀ entry ∈ entries, entry.2.toDatum.encode = .ok entry.2.toValue?) :
    Datum.encodeEntries r (entryData entries) =
      .ok ((entries.filterMap namedValue?).foldl (fun r entry => r.insert entry.1 entry.2) r) := by
  induction entries generalizing r with
  | nil => rfl
  | cons entry entries ih =>
    obtain ⟨hentry, hentries⟩ := List.forall_mem_cons.1 h
    obtain ⟨name, tree⟩ := entry
    rw [entryData, Datum.encodeEntries]
    simp only [Datum.encode, Value.keyText, Scalar.shown, bind, Except.bind, hentry, ih _ hentries,
      List.filterMap_cons, namedValue?]
    cases tree.toValue? <;> rfl

/-- **The value that the data of a tree becomes is the one that a reader makes of the tree**;
there is none for null, on either way. By induction on the tree, which follows the calls that are
made for its nodes. -/
theorem encode_toDatum (h : tree.Standard) : tree.toDatum.encode = .ok tree.toValue? := by
  induction h with
  | null | truth | text => rfl
  | integer =>
    refine Datum.encode_integer ?_ _
    rw [integerType]
    split <;> decide
  | float hof =>
    rw [toDatum, Datum.encode, Binary.toFormat_eq_self hof]
    rfl
  | array _ ih =>
    rw [toDatum, Datum.encode, itemData_eq, Datum.encodeItems_eq ih, toValue?_array]
    rfl
  | object _ ih =>
    rw [toDatum, Datum.encode, encodeEntries_entryData [] ih, toValue?_object]
    rfl

/-! ### What a tree holds -/

theorem names_ofElements_positions (items : List Tree) :
    (Record.ofElements (items.map toValue?)).names = positions items := by
  have hfill := Record.names_fill 0 (items.map toValue?)
  rw [List.zipIdx_map, List.filter_map, List.map_map] at hfill
  refine hfill.trans ?_
  rw [positions]
  refine congrArg _ (List.filter_congr fun x _ => ?_)
  exact isSome_toValue? x.1

theorem map_fst_namedValues (entries : List (Name × Tree)) :
    (entries.filterMap namedValue?).map Prod.fst = (present entries).map Prod.fst := by
  induction entries with
  | nil => rfl
  | cons entry entries ih =>
    obtain ⟨name, tree⟩ := entry
    have hsome := isSome_toValue? tree
    rw [List.filterMap_cons, namedValue?, present, List.filter_cons, ← hsome]
    cases tree.toValue? with
    | none => exact ih
    | some v => exact congrArg (name :: ·) ih

theorem lookup_namedValues (entries : List (Name × Tree)) (name : Name) :
    (entries.filterMap namedValue?).lookup name =
      ((present entries).lookup name).bind toValue? := by
  induction entries with
  | nil => rfl
  | cons entry entries ih =>
    obtain ⟨first, tree⟩ := entry
    have hsome := isSome_toValue? tree
    rw [List.filterMap_cons, namedValue?, present, List.filter_cons, ← hsome]
    cases hv : tree.toValue? with
    | none => exact ih
    | some v =>
      by_cases heq : name = first
      · simp [heq, hv]
      · have hbeq : (name == first) = false := beq_false_of_ne heq
        simp [List.lookup_cons, hbeq, ih, present]

/-- Among the entries that are not null, the last one of a name counts. A null that comes later
takes nothing away, since it is dropped before entries are stored. -/
theorem get?_ofEntries_namedValues (entries : List (Name × Tree)) (name : Name) :
    (Record.ofEntries (entries.filterMap namedValue?)).get? name =
      ((present entries).reverse.lookup name).bind toValue? := by
  have hreverse : present entries.reverse = (present entries).reverse := List.filter_reverse ..
  rw [Record.get?_ofEntries, ← List.filterMap_reverse, lookup_namedValues, hreverse]

theorem exists_of_mem_positions {name : Name} (h : name ∈ positions items) :
    ∃ i item, items[i]? = some item ∧ name = natText i := by
  obtain ⟨⟨item, i⟩, hmem, rfl⟩ := List.mem_map.1 h
  exact ⟨i, item, List.mk_mem_zipIdx_iff_getElem?.1 (List.mem_of_mem_filter hmem), rfl⟩

theorem nonneg_of_holds_u64 {n : Int} (h : IntegerType.u64.holds n = true) : 0 ≤ n := by
  rw [IntegerType.holds, Bool.and_eq_true, decide_eq_true_eq, decide_eq_true_eq] at h
  exact h.1

theorem holds_ofInt {n : Int}
    (h : IntegerType.i64.holds n = true ∨ IntegerType.u64.holds n = true) :
    Holds (.integer n) (.scalar (.ofInt n)) := by
  by_cases hnarrow : IntegerType.i64.holds n = true
  · obtain ⟨hleast, hbound⟩ := IntegerType.holds_i64_iff.1 hnarrow
    rw [Scalar.ofInt, if_pos hnarrow]
    exact .integer hleast hbound
  · have hnonneg := nonneg_of_holds_u64 (h.resolve_left hnarrow)
    rw [Scalar.ofInt, if_neg hnarrow]
    rw [IntegerType.holds_i64_iff] at hnarrow
    exact .large (by omega)

/-- The value that a reader makes of a tree is what the tree holds. Together with
`toValue?_of_holds` this makes `Holds` a second definition of reading. -/
theorem holds_of_toValue? (h : tree.Standard) (hv : tree.toValue? = some v) : tree.Holds v := by
  induction h generalizing v with
  | null => cases hv
  | truth b =>
    cases hv
    exact .truth b
  | text content =>
    cases hv
    exact .text content
  | @float x _ =>
    cases hv
    exact .float x
  | @integer n hheld =>
    cases hv
    exact holds_ofInt hheld
  | @array items _ ih =>
    rw [toValue?_array] at hv
    cases hv
    -- the value under a position is that of the item there, to which the induction applies
    refine .array (names_ofElements_positions items) fun i item v hitem hv => ?_
    rw [Record.get?_ofElements, List.getElem?_map, hitem] at hv
    exact ih item (List.mem_of_getElem? hitem) hv
  | @object entries _ ih =>
    rw [toValue?_object] at hv
    cases hv
    -- under a name is the value of its last entry that is not null
    refine .object ?_ fun name tree v hlast hv => ?_
    · rw [Record.names_ofEntries, map_fst_namedValues]
    · rw [get?_ofEntries_namedValues, hlast] at hv
      have hmem := Shape.mem_of_lookup_eq_some hlast
      exact ih (name, tree) (List.mem_of_mem_filter (List.mem_reverse.1 hmem)) hv

/-- What a tree holds is the value that a reader makes of it. -/
theorem toValue?_of_holds (h : tree.Holds v) : tree.toValue? = some v := by
  induction h with
  | truth | float | text => rfl
  -- The two cases of an integer are told apart by whether it fits with a sign. The bounds in
  -- `Holds` say which it is.
  | integer hleast hbound =>
    have hnarrow := IntegerType.holds_i64_iff.2 ⟨hleast, hbound⟩
    exact congrArg (fun s => some (Value.scalar s)) (if_pos hnarrow)
  | large hlarge =>
    refine congrArg (fun s => some (Value.scalar s)) (if_neg fun hnarrow => ?_)
    have := (IntegerType.holds_i64_iff.1 hnarrow).2
    omega
  | @array items r hnames _ ih =>
    rw [toValue?_array]
    -- two records with the same names, so it remains to compare the values under each of them
    refine congrArg (fun r => some (Value.record r)) (Record.ext_get? ?_ ?_ ?_)
    · rw [names_ofElements_positions, hnames]
    · exact Record.nodup_names_ofElements _
    · intro name v w hv hw
      obtain ⟨i, item, hitem, rfl⟩ := exists_of_mem_positions (hnames ▸ Record.mem_names_of_get? hw)
      rw [Record.get?_ofElements, List.getElem?_map, hitem] at hv
      exact Option.some.inj (hv.symm.trans (ih i item w hitem hw))
  | @object entries r hnames _ ih =>
    rw [toValue?_object]
    refine congrArg (fun r => some (Value.record r)) (Record.ext_get? ?_ ?_ ?_)
    · rw [Record.names_ofEntries, map_fst_namedValues, hnames]
    · exact Record.nodup_names_ofEntries _
    · intro name v w hv hw
      rw [get?_ofEntries_namedValues] at hv
      obtain ⟨tree, hlast, hv⟩ := Option.bind_eq_some_iff.1 hv
      exact Option.some.inj (hv.symm.trans (ih name tree w hlast hw))

/-- **A tree that is not null holds one value**: a reader makes it of the tree, and it is what the
tree's data is stored as. `Holds` speaks of neither way, so the two agree on what can be said of
the tree alone. -/
theorem exists_holds (hstandard : tree.Standard) (hnull : tree.isNull = false) :
    ∃ v, tree.toValue? = some v ∧ tree.toDatum.encode = .ok (some v) ∧
      ∀ w, tree.Holds w ↔ w = v := by
  have hsome := isSome_toValue? tree
  rw [hnull, Bool.not_false] at hsome
  obtain ⟨v, hv⟩ := Option.isSome_iff_exists.1 hsome
  refine ⟨v, hv, ?_, fun w => ⟨fun hw => ?_, fun hw => hw ▸ holds_of_toValue? hstandard hv⟩⟩
  · rw [encode_toDatum hstandard, hv]
  · exact Option.some.inj ((toValue?_of_holds hw).symm.trans hv)

/-- A tree with a name that has several entries, the last of them null, and with integers on both
sides of what becomes text. -/
def ledger : Tree :=
  .object [(['a'], .integer 9223372036854775807),
    (['b'], .array [.float (.finite true 0 (-1074)), .null, .integer 9223372036854775808]),
    (['a'], .text ['x']), (['n'], .null), (['a'], .null), (['b', 'b'], .array [.array []])]

theorem exists_holds_ledger :
    ledger.Standard ∧ ledger.isNull = false ∧
      (∃ v, ledger.toValue? = some v ∧ ledger.toDatum.encode = .ok (some v) ∧
        ∀ w, ledger.Holds w ↔ w = v) ∧
      ledger.toValue? = some (.record [(['a'], .scalar (.text ['x'])),
        (['b'], .record [(['0'], .scalar (.float (.finite true 0 (-1074)))),
          (['2'], .scalar (.text "9223372036854775808".toList))]),
        (['b', 'b'], .record [(['0'], .record [])])]) := by
  have hlist : (array [.float (.finite true 0 (-1074)), .null,
      .integer 9223372036854775808]).Standard := by
    refine .array (List.forall_mem_cons.2 ⟨.float (by decide), List.forall_mem_cons.2 ⟨.null, ?_⟩⟩)
    exact List.forall_mem_singleton.2 (.integer (.inr (by decide)))
  have hnested : (array [.array []]).Standard :=
    .array (List.forall_mem_singleton.2 (.array nofun))
  have hstandard : ledger.Standard := by
    refine .object ?_
    simp only [List.forall_mem_cons]
    exact ⟨.integer (.inl (by decide)), hlist, .text _, .null, .null, hnested, nofun⟩
  exact ⟨hstandard, rfl, exists_holds hstandard rfl, by decide +kernel⟩

end Tree

end Json

end FieldedText
