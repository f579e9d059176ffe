/-
FieldedText/Proofs/JsonStorage.lean

Records that are stored as JSON and loaded again.

The tree of a value has an object for every record, also for a list, and a reader of the tree
stores the entries of an object in their order; so a record comes back with its names, whatever
these are, and only the scalars that JSON has no kind for come back as texts (`Scalar.stored`).
Floating-point numbers are left out: those that are not finite have null for a tree, and an entry
that is null is not stored.

JSON texts are read by a reader from elsewhere, of which the main result needs one thing: that it
finds in the text of the record the tree that was written (`load_ofRecord`).
-/
import FieldedText.Json.Written
import FieldedText.Proofs.JsonTree

namespace FieldedText

/-! ### What comes back -/

/-- A scalar as it comes back from JSON, where characters, instants and addresses are texts. A
floating-point number is left as it is; the theorems leave these out, since one that is not finite
does not come back at all. -/
def Scalar.stored : Scalar → Scalar
  | char c => (char c).flattened
  | instant time => (instant time).flattened
  | url address => (url address).flattened
  | s => s

/-- A record with its scalars as they come back from JSON. -/
def Record.stored (r : Record) : Record := r.mapValues (Value.mapScalars Scalar.stored)

namespace Record

variable {f : Scalar → Scalar}

/-- The records in a record with other scalars are those in the record, with other scalars. -/
theorem inner?_mapValues_mapScalars (r : Record) (way : List Name) :
    inner? (r.mapValues (Value.mapScalars f)) way =
      (r.inner? way).map (mapValues (Value.mapScalars f)) := by
  induction way generalizing r with
  | nil => rfl
  | cons name way ih =>
    rw [inner?_cons, inner?_cons, get?_mapValues]
    cases r.get? name with
    | none => rfl
    | some v =>
      cases v with
      | scalar s => rfl
      | record inner => simp [Value.record?, ih]

/-- **Every record in a stored record has the names it had**, in their order. -/
theorem names_inner?_stored (r : Record) (way : List Name) :
    (r.stored.inner? way).map names = (r.inner? way).map names := by
  rw [stored, inner?_mapValues_mapScalars, Option.map_map]
  exact congrArg (Option.map · _) (funext fun _ => names_mapValues)

end Record

namespace Json

variable {r : Record} {v : Value}

namespace Tree

/-- A value as it is shown to a reader of its tree. -/
def visitOf (v : Value) : Visit := (ofValue v).visit

theorem visitEntries_ofEntries (r : Record) :
    visitEntries (ofEntries r) = r.map fun entry => (.text entry.1, visitOf entry.2) := by
  induction r with
  | nil => rfl
  | cons entry r ih => exact congrArg ((.text entry.1, visitOf entry.2) :: ·) ih

/-- The tree of a scalar that is no floating-point number is read as the scalar that comes back.
The tree of an integer holds its number, which a reader fits into sixty-four bits again. -/
theorem toValue?_ofScalar {s : Scalar} (h : ∀ x, s ≠ .float x) :
    (ofScalar s).toValue? = some (.scalar s.stored) := by
  cases s with
  | float x => exact absurd rfl (h x)
  | integer n => exact congrArg (fun s => some (Value.scalar s)) (Scalar.ofInt_toInt n)
  | text | truth | char | instant | url => rfl

/-- **The tree of a value is read as the value that comes back.** -/
theorem toValue?_ofValue (hdistinct : v.Distinct)
    (hfloat : v.Everywhere (fun s => ∀ x, s ≠ .float x) fun _ => True) :
    (ofValue v).toValue? = some (v.mapScalars Scalar.stored) := by
  induction v using Value.induction with
  | scalar s => exact toValue?_ofScalar hfloat
  | record r ih =>
    obtain ⟨hnames, hvalues⟩ := Value.distinct_record.1 hdistinct
    have hscalars := (Value.everywhere_record.1 hfloat).2
    have hentries : ∀ entry ∈ r,
        (visitOf entry.2).value? = some (entry.2.mapScalars Scalar.stored) :=
      fun entry hentry => ih entry hentry (hvalues entry hentry) (hscalars entry hentry)
    rw [ofValue, toValue?, visit, Visit.value?, visitEntries_ofEntries,
      Visit.storeEntries_nil visitOf hnames hentries, Value.mapScalars_record]

end Tree

/-- **A record that is stored as JSON is loaded again**, with characters, instants and addresses
as texts, and with all names of all records in it where they were. All that is asked of the reader
of JSON is that it finds in the text of this record the tree that was written. -/
theorem load_ofRecord {read : Text → Except Error Tree} (hdistinct : r.Distinct)
    (hfloat : (Value.record r).Everywhere (fun s => ∀ x, s ≠ .float x) fun _ => True)
    (hread : read (ofRecord r) = .ok (Tree.ofValue (.record r))) :
    (read (ofRecord r) >>= Tree.toRecord) = .ok r.stored ∧
      ∀ way, (r.stored.inner? way).map Record.names = (r.inner? way).map Record.names := by
  have hvalue := Tree.toValue?_ofValue (Value.distinct_record_iff.2 hdistinct) hfloat
  have hload : (Tree.ofValue (.record r)).toRecord = .ok r.stored := by
    rw [Tree.toRecord, hvalue, Value.mapScalars_record]
    rfl
  refine ⟨?_, Record.names_inner?_stored r⟩
  rw [hread]
  exact hload

/-- A record with a list that is not numbered from zero, and with names that JSON has to escape or
that are empty. None of this may change on the way, since names are texts for JSON. -/
def shelf : Record :=
  [(['l'], .record [("07".toList, .scalar (.char '"')), (['2'], .record [])]),
    ([], .scalar (.instant ⟨0, 0⟩)), (['\n'], .scalar (.integer (-1))),
    (['0'], .scalar (.url "e:x".toList))]

/-- A reader that knows the text of `shelf`. -/
def readShelf (json : Text) : Except Error Tree :=
  if json = ("\x7b\"l\":\x7b\"07\":\"\\\"\",\"2\":\x7b\x7d\x7d," ++
      "\"\":\"1970-01-01T00:00:00+00:00\",\"\\n\":-1,\"0\":\"e:x\"\x7d").toList then
    .ok (.object [(['l'], .object [("07".toList, .text ['"']), (['2'], .object [])]),
      ([], .text "1970-01-01T00:00:00+00:00".toList), (['\n'], .integer (-1)),
      (['0'], .text "e:x".toList)])
  else .error (.json "expected value".toList)

theorem load_ofRecord_shelf :
    (shelf.Distinct ∧ (Value.record shelf).Everywhere (fun s => ∀ x, s ≠ .float x) (fun _ => True) ∧
      readShelf (ofRecord shelf) = .ok (Tree.ofValue (.record shelf))) ∧
    ((readShelf (ofRecord shelf) >>= Tree.toRecord) = .ok shelf.stored ∧
      ∀ way, (shelf.stored.inner? way).map Record.names = (shelf.inner? way).map Record.names) ∧
    shelf.stored = [(['l'], .record [("07".toList, .scalar (.text ['"'])), (['2'], .record [])]),
      ([], .scalar (.text "1970-01-01T00:00:00+00:00".toList)), (['\n'], .scalar (.integer (-1))),
      (['0'], .scalar (.text "e:x".toList))] := by
  have hdistinct : shelf.Distinct := by
    rw [← Value.distinct_record_iff]
    simp only [shelf, Value.Distinct, Value.Everywhere, Value.EverywhereIn]
    decide
  have hfloat :
      (Value.record shelf).Everywhere (fun s => ∀ x, s ≠ .float x) fun _ => True := by
    simp [shelf]
  have hread : readShelf (ofRecord shelf) = .ok (Tree.ofValue (.record shelf)) :=
    if_pos (by decide +kernel)
  exact ⟨⟨hdistinct, hfloat, hread⟩, load_ofRecord hdistinct hfloat hread, by decide +kernel⟩

end Json

end FieldedText
