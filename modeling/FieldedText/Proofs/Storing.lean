/-
FieldedText/Proofs/Storing.lean

Storing, reading and removing at one path.

The four ways of following a path are written differently.  Reading follows all of its
names.  Storing makes the records up to the path's last name, and there an empty name at
the end makes none; removing takes the empty text before the last dot for the whole
record.  They come to the same place exactly when the name before the last one is not
empty (`Straight`): then what is stored is read there, is removed from there, and is not
there any more after it.  On any other path the value is stored beside the place that is
read, and is not found (`stored_iff`).
-/
import FieldedText.Proofs.Path
import Mathlib.Data.List.Basic

namespace FieldedText

/-! ### The last names of a path -/

namespace Path

variable {way : List Name} {path : Text}

/-- A path of which the name before the last one, if there is one, is not empty. On other paths
the empty name is left out by storing, and kept by reading. -/
def Straight (path : Text) : Prop := (names path).dropLast.getLast? ≠ some []

theorem withoutFinalEmpty_concat (way : List Name) : withoutFinalEmpty (way ++ [[]]) = way := by
  induction way with
  | nil => rfl
  | cons name way ih =>
    rw [List.cons_append, withoutFinalEmpty, ih]
    simp

/-- Only at the end does an empty name make no record. -/
theorem withoutFinalEmpty_of_getLast? (h : way.getLast? ≠ some []) :
    withoutFinalEmpty way = way := by
  induction way with
  | nil => rfl
  | cons name way ih =>
    cases way with
    | nil =>
      rw [withoutFinalEmpty]
      · rfl
      · rintro rfl
        exact absurd rfl h
    | cons next way =>
      rw [List.getLast?_cons_cons] at h
      rw [withoutFinalEmpty, ih h]
      simp

/-- A path is the way to its last name and that name. -/
theorem names_eq_concat (path : Text) : names path = (names path).dropLast ++ [last path] := by
  obtain ⟨init, hinit⟩ := Text.splitOn_eq_concat '.' path
  have hnames : names path = init ++ [last path] := hinit
  rw [hnames, List.dropLast_concat]

/-- On a straight path storing, reading and removing go the same way. -/
theorem Straight.scopes_eq (h : Straight path) :
    parentScope path = (names path).dropLast ∧ parent path = (names path).dropLast := by
  refine ⟨withoutFinalEmpty_of_getLast? h, ?_⟩
  rw [parent]
  split
  · rename_i hdot
    exact absurd (by rw [hdot]; rfl) h
  · rfl

/-- On any other path storing leaves out the empty name before the last one. -/
theorem names_eq_of_not_straight (h : ¬ Straight path) :
    names path = parentScope path ++ [[], last path] := by
  rw [Straight, ne_eq, not_not, List.getLast?_eq_some_iff] at h
  obtain ⟨init, hinit⟩ := h
  have hscope : parentScope path = init := by
    rw [parentScope, hinit, withoutFinalEmpty_concat]
  rw [names_eq_concat, hinit, hscope, List.append_assoc]
  rfl

end Path

/-! ### One record at the end of a way -/

namespace Record

variable {r scope : Record} {way more : List Name} {name : Name} {path : Text} {value : Value}

/-- What is under the last name of a way is in the record that the way leads to before it. -/
theorem follow?_concat (r : Record) (way : List Name) (name : Name) :
    r.follow? (way ++ [name]) = (r.inner? way).bind fun scope => scope.get? name := by
  induction way generalizing r with
  | nil => rfl
  | cons first way ih =>
    rw [List.cons_append, follow?_cons, inner?_cons]
    cases r.get? first with
    | none => rfl
    | some v =>
      cases v with
      | scalar s =>
        cases way <;> rfl
      | record inner => exact (Value.followOn?_record (by simp)).trans (ih inner)

/-- A way to a record may be gone in two parts. -/
theorem inner?_append (r : Record) (way more : List Name) :
    r.inner? (way ++ more) = (r.inner? way).bind fun scope => scope.inner? more := by
  induction way generalizing r with
  | nil => rfl
  | cons first way ih =>
    rw [List.cons_append, inner?_cons, inner?_cons, Option.bind_assoc]
    simp only [Option.bind_assoc, ih]

/-- A way to a record leads to it as to any value. -/
theorem inner?_eq_bind (hway : way ≠ []) : r.inner? way = (r.follow? way).bind Value.record? := by
  obtain ⟨init, last, rfl⟩ := (List.eq_nil_or_concat' way).resolve_left hway
  rw [inner?_append, follow?_concat, Option.bind_assoc]
  congr
  funext found
  rw [inner?_cons]
  cases found.get? last with
  | none => rfl
  | some v => cases v <;> rfl

theorem inner?_eq_some_iff (hway : way ≠ []) :
    r.inner? way = some scope ↔ r.follow? way = some (.record scope) := by
  rw [inner?_eq_bind hway]
  cases r.follow? way with
  | none => simp
  | some v => cases v <;> simp [Value.record?]

/-- What is behind a record is in it. -/
theorem follow?_behind (hmore : more ≠ []) :
    r.follow? (way ++ more) = (r.inner? way).bind fun scope => scope.follow? more := by
  obtain ⟨init, last, rfl⟩ := (List.eq_nil_or_concat' more).resolve_left hmore
  rw [← List.append_assoc, follow?_concat, inner?_append, Option.bind_assoc]
  simp only [follow?_concat]

/-- The record that storing comes to is the one that is there, or a new one. -/
theorem scopeAt_eq (r : Record) (way : List Name) : r.scopeAt way = (r.inner? way).getD [] := by
  induction way generalizing r with
  | nil => rfl
  | cons first way ih =>
    rw [scopeAt, ih, inner?_cons, scopeUnder]
    -- where there is no record an empty one is made, and all further ones in it
    have hempty : (inner? [] way).getD [] = [] := by
      cases way <;> rfl
    cases r.get? first with
    | none => exact hempty
    | some v =>
      cases v with
      | scalar s => exact hempty
      | record inner => rfl

/-- **A record on the way to a change** is changed where the way goes on from it. -/
theorem inner?_changeScope_append (change : Record → Record) (r : Record) (way more : List Name) :
    (r.changeScope change (way ++ more)).inner? way =
      some ((r.scopeAt way).changeScope change more) := by
  induction way generalizing r with
  | nil => rfl
  | cons first way ih =>
    rw [List.cons_append, changeScope, inner?_cons, get?_insert, if_pos rfl]
    exact ih (r.scopeUnder first)

/-- A change that makes its way is made to the record at its end. -/
theorem inner?_changeScope (change : Record → Record) (r : Record) (way : List Name) :
    (r.changeScope change way).inner? way = some (change (r.scopeAt way)) := by
  have hway := inner?_changeScope_append change r way []
  rwa [List.append_nil] at hway

/-- A record that is looked for is changed as one that is made on the way. The two differ only
where there is none, in which case the first one gives up. -/
theorem changeInner?_eq (change : Record → Record) (r : Record) (way : List Name) :
    r.changeInner? change way = (r.inner? way).map fun _ => r.changeScope change way := by
  induction way generalizing r with
  | nil => rfl
  | cons first way ih =>
    rw [changeInner?, inner?, changeScope, scopeUnder]
    cases hfirst : r.get? first with
    | none => rfl
    | some v =>
      cases v with
      | scalar s => rfl
      | record inner =>
        simp only [ih]
        cases inner? inner way <;> rfl

/-- A change that finds its way is made to the record at its end. -/
theorem exists_changeInner? (change : Record → Record) (h : r.inner? way = some scope) :
    ∃ changed, r.changeInner? change way = some changed ∧
      changed.inner? way = some (change scope) := by
  refine ⟨r.changeScope change way, ?_, ?_⟩
  · rw [changeInner?_eq, h]
    rfl
  · rw [inner?_changeScope, scopeAt_eq, h]
    rfl

/-! ### Storing, then reading and removing -/

/-- A value that is stored at a path is read there, is removed from there, and then is not there
any more. -/
structure Stored (r : Record) (path : Text) (value : Value) : Prop where
  found : (r.put path value).lookup path = some value
  removed : ∃ rest, (r.put path value).remove? path = some (value, rest) ∧
    rest.lookup path = none

/-- On a straight path a value is stored where it is read and removed. All three go the same way
to the same record, and differ only in what they do there. -/
theorem stored_of_straight (h : Path.Straight path) (r : Record) (value : Value) :
    r.Stored path value := by
  obtain ⟨hscope, hparent⟩ := h.scopes_eq
  have hinner : (r.put path value).inner? (Path.names path).dropLast =
      some ((r.scopeAt (Path.names path).dropLast).insert (Path.last path) value) := by
    rw [put, hscope]
    exact inner?_changeScope _ r _
  have hget : ((r.scopeAt (Path.names path).dropLast).insert (Path.last path) value).get?
      (Path.last path) = some value := by
    rw [get?_insert, if_pos rfl]
  obtain ⟨rest, hrest, hleft⟩ :=
    exists_changeInner? (fun scope => scope.erase (Path.last path)) hinner
  refine ⟨?_, rest, ?_, ?_⟩
  · rw [lookup, Path.names_eq_concat, follow?_concat, hinner]
    exact hget
  · simp only [remove?, hparent, hinner, hget, hrest, Option.bind_eq_bind, Option.bind_some]
    rfl
  · rw [lookup, Path.names_eq_concat, follow?_concat, hleft, Option.bind_some, get?_erase,
      if_pos rfl]

/-- **On a path that is not straight a value is stored beside the path**: what is read there is what
was read before, or, where the last name is empty too, what the value itself has under it. -/
theorem lookup_put_of_not_straight (h : ¬ Path.Straight path) (r : Record) (value : Value) :
    (r.put path value).lookup path =
      if Path.last path = [] then value.followOn? [[]] else r.lookup path := by
  have hread (r : Record) : r.lookup path = (r.inner? (Path.parentScope path)).bind fun scope =>
      (scope.inner? [[]]).bind fun inner => inner.get? (Path.last path) := by
    have hnames : Path.names path = (Path.parentScope path ++ [[]]) ++ [Path.last path] := by
      rw [Path.names_eq_of_not_straight h, List.append_assoc]
      rfl
    rw [lookup, hnames, follow?_concat, inner?_append, Option.bind_assoc]
  rw [hread, hread, put, inner?_changeScope, scopeAt_eq, Option.bind_some, inner?_cons, get?_insert]
  split
  · rename_i hlast
    rw [hlast]
    cases value <;> rfl
  · cases r.inner? (Path.parentScope path) with
    | none => rfl
    | some scope => rw [Option.getD_some, ← inner?_cons]; rfl

/-- **A value is stored where it is read and removed exactly on a straight path.** On any other
path not even a scalar that is put into the empty record is found again. -/
theorem stored_iff (path : Text) :
    (∀ (r : Record) (value : Value), r.Stored path value) ↔ Path.Straight path := by
  refine ⟨fun h => ?_, stored_of_straight⟩
  by_contra hpath
  have hfound := (h [] (.scalar (.text []))).found
  obtain ⟨first, later, hnames⟩ := Path.names_eq_cons path
  have hempty : lookup [] path = none := by
    rw [lookup, hnames, follow?_cons]
    rfl
  rw [lookup_put_of_not_straight hpath, hempty] at hfound
  split at hfound <;> cases hfound

/-- Behind two dots nothing is found of what was stored there. The value is under `a` and `b`, and
it is looked for under `a`, an empty name and `b`. -/
theorem not_stored_doubled_dot :
    ¬ Stored [] "a..b".toList (.scalar (.text ['v'])) :=
  fun h => absurd h.found (by decide)

end Record

end FieldedText
