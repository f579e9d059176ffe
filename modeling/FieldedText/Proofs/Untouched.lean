/-
FieldedText/Proofs/Untouched.lean

What storing and removing leave alone.

Both change one record, the one at the end of a way, and put every record on the way back in
its place (`inner?_changeScope_append`).  Off the way nothing changes
(`follow?_changeScope_off`), and behind its end only what the change itself does
(`follow?_changeScope_behind`).

So a record on the way to a value that is put has one name stored in it and keeps all its other
entries (`PutOnly`), and a record on the way to a value that is removed stays in place, with
all its names, but for the last one of the path (`RemovedOnly`).  A path at which there is nothing
is removed from a record without any change to it (`removal_of_lookup_eq_none`).
-/
import FieldedText.Proofs.Merge
import FieldedText.Proofs.Storing

namespace FieldedText

namespace Path

variable {path other : Text}

/-- Two paths that are not the same, and neither of which goes on from the other one. Putting or
removing at one of them leaves the other one alone. -/
structure Disjoint (path other : Text) : Prop where
  ne : path ≠ other
  notAbove : ¬ Above path other
  notBehind : ¬ Above other path

instance (path other : Text) : Decidable (Disjoint path other) :=
  decidable_of_iff (path ≠ other ∧ ¬ Above path other ∧ ¬ Above other path)
    ⟨fun h => ⟨h.1, h.2.1, h.2.2⟩, fun h => ⟨h.ne, h.notAbove, h.notBehind⟩⟩

/-- The names of a path begin with those of the path itself and of the ones above it. -/
theorem names_prefix_iff : names path <+: names other ↔ path = other ∨ Above path other := by
  constructor
  · intro h
    have hne : names path ≠ [] := Text.splitOn_ne_nil '.' path
    obtain ⟨first, hfirst, hother⟩ := exists_of_names_prefix hne h
    have hjoin (t : Text) : Text.join ['.'] (names t) = t := Text.join_splitOn '.' t
    obtain rfl : first = path := by rw [← hjoin first, hfirst, hjoin]
    exact hother
  · rintro (rfl | h)
    · exact List.prefix_rfl
    · obtain ⟨more, -, hmore⟩ := above_iff.1 h
      exact ⟨more, hmore.symm⟩

theorem disjoint_iff : Disjoint path other ↔ Apart (names path) (names other) := by
  rw [Apart, names_prefix_iff, names_prefix_iff, not_or, not_or]
  exact ⟨fun h => ⟨⟨h.ne, h.notAbove⟩, h.ne.symm, h.notBehind⟩,
    fun h => ⟨h.1.1, h.1.2, h.2.2⟩⟩

theorem straight_of_forall (h : ∀ name ∈ names path, name ≠ []) : Straight path := by
  intro hlast
  exact h [] (List.dropLast_subset _ (List.mem_of_getLast? hlast)) rfl

end Path

namespace Record

variable {r scope : Record} {way parent more : List Name} {name other : Name} {value : Value}
  {path : Text} {change : Record → Record}

/-! ### Changing nothing -/

/-- A value that is stored where it is already changes nothing. -/
theorem insert_eq_self (h : r.get? name = some value) : r.insert name value = r := by
  induction r with
  | nil => cases h
  | cons entry r ih =>
    obtain ⟨first, v⟩ := entry
    rw [get?] at h
    rw [insert]
    split at h
    · cases h
      rw [if_pos ‹_›]
    · rw [if_neg ‹_›, ih h]

/-- A name that is not there is erased without any change. -/
theorem erase_eq_self (h : r.get? name = none) : r.erase name = r := by
  rw [erase, List.filter_eq_self]
  intro entry hentry
  rw [decide_eq_true_eq]
  rintro rfl
  exact get?_eq_none_iff.1 h (List.mem_map_of_mem hentry)

theorem names_erase (r : Record) (name : Name) :
    (r.erase name).names = r.names.filter fun other => other ≠ name := by
  rw [names, names, erase, List.filter_map]
  rfl

theorem follow?_erase (r : Record) (name other : Name) (way : List Name) :
    (r.erase name).follow? (other :: way) =
      if name = other then none else r.follow? (other :: way) := by
  rw [follow?_cons, follow?_cons, get?_erase]
  split <;> rfl

/-! ### One record changed -/

/-- **Off the way to a change** all is as it was. -/
theorem follow?_changeScope_off (h : ¬ parent <+: way) (ho : ¬ way <+: parent) :
    (r.changeScope change parent).follow? way = r.follow? way := by
  induction parent generalizing r way with
  | nil => exact absurd List.nil_prefix h
  | cons first parent ih =>
    cases way with
    | nil => exact absurd List.nil_prefix ho
    | cons other way =>
      rw [changeScope, follow?_insert]
      split
      · rename_i heq
        subst heq
        rw [List.cons_prefix_cons, not_and] at h ho
        have hway : way ≠ [] := by
          rintro rfl
          exact ho rfl List.nil_prefix
        rw [← follow?_scopeUnder hway, ← ih (h rfl) (ho rfl)]
        exact Value.followOn?_record hway
      · rfl

/-- **Behind the end of the way** is what the changed record has there. -/
theorem follow?_changeScope_behind (hmore : more ≠ []) :
    (r.changeScope change parent).follow? (parent ++ more) =
      (change (r.scopeAt parent)).follow? more := by
  rw [follow?_behind hmore, inner?_changeScope]
  rfl

/-- A change of a record that stays the same changes nothing. -/
theorem changeScope_eq_self (hscope : r.inner? way = some scope) (h : change scope = scope) :
    r.changeScope change way = r := by
  induction way generalizing r with
  | nil =>
    cases hscope
    exact h
  | cons first way ih =>
    rw [inner?] at hscope
    split at hscope
    · rename_i inner hfirst
      have hunder : r.scopeUnder first = inner := by
        rw [scopeUnder, hfirst]
      rw [changeScope, hunder, ih hscope, insert_eq_self hfirst]
    · cases hscope

/-! ### A value put -/

/-- What a record is in which a value is put at a path. It speaks of every other path and of every
record within, so nothing else can have changed. -/
structure PutOnly (r : Record) (path : Text) (value : Value) (after : Record) : Prop where
  found : after.lookup path = some value
  /-- What is at another path stays, if neither goes on from the other. -/
  apart : ∀ other, Path.Disjoint path other → after.lookup other = r.lookup other
  /-- Above the path are records: those that were there or new ones, with one name stored in
  each. -/
  above : ∀ above, Path.Above above path → ∃ name inner,
    Path.names above ++ [name] <+: Path.names path ∧
      after.lookup above = some (.record ((r.scopeAt (Path.names above)).insert name inner))
  /-- In every record, but in the value, the names stay in their order; one may come at the end. -/
  names : ∀ way inner, ¬ Path.names path <+: way → after.inner? way = some inner →
    inner.names = (r.scopeAt way).names ∨
      ∃ name, way ++ [name] <+: Path.names path ∧ inner.names = (r.scopeAt way).names ++ [name]

section Put

variable (hpath : ∀ name ∈ Path.names path, name ≠ [])

include hpath

/-- A record on the way to a value that is put has one name stored in it. -/
theorem exists_inner?_put (r : Record) (value : Value)
    (hway : Path.names path = way ++ name :: more) :
    ∃ inner, (r.put path value).inner? way = some ((r.scopeAt way).insert name inner) := by
  rw [Path.names_eq hpath] at hway
  by_cases hmore : more = []
  · subst hmore
    obtain ⟨hparent, hname⟩ := List.append_inj' hway rfl
    obtain rfl := List.singleton_inj.1 hname
    refine ⟨value, ?_⟩
    rw [put, hparent]
    exact inner?_changeScope _ r way
  · obtain ⟨init, last, rfl⟩ := (List.eq_nil_or_concat' more).resolve_left hmore
    rw [← List.cons_append, ← List.append_assoc] at hway
    have hparent := (List.append_inj' hway rfl).1
    rw [put, hparent, inner?_changeScope_append, changeScope]
    exact ⟨_, rfl⟩

theorem putOnly_put (r : Record) (value : Value) : PutOnly r path value (r.put path value) where
  found := follow?_put hpath
  apart other hother := by
    obtain ⟨hnot, hnotBehind⟩ := Path.disjoint_iff.1 hother
    exact follow?_put_apart hpath hnotBehind hnot
  above above habove := by
    obtain ⟨more, hmore, hnames⟩ := Path.above_iff.1 habove
    obtain ⟨name, more, rfl⟩ := List.exists_cons_of_ne_nil hmore
    obtain ⟨inner, hinner⟩ := exists_inner?_put hpath r value hnames
    refine ⟨name, inner, ⟨more, ?_⟩, ?_⟩
    · rw [hnames, List.append_assoc]
      rfl
    · exact (inner?_eq_some_iff (Text.splitOn_ne_nil '.' above)).1 hinner
  names way inner hway hinner := by
    -- A record on the way has one name stored in it, which is new or was there; one off the way
    -- is as it was.
    by_cases hon : way <+: Path.names path
    · obtain ⟨more, hmore⟩ := hon
      cases more with
      | nil =>
        rw [List.append_nil] at hmore
        exact absurd (hmore ▸ List.prefix_rfl) hway
      | cons name more =>
        obtain ⟨stored, hstored⟩ := exists_inner?_put hpath r value hmore.symm
        obtain rfl := Option.some.inj (hinner.symm.trans hstored)
        rw [names_insert]
        split
        · exact .inl rfl
        · refine .inr ⟨name, ⟨more, ?_⟩, rfl⟩
          rw [← hmore, List.append_assoc]
          rfl
    · have hne : way ≠ [] := by
        rintro rfl
        exact hon List.nil_prefix
      rw [inner?_eq_some_iff hne, follow?_put_apart hpath hon hway, ← inner?_eq_some_iff hne]
        at hinner
      rw [scopeAt_eq, hinner]
      exact .inl rfl

end Put

/-! ### A value removed -/

/-- What removing gives when it is done in place: the value, if there is one, and the record that
is left. A removal that finds nothing leaves the record as it was. -/
def removal (r : Record) (path : Text) : Option Value × Record :=
  ((r.inner? (Path.parent path)).bind fun scope => scope.get? (Path.last path),
    (r.changeInner? (fun scope => scope.erase (Path.last path)) (Path.parent path)).getD r)

/-- Removing gives the value and the record that is left of the other one. -/
theorem remove?_eq (r : Record) (path : Text) :
    r.remove? path = (r.removal path).1.map fun value => (value, (r.removal path).2) := by
  rw [remove?, removal, changeInner?_eq]
  cases r.inner? (Path.parent path) with
  | none => rfl
  | some scope =>
    simp only [Option.bind_eq_bind, Option.bind_some]
    cases scope.get? (Path.last path) <;> rfl

/-- What a record is from which the value at a path is removed. -/
structure RemovedOnly (r : Record) (path : Text) (after : Record) : Prop where
  /-- What was at the path is gone, with all that was behind it. -/
  gone : ∀ other, other = path ∨ Path.Above path other → after.lookup other = none
  /-- What is at another path stays, if neither goes on from the other. -/
  apart : ∀ other, Path.Disjoint path other → after.lookup other = r.lookup other
  /-- The records above the path stay in place. -/
  above : ∀ above, Path.Above above path → ∃ old left,
    r.lookup above = some (.record old) ∧ after.lookup above = some (.record left)
  /-- In every record the names stay as they are, but for the last one of the path. -/
  names : ∀ way left, after.inner? way = some left → ∃ old, r.inner? way = some old ∧
    left.names =
      if way = (Path.names path).dropLast then
        old.names.filter fun name => name ≠ Path.last path
      else old.names

section Erase

variable (hscope : r.inner? parent = some scope)

/-- Behind a name that is erased is nothing. -/
theorem follow?_erased (r : Record) (parent : List Name) (name : Name) (more : List Name) :
    (r.changeScope (fun scope => scope.erase name) parent).follow? (parent ++ name :: more) =
      none := by
  rw [follow?_changeScope_behind (List.cons_ne_nil name more), follow?_erase, if_pos rfl]

include hscope

/-- Off the way to a name that is erased nothing changes. -/
theorem follow?_erased_apart (h : ¬ way <+: parent ++ [name]) (ho : ¬ parent ++ [name] <+: way) :
    (r.changeScope (fun scope => scope.erase name) parent).follow? way = r.follow? way := by
  by_cases hbehind : parent <+: way
  · obtain ⟨more, rfl⟩ := hbehind
    cases more with
    | nil => exact absurd (by simp) h
    | cons other more =>
      have hne : name ≠ other := by
        rintro rfl
        exact ho ⟨more, by simp⟩
      rw [follow?_changeScope_behind (List.cons_ne_nil other more), follow?_erase, if_neg hne,
        follow?_behind (List.cons_ne_nil other more), scopeAt_eq, hscope]
      rfl
  · exact follow?_changeScope_off hbehind fun hpre => h (hpre.trans (List.prefix_append ..))

/-- A record that is left has the names that it had, but for the one that is erased. -/
theorem names_erased {left : Record}
    (hleft : (r.changeScope (fun scope => scope.erase name) parent).inner? way = some left) :
    ∃ old, r.inner? way = some old ∧
      left.names = if way = parent then old.names.filter fun other => other ≠ name
        else old.names := by
  -- A record on the way keeps its names, the last one of them but for the erased name; one off
  -- the way is as it was.
  by_cases hon : way <+: parent
  · obtain ⟨more, rfl⟩ := hon
    rw [inner?_append, Option.bind_eq_some_iff] at hscope
    obtain ⟨old, hold, hbehind⟩ := hscope
    refine ⟨old, hold, ?_⟩
    rw [inner?_changeScope_append, scopeAt_eq, hold, Option.getD_some, Option.some.injEq] at hleft
    subst hleft
    cases more with
    | nil => rw [if_pos (by simp), changeScope, names_erase]
    | cons first more =>
      -- the next record of the way is put back under its name
      have hmem : first ∈ old.names := by
        rw [inner?_cons, Option.bind_eq_some_iff] at hbehind
        obtain ⟨v, hv, -⟩ := hbehind
        exact mem_names_of_get? hv
      rw [if_neg (by simp), changeScope, names_insert, if_pos hmem]
  · have hne : way ≠ [] := by
      rintro rfl
      exact hon List.nil_prefix
    have hparent : way ≠ parent := by
      rintro rfl
      exact hon List.prefix_rfl
    rw [inner?_eq_some_iff hne] at hleft
    have hbefore : ¬ parent ++ [name] <+: way := by
      rintro ⟨more, rfl⟩
      rw [List.append_assoc, List.singleton_append, follow?_erased] at hleft
      cases hleft
    have hafter : ¬ way <+: parent ++ [name] := by
      rw [List.prefix_concat_iff, not_or]
      refine ⟨?_, hon⟩
      rintro rfl
      exact hbefore List.prefix_rfl
    rw [follow?_erased_apart hscope hafter hbefore, ← inner?_eq_some_iff hne] at hleft
    exact ⟨left, hleft, (if_neg hparent).symm⟩

end Erase

section Remove

variable (hpath : ∀ name ∈ Path.names path, name ≠ [])

include hpath

/-- What is removed is what is found. -/
theorem removal_fst (r : Record) : (r.removal path).1 = r.lookup path := by
  rw [removal, (Path.straight_of_forall hpath).scopes_eq.2, lookup, Path.names_eq_concat path,
    follow?_concat, List.dropLast_concat]

/-- **Where nothing is found, nothing changes.** -/
theorem removal_of_lookup_eq_none (h : r.lookup path = none) : (r.removal path).2 = r := by
  rw [removal, (Path.straight_of_forall hpath).scopes_eq.2, changeInner?_eq]
  rw [lookup, Path.names_eq_concat path, follow?_concat] at h
  cases hscope : r.inner? (Path.names path).dropLast with
  | none => rfl
  | some scope =>
    rw [hscope, Option.bind_some] at h
    exact changeScope_eq_self hscope (erase_eq_self h)

theorem removedOnly_removal {value : Value} (h : r.lookup path = some value) :
    RemovedOnly r path (r.removal path).2 := by
  have hnames := Path.names_eq_concat path
  rw [lookup, hnames, follow?_concat, Option.bind_eq_some_iff] at h
  obtain ⟨scope, hscope, -⟩ := h
  have hafter : (r.removal path).2 =
      r.changeScope (fun scope => scope.erase (Path.last path)) (Path.names path).dropLast := by
    rw [removal, (Path.straight_of_forall hpath).scopes_eq.2, changeInner?_eq, hscope]
    rfl
  rw [hafter]
  constructor
  case gone =>
    intro other hother
    obtain ⟨more, hmore⟩ := Path.names_prefix_iff.2 (hother.imp_left Eq.symm)
    rw [lookup, ← hmore, hnames, List.append_assoc, List.dropLast_concat]
    exact follow?_erased r _ _ more
  case apart =>
    intro other hother
    obtain ⟨hnot, hnotBehind⟩ := Path.disjoint_iff.1 hother
    rw [hnames] at hnot hnotBehind
    exact follow?_erased_apart hscope hnotBehind hnot
  case above =>
    intro above habove
    have hne : Path.names above ≠ [] := Text.splitOn_ne_nil '.' above
    obtain ⟨more, hmore, hbegins⟩ := Path.above_iff.1 habove
    obtain ⟨init, last, rfl⟩ := (List.eq_nil_or_concat' more).resolve_left hmore
    -- the way to the parent goes through the record above
    have hway : (Path.names path).dropLast = Path.names above ++ init := by
      rw [hbegins, ← List.append_assoc, List.dropLast_concat]
    rw [hway] at hscope ⊢
    obtain ⟨old, hold, -⟩ := Option.bind_eq_some_iff.1 (inner?_append r _ init ▸ hscope)
    exact ⟨old, _, (inner?_eq_some_iff hne).1 hold,
      (inner?_eq_some_iff hne).1 (inner?_changeScope_append _ r _ init)⟩
  case names => exact fun way left hleft => names_erased hscope hleft

end Remove

/-- Storing and removing at a path touch nothing else. -/
structure Confined (r : Record) (path : Text) : Prop where
  put : ∀ value, PutOnly r path value (r.put path value)
  /-- Removing gives what is there, and the record that is left of the other one. -/
  remove : r.remove? path = (r.lookup path).map fun value => (value, (r.removal path).2)
  /-- Where there is nothing, the record is left as it is. -/
  failed : r.lookup path = none → (r.removal path).2 = r
  removed : ∀ value, r.lookup path = some value → RemovedOnly r path (r.removal path).2

/-- **Storing and removing at a path without an empty name touch nothing else**, whatever the record
is: not the values at other paths, not the records on the way, and not the order of names. -/
theorem confined (hpath : ∀ name ∈ Path.names path, name ≠ []) (r : Record) : Confined r path where
  put := putOnly_put hpath r
  remove := by rw [remove?_eq, removal_fst hpath]
  failed := removal_of_lookup_eq_none hpath
  removed _ := removedOnly_removal hpath

/-- A record stays in place when the last value in it is removed. -/
theorem confined_emptied :
    (∀ name ∈ Path.names "a.b.c".toList, name ≠ []) ∧
    Confined [("z".toList, .scalar (.char '0')), ("a".toList, .record
      [("x".toList, .scalar (.char '1')), ("b".toList, .record [("c".toList, .scalar (.char '2'))]),
        ("y".toList, .scalar (.char '3'))])] "a.b.c".toList ∧
    remove? [("z".toList, .scalar (.char '0')), ("a".toList, .record
        [("x".toList, .scalar (.char '1')),
          ("b".toList, .record [("c".toList, .scalar (.char '2'))]),
          ("y".toList, .scalar (.char '3'))])] "a.b.c".toList =
      some (.scalar (.char '2'), [("z".toList, .scalar (.char '0')), ("a".toList, .record
        [("x".toList, .scalar (.char '1')), ("b".toList, .record []),
          ("y".toList, .scalar (.char '3'))])]) := by
  have hpath : ∀ name ∈ Path.names "a.b.c".toList, name ≠ [] := by decide +kernel
  exact ⟨hpath, confined hpath _, by decide +kernel⟩

end Record

end FieldedText
