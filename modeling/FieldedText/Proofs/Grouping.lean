/-
FieldedText/Proofs/Grouping.lean

Values that are stored one by one, and values that are merged in at once.

Merging a record that has one more name in it is merging the record and then storing under
that name what the value is after it has met the one that was there (`merge_insert`).  At
the end of a way it is the same, as long as no scalar of the incoming record stands on the
way: a scalar there gives place to a new record when the value is stored, whereas in the
record merged into there may be a record in its place (`merge_changeScope`).  In a record
that is made by storing there is no scalar but at the ends of the paths
(`exists_of_scalar_foldl_put`).  So values may be collected in any number of records before
they are merged, when none of the paths goes on from another one (`merge_foldl_put`).
-/
import FieldedText.Proofs.Merge
import Mathlib.Data.List.Induction

namespace FieldedText.Record

variable {r incoming : Record} {name : Name} {way : List Name} {s : Scalar} {value other : Value}
  {path : Text} {entries : List (Text × Text)}

/-! ### One name -/

/-- Storing under two names may be done in either order when one of them is there already. -/
theorem insert_insert_comm {first : Name} (h : name ∈ r.names) (hne : name ≠ first) :
    (r.insert name value).insert first other = (r.insert first other).insert name value := by
  induction r with
  | nil => cases h
  | cons entry r ih =>
    obtain ⟨k, v⟩ := entry
    by_cases hk : k = name
    · simp [insert, hk, hne]
    · have hmem : name ∈ names r := by
        rw [names, List.map_cons, List.mem_cons] at h
        exact h.resolve_left (Ne.symm hk)
      by_cases hf : k = first
      · simp [insert, hf, Ne.symm hne]
      · simp [insert, hk, hf, ih hmem]

/-- Merging passes by a name that does not come in. The name has to be there already, or its place
would depend on when it is stored. -/
theorem merge_insert_left (h : name ∈ r.names) (hnew : name ∉ incoming.names) :
    (r.insert name value).merge incoming = (r.merge incoming).insert name value := by
  induction incoming generalizing r with
  | nil => rw [merge, merge]
  | cons entry incoming ih =>
    obtain ⟨first, v⟩ := entry
    rw [names, List.map_cons, List.mem_cons, not_or] at hnew
    have hmem : name ∈ (r.insert first (v.mergedInto (r.get? first))).names := by
      rw [names_insert]
      split
      · exact h
      · exact List.mem_append_left _ h
    rw [merge, merge, get?_insert, if_neg hnew.1, insert_insert_comm h hnew.1, ih hmem hnew.2]

/-- **One more name in the incoming record** is stored once the others are merged. A name that is
there already is replaced in its place, in both records. -/
theorem merge_insert (h : incoming.names.Nodup) (r : Record) (name : Name) (value : Value) :
    r.merge (incoming.insert name value) =
      (r.merge incoming).insert name (value.mergedInto (r.get? name)) := by
  induction incoming generalizing r with
  | nil => rw [insert, merge, merge, merge]
  | cons entry incoming ih =>
    obtain ⟨first, v⟩ := entry
    obtain ⟨hfirst, hnames⟩ := List.nodup_cons.1 h
    by_cases heq : first = name
    · -- the value is stored in place of one that had been merged under the name
      subst heq
      have hmem : first ∈ (r.insert first (v.mergedInto (r.get? first))).names := by
        have hget : (r.insert first (v.mergedInto (r.get? first))).get? first =
            some (v.mergedInto (r.get? first)) := by
          rw [get?_insert, if_pos rfl]
        exact mem_names_of_get? hget
      rw [insert, if_pos rfl, merge, merge, ← merge_insert_left hmem hfirst, insert_insert]
    · rw [insert, if_neg heq, merge, ih hnames, merge, get?_insert, if_neg heq]

/-- Merged into nothing, a record stays as it is. -/
theorem nil_merge (h : incoming.names.Nodup) : merge [] incoming = incoming := by
  -- what was merged so far stands before what is still to come
  have hfrom : ∀ r : Record, (r ++ incoming).names.Nodup → r.merge incoming = r ++ incoming := by
    clear h
    induction incoming with
    | nil =>
      intro r _
      rw [merge, List.append_nil]
    | cons entry incoming ih =>
      obtain ⟨first, v⟩ := entry
      intro r hr
      have hnew : first ∉ r.names := by
        intro hmem
        rw [names, List.map_append, List.nodup_append] at hr
        exact hr.2.2 first hmem first (List.mem_cons_self ..) rfl
      have hnone : r.get? first = none := get?_eq_none_iff.2 hnew
      have hvalue : v.mergedInto none = v := mergedInto_of_not_record fun _ h => by cases h
      rw [merge, hnone, hvalue, insert_of_not_mem hnew, ih _ (by rwa [← List.append_cons]),
        ← List.append_cons]
  exact hfrom [] h

/-! ### One way -/

/-- A record that comes in under a name is merged into what storing would find there. -/
theorem mergedInto_get? {new : Record} (h : new.names.Nodup) (r : Record) (name : Name) :
    (Value.record new).mergedInto (r.get? name) = .record ((r.scopeUnder name).merge new) := by
  rw [scopeUnder]
  split
  · rename_i inner hname
    rw [hname, mergedInto_record]
  · rename_i hname
    rw [mergedInto_of_not_record hname, nil_merge h]

/-- What storing finds under a name, once a record is merged that has no scalar there. -/
theorem scopeUnder_merge (h : incoming.Distinct) (r : Record)
    (hscalar : ∀ t, incoming.get? name ≠ some (.scalar t)) :
    (r.merge incoming).scopeUnder name =
      (r.scopeUnder name).merge (incoming.scopeUnder name) := by
  obtain ⟨hnames, hinner⟩ := distinct_iff.1 h
  have hget := get?_merge hnames r name
  cases hname : incoming.get? name with
  | none =>
    rw [hname] at hget
    rw [scopeUnder, hget, ← scopeUnder, scopeUnder.eq_1 incoming, hname, merge]
  | some value =>
    cases value with
    | scalar t => exact absurd hname (hscalar t)
    | record new =>
      rw [hname] at hget
      have hmerged := hget.trans
        (congrArg some (mergedInto_get? (distinct_iff.1 (hinner name new hname)).1 r name))
      rw [scopeUnder.eq_1 (r.merge incoming), hmerged, scopeUnder.eq_1 incoming, hname]

/-- **One more scalar in the incoming record** is stored once the rest is merged, if it is put
behind no scalar. A scalar on the way gives place when a value is stored behind it, and then the
two orders come to different records. -/
theorem merge_changeScope (h : incoming.Distinct)
    (hscalar : ∀ pre, pre <+: way → ∀ t, incoming.follow? pre ≠ some (.scalar t)) (r : Record) :
    r.merge (incoming.changeScope (fun scope => scope.insert name (.scalar s)) way) =
      (r.merge incoming).changeScope (fun scope => scope.insert name (.scalar s)) way := by
  -- By induction on the way, one record of it at a time: under the first name both sides store a
  -- record, and the hypothesis is about these two.
  induction way generalizing r incoming with
  | nil =>
    have hinsert := merge_insert (distinct_iff.1 h).1 r name (.scalar s)
    rwa [Value.mergedInto] at hinsert
  | cons first way ih =>
    have hfirst : ∀ t, incoming.get? first ≠ some (.scalar t) :=
      hscalar [first] (List.cons_prefix_cons.2 ⟨rfl, List.nil_prefix⟩)
    have hscope := h.scopeUnder first
    have hlater : ∀ pre, pre <+: way → ∀ t,
        (incoming.scopeUnder first).follow? pre ≠ some (.scalar t) := by
      intro pre hpre t ht
      have hne : pre ≠ [] := by
        rintro rfl
        cases ht
      rw [follow?_scopeUnder hne] at ht
      exact hscalar (first :: pre) (List.cons_prefix_cons.2 ⟨rfl, hpre⟩) t ht
    have hchanged : ((incoming.scopeUnder first).changeScope
        (fun scope => scope.insert name (.scalar s)) way).Distinct :=
      hscope.changeScope fun _ hd => hd.insert fun _ h => by cases h
    rw [changeScope, changeScope, merge_insert (distinct_iff.1 h).1,
      mergedInto_get? (distinct_iff.1 hchanged).1, ih hscope hlater, scopeUnder_merge h r hfirst]

/-! ### All paths -/

/-- A scalar that is found once a scalar is put at a path is that one, or was there. -/
theorem of_scalar_put {t : Scalar} (hpath : ∀ name ∈ Path.names path, name ≠ [])
    (h : (r.put path (.scalar s)).follow? way = some (.scalar t)) :
    way = Path.names path ∨ r.follow? way = some (.scalar t) := by
  -- A way lies on the path, beyond it, or apart from it. On it and beyond it there is no scalar
  -- but the one at its end, and apart from it all is as it was.
  by_cases hon : way <+: Path.names path
  · obtain ⟨more, hmore⟩ := hon
    by_cases hnil : more = []
    · rw [hnil, List.append_nil] at hmore
      exact .inl hmore
    · -- a scalar on the way would leave nothing at the path
      have hbeyond := follow?_beyond h hnil
      rw [hmore, follow?_put hpath] at hbeyond
      cases hbeyond
  · by_cases hbeyond : Path.names path <+: way
    · obtain ⟨more, rfl⟩ := hbeyond
      have hmore : more ≠ [] := by
        rintro rfl
        exact hon (by simp)
      rw [follow?_beyond (follow?_put hpath) hmore] at h
      cases h
    · rw [follow?_put_apart hpath hon hbeyond] at h
      exact .inr h

/-- The scalars of a record that was made by storing are at the ends of the paths. -/
theorem exists_of_scalar_foldl_put
    (hpath : ∀ entry ∈ entries, ∀ name ∈ Path.names entry.1, name ≠ [])
    (h : (entries.foldl (fun (r : Record) entry => r.put entry.1 (.scalar (.text entry.2)))
      r).follow? way = some (.scalar s)) :
    (∃ entry ∈ entries, way = Path.names entry.1) ∨ r.follow? way = some (.scalar s) := by
  induction entries generalizing r with
  | nil => exact .inr h
  | cons entry entries ih =>
    obtain ⟨hentry, hentries⟩ := List.forall_mem_cons.1 hpath
    rcases ih hentries h with ⟨found, hfound, hway⟩ | h
    · exact .inl ⟨found, List.mem_cons_of_mem entry hfound, hway⟩
    · rcases of_scalar_put hentry h with hway | h
      · exact .inl ⟨entry, List.mem_cons_self .., hway⟩
      · exact .inr h

/-- **Texts may be collected before they are merged**, in whatever record they are merged into,
when no path goes on from the path of an earlier one. A path may come more than once, and a later
one may lead to where an earlier one has gone on. -/
theorem merge_foldl_put (hpath : ∀ entry ∈ entries, ∀ name ∈ Path.names entry.1, name ≠ [])
    (habove : entries.Pairwise fun earlier later => ¬ Path.Above earlier.1 later.1) (r : Record) :
    r.merge (entries.foldl (fun (r : Record) entry => r.put entry.1 (.scalar (.text entry.2))) []) =
      entries.foldl (fun (r : Record) entry => r.put entry.1 (.scalar (.text entry.2))) r := by
  -- By induction from the last text on, since it is the last one that is stored in both records.
  induction entries using List.reverseRecOn with
  | nil => rw [List.foldl_nil, List.foldl_nil, merge]
  | append_singleton entries entry ih =>
    rw [List.forall_mem_append, List.forall_mem_singleton] at hpath
    rw [List.pairwise_append] at habove
    rw [List.foldl_append, List.foldl_append, List.foldl_cons, List.foldl_nil, List.foldl_cons,
      List.foldl_nil, ← ih hpath.1 habove.1]
    refine merge_changeScope (distinct_nil.foldl_put entries) ?_ r
    intro way hway t ht
    -- a scalar on the way would be the text of an earlier path that this one goes on from
    rcases exists_of_scalar_foldl_put hpath.1 ht with ⟨found, hfound, rfl⟩ | ht
    · refine habove.2.2 found hfound entry (List.mem_singleton_self entry) (Path.above_iff.2 ?_)
      obtain ⟨more, hmore⟩ := hway
      refine ⟨more ++ [Path.last entry.1], by simp, ?_⟩
      rw [Path.names_eq hpath.2, ← hmore, List.append_assoc]
    · cases way with
      | nil => cases ht
      | cons first way =>
        rw [follow?_cons] at ht
        cases ht

/-- A path is repeated, a scalar stands on its way, and at another path there is a record. -/
theorem merge_foldl_put_converting :
    (∀ entry ∈ [("x.y".toList, ['1']), (['m'], ['2']), ("x.y".toList, ['3'])],
      ∀ name ∈ Path.names entry.1, name ≠ []) ∧
    [("x.y".toList, ['1']), (['m'], ['2']), ("x.y".toList, ['3'])].Pairwise
      (fun earlier later => ¬ Path.Above earlier.1 later.1) ∧
    merge [(['x'], .scalar (.text ['0'])), (['m'], .record [(['n'], .scalar (.text ['4']))])]
        (([("x.y".toList, ['1']), (['m'], ['2']), ("x.y".toList, ['3'])] :
            List (Text × Text)).foldl
          (fun (r : Record) entry => r.put entry.1 (.scalar (.text entry.2))) []) =
      [(['x'], .record [(['y'], .scalar (.text ['3']))]), (['m'], .scalar (.text ['2']))] := by
  have hpath : ∀ entry ∈ [("x.y".toList, ['1']), (['m'], ['2']), ("x.y".toList, ['3'])],
      ∀ name ∈ Path.names entry.1, name ≠ [] := by decide +kernel
  have habove : [("x.y".toList, ['1']), (['m'], ['2']), ("x.y".toList, ['3'])].Pairwise
      (fun earlier later => ¬ Path.Above earlier.1 later.1) := by decide +kernel
  refine ⟨hpath, habove, (merge_foldl_put hpath habove _).trans ?_⟩
  decide +kernel

end FieldedText.Record
