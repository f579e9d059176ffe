/-
FieldedText/Proofs/Merge.lean

What is at the end of a way once records are merged.

Under each name the incoming value stays, or is merged into the one that was there
(`get?_merge`), and so it is at the end of every way (`follow?_merge_of_some`).  Where
the incoming record has nothing, and no scalar on the way, is what was there before
(`follow?_merge_apart`); what is found at all was found in one of the two records
(`exists_of_follow?_merge`).

So a merged record is known at every path, and at every depth its names are those of the
record that was merged into, in their order, with the new ones behind them
(`isMerge_merge`).

The incoming record must not repeat a name: merging goes through its entries, while
only the first of a name is found in it.
-/
import FieldedText.Data.Merge
import FieldedText.Proofs.Path

namespace FieldedText.Record

variable {r incoming : Record} {name : Name} {way : List Name} {s : Scalar} {value : Value}

theorem mem_names_of_get? (h : r.get? name = some value) : name ∈ r.names := by
  induction r with
  | nil => cases h
  | cons entry r ih =>
    obtain ⟨first, v⟩ := entry
    rw [get?] at h
    rw [names, List.map_cons]
    split at h
    · rename_i heq
      rw [heq]
      exact List.mem_cons_self ..
    · exact List.mem_cons_of_mem first (ih h)

theorem mem_names_iff : name ∈ r.names ↔ ∃ value, r.get? name = some value := by
  constructor
  · intro h
    induction r with
    | nil => cases h
    | cons entry r ih =>
      obtain ⟨first, v⟩ := entry
      rw [get?]
      split
      · exact ⟨v, rfl⟩
      · rename_i hne
        exact ih ((List.mem_cons.1 h).resolve_left (Ne.symm hne))
  · rintro ⟨value, hvalue⟩
    exact mem_names_of_get? hvalue

theorem get?_eq_none_iff : r.get? name = none ↔ name ∉ r.names := by
  rw [mem_names_iff, Option.eq_none_iff_forall_ne_some, not_exists]

/-- In a record that repeats no name, each entry is under its name. -/
theorem get?_of_mem (h : r.names.Nodup) (hentry : (name, value) ∈ r) :
    r.get? name = some value := by
  induction r with
  | nil => cases hentry
  | cons entry r ih =>
    obtain ⟨first, v⟩ := entry
    obtain ⟨hfirst, hnames⟩ := List.nodup_cons.1 h
    rw [get?]
    rcases List.mem_cons.1 hentry with heq | hentry
    · cases heq
      exact if_pos rfl
    · rw [if_neg, ih hnames hentry]
      rintro rfl
      exact hfirst (List.mem_map.2 ⟨_, hentry, rfl⟩)

/-- A new name goes to the end. -/
theorem insert_of_not_mem (h : name ∉ r.names) : r.insert name value = r ++ [(name, value)] := by
  induction r with
  | nil => rfl
  | cons entry r ih =>
    obtain ⟨first, v⟩ := entry
    rw [names, List.map_cons, List.mem_cons, not_or] at h
    rw [insert, if_neg (Ne.symm h.1), ih h.2]
    rfl

/-- What is stored last under a name stays. -/
theorem insert_insert (r : Record) (name : Name) (first second : Value) :
    (r.insert name first).insert name second = r.insert name second := by
  induction r with
  | nil => simp [insert]
  | cons entry r ih =>
    obtain ⟨k, v⟩ := entry
    by_cases hk : k = name
    · simp [insert, hk]
    · simp [insert, hk, ih]

theorem nodup_names_merge (h : r.names.Nodup) (incoming : Record) :
    (r.merge incoming).names.Nodup := by
  induction incoming generalizing r with
  | nil => rwa [merge]
  | cons entry incoming ih =>
    obtain ⟨first, v⟩ := entry
    rw [merge]
    exact ih (nodup_names_insert h _ _)

theorem nodup_names_foldl_merge (h : r.names.Nodup) (records : List Record) :
    (records.foldl merge r).names.Nodup := by
  induction records generalizing r with
  | nil => exact h
  | cons incoming records ih => exact ih (nodup_names_merge h incoming)

/-- **What is under a name of two merged records.** This is the step from which everything else
follows by induction on the way. -/
theorem get?_merge (h : incoming.names.Nodup) (r : Record) (name : Name) :
    (r.merge incoming).get? name =
      match incoming.get? name with
      | none => r.get? name
      | some value => some (value.mergedInto (r.get? name)) := by
  induction incoming generalizing r with
  | nil => rw [merge]; rfl
  | cons entry incoming ih =>
    obtain ⟨first, v⟩ := entry
    obtain ⟨hfirst, hnames⟩ := List.nodup_cons.1 h
    rw [merge, ih hnames, get?_insert, get?]
    split_ifs with heq
    · -- the name does not come again
      subst heq
      cases hagain : get? incoming first with
      | none => rfl
      | some value => exact absurd (mem_names_of_get? hagain) hfirst
    · rfl

/-- Nothing is merged into an incoming value that meets no record. A scalar that was there is
lost, as is a record that meets a scalar. -/
theorem mergedInto_of_not_record {existing : Option Value}
    (h : ∀ inner, existing ≠ some (.record inner)) : value.mergedInto existing = value := by
  cases value with
  | scalar s => rw [Value.mergedInto]
  | record inner =>
    rw [Value.mergedInto]
    exact h

/-- **What is under a name of many merged records**: what each of them has there is merged into what
was there before. -/
theorem get?_foldl_merge {records : List Record} (h : ∀ incoming ∈ records, incoming.names.Nodup)
    (r : Record) (name : Name) :
    (records.foldl merge r).get? name =
      (records.filterMap fun incoming => incoming.get? name).foldl
        (fun existing value => some (value.mergedInto existing)) (r.get? name) := by
  induction records generalizing r with
  | nil => rfl
  | cons incoming records ih =>
    obtain ⟨hincoming, hrecords⟩ := List.forall_mem_cons.1 h
    rw [List.foldl_cons, ih hrecords, get?_merge hincoming, List.filterMap_cons]
    cases incoming.get? name with
    | none => rfl
    | some value => rfl

theorem mergedInto_record {entries inner : Record} :
    (Value.record inner).mergedInto (some (.record entries)) = .record (merge entries inner) := by
  rw [Value.mergedInto]

/-- One scalar, merged any number of times, is that scalar. This is what the spec of a field that
occurs several times comes to. -/
theorem foldl_mergedInto_scalar {values : List Value} (hne : values ≠ [])
    (h : ∀ value ∈ values, value = .scalar s) (existing : Option Value) :
    values.foldl (fun existing value => some (value.mergedInto existing)) existing =
      some (.scalar s) := by
  rw [List.eq_replicate_of_mem h]
  obtain ⟨n, hn⟩ := Nat.exists_eq_succ_of_ne_zero (by simpa using hne : values.length ≠ 0)
  rw [hn, List.replicate_succ', List.foldl_append, List.foldl_cons, List.foldl_nil,
    Value.mergedInto]

/-- Records of one entry each are merged into the record of all the entries. -/
theorem foldl_mergedInto_entries {entries : Record} (h : (r.names ++ entries.names).Nodup)
    (hscalar : ∀ entry ∈ entries, ∃ s, entry.2 = .scalar s) :
    (entries.map fun entry => Value.record [entry]).foldl
        (fun existing value => some (value.mergedInto existing)) (some (.record r)) =
      some (.record (r ++ entries)) := by
  induction entries generalizing r with
  | nil => rw [List.map_nil, List.foldl_nil, List.append_nil]
  | cons entry entries ih =>
    obtain ⟨⟨s, hs⟩, hscalars⟩ := List.forall_mem_cons.1 hscalar
    obtain ⟨name, value⟩ := entry
    obtain rfl : value = .scalar s := hs
    have hnew : name ∉ r.names := fun hmem =>
      (List.nodup_append.1 h).2.2 name hmem name (List.mem_cons_self ..) rfl
    have hnames : ((r ++ [(name, Value.scalar s)]).names ++ names entries).Nodup := by
      rw [names, List.map_append, List.append_assoc]
      exact h
    rw [List.map_cons, List.foldl_cons, mergedInto_record, merge, merge, Value.mergedInto,
      insert_of_not_mem hnew, ih hnames hscalars, List.append_assoc]
    rfl

/-- What cannot be followed through a value is not there. -/
theorem follow?_cons_of_not_record (hway : way ≠ [])
    (h : ∀ inner, r.get? name ≠ some (.record inner)) : r.follow? (name :: way) = none := by
  obtain ⟨next, way, rfl⟩ := List.exists_cons_of_ne_nil hway
  rw [follow?_cons]
  cases hname : r.get? name with
  | none => rfl
  | some value =>
    cases value with
    | scalar s => rfl
    | record inner => exact absurd hname (h inner)

theorem follow?_cons_of_record {inner : Record} (hway : way ≠ [])
    (h : r.get? name = some (.record inner)) : r.follow? (name :: way) = inner.follow? way := by
  rw [follow?_cons, h]
  exact Value.followOn?_record hway

/-- **What the incoming record has is merged into what was there.** -/
theorem follow?_merge_of_some (h : incoming.Distinct) (hvalue : incoming.follow? way = some value) :
    (r.merge incoming).follow? way = some (value.mergedInto (r.follow? way)) := by
  induction way generalizing r incoming with
  | nil => cases hvalue
  | cons name way ih =>
    obtain ⟨hnames, hinner⟩ := distinct_iff.1 h
    have hget := get?_merge hnames r name
    by_cases hway : way = []
    · subst hway
      have hname : incoming.get? name = some value := hvalue
      rw [hname] at hget
      exact hget
    · -- the incoming record has a record under the first name, and the value further on in it
      by_cases hrecord : ∃ inner, incoming.get? name = some (.record inner)
      · obtain ⟨inner, hname⟩ := hrecord
        rw [follow?_cons_of_record hway hname] at hvalue
        rw [hname] at hget
        by_cases hold : ∃ entries, r.get? name = some (.record entries)
        · obtain ⟨entries, hold⟩ := hold
          rw [hold] at hget
          rw [follow?_cons_of_record hway hold,
            follow?_cons_of_record hway (hget.trans (congrArg some mergedInto_record))]
          exact ih (hinner name inner hname) hvalue
        · simp only [not_exists] at hold
          have hnew := hget.trans (congrArg some (mergedInto_of_not_record hold))
          rw [follow?_cons_of_record hway hnew, follow?_cons_of_not_record hway hold, hvalue]
          exact congrArg some (mergedInto_of_not_record (by simp)).symm
      · simp only [not_exists] at hrecord
        rw [follow?_cons_of_not_record hway hrecord] at hvalue
        cases hvalue

/-- **Where the incoming record has nothing, and no scalar on the way, all is as it was.** -/
theorem follow?_merge_apart (h : incoming.Distinct) (hnone : incoming.follow? way = none)
    (hscalar : ∀ pre, pre <+: way → ∀ s, incoming.follow? pre ≠ some (.scalar s)) :
    (r.merge incoming).follow? way = r.follow? way := by
  -- By induction on the way. At each name the incoming record has nothing, and the rest is
  -- untouched, or a record, and both go one step further; a scalar is excluded.
  induction way generalizing r incoming with
  | nil => rfl
  | cons name way ih =>
    obtain ⟨hnames, hinner⟩ := distinct_iff.1 h
    have hget := get?_merge hnames r name
    cases hname : incoming.get? name with
    | none =>
      rw [hname] at hget
      rw [follow?_cons, follow?_cons, hget]
    | some value =>
      cases value with
      | scalar s =>
        exact absurd hname (hscalar [name] (List.cons_prefix_cons.2 ⟨rfl, List.nil_prefix⟩) s)
      | record inner =>
        have hway : way ≠ [] := by
          rintro rfl
          rw [follow?_cons, hname] at hnone
          cases hnone
        rw [follow?_cons_of_record hway hname] at hnone
        -- no scalar on the rest of the way, since it would be one on the whole way
        have hscalar' : ∀ pre, pre <+: way → ∀ s, follow? inner pre ≠ some (.scalar s) := by
          intro pre hpre s hs
          have hne : pre ≠ [] := by
            rintro rfl
            cases hs
          refine hscalar (name :: pre) (List.cons_prefix_cons.2 ⟨rfl, hpre⟩) s ?_
          rw [follow?_cons_of_record hne hname]
          exact hs
        rw [hname] at hget
        by_cases hold : ∃ entries, r.get? name = some (.record entries)
        · obtain ⟨entries, hold⟩ := hold
          rw [hold] at hget
          rw [follow?_cons_of_record hway hold,
            follow?_cons_of_record hway (hget.trans (congrArg some mergedInto_record))]
          exact ih (hinner name inner hname) hnone hscalar'
        -- what was there is no record: the incoming one takes its place, and neither of them has
        -- anything further on
        · simp only [not_exists] at hold
          have hnew := hget.trans (congrArg some (mergedInto_of_not_record hold))
          rw [follow?_cons_of_record hway hnew, follow?_cons_of_not_record hway hold, hnone]

/-- **What is found in merged records was found in one of them.** -/
theorem exists_of_follow?_merge (h : incoming.Distinct)
    (hvalue : (r.merge incoming).follow? way = some value) :
    (∃ v, incoming.follow? way = some v) ∨ ∃ v, r.follow? way = some v := by
  cases hincoming : incoming.follow? way with
  | some v => exact .inl ⟨v, rfl⟩
  | none =>
    refine .inr ⟨value, ?_⟩
    rw [← hvalue]
    refine (follow?_merge_apart h hincoming ?_).symm
    -- a scalar on the way would still be there, with nothing beyond it
    rintro pre ⟨more, rfl⟩ s hs
    have hmore : more ≠ [] := by
      rintro rfl
      rw [List.append_nil, hs] at hincoming
      cases hincoming
    have hmerged := follow?_merge_of_some (r := r) h hs
    rw [Value.mergedInto] at hmerged
    rw [follow?_beyond hmerged hmore] at hvalue
    cases hvalue

/-! ### All of a merged record -/

/-- The names of the record that is merged into stay as they are, and the new ones follow. -/
theorem names_merge (h : incoming.names.Nodup) (r : Record) :
    (r.merge incoming).names = r.names ++ incoming.names.filter fun name => name ∉ r.names := by
  induction incoming generalizing r with
  | nil =>
    rw [merge]
    exact (List.append_nil _).symm
  | cons entry incoming ih =>
    obtain ⟨first, v⟩ := entry
    obtain ⟨hfirst, hnames⟩ := List.nodup_cons.1 h
    have hcons : names ((first, v) :: incoming) = first :: names incoming := rfl
    rw [merge, ih hnames, names_insert, hcons, List.filter_cons]
    by_cases hmem : first ∈ r.names
    · simp [hmem]
    · -- the name that has come to the end does not come again
      have hnew : (names incoming).filter (fun name => name ∉ r.names ++ [first]) =
          (names incoming).filter fun name => name ∉ r.names := by
        refine List.filter_congr fun name hname => ?_
        have hne : name ≠ first := by
          rintro rfl
          exact hfirst hname
        simp [hne]
      rw [if_neg hmem, hnew]
      simp [hmem]

/-- The record at the end of a way, empty where there is none. So the names at a depth can be
spoken of although only one of two records goes so deep. -/
def level (r : Record) (way : List Name) : Record := (r.inner? way).getD []

theorem level_of_inner? {inner : Record} (h : r.inner? way = some inner) : r.level way = inner := by
  rw [level, h]
  rfl

theorem inner?_cons_of_record {inner : Record} (h : r.get? name = some (.record inner)) :
    r.inner? (name :: way) = inner.inner? way := by
  rw [inner?_cons, h]
  rfl

theorem level_cons_of_record {inner : Record} (h : r.get? name = some (.record inner)) :
    r.level (name :: way) = inner.level way := by
  rw [level, inner?_cons_of_record h]
  rfl

theorem level_cons_of_not_record (h : ∀ inner, r.get? name ≠ some (.record inner)) :
    r.level (name :: way) = [] := by
  rw [level, inner?_cons]
  cases hname : r.get? name with
  | none => rfl
  | some value =>
    cases value with
    | scalar s => rfl
    | record inner => exact absurd hname (h inner)

/-- **The names at every depth**: those of the record that is merged into, then the new ones. -/
theorem names_inner?_merge (h : incoming.Distinct) {inner : Record}
    (hinner : (r.merge incoming).inner? way = some inner) :
    inner.names = (r.level way).names ++
      (incoming.level way).names.filter fun name => name ∉ (r.level way).names := by
  -- By induction on the way: under its first name is a record of one of the two, or both were
  -- merged.
  induction way generalizing r incoming with
  | nil =>
    cases hinner
    exact names_merge (distinct_iff.1 h).1 r
  | cons first way ih =>
    obtain ⟨hnames, hdistinct⟩ := distinct_iff.1 h
    have hget := get?_merge hnames r first
    cases hfirst : incoming.get? first with
    -- nothing comes in under this name, so all further names are the old ones
    | none =>
      rw [hfirst] at hget
      rw [inner?_cons, hget, ← inner?_cons] at hinner
      rw [level_of_inner? hinner, level, inner?_cons, hfirst]
      simp [names]
    | some v =>
      rw [hfirst] at hget
      cases v with
      -- a scalar that comes in ends the way here
      | scalar s =>
        rw [inner?_cons, hget] at hinner
        simp [Value.mergedInto, Value.record?] at hinner
      | record new =>
        rw [level_cons_of_record hfirst]
        by_cases hold : ∃ entries, r.get? first = some (.record entries)
        · obtain ⟨entries, hold⟩ := hold
          rw [hold] at hget
          rw [inner?_cons_of_record (hget.trans (congrArg some mergedInto_record))] at hinner
          rw [level_cons_of_record hold]
          exact ih (hdistinct first new hfirst) hinner
        · simp only [not_exists] at hold
          have hnew := hget.trans (congrArg some (mergedInto_of_not_record hold))
          rw [inner?_cons_of_record hnew] at hinner
          rw [level_cons_of_not_record hold, level_of_inner? hinner]
          exact (List.filter_eq_self.2 fun _ _ => decide_eq_true List.not_mem_nil).symm

/-- What a record is that another one has been merged into, path by path and name by name. It
speaks of the three records only and not of how one is merged into the other. -/
structure IsMerge (r incoming merged : Record) : Prop where
  /-- A scalar stays. -/
  scalar : ∀ path s, incoming.lookup path = some (.scalar s) →
    merged.lookup path = some (.scalar s)
  /-- Two records are merged. -/
  both : ∀ path (entries new : Record), r.lookup path = some (.record entries) →
    incoming.lookup path = some (.record new) →
      merged.lookup path = some (.record (entries.merge new))
  /-- A record that meets none stays. -/
  record : ∀ path (new : Record), (∀ entries, r.lookup path ≠ some (.record entries)) →
    incoming.lookup path = some (.record new) → merged.lookup path = some (.record new)
  /-- Behind a scalar is nothing. -/
  hidden : ∀ path above s, Path.Above above path → incoming.lookup above = some (.scalar s) →
    incoming.lookup path = none ∧ merged.lookup path = none
  /-- What nothing comes in for, and no scalar before it, is left. -/
  kept : ∀ path, incoming.lookup path = none →
    (∀ above s, Path.Above above path → incoming.lookup above ≠ some (.scalar s)) →
      merged.lookup path = r.lookup path
  /-- Names keep their order and places, and new ones follow in their order. -/
  names : ∀ way inner, merged.inner? way = some inner →
    inner.names = (r.level way).names ++
      (incoming.level way).names.filter fun name => name ∉ (r.level way).names

/-- **A merged record at every path and every depth.** Every path falls under one of the first
five cases, by what the two records have at it and above it; the last one is about the names in a
record. -/
theorem isMerge_merge (h : incoming.Distinct) (r : Record) :
    IsMerge r incoming (r.merge incoming) where
  scalar path s hs := by
    have hmerged := follow?_merge_of_some (r := r) h hs
    rwa [Value.mergedInto] at hmerged
  both path entries new hr hnew := by
    have hmerged := follow?_merge_of_some (r := r) h hnew
    have hold : r.follow? (Path.names path) = some (.record entries) := hr
    rwa [hold, mergedInto_record] at hmerged
  record path new hr hnew := by
    have hmerged := follow?_merge_of_some (r := r) h hnew
    have hold : ∀ inner, r.follow? (Path.names path) ≠ some (.record inner) := hr
    rwa [mergedInto_of_not_record hold] at hmerged
  hidden path above s habove hs := by
    obtain ⟨more, hmore, hnames⟩ := Path.above_iff.1 habove
    have hmerged := follow?_merge_of_some (r := r) h hs
    rw [Value.mergedInto] at hmerged
    rw [lookup, lookup, hnames]
    exact ⟨follow?_beyond hs hmore, follow?_beyond hmerged hmore⟩
  kept path hnone hscalar := by
    refine follow?_merge_apart h hnone ?_
    intro way hway s hs
    by_cases hnil : way = []
    · rw [hnil] at hs
      cases hs
    · -- the names so far are those of a path, which is the whole one or stands above it
      obtain ⟨first, hfirst, rfl | habove⟩ := Path.exists_of_names_prefix hnil hway
      · rw [lookup, hfirst, hs] at hnone
        cases hnone
      · refine hscalar first s habove ?_
        rw [lookup, hfirst]
        exact hs
  names way inner hinner := names_inner?_merge h hinner

/-- A scalar comes in for a record, and a record for a scalar. -/
theorem isMerge_conflicting :
    Distinct [(['y'], .record [(['z'], .scalar (.text ['4']))]),
      (['x'], .record [(['q'], .scalar (.text ['5']))])] ∧
    IsMerge
      [(['x'], .record [(['p'], .scalar (.text ['1'])), (['q'], .record [])]),
        (['y'], .scalar (.text ['3']))]
      [(['y'], .record [(['z'], .scalar (.text ['4']))]),
        (['x'], .record [(['q'], .scalar (.text ['5']))])]
      [(['x'], .record [(['p'], .scalar (.text ['1'])), (['q'], .scalar (.text ['5']))]),
        (['y'], .record [(['z'], .scalar (.text ['4']))])] := by
  have hdistinct : Distinct [(['y'], .record [(['z'], .scalar (.text ['4']))]),
      (['x'], .record [(['q'], .scalar (.text ['5']))])] :=
    (distinct_nil.put "y.z".toList (.text ['4'])).put "x.q".toList (.text ['5'])
  have hmerge := isMerge_merge hdistinct
    [(['x'], .record [(['p'], .scalar (.text ['1'])), (['q'], .record [])]),
      (['y'], .scalar (.text ['3']))]
  refine ⟨hdistinct, ?_⟩
  convert hmerge using 1
  decide +kernel

end FieldedText.Record
