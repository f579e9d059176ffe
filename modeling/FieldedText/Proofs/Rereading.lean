/-
FieldedText/Proofs/Rereading.lean

What a reader that asks for a value makes of one.

The reader is shown the value as what it is: a list as its elements, without their ordinals, and
any other record as its entries.  It stores the elements under their positions.  So it gets the
value with every list in it numbered from zero, in the order of the ordinals, with instants and
addresses as text, and with nothing else changed (`Value.renumbered`, `value?_visit`).

A list that has the numbers from zero for its names is put in their order
(`Record.relisted_perm`), and one that was put in their order stays as it is
(`Record.relisted_relisted`); both hold at every depth.  The main result collects this
(`readAsValue`).
-/
import FieldedText.Binding.Shape
import FieldedText.Proofs.Decoding
import FieldedText.Proofs.Values

namespace FieldedText

/-! ### Numbered lists -/

namespace Record

variable {r : Record} {values : List Value}

/-- Values under the numbers from zero, in their order. -/
def numbered (values : List Value) : Record := values.zipIdx.map fun x => (natText x.2, x.1)

/-- The record, numbered from zero in the order of its ordinals if it is a list. A list loses its
gaps and its leading zeros with this, and nothing else. -/
def relisted (r : Record) : Record := if r.isList then numbered r.elements else r

/-- That a record has the numbers from zero for its names, if it is a list. The names may be in
any order, since a list is read in the order of its numbers. -/
def IsNumbered (r : Record) : Prop :=
  r.isList = true → r.names.Perm ((List.range r.length).map natText)

theorem ofElements_map_some (values : List Value) :
    ofElements (values.map some) = numbered values := by
  have hfill (k : Nat) : ofElements.fill k (values.map some) =
      (values.zipIdx k).map fun x => (natText x.2, x.1) := by
    induction values generalizing k with
    | nil => rfl
    | cons v values ih =>
      rw [List.map_cons, ofElements.fill, ih, List.zipIdx_cons, List.map_cons]
  exact hfill 0

theorem names_numbered (values : List Value) :
    (numbered values).names = (List.range values.length).map natText := by
  rw [names, numbered, List.map_map, List.range_eq_range', ← List.zipIdx_map_snd 0 values,
    List.map_map]
  rfl

theorem nodup_names_numbered (values : List Value) : (numbered values).names.Nodup := by
  rw [names_numbered]
  exact List.nodup_range.map natText_injective

theorem elements_numbered (values : List Value) : (numbered values).elements = values := by
  rw [← ofElements_map_some, elements_ofElements, reduceOption_map_some]

theorem mem_of_mem_numbered {entry : Name × Value} (h : entry ∈ numbered values) :
    entry.2 ∈ values := by
  obtain ⟨x, hx, rfl⟩ := List.mem_map.1 h
  exact List.fst_mem_of_mem_zipIdx hx

/-- Numbering the values of a record that is numbered leaves it as it is. -/
theorem numbered_map_snd (h : r.names = (List.range r.length).map natText) :
    numbered (r.map Prod.snd) = r := by
  refine List.ext_getElem (by simp [numbered]) fun i hi hlater => ?_
  have hname : r.names[i]? = some (natText i) := by
    rw [h, List.getElem?_map, List.getElem?_range hlater, Option.map_some]
  rw [names, List.getElem?_map, List.getElem?_eq_getElem hlater, Option.map_some,
    Option.some.injEq] at hname
  simp [numbered, ← hname]

/-! ### Relisting -/

/-- The entries of a record in the order of the ordinals. -/
def listed (r : Record) : Record := sort (fun x y => Name.ordinalLe x.1 y.1) r

theorem listed_perm (r : Record) : r.listed.Perm r := sort_perm _ r

theorem names_listed (h : r.isList = true) : r.listed.names = r.ordinals := by
  rw [ordinals, List.filter_eq_self.2 (isList_iff.1 h).2, names, names, sort_map]
  rfl

/-- The elements of a list are the values of its entries, in the order of the ordinals. -/
theorem elements_eq_listed (hnames : r.names.Nodup) (h : r.isList = true) :
    r.elements = r.listed.map Prod.snd := by
  rw [elements, ← names_listed h, names, List.filterMap_map, ← List.filterMap_eq_map]
  refine List.filterMap_congr fun entry hentry => ?_
  exact get?_of_mem hnames ((listed_perm r).mem_iff.1 hentry)

theorem relisted_of_isList (hnames : r.names.Nodup) (h : r.isList = true) :
    r.relisted = numbered (r.listed.map Prod.snd) := by
  rw [relisted, if_pos h, elements_eq_listed hnames h]

theorem relisted_of_not_isList (h : r.isList = false) : r.relisted = r :=
  if_neg (by simp [h])

/-- The values of a record are not changed when it is relisted. -/
theorem exists_mem_of_mem_relisted {entry : Name × Value} (h : entry ∈ r.relisted) :
    ∃ name, (name, entry.2) ∈ r := by
  rw [relisted] at h
  split at h
  · exact exists_of_mem_elements (mem_of_mem_numbered h)
  · exact ⟨entry.1, h⟩

theorem nodup_names_relisted (h : r.names.Nodup) : r.relisted.names.Nodup := by
  rw [relisted]
  split
  · exact nodup_names_numbered _
  · exact h

/-- **What was relisted stays as it is.** -/
theorem relisted_relisted (r : Record) : r.relisted.relisted = r.relisted := by
  cases hlist : r.isList with
  | false => rw [relisted_of_not_isList hlist, relisted_of_not_isList hlist]
  | true =>
    have hrelisted : r.relisted = numbered r.elements := if_pos hlist
    rw [hrelisted, relisted, elements_numbered]
    split <;> rfl

/-- **A numbered list is put in the order of its numbers**, and any other record stays as it is. -/
theorem relisted_perm (hnames : r.names.Nodup) (h : r.IsNumbered) : r.relisted.Perm r := by
  cases hlist : r.isList with
  | false => rw [relisted_of_not_isList hlist]
  | true =>
    have hsorted : ((List.range r.length).map natText).Pairwise fun a b =>
        Name.ordinalLe a b = true := by
      rw [List.pairwise_map]
      exact List.pairwise_le_range.imp ordinalLe_natText
    have hordinals : r.ordinals = (List.range r.length).map natText := by
      rw [ordinals, List.filter_eq_self.2 (isList_iff.1 hlist).2, ← sort_eq_self hsorted]
      refine sort_eq_of_perm Name.ordinalLe_total Name.ordinalLe_trans ?_ (h hlist)
      intro a ha b hb
      exact Name.ordinalLe_antisymm ((isList_iff.1 hlist).2 a ha) ((isList_iff.1 hlist).2 b hb)
    have hlength : r.listed.length = r.length := (listed_perm r).length_eq
    rw [relisted_of_isList hnames hlist, numbered_map_snd]
    · exact listed_perm r
    · rw [names_listed hlist, hordinals, hlength]

end Record

/-! ### Values made of what is shown -/

theorem IntegerType.holds_i64_iff {n : Int} :
    i64.holds n = true ↔ -9223372036854775808 ≤ n ∧ n < 9223372036854775808 := by
  rw [holds, Bool.and_eq_true, decide_eq_true_eq, decide_eq_true_eq]
  exact Iff.rfl

theorem Scalar.ofInt_toInt (n : Int64) : ofInt n.toInt = integer n := by
  rw [ofInt, if_pos (IntegerType.holds_i64_iff.2 ⟨n.le_toInt, n.toInt_lt⟩), Int64.ofInt_toInt]

namespace Visit

variable {r acc : Record} {shown : Value → Visit} {f : Value → Value}

theorem itemValues_eq (items : List Visit) : itemValues items = items.map value? := by
  induction items with
  | nil => rfl
  | cons item items ih => exact congrArg (item.value? :: ·) ih

/-- **Entries that are shown one by one are stored in their order**, where no name is repeated. -/
theorem storeEntries_eq (hnames : (acc.names ++ r.names).Nodup)
    (h : ∀ entry ∈ r, (shown entry.2).value? = some (f entry.2)) :
    storeEntries acc (r.map fun entry => (.text entry.1, shown entry.2)) =
      acc ++ r.mapValues f := by
  induction r generalizing acc with
  | nil => exact (List.append_nil acc).symm
  | cons entry r ih =>
    obtain ⟨hentry, hr⟩ := List.forall_mem_cons.1 h
    have hnew : entry.1 ∉ acc.names := fun hmem =>
      (List.nodup_append.1 hnames).2.2 _ hmem _ (List.mem_cons_self ..) rfl
    have hlater : (Record.names (acc ++ [(entry.1, f entry.2)]) ++ Record.names r).Nodup := by
      rw [Record.names, List.map_append, List.append_assoc]
      exact hnames
    rw [List.map_cons, storeEntries, hentry, Record.insertSome, Record.insert_of_not_mem hnew,
      ih hlater hr, List.append_assoc]
    rfl

theorem storeEntries_nil (shown : Value → Visit) (hnames : r.names.Nodup)
    (h : ∀ entry ∈ r, (shown entry.2).value? = some (f entry.2)) :
    storeEntries [] (r.map fun entry => (.text entry.1, shown entry.2)) = r.mapValues f :=
  storeEntries_eq hnames h

end Visit

namespace Value

variable {r : Record} {v : Value}

theorem visitEntries_eq (r : Record) :
    visitEntries r = r.map fun entry => (entry.1, entry.2.visit) := by
  induction r with
  | nil => rfl
  | cons entry r ih => exact congrArg ((entry.1, entry.2.visit) :: ·) ih

theorem visit_of_isList (h : r.isList = true) :
    (record r).visit = .sequence (r.listed.map fun entry => entry.2.visit) r.length := by
  rw [visit, if_pos h, visitEntries_eq, Record.inOrdinalOrder, sort_map, List.map_map]
  rfl

theorem visit_of_not_isList (h : r.isList = false) :
    (record r).visit = .map (r.map fun entry => (.text entry.1, entry.2.visit)) r.length := by
  rw [visit, if_neg (by simp [h]), visitEntries_eq, List.map_map]
  rfl

mutual

/-- The value with instants and addresses as text, and with every list in it numbered from zero in
the order of its ordinals. -/
def renumbered : Value → Value
  | scalar s => scalar s.plain
  | record r => record (Record.relisted (renumberedIn r))

/-- The entries of a record with the lists in their values numbered. -/
def renumberedIn : List (Name × Value) → Record
  | [] => []
  | (name, value) :: r => (name, value.renumbered) :: renumberedIn r

end

theorem renumbered_record (r : Record) :
    (record r).renumbered = record (r.mapValues renumbered).relisted := by
  have hentries : renumberedIn r = r.mapValues renumbered := by
    induction r with
    | nil => rfl
    | cons entry r ih => exact congrArg ((entry.1, entry.2.renumbered) :: ·) ih
  rw [renumbered, hentries]

theorem value?_visit_scalar (s : Scalar) : s.visit.value? = some (scalar s.plain) := by
  cases s with
  | integer n => exact congrArg (fun t => some (scalar t)) (Scalar.ofInt_toInt n)
  | text | float | truth | char | instant | url => rfl

/-- **A reader that is shown a value makes the value of it with its lists numbered.** By induction
on the value; it is the same reader at every depth. -/
theorem value?_visit (h : v.Distinct) : v.visit.value? = some v.renumbered := by
  induction v using Value.induction with
  | scalar s => exact value?_visit_scalar s
  | record r ih =>
    obtain ⟨hnames, hvalues⟩ := distinct_record.1 h
    have hshown : ∀ entry ∈ r, entry.2.visit.value? = some entry.2.renumbered :=
      fun entry hentry => ih entry hentry (hvalues entry hentry)
    rw [renumbered_record]
    cases hlist : r.isList with
    | true =>
      -- the elements are shown in the order of the ordinals, and stored in the order shown
      have hitems : (r.listed.map fun entry => entry.2.visit).map Visit.value? =
          ((r.listed.map Prod.snd).map renumbered).map some := by
        rw [List.map_map, List.map_map, List.map_map]
        exact List.map_congr_left fun entry hentry =>
          hshown entry ((Record.listed_perm r).mem_iff.1 hentry)
      rw [visit_of_isList hlist, Visit.value?, Visit.itemValues_eq, hitems,
        Record.ofElements_map_some, Record.relisted, Record.isList_mapValues, if_pos hlist,
        Record.elements_mapValues, Record.elements_eq_listed hnames hlist]
    | false =>
      rw [visit_of_not_isList hlist, Visit.value?, Visit.storeEntries_nil visit hnames hshown,
        Record.relisted_of_not_isList (by rwa [Record.isList_mapValues])]

/-! ### Numbering again -/

theorem renumbered_renumbered (v : Value) : v.renumbered.renumbered = v.renumbered := by
  induction v using Value.induction with
  | scalar s => cases s <;> rfl
  | record r ih =>
    have hvalues : ∀ entry ∈ (r.mapValues renumbered).relisted, entry.2.renumbered = entry.2 := by
      intro entry hentry
      obtain ⟨name, hmem⟩ := Record.exists_mem_of_mem_relisted hentry
      obtain ⟨original, horiginal, heq⟩ := List.mem_map.1 hmem
      rw [← congrArg Prod.snd heq]
      exact ih original horiginal
    rw [renumbered_record, renumbered_record, Record.mapValues_eq_self hvalues,
      Record.relisted_relisted]

theorem Distinct.renumbered (h : v.Distinct) : v.renumbered.Distinct := by
  induction v using Value.induction with
  | scalar s => exact distinct_scalar _
  | record r ih =>
    obtain ⟨hnames, hvalues⟩ := distinct_record.1 h
    rw [renumbered_record, distinct_record]
    refine ⟨Record.nodup_names_relisted (by rwa [Record.names_mapValues]), ?_⟩
    intro entry hentry
    obtain ⟨name, hmem⟩ := Record.exists_mem_of_mem_relisted hentry
    obtain ⟨original, horiginal, heq⟩ := List.mem_map.1 hmem
    rw [← congrArg Prod.snd heq]
    exact ih original horiginal (hvalues original horiginal)

/-- **A value whose lists are numbered is the same when they are put in order.** -/
theorem same_renumbered (hdistinct : v.Distinct)
    (h : v.Everywhere (fun s => s.plain = s) Record.IsNumbered) : Same v v.renumbered := by
  induction v using Value.induction with
  | scalar s =>
    rw [renumbered, (everywhere_scalar s).1 h]
    exact .scalar s
  | record r ih =>
    obtain ⟨hnames, hvalues⟩ := distinct_record.1 hdistinct
    obtain ⟨hnumbered, hentries⟩ := everywhere_record.1 h
    -- putting the numbers in order is a permutation of the entries, and the values under them are
    -- renumbered by themselves
    have hperm : (r.mapValues renumbered).relisted.Perm (r.mapValues renumbered) := by
      refine Record.relisted_perm (by rwa [Record.names_mapValues]) ?_
      rw [Record.IsNumbered, Record.isList_mapValues, Record.names_mapValues,
        Record.length_mapValues]
      exact hnumbered
    have hsame : (r.mapValues renumbered).relisted.names.Perm r.names := by
      rw [← Record.names_mapValues (r := r) (f := renumbered)]
      exact hperm.map Prod.fst
    rw [renumbered_record]
    refine .of_forall hsame.symm fun entry hentry => ⟨entry.2.renumbered, ?_, ?_⟩
    · refine Record.get?_of_mem (hsame.nodup_iff.2 hnames) (hperm.mem_iff.2 ?_)
      exact List.mem_map.2 ⟨entry, hentry, rfl⟩
    · exact ih entry hentry (hvalues entry hentry) (hentries entry hentry)

/-! ### Main result -/

/-- What a reader that asks for a value makes of one. -/
structure ReadAsValue (v : Value) : Prop where
  decode : Shape.value.decode v = .ok (.value v.renumbered)
  /-- The values of a list have the order of its ordinals, which is that of their numbers. -/
  list : ∀ r : Record, v = record r → r.isList = true → ∃ entries : Record, entries.Perm r ∧
    (entries.Pairwise fun x y => Name.OrdinalBefore x.1 y.1) ∧
      v.renumbered = record (Record.numbered (entries.map fun entry => entry.2.renumbered))
  /-- A value that is read twice is the one that was read once. -/
  again : Shape.value.decode v.renumbered = .ok (.value v.renumbered)
  /-- A value without instants and addresses whose lists are numbered is the one that is read. -/
  same : v.Everywhere (fun s => s.plain = s) Record.IsNumbered → Same v v.renumbered

theorem decode_value (h : v.Distinct) : Shape.value.decode v = .ok (.value v.renumbered) := by
  rw [Shape.decode, reread, value?_visit h]
  rfl

/-- The entries of a list in the order of the ordinals have that of the numbers. -/
theorem pairwise_listed (hnames : r.names.Nodup) (hlist : r.isList = true) :
    r.listed.Pairwise fun x y => Name.OrdinalBefore x.1 y.1 := by
  have hordinals := Record.pairwise_ordinals hnames
  rw [← Record.names_listed hlist] at hordinals
  exact List.pairwise_map.1 hordinals

/-- **Reading a value as a value numbers its lists and changes nothing else**, but that instants
and addresses become text. The value must not repeat a name, since of entries with one name only
the last would be left. -/
theorem readAsValue (h : v.Distinct) : ReadAsValue v where
  decode := decode_value h
  list := by
    rintro r rfl hlist
    obtain ⟨hnames, -⟩ := distinct_record.1 h
    refine ⟨r.listed, r.listed_perm, pairwise_listed hnames hlist, ?_⟩
    rw [renumbered_record, Record.relisted, Record.isList_mapValues, if_pos hlist,
      Record.elements_mapValues, Record.elements_eq_listed hnames hlist, List.map_map]
    rfl
  again := by
    rw [decode_value h.renumbered, renumbered_renumbered]
  same := same_renumbered h

/-- A list in which two ordinals stand for one number, with a list in it, beside an entry that makes
no list of the record. -/
def untidy : Value :=
  .record [(['l'], .record [("10".toList, .scalar (.text ['z'])),
      ("007".toList, .record [(['5'], .scalar (.char 'a')), (['3'], .record [])]),
      (['7'], .scalar (.url "e:x".toList))]),
    (['0'], .scalar (.truth true))]

/-- The lists of `untidy` with their numbers from zero, in another order. -/
def shuffledLists : Value :=
  .record [(['l'], .record [(['2'], .scalar (.text ['z'])), (['0'], .scalar (.text "e:x".toList)),
      (['1'], .record [(['1'], .scalar (.char 'a')), (['0'], .record [])])]),
    (['0'], .scalar (.truth true))]

theorem readAsValue_untidy :
    (untidy.Distinct ∧ ReadAsValue untidy ∧
      untidy.renumbered = .record
        [(['l'], .record [(['0'], .scalar (.text "e:x".toList)),
            (['1'], .record [(['0'], .record []), (['1'], .scalar (.char 'a'))]),
            (['2'], .scalar (.text ['z']))]),
          (['0'], .scalar (.truth true))]) ∧
    (shuffledLists.Distinct ∧
      shuffledLists.Everywhere (fun s => s.plain = s) Record.IsNumbered ∧
      Same shuffledLists shuffledLists.renumbered ∧
      shuffledLists.renumbered = untidy.renumbered) := by
  have huntidy : untidy.Distinct := by
    simp only [untidy, Distinct, Everywhere, EverywhereIn]
    decide
  have hshuffled : shuffledLists.Distinct := by
    simp only [shuffledLists, Distinct, Everywhere, EverywhereIn]
    decide
  have hnumbered : shuffledLists.Everywhere (fun s => s.plain = s) Record.IsNumbered := by
    simp only [shuffledLists, Everywhere, EverywhereIn, Record.IsNumbered]
    decide
  exact ⟨⟨huntidy, readAsValue huntidy, by decide +kernel⟩, hshuffled, hnumbered,
    (readAsValue hshuffled).same hnumbered, by decide +kernel⟩

end Value

end FieldedText
