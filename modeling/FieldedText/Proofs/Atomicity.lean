/-
FieldedText/Proofs/Atomicity.lean

Files that are changed as a whole or not at all.

A temporary file is made under a name that nothing has.  How the name is chosen does not matter
(`Naming.IsFree`), and a number can always be found (`Naming.isFree_numbered`).  While the file is
there the store is the one before with one file more (`WithTemporary`), and as this is no
directory, every path leads where it led; so filling the file keeps the store of this form,
deleting it gives the store before, and giving it the name of its target changes the target only
(`WithTemporary.rename_eq_ok_iff`).  A file is revised beside a second temporary file, which is
deleted in the end; what changed beside it is what changes without it
(`WithTemporary.changed`).

So there are three things that a call which writes a file can come to (`AllOrNothing`): the new
content is in its place and nothing else is different, or there is no new content, or it cannot be
written; and in the last two the store is the one before.
-/
import FieldedText.Proofs.Decimal
import FieldedText.Storage.Files
import Mathlib.Data.List.Nodup
import Mathlib.Data.List.Perm.Subperm

namespace FieldedText

variable {store other : Store} {location place : Location} {entry : Entry} {path content : Text}

/-- A text is read from its bytes. -/
theorem decodeBytes?_encodeBytes (t : Text) : decodeBytes? (encodeBytes t) = some t := by
  have hvalid : String.fromUTF8? (String.ofList t).toUTF8 = some (String.ofList t) :=
    dif_pos (String.ofList t).isValidUTF8
  have hbytes : (⟨(encodeBytes t).toArray⟩ : ByteArray) = (String.ofList t).toUTF8 := rfl
  rw [decodeBytes?, hbytes, hvalid, Option.map_some, String.toList_ofList]

namespace Store

/-! ### Entries -/

/-- The entry at a location in place of what is there. What is at another location stays what it
is. -/
def exchange (location : Location) (entry : Entry) (old : Location × Entry) : Location × Entry :=
  (old.1, if old.1 = location then entry else old.2)

theorem set_of_isSome (h : (store.entries.lookup location).isSome) :
    store.set location entry = ⟨store.entries.map (exchange location entry)⟩ := if_pos h

theorem set_of_eq_none (h : store.entries.lookup location = none) :
    store.set location entry = ⟨store.entries ++ [(location, entry)]⟩ := by
  rw [set, h]
  rfl

theorem lookup_exchange (entries : List (Location × Entry)) :
    (entries.map (exchange location entry)).lookup place =
      (entries.lookup place).map fun old => if place = location then entry else old := by
  induction entries with
  | nil => rfl
  | cons old entries ih =>
    obtain ⟨there, old⟩ := old
    rw [List.map_cons, exchange, List.lookup_cons, List.lookup_cons, ih]
    by_cases hplace : place = there
    · simp [hplace]
    · simp [beq_eq_false_iff_ne.2 hplace]

theorem lookup_set (store : Store) (location place : Location) (entry : Entry) :
    (store.set location entry).entries.lookup place =
      if place = location then some entry else store.entries.lookup place := by
  -- Either something is there and gives place, or the new entry stands at the end, where it is
  -- found because nothing is there before it.
  cases hthere : store.entries.lookup location with
  | some old =>
    rw [set_of_isSome (by rw [hthere]; rfl), lookup_exchange]
    split
    · rename_i hplace
      rw [hplace, hthere]
      rfl
    · exact Option.map_id'
  | none =>
    rw [set_of_eq_none hthere, List.lookup_append, List.lookup_cons, List.lookup_nil]
    by_cases hplace : place = location
    · rw [hplace, hthere, beq_self_eq_true, if_pos rfl]
      rfl
    · rw [beq_eq_false_iff_ne.2 hplace, if_neg hplace, Option.or_none]

theorem lookup_delete (store : Store) (location place : Location) :
    (store.delete location).entries.lookup place =
      if place = location then none else store.entries.lookup place := by
  obtain ⟨entries⟩ := store
  rw [delete]
  -- An entry at the location is passed over by the search as well, whichever place is looked for;
  -- any other one stays where it is.
  induction entries with
  | nil => simp
  | cons old entries ih =>
    obtain ⟨there, old⟩ := old
    simp only [List.filter_cons, List.lookup_cons] at ih ⊢
    by_cases hthere : there = location
    · by_cases hplace : place = location
      · simpa [hthere, hplace] using ih
      · have hne : ¬ place = there := by rwa [hthere]
        simpa [hthere, hplace, beq_eq_false_iff_ne.2 hplace] using ih
    · by_cases hplace : place = there
      · simp [hthere, hplace]
      · simpa [hthere, hplace, beq_eq_false_iff_ne.2 hplace, List.lookup_cons] using ih

/-- Nothing is taken from where nothing is. -/
theorem delete_eq_self (h : store.entries.lookup location = none) :
    store.delete location = store := by
  obtain ⟨entries⟩ := store
  rw [delete, Store.mk.injEq, List.filter_eq_self]
  intro old hold
  have hne := List.lookup_eq_none_iff.1 h old hold
  exact decide_eq_true fun heq => (bne_iff_ne.1 hne) heq.symm

/-- What is put at a location is gone when nothing is left there. -/
theorem delete_set (store : Store) (location : Location) (entry : Entry) :
    (store.set location entry).delete location = store.delete location := by
  cases hthere : store.entries.lookup location with
  | some old =>
    rw [set_of_isSome (by rw [hthere]; rfl), delete, delete, Store.mk.injEq, List.filter_map]
    refine Eq.trans (List.map_congr_left fun old hold => ?_) (List.map_id _)
    have hne : old.1 ≠ location := of_decide_eq_true (List.mem_filter.1 hold).2
    rw [exchange, if_neg hne, id]
  | none => simp [set_of_eq_none hthere, delete]

/-- What is put at a location is left there when another one is emptied. -/
theorem delete_set_comm (h : location ≠ place) (store : Store) (entry : Entry) :
    (store.set location entry).delete place = (store.delete place).set location entry := by
  have hlookup : (store.delete place).entries.lookup location = store.entries.lookup location := by
    rw [lookup_delete, if_neg h]
  cases hthere : store.entries.lookup location with
  | some old =>
    rw [set_of_isSome (by rw [hthere]; rfl), set_of_isSome (by rw [hlookup, hthere]; rfl), delete,
      delete, Store.mk.injEq, List.filter_map]
    rfl
  | none =>
    rw [set_of_eq_none hthere, set_of_eq_none (by rw [hlookup, hthere])]
    simp [delete, h]

theorem find?_of_not_isBase (h : location.isBase = false) :
    store.find? location = store.entries.lookup location := by
  rw [find?, h]
  rfl

/-- Where no directory is, there is not one of those that are always there. So files are entries
of the store. -/
theorem isBase_eq_false (h : store.find? location ≠ some .directory) : location.isBase = false := by
  rw [← Bool.not_eq_true]
  exact fun hbase => h (if_pos hbase)

theorem find?_set (h : location.isBase = false) (store : Store) (place : Location)
    (entry : Entry) :
    (store.set location entry).find? place =
      if place = location then some entry else store.find? place := by
  by_cases hplace : place = location
  · rw [hplace, if_pos rfl, find?_of_not_isBase h, lookup_set, if_pos rfl]
  · rw [if_neg hplace, find?, find?, lookup_set, if_neg hplace]

/-! ### Ways -/

/-- Two stores with the same directories. What else is in them is left open, since paths are
resolved by directories alone. -/
def SameDirectories (store other : Store) : Prop :=
  ∀ place, store.find? place = some .directory ↔ other.find? place = some .directory

/-- A file that is new, or in place of a file, changes no directory. -/
theorem sameDirectories_of_find? {bytes : List UInt8}
    (hthere : store.find? location ≠ some .directory)
    (h : ∀ place, other.find? place =
      if place = location then some (.file bytes) else store.find? place) :
    SameDirectories other store := by
  intro place
  rw [h]
  split
  · rename_i hplace
    rw [hplace]
    simpa using hthere
  · exact Iff.rfl

theorem find?_of_walk_cons {name : Name} {names : List Name} {target : Location}
    (h : store.walk location (name :: names) = .ok target) :
    store.find? location = some .directory := by
  rw [walk] at h
  split at h
  · cases h
  · cases h
  · assumption

/-- A way leads on from directories only, and so to the same location in two stores with the same
ones. Where it fails, the two may fail with different words. -/
theorem walk_eq_ok_iff (h : SameDirectories store other) {names : List Name}
    {target : Location} :
    store.walk location names = .ok target ↔ other.walk location names = .ok target := by
  -- By induction on the names, from any location: one step depends on the store only in whether
  -- there is a directory.
  induction names generalizing location with
  | nil => exact Iff.rfl
  | cons name names ih =>
    by_cases hdirectory : store.find? location = some .directory
    · rw [walk, walk, hdirectory, (h location).1 hdirectory]
      simp only
      split
      · exact ih
      · split
        · exact ih
        · split
          · exact Iff.rfl
          · exact ih
    · constructor
      · exact fun hwalk => absurd (find?_of_walk_cons hwalk) hdirectory
      · exact fun hwalk => absurd ((h location).2 (find?_of_walk_cons hwalk)) hdirectory

theorem locate_eq_ok_iff (h : SameDirectories store other) {target : Location} :
    store.locate path = .ok target ↔ other.locate path = .ok target := by
  unfold locate
  split
  · exact Iff.rfl
  · split
    · exact Iff.rfl
    · split
      · exact Iff.rfl
      · exact walk_eq_ok_iff h

/-- A path at which a file can be put: the directory that it is in is there, which the temporary
file is made in, and no directory is at the path itself. -/
def Takes (store : Store) (path : Text) : Prop :=
  (∃ directory, store.locate (parentPath path) = .ok directory ∧
    store.find? directory = some .directory) ∧
  ∃ target, store.locate path = .ok target ∧ store.find? target ≠ some .directory

theorem SameDirectories.takes_iff (h : SameDirectories store other) :
    store.Takes path ↔ other.Takes path := by
  have hdirectory (place : Location) := h place
  simp only [Takes, locate_eq_ok_iff h, ne_eq, hdirectory]

/-! ### Temporary files -/

end Store

namespace Naming

/-- A naming whose names are free: nothing has the name that a new file gets in a directory.  No
more than this is asked of the names of temporary files. -/
def IsFree (naming : Naming) : Prop :=
  ∀ store directory, Store.find? store (directory ++ [naming store directory]) = none

theorem numberedName_injective : Function.Injective numberedName := fun _ _ h =>
  natText_injective (List.append_cancel_left h)

theorem isBase_concat_numberedName (directory : Location) (n : Nat) :
    Location.isBase (directory ++ [numberedName n]) = false := by
  have hname : numberedName n ≠ Location.upwards := by
    intro h
    cases h
  rw [Location.isBase, List.all_append, List.all_cons, decide_eq_false hname, Bool.false_and,
    Bool.and_false]

/-- **There is always a number for one more file.**  The numbers that are tried are more than the
entries of the store, and no two of them would be taken by the same entry. -/
theorem isFree_numbered : IsFree numbered := by
  intro store directory
  unfold numbered
  set names := (List.range (store.entries.length + 1)).map numberedName with hnames
  cases hfound : names.find? fun name =>
      (store.entries.lookup (directory ++ [name])).isNone with
  -- a name that was found free is free: its location is no base, so only the entries could hold
  -- it
  | some name =>
    obtain ⟨n, -, rfl⟩ := List.mem_map.1 (List.mem_of_find?_eq_some hfound)
    rw [Option.getD_some, Store.find?_of_not_isBase (isBase_concat_numberedName directory n)]
    have hnone := List.find?_some hfound
    exact Option.isNone_iff_eq_none.1 hnone
  | none =>
    -- else every name would be taken, and there are more of them than entries
    exfalso
    have hinjective : Function.Injective fun name : Name => directory ++ [name] :=
      fun _ _ h => (List.cons.inj (List.append_cancel_left h)).1
    have hnodup : (names.map fun name => directory ++ [name]).Nodup :=
      (List.nodup_range.map numberedName_injective).map hinjective
    have htaken : (names.map fun name => directory ++ [name]) ⊆ store.entries.map Prod.fst := by
      intro location hlocation
      obtain ⟨name, hname, rfl⟩ := List.mem_map.1 hlocation
      have hsome := List.find?_eq_none.1 hfound name hname
      rw [Option.isNone_iff_eq_none, ← ne_eq, Option.ne_none_iff_exists'] at hsome
      obtain ⟨entry, hentry⟩ := hsome
      obtain ⟨before, after, hsplit, -⟩ := List.lookup_eq_some_iff.1 hentry
      rw [hsplit]
      simp
    have hlength := (hnodup.subperm htaken).length_le
    rw [hnames, List.length_map, List.length_map, List.length_map, List.length_range] at hlength
    exact absurd hlength (Nat.not_succ_le_self _)

end Naming

namespace Store

/-- A store with a temporary file more. This is the invariant of all that happens between the
making of the file and its end: nothing else is different, and deleting the file gives the store
before. -/
structure WithTemporary (store : Store) (temporary : Location) (content : List UInt8)
    (other : Store) : Prop where
  fresh : store.find? temporary = none
  delete : other.delete temporary = store
  find? : ∀ place, other.find? place =
    if place = temporary then some (.file content) else store.find? place

section

variable {naming : Naming} {faults : Faults} {temporary : Location} {bytes : List UInt8}

theorem withTemporary_set (h : store.find? temporary = none) (bytes : List UInt8) :
    WithTemporary store temporary bytes (store.set temporary (.file bytes)) := by
  have hnot : store.find? temporary ≠ some .directory := by simp [h]
  have hbase := isBase_eq_false hnot
  refine ⟨h, ?_, fun place => find?_set hbase store place _⟩
  rw [delete_set]
  exact delete_eq_self ((find?_of_not_isBase hbase).symm.trans h)

/-- The temporary file can be filled, and filled again; deleting it still gives the store before.
-/
theorem WithTemporary.fill (h : WithTemporary store temporary bytes other)
    (more : List UInt8) :
    WithTemporary store temporary more (other.set temporary (.file more)) := by
  refine ⟨h.fresh, (delete_set ..).trans h.delete, fun place => ?_⟩
  have hnot : store.find? temporary ≠ some .directory := by simp [h.fresh]
  rw [find?_set (isBase_eq_false hnot), h.find?]
  split <;> rfl

theorem WithTemporary.sameDirectories (h : WithTemporary store temporary bytes other) :
    SameDirectories other store :=
  sameDirectories_of_find? (by simp [h.fresh]) h.find?

/-- **What a temporary file is moved to is all that changes.** It can be moved exactly where the
path led to no directory before the file was made. -/
theorem WithTemporary.rename_eq_ok_iff (h : WithTemporary store temporary bytes other)
    {renamed : Store} :
    other.rename temporary path = .ok renamed ↔
      ∃ target, store.locate path = .ok target ∧ store.find? target ≠ some .directory ∧
        renamed = store.set target (.file bytes) := by
  have htemporary : other.find? temporary = some (.file bytes) := by rw [h.find?, if_pos rfl]
  have hsame := h.sameDirectories
  -- The path is resolved in the store with the temporary file, and the claim is about the one
  -- without; the directories, and so the ways, are the same.
  cases hlocate : other.locate path with
  | error reason =>
    rw [rename, hlocate]
    constructor
    · intro hrenamed
      cases hrenamed
    · rintro ⟨target, htarget, -, -⟩
      rw [← locate_eq_ok_iff hsame, hlocate] at htarget
      cases htarget
  | ok target =>
    have htarget := (locate_eq_ok_iff hsame).1 hlocate
    have hunique : (∃ place, store.locate path = .ok place ∧ store.find? place ≠ some .directory ∧
        renamed = store.set place (.file bytes)) ↔
        other.find? target ≠ some .directory ∧ renamed = store.set target (.file bytes) := by
      rw [ne_eq, hsame target, htarget]
      simp
    -- taking the file from its place leaves the store before, in which it is then put at the
    -- target
    rw [rename, hlocate, hunique]
    simp only [bind, Except.bind, htemporary, h.delete]
    cases hthere : other.find? target with
    | none => simp [pure, Except.pure, eq_comm]
    | some entry =>
      cases entry with
      | file content => simp [pure, Except.pure, eq_comm]
      | directory => simp [throw, throwThe, MonadExceptOf.throw]

/-! ### Files -/

/-- The calls that put a text into a file, in their order. -/
def replacingCalls : List SystemCall := [.makeResult, .writeResult, .flushResult, .renameResult]

/-- The calls that revise a file, in their order. -/
def revisingCalls : List SystemCall := [.makeCopy, .writeCopy] ++ replacingCalls

/-- A store in which a file has another content, and that is as it was otherwise. That the content
is read from the file, and nothing is changed elsewhere, follows from where it was put; both are
kept, as they are what a caller sees. -/
structure Changed (store : Store) (path content : Text) (after : Store) : Prop where
  exists_target : ∃ target, store.locate path = .ok target ∧ store.find? target ≠ some .directory ∧
    after = store.set target (.file (encodeBytes content))
  readText : after.readText path = .ok content
  elsewhere : ∀ place, store.locate path ≠ .ok place → after.find? place = store.find? place

/-- What comes of calls that put the result of some work into a file: all of it, or nothing. There
is no case in which a store is changed and an error given. -/
inductive AllOrNothing (store : Store) (faults : Faults) (calls : List SystemCall) (path : Text)
    (work : Except Error Text) : Except Error Unit × Store → Prop
  /-- The file has the new content, and all calls went well. -/
  | changed {content : Text} {after : Store} (done : work = .ok content)
      (spared : ∀ call ∈ calls, faults call = none) (changed : Changed store path content after) :
      AllOrNothing store faults calls path work (.ok (), after)
  /-- There is no new content. -/
  | failed {e : Error} (undone : work = .error e) :
      AllOrNothing store faults calls path work (.error e, store)
  /-- The new content cannot be written. -/
  | refused {file reason : Text}
      (cause : ¬ ((∀ call ∈ calls, faults call = none) ∧ store.Takes path)) :
      AllOrNothing store faults calls path work (.error (.write file reason), store)

theorem changed_set {target : Location} (htarget : store.locate path = .ok target)
    (hfile : store.find? target ≠ some .directory) :
    Changed store path content (store.set target (.file (encodeBytes content))) := by
  have hfind (place : Location) := find?_set (isBase_eq_false hfile) store place
    (.file (encodeBytes content))
  have hsame := sameDirectories_of_find? hfile hfind
  refine ⟨⟨target, htarget, hfile, rfl⟩, ?_, fun place hplace => ?_⟩
  · rw [readText, readFile, (locate_eq_ok_iff hsame).2 htarget]
    simp only [bind, Except.bind, hfind, if_pos, pure, Except.pure, decodeBytes?_encodeBytes]
  · rw [hfind, if_neg]
    rintro rfl
    exact hplace htarget

theorem call_eq_ok_iff {α : Type} {name : SystemCall} {result : Except Text α} {a : α} :
    call faults name result = .ok a ↔ faults name = none ∧ result = .ok a := by
  unfold call
  cases faults name with
  | some reason => simp
  | none => simp

theorem makeTemporary_of_directory {directory : Location} (h : store.locate path = .ok directory)
    (hdirectory : store.find? directory = some .directory) :
    store.makeTemporary naming path = .ok (directory ++ [naming store directory],
      store.set (directory ++ [naming store directory]) (.file [])) := by
  rw [makeTemporary, h]
  simp only [bind, Except.bind, hdirectory, pure, Except.pure]

/-- A temporary file can be made beside a path at which a file can be put. So when none can be
made, and not for a fault, the path takes no file. -/
theorem not_takes_of_makeTemporary {name : SystemCall} {reason : Text}
    (hspared : faults name = none)
    (h : call faults name (store.makeTemporary naming (parentPath path)) = .error reason) :
    ¬ store.Takes path := by
  rintro ⟨⟨directory, hlocate, hdirectory⟩, -⟩
  rw [call_eq_ok_iff.2 ⟨hspared, makeTemporary_of_directory hlocate hdirectory⟩] at h
  cases h

theorem withTemporary_of_makeTemporary {begun : Store} (hnaming : naming.IsFree)
    (h : store.makeTemporary naming path = .ok (temporary, begun)) :
    WithTemporary store temporary [] begun := by
  cases hlocate : store.locate path with
  | error reason =>
    rw [makeTemporary, hlocate] at h
    cases h
  | ok directory =>
    by_cases hdirectory : store.find? directory = some .directory
    · rw [makeTemporary_of_directory hlocate hdirectory] at h
      cases h
      exact withTemporary_set (hnaming store directory) []
    · -- nothing is made in what is no directory
      rw [makeTemporary, hlocate] at h
      simp only [bind, Except.bind] at h
      split at h
      · cases h
      · cases h
      · contradiction

theorem WithTemporary.fillAndRename_eq_ok_iff
    (h : WithTemporary store temporary bytes other) {renamed : Store} :
    other.fillAndRename faults temporary path content = .ok renamed ↔
      (∀ call ∈ [SystemCall.writeResult, .flushResult, .renameResult], faults call = none) ∧
        ∃ target, store.locate path = .ok target ∧ store.find? target ≠ some .directory ∧
          renamed = store.set target (.file (encodeBytes content)) := by
  rw [fillAndRename, ← (h.fill (encodeBytes content)).rename_eq_ok_iff]
  cases hwrite : faults .writeResult with
  | some reason => simp [call, hwrite, bind, Except.bind]
  | none =>
    cases hflush : faults .flushResult with
    | some reason => simp [call, hwrite, hflush, bind, Except.bind]
    | none =>
      cases hrename : faults .renameResult with
      | some reason => simp [call, hwrite, hflush, hrename, bind, Except.bind]
      | none => simp [call, hwrite, hflush, hrename, bind, Except.bind]

/-- **A text is put into a file, or nothing is changed.** The text is there already, so that of
the three cases the one without new content does not arise. -/
theorem allOrNothing_replaceFile (hnaming : naming.IsFree) (store : Store) (faults : Faults)
    (path content : Text) :
    AllOrNothing store faults replacingCalls path (.ok content)
      (store.replaceFile naming faults path content) := by
  unfold replaceFile
  -- Each call is an exit. The file is made first; without it the store is as it was, and with it
  -- the store differs by this file alone.
  cases hmake : call faults .makeResult (store.makeTemporary naming (parentPath path)) with
  | error reason =>
    refine .refused fun ⟨hall, htakes⟩ => ?_
    have hspared := hall .makeResult (by simp [replacingCalls])
    exact not_takes_of_makeTemporary hspared hmake htakes
  | ok made =>
    obtain ⟨temporary, begun⟩ := made
    obtain ⟨hspared, hmade⟩ := call_eq_ok_iff.1 hmake
    have hbegun := withTemporary_of_makeTemporary hnaming hmade
    dsimp only
    cases hrenamed : begun.fillAndRename faults temporary path content with
    | error reason =>
      -- a later call failed: the file is deleted, and had none of the calls failed and the path
      -- taken a file, it would have been renamed
      simp only [hbegun.delete]
      refine .refused ?_
      rintro ⟨hall, -, target, htarget, hfile⟩
      have hdone : begun.fillAndRename faults temporary path content =
          .ok (store.set target (.file (encodeBytes content))) :=
        hbegun.fillAndRename_eq_ok_iff.2
          ⟨fun call hcall => hall call (List.mem_cons_of_mem _ hcall), target, htarget, hfile, rfl⟩
      rw [hrenamed] at hdone
      cases hdone
    | ok renamed =>
      obtain ⟨hlater, target, htarget, hfile, rfl⟩ := hbegun.fillAndRename_eq_ok_iff.1 hrenamed
      exact .changed rfl (List.forall_mem_cons.2 ⟨hspared, hlater⟩) (changed_set htarget hfile)

theorem allOrNothing_renderFile (hnaming : naming.IsFree) (store : Store) (faults : Faults)
    (values : Record) (template path : Text) :
    AllOrNothing store faults replacingCalls path
      (store.readText template >>= Document.render .standard values)
      (store.renderFile faults values template path naming) := by
  unfold renderFile
  cases hwork : store.readText template >>= Document.render .standard values with
  | error e => exact .failed rfl
  | ok document => exact allOrNothing_replaceFile hnaming store faults path document

/-- A file that can be read is at a place that takes a file. -/
theorem exists_of_readText {old : Text} (h : store.readText path = .ok old) :
    ∃ target content, store.locate path = .ok target ∧
      store.find? target = some (.file content) := by
  unfold readText readFile at h
  -- reading fails at every exit but the one where a file is
  cases hlocate : store.locate path with
  | error reason =>
    rw [hlocate] at h
    cases h
  | ok target =>
    rw [hlocate] at h
    simp only [bind, Except.bind] at h
    cases hthere : store.find? target with
    | none =>
      rw [hthere] at h
      cases h
    | some entry =>
      cases entry with
      | directory =>
        rw [hthere] at h
        cases h
      | file content => exact ⟨target, content, rfl, hthere⟩

/-- **A change beside a temporary file is a change without it.** The file that is revised was
there before the temporary one, so that the two are at different locations. -/
theorem WithTemporary.changed (h : WithTemporary store temporary bytes other) {after : Store}
    {old : Text} (hold : store.readText path = .ok old)
    (hchanged : Changed other path content after) :
    Changed store path content (after.delete temporary) := by
  obtain ⟨target, bytes', htarget, hthere⟩ := exists_of_readText hold
  obtain ⟨⟨place, hplace, hfile, rfl⟩, -, -⟩ := hchanged
  obtain rfl : target = place := by
    rw [← locate_eq_ok_iff h.sameDirectories, hplace] at htarget
    exact (Except.ok.inj htarget).symm
  have hne : target ≠ temporary := by
    rintro rfl
    rw [h.fresh] at hthere
    cases hthere
  rw [delete_set_comm hne, h.delete]
  exact changed_set htarget (by simp [hthere])

/-- Beside a copy that is taken away after it, a file is revised or nothing is changed. All exits
end with the copy deleted, and so what is compared is the store without it. -/
theorem allOrNothing_reviseBesideCopy (hnaming : naming.IsFree) {old : Text}
    (hold : store.readText path = .ok old) (hcopy : WithTemporary store temporary bytes other)
    (hspared : faults .makeCopy = none) (values : Record) :
    AllOrNothing store faults revisingCalls path (Document.revise .standard values old)
      ((other.reviseBesideCopy naming faults temporary path old values).1,
        (other.reviseBesideCopy naming faults temporary path old values).2.delete temporary) := by
  -- The copy is filled first. From then on the store is the one before with the copy more, and
  -- what putting the new text into the file makes of it is known already.
  have hcopied := hcopy.fill (encodeBytes old)
  unfold reviseBesideCopy
  cases hwrite : faults .writeCopy with
  | some reason =>
    simp only [call, hwrite, hcopy.delete]
    refine .refused fun hall => ?_
    have hnone := hall.1 .writeCopy (by simp [revisingCalls])
    rw [hwrite] at hnone
    cases hnone
  | none =>
    simp only [call, hwrite]
    cases hwork : Document.revise .standard values old with
    | error e =>
      simp only [hcopied.delete]
      exact .failed rfl
    | ok document =>
      dsimp only
      have hreplaced := allOrNothing_replaceFile hnaming
        (other.set temporary (.file (encodeBytes old))) faults path document
      -- its three outcomes, one of which cannot be, are those of the whole
      generalize replaceFile _ naming faults path document = outcome at hreplaced ⊢
      cases hreplaced with
      | changed hdone hlater hchanged =>
        cases hdone
        refine .changed rfl ?_ (hcopied.changed hold hchanged)
        exact List.forall_mem_cons.2 ⟨hspared, List.forall_mem_cons.2 ⟨hwrite, hlater⟩⟩
      | failed hundone => cases hundone
      | refused hcause =>
        simp only [hcopied.delete]
        -- what was refused beside the copy would be refused without it, as the directories are
        -- the same
        refine .refused fun ⟨hall, htakes⟩ => hcause ⟨fun call hcall => ?_, ?_⟩
        · exact hall call (List.mem_append_right _ hcall)
        · exact hcopied.sameDirectories.takes_iff.2 htakes

theorem allOrNothing_reviseFile (hnaming : naming.IsFree) (store : Store) (faults : Faults)
    (values : Record) (path : Text) :
    AllOrNothing store faults revisingCalls path
      (store.readText path >>= Document.revise .standard values)
      (store.reviseFile faults path values naming) := by
  unfold reviseFile
  -- Without a text to revise nothing is made; after that the copy is the first file made, and the
  -- last one deleted.
  cases hread : store.readText path with
  | error e => exact .failed rfl
  | ok old =>
    dsimp only
    cases hmake : call faults .makeCopy (store.makeTemporary naming (parentPath path)) with
    | error reason =>
      refine .refused fun ⟨hall, htakes⟩ => ?_
      have hspared := hall .makeCopy (by simp [revisingCalls])
      exact not_takes_of_makeTemporary hspared hmake htakes
    | ok made =>
      obtain ⟨copy, begun⟩ := made
      obtain ⟨hspared, hmade⟩ := call_eq_ok_iff.1 hmake
      have hbegun := withTemporary_of_makeTemporary hnaming hmade
      exact allOrNothing_reviseBesideCopy hnaming hread hbegun hspared values

end

/-- **Files are changed as a whole or not at all.**  Whatever the store is and whichever calls to
the system fail, a file that is revised, or that a template is rendered into, has its new content
and nothing else is changed, or the store is the one before.  Of the names of temporary files only
this is used: nothing has them before; and the numbers that are given unless another naming is
chosen are of that kind. -/
theorem files_allOrNothing (store : Store) (faults : Faults) (values : Record) (path : Text) :
    Naming.numbered.IsFree ∧
      ∀ naming : Naming, naming.IsFree →
        AllOrNothing store faults revisingCalls path
            (store.readText path >>= Document.revise .standard values)
            (store.reviseFile faults path values naming) ∧
          ∀ template, AllOrNothing store faults replacingCalls path
            (store.readText template >>= Document.render .standard values)
            (store.renderFile faults values template path naming) := by
  refine ⟨Naming.isFree_numbered, fun naming hnaming => ⟨?_, fun template => ?_⟩⟩
  · exact allOrNothing_reviseFile hnaming store faults values path
  · exact allOrNothing_renderFile hnaming store faults values template path

/-- A file, and beside it one with the first number of temporary files. -/
def crowdedStore : Store :=
  ⟨[([['a']], .file (encodeBytes "<!--\x7b\x7ba\x7d\x7d-->\nx\n".toList)),
    ([Naming.numberedName 0], .file [])]⟩

/-- The result cannot take the file's name, after both temporary files were made and filled. It is
the last call that can fail, and the one with the most to be undone. -/
def renameDenied : Faults := fun call =>
  if call = .renameResult then some "denied".toList else none

theorem allOrNothing_renameDenied :
    Naming.numbered.IsFree ∧
      AllOrNothing crowdedStore renameDenied revisingCalls ['a']
        (crowdedStore.readText ['a'] >>= Document.revise .standard
          [(['a'], .scalar (.text ['y']))])
        (crowdedStore.reviseFile renameDenied ['a'] [(['a'], .scalar (.text ['y']))]) ∧
      crowdedStore.reviseFile renameDenied ['a'] [(['a'], .scalar (.text ['y']))] =
        (.error (.write ['a'] "denied".toList), crowdedStore) := by
  have hfiles := files_allOrNothing crowdedStore renameDenied [(['a'], .scalar (.text ['y']))] ['a']
  exact ⟨hfiles.1, (hfiles.2 .numbered Naming.isFree_numbered).1, by decide +kernel⟩

end Store

end FieldedText
