/-
FieldedText/Proofs/SelfRevision.lean

Revision of a document with the data that is read from it.

Reading puts what the specs find in each block under the names of their fields
(`holds_foldl_foundEntries`).  When no name is the beginning of another one's, all of
it is still there at the end, and so every block has the values of the data already
(`current_of_holds`).  Then each text is filled with the values that stand in it, and
the whole document is revised to itself (`revise_read`).  It does not matter what the
document looks like: a spec that finds nothing has no part in this, and a header
without text stays without it.
-/
import FieldedText.Proofs.Idempotence
import FieldedText.Proofs.ReadBack

namespace FieldedText

/-- The slots of a text are named after specs, in their order. -/
theorem Body.sublist_map_name_locate {before t : Text} {specs : List FieldSpec} :
    ((locate before specs t).slots.map Slot.name).Sublist (specs.map FieldSpec.name) := by
  induction specs generalizing before t with
  | nil => exact List.Sublist.refl []
  | cons spec specs ih =>
    cases hlocate : spec.delimiter.locate? before t with
    | none =>
      rw [locate_cons_of_none hlocate]
      exact ih.cons spec.name
    | some piece =>
      obtain ⟨lead, value, rest⟩ := piece
      rw [locate_cons_of_locate? hlocate]
      exact ih.cons_cons spec.name

namespace Document

variable {settings scanned : Settings} {values : Record} {document : Text} {block : Block}
  {segment : Segment} {segments : List Segment}

theorem Separate.of_sublist {names more : List Name} (h : Separate more)
    (hnames : names.Sublist more) : Separate names :=
  ⟨fun name hname => h.parts name (hnames.subset hname),
    h.apart.sublist (hnames.map Path.names)⟩

/-- What is found in segments is found under names of their fields. -/
theorem sublist_map_fst_foundEntries (segments : List Segment) :
    ((segments.flatMap foundEntries).map Prod.fst).Sublist (segments.flatMap fieldNames) := by
  induction segments with
  | nil => exact List.Sublist.refl []
  | cons segment segments ih =>
    rw [List.flatMap_cons, List.flatMap_cons, List.map_append]
    refine List.Sublist.append ?_ ih
    cases segment with
    | directive found raw line => exact List.Sublist.refl []
    | block b =>
      rw [foundEntries, List.map_map]
      exact Body.sublist_map_name_locate

/-- **A segment has the values of every record that holds what is found in it.** What else is in
the record does not matter, so the record of the whole document will do. -/
theorem current_of_holds {entries : List (Text × Text)} (hholds : values.Holds entries)
    (hentries : ∀ entry ∈ foundEntries segment, entry ∈ entries) : Current values segment := by
  cases segment with
  | directive found raw line => trivial
  | block b =>
    intro slot hslot
    have hfound := hholds.found _ (hentries _ (List.mem_map_of_mem hslot))
    rw [revisedValue, Record.scalarAt?, Record.lookup, hfound]
    rfl

/-- A block with the values of the data gets the text that it has. -/
theorem Current.revisedText_eq (h : Current values (.block block)) :
    revisedText values block = block.text := by
  rw [revisedText, Body.fill_eq_self h, Body.text_locate]

/-- **A document is revised to itself with its own data**, if it has no lists, and the names of
its fields are separate. It need not come from a template. -/
theorem revise_read (hread : read settings document = .ok values)
    (hscan : settings.scan document = .ok scanned)
    (hunlisted : ∀ segment ∈ (Segmentation.ofText scanned.comment document).segments,
      Unlisted segment)
    (hparts : ∀ name ∈ (Segmentation.ofText scanned.comment document).segments.flatMap fieldNames,
      ∀ part ∈ Path.names name, part ≠ [])
    (hapart : (((Segmentation.ofText scanned.comment document).segments.flatMap fieldNames).map
      Path.names).Pairwise Path.Apart) :
    revise settings values document = .ok document := by
  have hseparate : Separate _ := ⟨hparts, hapart⟩
  obtain ⟨scanned', segments, hscan', hsegments, hvalues⟩ := read_eq_ok_iff.1 hread
  obtain rfl : scanned' = scanned := Except.ok.inj (hscan'.symm.trans hscan)
  rw [hsegments] at hunlisted hseparate
  -- the data holds what is found in the segments, and so each of them is revised to itself
  have hholds : (segments.foldl readSegment []).Holds ([] ++ segments.flatMap foundEntries) :=
    holds_foldl_foundEntries (hseparate.of_sublist (sublist_map_fst_foundEntries segments))
      Record.holds_nil
  rw [hvalues, List.nil_append] at hholds
  have hcurrent : ∀ segment ∈ segments, Current values segment := fun segment hsegment =>
    current_of_holds hholds fun entry hentry => List.mem_flatMap.2 ⟨segment, hsegment, hentry⟩
  obtain ⟨hchain, rfl⟩ := Segmentation.chain_of_ofText hsegments
  refine (revise_eq_self_iff hchain hscan hunlisted fun _ => ?_).2 hcurrent
  refine fits_of_forall fun b hb => ?_
  rw [(hcurrent (.block b) hb).revisedText_eq]
  exact ne_or_eq b.text []

/-- A document with its own comment framing, a value over two lines, a spec that finds nothing, a
header without text, a carriage return before some line ends, and a last line without one. -/
def framedDocument : Text :=
  "# \x7b@template.comment\x7d\x7d #\n".toList ++
    "# \x7b\x7ba.b:pattern=\"[%s]\"\x7d\x7d \x7b\x7be:pattern=\"<%s>\"\x7d\x7d #\r\n".toList ++
    "See [me\nor you] here.\r\n\r\n".toList ++
    "# \x7b\x7bc\x7d\x7d #\n# \x7b\x7bd\x7d\x7d #\nBye".toList

theorem revise_read_framed :
    read .standard framedDocument =
      .ok [("a".toList, .record [("b".toList, .scalar (.text "me\nor you".toList))]),
        ("c".toList, .scalar (.text [])), ("d".toList, .scalar (.text "Bye".toList))] ∧
    revise .standard
        [("a".toList, .record [("b".toList, .scalar (.text "me\nor you".toList))]),
          ("c".toList, .scalar (.text [])), ("d".toList, .scalar (.text "Bye".toList))]
        framedDocument =
      .ok framedDocument := by
  have hscan : Settings.standard.scan framedDocument =
      .ok { Settings.standard with comment := ⟨"# ".toList, " #".toList⟩ } := by
    decide +kernel
  refine (fun hread => ⟨hread, revise_read hread hscan ?_ ?_ ?_⟩) ?_
  all_goals decide +kernel

end Document

end FieldedText
