/-
FieldedText/Proofs/NoPanic.lean

No pipeline panics.

Rendering, reading and revision with checked accesses have the outcome that they have
without (`render_eq`, `read_eq`, `revise_eq`), and that is a result or an error.  The
parts were shown to have theirs one by one; here a record is shown to hold a scope
wherever one is stored in, and the steps from block to block are put together.
-/
import FieldedText.Checked.Document
import FieldedText.Proofs.CheckedBody
import FieldedText.Proofs.CheckedFraming
import FieldedText.Proofs.Merge
import FieldedText.Proofs.Rendering

namespace FieldedText.Checked

open Template (holeText)

variable {t tail : Text}

/-! ### Storing -/

/-- A scope is there once it has been put there. -/
theorem get?_withScope (r : Record) (name : Name) :
    (withScope r name).get? name = some (.record (r.scopeUnder name)) := by
  rw [withScope, Record.scopeUnder]
  cases hget : r.get? name with
  | none => simp [Record.get?_insert]
  | some value =>
    cases value with
    | scalar s => simp [Record.get?_insert]
    | record inner => exact hget

theorem insert_withScope (r : Record) (name : Name) (value : Value) :
    (withScope r name).insert name value = r.insert name value := by
  rw [withScope]
  split
  · rfl
  · exact Record.insert_insert ..
  · exact Record.insert_insert ..

/-- **A value is stored where a path leads, whatever is on the way.** A scope is put under a name
before it is looked up there, so the lookup cannot fail, and a scalar that was there gives way. -/
theorem changeScope_eq (change : Record → Record) (r : Record) (names : List Name) :
    changeScope change r names = .ok (r.changeScope change names) := by
  induction names generalizing r with
  | nil => rfl
  | cons name names ih =>
    simp only [changeScope, get?_withScope, ih, bind_ok, insert_withScope, pure_eq,
      Record.changeScope]

theorem put_eq (r : Record) (path : Text) (value : Value) :
    put r path value = .ok (r.put path value) :=
  changeScope_eq ..

/-! ### Rendering -/

/-- **A template is filled with the values of its placeholders**, here from the ones that follow
`pre`, unless one of them cannot be framed. -/
theorem fill_supply (settings : Settings) (values : Record) (n : Nat) (tail : Text)
    {all : List Hole} (htokens : ∀ hole ∈ all, hole.placeholder.IsToken) (pre holes : List Hole)
    (hall : all = pre ++ holes) (body : Text) :
    fill (Template.text ⟨all, tail⟩)
        (supply settings values n (Template.text ⟨all, tail⟩) (placesFrom 0 all))
        (Text.byteLength (pre.flatMap holeText)) body
        ((placesFrom (Text.byteLength (pre.flatMap holeText)) holes).zipIdx pre.length) =
      done ((Document.slotsFrom settings values n tail (pre.flatMap holeText) holes).map
        fun slots => (body ++ Body.text ⟨slots, tail⟩, placedFrom body.byteLength slots)) := by
  -- By induction on the placeholders that are left. What stands before them is fixed in two
  -- forms, as the holes `pre` in the template and as the text `body` that has been written for
  -- them, and each step moves one hole from the one side to the other.
  induction holes generalizing pre body with
  | nil =>
    refine (fill_nil ?_).trans rfl
    rw [hall, List.append_nil]
    rfl
  | cons hole holes ih =>
    -- the framings that are computed from offsets are those of the text around this hole
    have hframings : framings (Template.text ⟨all, tail⟩) (placesFrom 0 all) pre.length
        settings.delimiter n =
          done ((surroundingsAt pre hole holes tail).candidates settings.delimiter n) := by
      rw [hall]
      exact framings_eq (hall ▸ htokens) tail settings.delimiter n
    rw [placesFrom, List.zipIdx_cons, Document.slotsFrom_cons]
    change _ = done (Except.map _
      ((surroundingsAt pre hole holes tail).candidates settings.delimiter n >>= _))
    -- where it cannot be framed, both sides stop with the same error
    cases hcandidates : (surroundingsAt pre hole holes tail).candidates settings.delimiter n with
    | error e =>
      rw [fill, supply, hframings, hcandidates]
      rfl
    | ok candidates =>
      rw [hcandidates, done_ok] at hframings
      -- The template is cut where the filler looks next: what is before this hole, its lead and
      -- token, and the rest.
      have htext : Template.text ⟨all, tail⟩ = pre.flatMap holeText ++ hole.lead ++
          hole.placeholder.token ++ Template.text ⟨holes, tail⟩ := by
        rw [hall]
        exact (textAround_surroundingsAt pre hole holes tail).symm
      have hpre : (pre ++ [hole]).flatMap holeText =
          pre.flatMap holeText ++ hole.lead ++ hole.placeholder.token := by
        simp [holeText]
      -- the rest, once this hole has joined those before it and its value the text written so far
      have hlater := ih (pre ++ [hole]) (by rw [hall]; simp)
        (body ++ hole.lead ++ Document.renderedValue settings values hole.placeholder.name)
      rw [hpre, List.length_append, List.length_singleton] at hlater
      rw [fill_cons (by rw [supply, hframings]; rfl) rfl htext]
      simp only [Text.byteLength_append] at hlater ⊢
      rw [hlater]
      cases Document.slotsFrom settings values n tail
        (pre.flatMap holeText ++ hole.lead ++ hole.placeholder.token) holes with
      | error e => rfl
      | ok slots => simp [Except.map, placedFrom, Body.text, Slot.text]

theorem renderText_eq (settings : Settings) (values : Record) (n : Nat) (t : Text) :
    renderText settings values n t = done (Document.renderText settings values n t) := by
  have htext : Template.text ⟨(Template.ofText t).holes, (Template.ofText t).tail⟩ = t :=
    Template.text_ofText t
  have hfill : fill t (supply settings values n t (placesOf t)) 0 [] (placesOf t).zipIdx =
      done ((Document.slotsFrom settings values n (Template.ofText t).tail []
        (Template.ofText t).holes).map fun slots =>
          (Body.text ⟨slots, (Template.ofText t).tail⟩, placedFrom 0 slots)) := by
    have hall := fill_supply settings values n (Template.ofText t).tail
      (fun hole hhole => ((Template.isCut_ofText t).holes hole hhole).2) []
      (Template.ofText t).holes rfl []
    rwa [htext] at hall
  rw [renderText, Document.renderText, Document.renderedBody, hfill]
  cases Document.slotsFrom settings values n (Template.ofText t).tail []
    (Template.ofText t).holes with
  | error e => rfl
  | ok slots =>
    have hverify := verify_eq settings.comment n ⟨slots, (Template.ofText t).tail⟩
    simp only [Except.map, done_ok, bind_ok, hverify, done_bind, pure_eq]

theorem renderList_eq (settings : Settings) (values : Record) (n : Nat) (t path separator : Text) :
    renderList settings values n t path separator =
      done (Document.renderList settings values n t path separator) := by
  rw [renderList, Document.renderList, mapM_done fun ordinal => renderText_eq ..]
  simp only [done_bind, done_ok, pure_eq]

theorem names_placesOf (t : Text) : (placesOf t).map Place.name = (Template.ofText t).names :=
  map_name_placesFrom ..

theorem renderBlock_eq (settings : Settings) (values : Record) (block : Block) :
    renderBlock settings values block = done (Document.renderBlock settings values block) := by
  rw [renderBlock, Document.renderBlock, names_placesOf]
  cases (Template.ofText block.text).names with
  | nil => rfl
  | cons name names =>
    simp only [prefixFrom_eq, ListTemplate.listPath]
    cases ListTemplate.prefixFrom block.textLine none (name :: names) with
    | error e => rfl
    | ok path =>
      cases path with
      | none => simp only [done_ok, bind_ok, renderText_eq, done_bind, pure_eq]
      | some path => simp only [done_ok, bind_ok, renderList_eq, done_bind, pure_eq]

theorem renderSegment_eq (settings : Settings) (values : Record) (segment : Segment) :
    renderSegment settings values segment =
      done (Document.renderSegment settings values segment) := by
  cases segment with
  | directive directive raw line => rfl
  | block block => exact renderBlock_eq settings values block

theorem render_eq (settings : Settings) (values : Record) (template : Text) :
    render settings values template = done (Document.render settings values template) := by
  rw [render, Document.render, scan_eq]
  cases settings.scan template with
  | error e => rfl
  | ok settings =>
    simp only [done_ok, bind_ok, Segmentation.ofText_eq, Segmentation.complete_done, done_bind,
      pure_eq, ← mapM_done (renderSegment_eq settings values)]
    rfl

/-! ### Reading -/

/-- The values that were found in a text are sliced out of it and stored. -/
theorem foldlM_put {slots : List Slot} (before : Text)
    (htext : t = before ++ Body.text ⟨slots, tail⟩) (r : Record) :
    (placedFrom before.byteLength slots).foldlM (fun values found => do
        let value ← slice t found.extent.start found.extent.stop
        put values found.name (.scalar (.text value))) r =
      .ok (slots.foldl (fun r slot => r.put slot.name (.scalar (.text slot.value))) r) := by
  induction slots generalizing before r with
  | nil => rfl
  | cons slot slots ih =>
    have hsplit := eq_of_text_cons htext
    have hlater := ih _ hsplit (r.put slot.name (.scalar (.text slot.value)))
    simp only [Text.byteLength_append] at hlater
    rw [placedFrom, List.foldlM_cons]
    simp only [slice_value hsplit, bind_ok]
    rw [put_eq, bind_ok, hlater, List.foldl_cons]

/-- The values that the specs of a block find in it. -/
theorem locateAll_block (block : Block) :
    locateAll block.text 0 block.specs =
      .ok (placedFrom 0 (Body.locate [] block.specs block.text).slots) :=
  locateAll_eq [] block.text block.specs

theorem readBlock_eq (block : Block) : readBlock block = .ok (Document.readBlock block) := by
  rw [readBlock, locateAll_block, bind_ok]
  exact foldlM_put [] (Body.text_locate [] block.specs block.text).symm []

theorem readSegment_eq (r : Record) (segment : Segment) :
    readSegment r segment = .ok (Document.readSegment r segment) := by
  cases segment with
  | directive directive raw line => rfl
  | block block =>
    rw [readSegment, Document.readSegment]
    by_cases h : block.specs = []
    · rw [if_pos h, if_pos h]
    · rw [if_neg h, if_neg h, readBlock_eq]
      rfl

theorem foldlM_readSegment (segments : List Segment) (r : Record) :
    segments.foldlM readSegment r = .ok (segments.foldl Document.readSegment r) := by
  induction segments generalizing r with
  | nil => rfl
  | cons segment segments ih => rw [List.foldlM_cons, readSegment_eq, bind_ok, ih, List.foldl_cons]

theorem read_eq (settings : Settings) (document : Text) :
    read settings document = done (Document.read settings document) := by
  rw [read, Document.read, scan_eq]
  cases settings.scan document with
  | error e => rfl
  | ok settings =>
    simp only [done_ok, bind_ok, Segmentation.ofText_eq, Segmentation.complete_done,
      foldlM_readSegment, done_bind, pure_eq]
    rfl

/-! ### Revision -/

theorem sectionOf_eq (template : Text) (n : Nat) :
    sectionOf template n = done (ListSection.ofTemplate template n) := by
  rw [sectionOf, ListSection.ofTemplate, names_placesOf, prefixFrom_eq]
  simp only [ListTemplate.listPath, done_bind, done_ok, pure_eq]

theorem openSection_eq (directive : Directive) (n : Nat) :
    openSection directive n = done (Document.openSection directive n) := by
  cases directive with
  | listTemplate template => exact sectionOf_eq template n
  | _ => rfl

theorem closeSection_eq (settings : Settings) (values : Record) (current : Option ListSection) :
    closeSection settings values current =
      done (Document.closeSection settings values current) := by
  cases current with
  | none => rfl
  | some list =>
    simp only [closeSection, Document.closeSection, renderedSection, ListSection.rendered,
      renderList_eq, done_bind, done_ok, pure_eq]

theorem reviseBlock_eq (settings : Settings) (values : Record) (block : Block) :
    reviseBlock settings values block = done (Document.reviseBlock settings values block) := by
  generalize hbody : Body.locate [] block.specs block.text = body
  have htext : block.text = [] ++ Body.text ⟨body.slots, body.tail⟩ := by
    rw [← hbody]
    exact (Body.text_locate [] block.specs block.text).symm
  have hfill : fill block.text (renew (Document.revisedValue values)) 0 []
      (placedFrom 0 body.slots) = .ok ((body.fill (Document.revisedValue values)).text,
        placedFrom 0 (body.fill (Document.revisedValue values)).slots) :=
    fill_renew (Document.revisedValue values) [] [] htext
  rw [reviseBlock, Document.reviseBlock, locateAll_block, hbody]
  by_cases h : block.specs = []
  · rw [if_pos h, if_pos h, done_ok]
  · simp only [if_neg h, bind_ok, hfill, verify_eq, done_bind, done_ok, pure_eq]

theorem reviseFrom_eq (settings : Settings) (values : Record) (failure : Except Error Unit)
    (current : Option ListSection) (segments : List Segment) :
    reviseFrom settings values (done failure) current segments =
      done (Document.reviseFrom settings values failure current segments) := by
  induction segments generalizing current with
  | nil => simp only [reviseFrom, Document.reviseFrom, closeSection_eq, done_bind]
  | cons segment segments ih =>
    cases segment with
    | directive directive raw line =>
      simp only [reviseFrom, Document.reviseFrom, closeSection_eq, openSection_eq, ih, done_bind,
        done_ok, pure_eq]
    | block block =>
      rw [reviseFrom, Document.reviseFrom]
      cases current.bind fun list => list.take? block with
      | some list => exact ih (some list)
      | none =>
        simp only [closeSection_eq, reviseBlock_eq, ih, done_bind, done_ok, pure_eq]

theorem revise_eq (settings : Settings) (values : Record) (document : Text) :
    revise settings values document = done (Document.revise settings values document) := by
  rw [revise, Document.revise, scan_eq]
  cases settings.scan document with
  | error e => rfl
  | ok settings =>
    simp only [done_ok, bind_ok, Segmentation.ofText_eq, Segmentation.complete_done]
    exact reviseFrom_eq settings values _ none _

/-! ### All pipelines -/

/-- The values that specs find in a text stand within it, one behind the other. -/
theorem exists_locateAll (t : Text) (specs : List FieldSpec) :
    ∃ found, locateAll t 0 specs = .ok found ∧
      (found.Pairwise fun p q => p.extent.stop ≤ q.extent.start) ∧
      ∀ p ∈ found, p.extent.start ≤ p.extent.stop ∧ p.extent.stop ≤ t.byteLength := by
  refine ⟨_, locateAll_eq [] t specs, placedFrom_ascending _ _, fun p hp => ?_⟩
  obtain ⟨-, hle, hwithin⟩ := placedFrom_within hp
  have hsize := congrArg Text.byteLength (Body.text_locate [] specs t)
  rw [Body.text, Text.byteLength_append] at hsize
  rw [Text.byteLength_nil] at hwithin
  exact ⟨hle, by omega⟩

/-- **No pipeline panics.** Rendering, reading and revision with checked accesses end as they do
with texts cut in pieces, in a result or an error: every slice is within its text and between
characters, no search begins outside, no list is asked for a member that it does not have, no
closed block is given more text, the reading of a header goes on in every round, and a value is
stored in a record. What the specs of a block find is within its text, in ascending order and
apart. -/
theorem never_panics (settings : Settings) (values : Record) (document : Text) :
    render settings values document = done (Document.render settings values document) ∧
      read settings document = done (Document.read settings document) ∧
      revise settings values document = done (Document.revise settings values document) ∧
      (∀ panic, render settings values document ≠ .error (.panic panic) ∧
        read settings document ≠ .error (.panic panic) ∧
        revise settings values document ≠ .error (.panic panic)) ∧
      ∀ (t : Text) (specs : List FieldSpec), ∃ found, locateAll t 0 specs = .ok found ∧
        (found.Pairwise fun p q => p.extent.stop ≤ q.extent.start) ∧
        ∀ p ∈ found, p.extent.start ≤ p.extent.stop ∧ p.extent.stop ≤ t.byteLength := by
  have hrender := render_eq settings values document
  have hread := read_eq settings document
  have hrevise := revise_eq settings values document
  refine ⟨hrender, hread, hrevise, fun panic => ?_, exists_locateAll⟩
  rw [hrender, hread, hrevise]
  exact ⟨done_ne_panic _ panic, done_ne_panic _ panic, done_ne_panic _ panic⟩

end FieldedText.Checked
