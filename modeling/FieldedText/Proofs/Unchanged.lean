/-
FieldedText/Proofs/Unchanged.lean

Blocks that revision leaves as they are.

A block of a document is revised to itself exactly when every value that its specs
find is the one that the data has for its field (`reviseBlock_eq_raw_iff`).  In one
direction the new body is the old one, and what was found in it is found again.  In
the other, the specs find the new values in the same text in which they found the old
ones, and so the values are the same.

The specs that find a value in a text are a list of their own (`Body.finding`), since
a spec that finds none is passed over, and is not looked at when the new body is
verified.
-/
import FieldedText.Proofs.Revision

namespace FieldedText

namespace Body

variable {before tail t : Text} {spec : FieldSpec} {specs : List FieldSpec} {body : Body} {n : Nat}
  {value : Name → Text}

/-- The specs that find a value in a text that follows `before`. Each one searches behind the
value of the one before it. -/
def finding (before : Text) : List FieldSpec → Text → List FieldSpec
  | [], _ => []
  | spec :: specs, text =>
    match spec.delimiter.locate? before text with
    | none => finding before specs text
    | some (lead, value, rest) => spec :: finding (before ++ lead ++ value) specs rest

theorem finding_cons_of_none (h : spec.delimiter.locate? before t = none) :
    finding before (spec :: specs) t = finding before specs t := by
  rw [finding, h]

theorem finding_cons_of_some {lead found rest : Text}
    (h : spec.delimiter.locate? before t = some (lead, found, rest)) :
    finding before (spec :: specs) t = spec :: finding (before ++ lead ++ found) specs rest := by
  rw [finding, h]

theorem locate_cons_of_none (h : spec.delimiter.locate? before t = none) :
    locate before (spec :: specs) t = locate before specs t := by
  rw [locate, h]

/-- Nothing changes when every value is put where it is already. -/
theorem fill_eq_self (h : ∀ slot ∈ body.slots, slot.value = value slot.name) :
    body.fill value = body := by
  have hslots : body.slots.map (fun slot => { slot with value := value slot.name }) =
      body.slots := by
    conv => rhs; rw [← List.map_id body.slots]
    apply List.map_congr_left
    intro slot hslot
    rw [← h slot hslot]
    rfl
  rw [fill, hslots]

/-- **What specs find in a text they find there again.** -/
theorem specsFrom_locate :
    specsFrom n before (locate before specs t).tail (locate before specs t).slots =
      .ok (finding before specs t) := by
  induction specs generalizing before t with
  | nil => rfl
  | cons spec specs ih =>
    cases hlocate : spec.delimiter.locate? before t with
    | none =>
      rw [locate_cons_of_none hlocate, finding_cons_of_none hlocate]
      exact ih
    | some found =>
      obtain ⟨lead, found, rest⟩ := found
      rw [locate_cons_of_locate? hlocate, finding_cons_of_some hlocate]
      refine specsFrom_cons_eq_ok_iff.2 ⟨spec.delimiter, _, ?_, ih, rfl⟩
      -- the text after the value is what the later specs cut, put together again
      have hrest : text ⟨(locate (before ++ lead ++ found) specs rest).slots,
          (locate (before ++ lead ++ found) specs rest).tail⟩ = rest :=
        text_locate (before ++ lead ++ found) specs rest
      have hagain : findsAgain before ⟨lead, spec.name, found, [spec.delimiter]⟩ rest
          spec.delimiter = true := by
        rw [findsAgain, decide_eq_true_eq, Delimiter.locate?_append hlocate]
        exact hlocate
      rw [hrest, List.find?_cons_of_pos hagain]

/-- The first of the new values is found again before the others, where the old one was. The slot
of a value that was found in a text offers one delimiter only, that of the spec which found it. -/
theorem of_specsFrom_fill {found : List FieldSpec} {lead old rest : Text}
    (hlocate : spec.delimiter.locate? before t = some (lead, old, rest))
    (h : specsFrom n before (locate before (spec :: specs) t).tail
      ((locate before (spec :: specs) t).fill value).slots = .ok found) :
    spec.delimiter.locate? before (lead ++ value spec.name ++
        ((locate (before ++ lead ++ old) specs rest).fill value).text) =
      some (lead, value spec.name,
        ((locate (before ++ lead ++ old) specs rest).fill value).text) ∧
    ∃ later, specsFrom n (before ++ lead ++ value spec.name)
      (locate (before ++ lead ++ old) specs rest).tail
      ((locate (before ++ lead ++ old) specs rest).fill value).slots = .ok later := by
  rw [locate_cons_of_locate? hlocate] at h
  obtain ⟨delimiter, later, hfind, hlater, -⟩ := specsFrom_cons_eq_ok_iff.1 h
  obtain rfl : delimiter = spec.delimiter :=
    List.mem_singleton.1 (List.mem_of_find?_eq_some hfind)
  exact ⟨locate?_of_find hfind, later, hlater⟩

/-- **Values that are found again in the text that they were put into are those of the text**, if
it is the same as before. -/
theorem value_eq_of_specsFrom {found : List FieldSpec}
    (h : specsFrom n before (locate before specs t).tail
      ((locate before specs t).fill value).slots = .ok found)
    (htext : ((locate before specs t).fill value).text = t) :
    ∀ slot ∈ (locate before specs t).slots, slot.value = value slot.name := by
  induction specs generalizing before t found with
  | nil => simp [locate]
  | cons spec specs ih =>
    cases hlocate : spec.delimiter.locate? before t with
    | none =>
      rw [locate_cons_of_none hlocate] at h htext ⊢
      exact ih h htext
    | some piece =>
      obtain ⟨lead, old, rest⟩ := piece
      obtain ⟨hnew, later, hlater⟩ := of_specsFrom_fill hlocate h
      rw [locate_cons_of_locate? hlocate] at htext ⊢
      rw [text_fill_cons] at htext
      -- the new value stands in the same text, in which the spec finds the old one
      have hsame : some (lead, value spec.name,
          ((locate (before ++ lead ++ old) specs rest).fill value).text) =
            some (lead, old, rest) := by
        rw [← hlocate, ← hnew]
        exact congrArg (spec.delimiter.locate? before) htext
      obtain ⟨rfl, hrest⟩ : value spec.name = old ∧
          ((locate (before ++ lead ++ old) specs rest).fill value).text = rest := by
        simpa using hsame
      exact List.forall_mem_cons.2 ⟨rfl, ih hlater hrest⟩

/-- What a spec did not find is passed over, and makes no difference to the others. -/
theorem locate_finding : locate before (finding before specs t) t = locate before specs t := by
  induction specs generalizing before t with
  | nil => rfl
  | cons spec specs ih =>
    cases hlocate : spec.delimiter.locate? before t with
    | none =>
      rw [finding_cons_of_none hlocate, locate_cons_of_none hlocate]
      exact ih
    | some piece =>
      obtain ⟨lead, found, rest⟩ := piece
      rw [finding_cons_of_some hlocate, locate_cons_of_locate? hlocate,
        locate_cons_of_locate? hlocate, ih]

/-- The values that specs find can be framed in one way only, whatever is put in their place. -/
theorem eq_finding_of_chosen {chosen : List FieldSpec}
    (h : Chosen ((locate before specs t).fill value).slots chosen) :
    chosen = finding before specs t := by
  induction specs generalizing before t chosen with
  | nil =>
    cases h
    rfl
  | cons spec specs ih =>
    cases hlocate : spec.delimiter.locate? before t with
    | none =>
      rw [locate_cons_of_none hlocate] at h
      rw [finding_cons_of_none hlocate]
      exact ih h
    | some piece =>
      obtain ⟨lead, found, rest⟩ := piece
      rw [locate_cons_of_locate? hlocate] at h
      rw [finding_cons_of_some hlocate]
      cases h with
      | @cons _ first _ later hfirst hlater =>
        obtain ⟨name, delimiter⟩ := first
        obtain rfl : name = spec.name := hfirst.1
        -- only the delimiter that found the old value is offered for the new one
        obtain rfl : delimiter = spec.delimiter := List.mem_singleton.1 hfirst.2
        rw [ih hlater]

end Body

/-! ### Blocks -/

namespace Document

variable {settings : Settings} {values : Record} {block : Block}

/-- A segment that has the values of the data already. -/
abbrev Current (values : Record) : Segment → Prop :=
  Segment.Satisfies (fun _ => True) fun block =>
    ∀ slot ∈ (Body.locate [] block.specs block.text).slots,
      slot.value = revisedValue values slot.name

/-- **A block is revised to itself exactly when its values are those of the data.** -/
theorem reviseBlock_eq_raw_iff (hsound : block.Sound settings.comment) :
    reviseBlock settings values block = .ok block.raw ↔ Current values (.block block) := by
  by_cases hspecs : block.specs = []
  · have hslots : (Body.locate [] block.specs block.text).slots = [] := by
      rw [hspecs]
      rfl
    rw [reviseBlock_of_specs_eq_nil hspecs, Current, Segment.satisfies_block, hslots]
    simp
  · rw [reviseBlock_eq_ok_iff hspecs]
    constructor
    -- the new text is the old one, and in it the new values are found
    · rintro ⟨specs, hverify, hraw⟩
      rw [Block.raw, List.append_cancel_right_eq, List.append_cancel_left_eq] at hraw
      exact Body.value_eq_of_specsFrom (Body.verify_eq_ok_iff.1 hverify).2 hraw.symm
    -- the new body is the old one, which is prose and in which the old values are found
    · intro hcurrent
      have hbase : ∀ line ∈ Text.lines (Body.locate [] block.specs block.text).text,
          LineKind.Is settings.comment line .prose := by
        rw [Body.text_locate]
        exact hsound.text
      rw [Body.fill_eq_self hcurrent]
      refine ⟨Body.finding [] block.specs block.text, Body.verify_eq_ok_iff.2
        ⟨(Body.checkBlock_eq_ok_iff rfl rfl hbase).2 hbase, Body.specsFrom_locate⟩, ?_⟩
      rw [Body.text_locate]
      rfl

end Document

end FieldedText
