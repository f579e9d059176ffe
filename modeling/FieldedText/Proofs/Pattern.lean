/-
FieldedText/Proofs/Pattern.lean

Expressions, and what a search for them finds.

An expression is matched from a place in a text on.  It may be matched in
several ways, and these are tried one after the other: a lazy run is short
before it is long, a greedy one long before it is short, and of two
alternatives the first comes first.  `Pattern.ends` is the list of the places
where the expression may end, in this order, and a search takes the first of
them at the first place where there is any (`Pattern.search?`).

The anchors look at what stands before the place as well as at what follows, so
a search that goes on in the middle of a text is not a search in what is left.

Nearly all runs are runs of single characters.  Those end where a text can be
cut behind characters of the kind (`ends_many_one`).
-/
import Mathlib.Logic.Basic
import FieldedText.Text.Search

namespace FieldedText

/-- An expression that a text is searched for. -/
inductive Pattern where
  /-- The characters of a text, as they are. -/
  | mark (text : Text)
  /-- One character of a kind. -/
  | one (kind : Char → Bool)
  /-- One expression and then another. -/
  | seq (first next : Pattern)
  /-- One of two expressions, the first rather than the second. -/
  | either (first second : Pattern)
  /-- Any number of matches, as many or as few as possible. -/
  | many (greedy : Bool) (body : Pattern)
  /-- An expression whose match is kept under a number. -/
  | group (number : Nat) (body : Pattern)
  /-- The place before the first character of a line. -/
  | lineStart
  /-- The place behind the last character of a line. -/
  | lineEnd
  | textStart
  | textEnd

/-- A match that was kept. -/
structure Capture where
  number : Nat
  /-- The text up to the match, from its very beginning. -/
  lead : Text
  value : Text
  deriving DecidableEq

/-- A place in a text, and what was kept on the way to it. What stands before the place is kept as
well, since an anchor has to see it. -/
structure Cursor where
  before : Text
  rest : Text
  kept : List Capture
  deriving DecidableEq

namespace Cursor

/-- The cursor behind the next characters, which are given with what follows them. -/
def pass (cursor : Cursor) (passed rest : Text) : Cursor :=
  { cursor with before := cursor.before ++ passed, rest }

/-- The cursor with the text since an earlier one kept. -/
def keep (cursor : Cursor) (number : Nat) (opened : Cursor) : Cursor :=
  { cursor with kept :=
      ⟨number, opened.before, cursor.before.drop opened.before.length⟩ :: cursor.kept }

/-- The match that was last kept under a number. -/
def capture? (cursor : Cursor) (number : Nat) : Option Capture :=
  cursor.kept.find? fun kept => kept.number == number

/-- Whether all of the match begins behind the given text. -/
def begins (cursor : Cursor) (before : Text) : Bool :=
  (cursor.capture? 0).any fun kept => kept.lead == before

end Cursor

namespace Pattern

variable {p q : Pattern} {kind : Char → Bool} {b t u v : Text} {kept : List Capture}
  {c d : Cursor}

/-! ### Matching -/

/-- The ends of up to `fuel` matches in a row, each of at least one character. A match of the
empty text does not count, since a run could go on with it for ever. -/
def repeats (ends : Cursor → List Cursor) (greedy : Bool) : Nat → Cursor → List Cursor
  | 0, c => [c]
  | fuel + 1, c =>
    let longer := (ends c).flatMap fun d =>
      if d.rest.length < c.rest.length then repeats ends greedy fuel d else []
    if greedy then longer ++ [c] else c :: longer

/-- The places where an expression may end that begins at a place, those first that are tried
first. -/
def ends : Pattern → Cursor → List Cursor
  | mark text, c => ((Text.after? text c.rest).map (c.pass text)).toList
  | one kind, c =>
    match c.rest with
    | [] => []
    | x :: rest => if kind x then [c.pass [x] rest] else []
  | seq first next, c => (first.ends c).flatMap next.ends
  | either first second, c => first.ends c ++ second.ends c
  -- there are no more matches in a row than characters
  | many greedy body, c => repeats body.ends greedy c.rest.length c
  | group number body, c => (body.ends c).map fun d => d.keep number c
  | lineStart, c => if c.before.getLast?.all (· == '\n') then [c] else []
  | lineEnd, c => if c.rest.head?.all (· == '\n') then [c] else []
  | textStart, c => if c.before = [] then [c] else []
  | textEnd, c => if c.rest = [] then [c] else []

/-- An expression that may be left out. -/
def maybe (p : Pattern) : Pattern := either p (mark [])

/-- One character of a kind, and any number of others. -/
def run (greedy : Bool) (kind : Char → Bool) : Pattern := seq (one kind) (many greedy (one kind))

/-- The end of the match that begins where `text` begins, which follows `before`.  All of the
match is kept under the number zero. -/
def at? (p : Pattern) (before text : Text) : Option Cursor :=
  ((group 0 p).ends ⟨before, text, []⟩).head?

/-- The end of the first match in a text that follows `before`. -/
def search? (p : Pattern) (before : Text) : Text → Option Cursor
  | [] => p.at? before []
  | x :: rest =>
    match p.at? before (x :: rest) with
    | some found => some found
    | none => p.search? (before ++ [x]) rest

/-! ### Ends -/

theorem ends_seq (p q : Pattern) (c : Cursor) :
    (seq p q).ends c = (p.ends c).flatMap q.ends := rfl

theorem ends_either (p q : Pattern) (c : Cursor) :
    (either p q).ends c = p.ends c ++ q.ends c := rfl

theorem ends_group (n : Nat) (p : Pattern) (c : Cursor) :
    (group n p).ends c = (p.ends c).map fun d => d.keep n c := rfl

theorem head?_ends_seq (p q : Pattern) (c : Cursor) :
    ((seq p q).ends c).head? = (p.ends c).findSome? fun d => (q.ends d).head? := by
  rw [ends_seq, List.head?_flatMap]

theorem head?_ends_mark (text : Text) (c : Cursor) :
    ((mark text).ends c).head? = (Text.after? text c.rest).map (c.pass text) := by
  rw [ends, Option.head?_toList]

theorem head?_ends_mark_seq (text : Text) (q : Pattern) (c : Cursor) :
    ((seq (mark text) q).ends c).head? =
      (Text.after? text c.rest).bind fun rest => (q.ends (c.pass text rest)).head? := by
  rw [head?_ends_seq, ends]
  cases Text.after? text c.rest with
  | none => rfl
  | some rest => simp

/-- What may be left out is tried first. -/
theorem head?_ends_maybe_seq (p q : Pattern) (c : Cursor) :
    ((seq (maybe p) q).ends c).head? = ((seq p q).ends c).head?.or (q.ends c).head? := by
  have hnone : (mark []).ends c = [c] := by simp [ends, Text.after?, Cursor.pass]
  rw [head?_ends_seq, maybe, ends_either, List.findSome?_append, hnone, List.findSome?_singleton,
    ← head?_ends_seq]

theorem at?_eq (p : Pattern) (before text : Text) :
    p.at? before text =
      ((p.ends ⟨before, text, []⟩).head?).map fun d => d.keep 0 ⟨before, text, []⟩ := by
  rw [at?, ends, List.head?_map]

/-- A search goes on where nothing begins. -/
theorem search?_cons_of_none {x : Char} (h : p.at? b (x :: t) = none) :
    p.search? b (x :: t) = p.search? (b ++ [x]) t := by
  rw [search?, h]

theorem search?_cons_of_some {x : Char} (h : p.at? b (x :: t) = some c) :
    p.search? b (x :: t) = some c := by
  rw [search?, h]

/-- Nothing is found where nothing begins. -/
theorem search?_eq_none
    (h : ∀ passed rest, t = passed ++ rest → p.at? (b ++ passed) rest = none) :
    p.search? b t = none := by
  induction t generalizing b with
  | nil => simpa [search?] using h [] [] rfl
  | cons x t ih =>
    have hhere : p.at? b (x :: t) = none := by simpa using h [] (x :: t) rfl
    rw [search?_cons_of_none hhere]
    refine ih fun passed rest ht => ?_
    rw [List.append_assoc]
    exact h (x :: passed) rest (by rw [ht, List.cons_append])

/-- An expression for a text from its beginning on is not searched for further on. -/
theorem search?_textStart (q : Pattern) (b t : Text) :
    (seq textStart q).search? b t = (seq textStart q).at? b t := by
  have hlater (b t : Text) (hb : b ≠ []) : (seq textStart q).at? b t = none := by
    rw [at?_eq, ends_seq, ends, if_neg hb]
    rfl
  cases t with
  | nil => rfl
  | cons x t =>
    cases hhere : (seq textStart q).at? b (x :: t) with
    | some found => exact search?_cons_of_some hhere
    | none =>
      rw [search?_cons_of_none hhere]
      refine search?_eq_none fun passed rest _ => hlater _ _ ?_
      exact List.append_ne_nil_of_left_ne_nil (by simp) passed

/-- A match keeps where it began. -/
theorem capture?_of_at? (h : p.at? b t = some c) : ∃ value, c.capture? 0 = some ⟨0, b, value⟩ := by
  rw [at?_eq] at h
  obtain ⟨d, -, rfl⟩ := Option.map_eq_some_iff.1 h
  exact ⟨_, rfl⟩

theorem exists_at?_of_search? (h : p.search? b t = some c) :
    ∃ u v, t = u ++ v ∧ p.at? (b ++ u) v = some c := by
  induction t generalizing b with
  | nil => exact ⟨[], [], rfl, by rwa [List.append_nil]⟩
  | cons x t ih =>
    cases hhere : p.at? b (x :: t) with
    | some found =>
      rw [search?_cons_of_some hhere] at h
      exact ⟨[], x :: t, rfl, by rw [List.append_nil, hhere, h]⟩
    | none =>
      rw [search?_cons_of_none hhere] at h
      obtain ⟨u, v, rfl, hat⟩ := ih h
      exact ⟨x :: u, v, rfl, by rwa [List.append_cons]⟩

/-- **A search whose first match must begin at once is a match there.** This is how a match at a
place can be had from a search. -/
theorem filter_search? (p : Pattern) (b t : Text) :
    ((p.search? b t).filter fun c => c.begins b) = p.at? b t := by
  cases hhere : p.at? b t with
  | some c =>
    have hsearch : p.search? b t = some c := by
      cases t with
      | nil => exact hhere
      | cons x t => exact search?_cons_of_some hhere
    obtain ⟨value, hkept⟩ := capture?_of_at? hhere
    rw [hsearch, Option.filter_some_pos]
    simp [Cursor.begins, hkept]
  | none =>
    rw [Option.filter_eq_none_iff]
    intro c hsearch
    obtain ⟨u, v, rfl, hat⟩ := exists_at?_of_search? hsearch
    obtain ⟨value, hkept⟩ := capture?_of_at? hat
    -- a match that was found further on keeps a text in front of it, by which it is told
    have hu : u ≠ [] := by
      rintro rfl
      rw [List.append_nil, ← List.nil_append v, hhere] at hat
      cases hat
    simp [Cursor.begins, hkept, hu]

/-- Enough fuel is as good as any: no run has more matches than characters. This is what makes
`ends` a function of the expression and the place alone. -/
theorem repeats_eq_of_le (ends : Cursor → List Cursor) (greedy : Bool) {fuel more : Nat}
    (hfuel : c.rest.length ≤ fuel) (hmore : c.rest.length ≤ more) :
    repeats ends greedy fuel c = repeats ends greedy more c := by
  -- By induction on the fuel, for any other amount. Each match leaves less text, and none can be
  -- made of nothing.
  induction fuel generalizing c more with
  | zero =>
    cases more with
    | zero => rfl
    | succ more =>
      have hnone : ∀ d ∈ ends c, (if d.rest.length < c.rest.length then
          repeats ends greedy more d else []) = [] :=
        fun d _ => if_neg (by omega)
      simp [repeats, List.flatMap_eq_nil_iff.2 hnone]
  | succ fuel ih =>
    cases more with
    | zero =>
      have hnone : ∀ d ∈ ends c, (if d.rest.length < c.rest.length then
          repeats ends greedy fuel d else []) = [] :=
        fun d _ => if_neg (by omega)
      simp [repeats, List.flatMap_eq_nil_iff.2 hnone]
    | succ more =>
      have hsame : (fun d : Cursor => if d.rest.length < c.rest.length then
          repeats ends greedy fuel d else []) =
          fun d => if d.rest.length < c.rest.length then repeats ends greedy more d else [] := by
        funext d
        split
        · exact ih (by omega) (by omega)
        · rfl
      rw [repeats, repeats, hsame]

/-- A run ends where it begins, or after one more match. -/
theorem ends_many (greedy : Bool) (p : Pattern) (c : Cursor) :
    (many greedy p).ends c =
      if greedy then
        ((p.ends c).flatMap fun d =>
          if d.rest.length < c.rest.length then (many greedy p).ends d else []) ++ [c]
      else
        c :: (p.ends c).flatMap fun d =>
          if d.rest.length < c.rest.length then (many greedy p).ends d else [] := by
  have hmore : (many greedy p).ends c = repeats p.ends greedy (c.rest.length + 1) c :=
    repeats_eq_of_le p.ends greedy (Nat.le_refl _) (Nat.le_succ _)
  have hsame : (fun d : Cursor => if d.rest.length < c.rest.length then
      repeats p.ends greedy c.rest.length d else []) =
      fun d => if d.rest.length < c.rest.length then (many greedy p).ends d else [] := by
    funext d
    split
    · exact repeats_eq_of_le p.ends greedy (by omega) (Nat.le_refl _)
    · rfl
  rw [hmore, repeats, hsame]

/-- A run ends where its body does not match. -/
theorem ends_many_of_nil (greedy : Bool) (h : p.ends c = []) : (many greedy p).ends c = [c] := by
  rw [ends_many, h]
  cases greedy <;> rfl

/-- A greedy run goes on where its body matches, and may end there as well. -/
theorem ends_many_of_singleton (h : p.ends c = [d]) (hless : d.rest.length < c.rest.length) :
    (many true p).ends c = (many true p).ends d ++ [c] := by
  rw [ends_many, h, if_pos rfl, List.flatMap_singleton, if_pos hless]

/-! ### Runs of single characters -/

/-- The ways to cut a text behind characters of a kind, the shortest first. A greedy run tries
them in the other order. -/
def cuts (kind : Char → Bool) : Text → List (Text × Text)
  | [] => [([], [])]
  | x :: t =>
    ([], x :: t) :: if kind x then (cuts kind t).map fun cut => (x :: cut.1, cut.2) else []

theorem mem_cuts_iff : (u, v) ∈ cuts kind t ↔ t = u ++ v ∧ ∀ x ∈ u, kind x = true := by
  -- By induction on the text: a cut is where the text begins, or behind its first character and
  -- then a cut of the rest.
  induction t generalizing u with
  | nil =>
    rw [cuts, List.mem_singleton, Prod.mk.injEq]
    constructor
    · rintro ⟨rfl, rfl⟩
      exact ⟨rfl, by simp⟩
    · rintro ⟨h, -⟩
      exact List.append_eq_nil_iff.1 h.symm
  | cons x t ih =>
    rw [cuts, List.mem_cons]
    constructor
    · rintro (h | h)
      · obtain ⟨rfl, rfl⟩ := Prod.mk.inj h
        exact ⟨rfl, by simp⟩
      · split at h
        · rename_i hx
          obtain ⟨⟨u', v'⟩, hmem, h⟩ := List.mem_map.1 h
          obtain ⟨rfl, rfl⟩ := Prod.mk.inj h
          obtain ⟨rfl, hall⟩ := ih.1 hmem
          exact ⟨rfl, List.forall_mem_cons.2 ⟨hx, hall⟩⟩
        · cases h
    · rintro ⟨h, hall⟩
      cases u with
      | nil => exact .inl (by rw [h, List.nil_append])
      | cons y u =>
        obtain ⟨rfl, rfl⟩ := List.cons.inj h
        obtain ⟨hx, hall⟩ := List.forall_mem_cons.1 hall
        rw [if_pos hx]
        exact .inr (List.mem_map.2 ⟨(u, v), ih.2 ⟨rfl, hall⟩, rfl⟩)

/-- **A run of single characters ends where the text can be cut behind some.** -/
theorem ends_many_one (greedy : Bool) (kind : Char → Bool) (b t : Text) (kept : List Capture) :
    (many greedy (one kind)).ends ⟨b, t, kept⟩ =
      (if greedy then (cuts kind t).reverse else cuts kind t).map
        fun cut => ⟨b ++ cut.1, cut.2, kept⟩ := by
  induction t generalizing b with
  | nil =>
    rw [ends_many]
    cases greedy <;> simp [ends, cuts]
  | cons x t ih =>
    have hstep : ((one kind).ends ⟨b, x :: t, kept⟩).flatMap (fun d =>
        if d.rest.length < (x :: t).length then (many greedy (one kind)).ends d else []) =
        if kind x then (many greedy (one kind)).ends ⟨b ++ [x], t, kept⟩ else [] := by
      simp only [ends]
      by_cases hx : kind x = true <;> simp [hx, Cursor.pass]
    rw [ends_many, hstep, ih]
    cases greedy <;> by_cases hx : kind x = true <;>
      simp [cuts, hx, List.map_reverse, Function.comp_def]

/-- What follows a run that is kept is matched behind its cuts, one after the other. -/
theorem head?_ends_group_seq (n : Nat) (greedy : Bool) (kind : Char → Bool) (q : Pattern)
    (b t : Text) (kept : List Capture) :
    ((seq (group n (many greedy (one kind))) q).ends ⟨b, t, kept⟩).head? =
      (if greedy then (cuts kind t).reverse else cuts kind t).findSome? fun cut =>
        (q.ends ⟨b ++ cut.1, cut.2, ⟨n, b, cut.1⟩ :: kept⟩).head? := by
  rw [head?_ends_seq, ends, ends_many_one, List.map_map, List.findSome?_map]
  simp only [Function.comp_def, Cursor.keep, List.drop_left]

theorem head?_ends_many_seq (greedy : Bool) (kind : Char → Bool) (q : Pattern)
    (b t : Text) (kept : List Capture) :
    ((seq (many greedy (one kind)) q).ends ⟨b, t, kept⟩).head? =
      (if greedy then (cuts kind t).reverse else cuts kind t).findSome? fun cut =>
        (q.ends ⟨b ++ cut.1, cut.2, kept⟩).head? := by
  rw [head?_ends_seq, ends_many_one, List.findSome?_map]
  rfl

section

variable {α : Type} {f : Text × Text → Option α} {g : α → α} {x : Char}

/-- The first cut of a text is where it begins or is the first cut behind its first character. -/
theorem findSome?_cuts_cons (hf : ∀ u v, f (x :: u, v) = (f (u, v)).map g) :
    (cuts kind (x :: t)).findSome? f =
      (f ([], x :: t)).or (if kind x then ((cuts kind t).findSome? f).map g else none) := by
  have hlater : (fun cut : Text × Text => f (x :: cut.1, cut.2)) = fun cut => (f cut).map g :=
    funext fun cut => hf cut.1 cut.2
  rw [cuts, List.findSome?_cons]
  by_cases hx : kind x = true
  · rw [if_pos hx, if_pos hx, List.findSome?_map, List.map_findSome?]
    simp only [Function.comp_def, hlater]
    cases f ([], x :: t) <;> rfl
  · rw [if_neg hx, if_neg hx, List.findSome?_nil]
    cases f ([], x :: t) <;> rfl

/-- The last cut of a text is the last behind its first character, or is where it begins. -/
theorem findSome?_reverse_cuts_cons (hf : ∀ u v, f (x :: u, v) = (f (u, v)).map g) :
    (cuts kind (x :: t)).reverse.findSome? f =
      (if kind x then ((cuts kind t).reverse.findSome? f).map g else none).or
        (f ([], x :: t)) := by
  have hlater : (fun cut : Text × Text => f (x :: cut.1, cut.2)) = fun cut => (f cut).map g :=
    funext fun cut => hf cut.1 cut.2
  rw [cuts, List.reverse_cons, List.findSome?_append, List.findSome?_singleton]
  by_cases hx : kind x = true
  · rw [if_pos hx, if_pos hx, ← List.map_reverse, List.findSome?_map, List.map_findSome?]
    simp only [Function.comp_def, hlater]
  · rw [if_neg hx, if_neg hx, List.reverse_nil, List.findSome?_nil]

end

/-- Where nothing can follow a cut before a character of the kind, the longest cut is the only
one. Lazy and greedy runs are the same then. -/
theorem findSome?_cuts_of_stop {α : Type} {f : Text × Text → Option α}
    (hf : ∀ u x v, kind x = true → f (u, x :: v) = none) (greedy : Bool) (t : Text) :
    (if greedy then (cuts kind t).reverse else cuts kind t).findSome? f =
      f (t.takeWhile kind, t.dropWhile kind) := by
  induction t generalizing f with
  | nil => cases greedy <;> exact List.findSome?_singleton
  | cons x t ih =>
    by_cases hx : kind x = true
    · have hlater := ih (f := fun cut => f (x :: cut.1, cut.2)) fun u => hf (x :: u)
      rw [List.takeWhile_cons_of_pos hx, List.dropWhile_cons_of_pos hx, ← hlater, cuts, if_pos hx]
      cases greedy
      · simp [hf [] x t hx, List.findSome?_map, Function.comp_def]
      · simp [List.findSome?_append, hf [] x t hx, ← List.map_reverse, List.findSome?_map,
          Function.comp_def]
    · rw [List.takeWhile_cons_of_neg hx, List.dropWhile_cons_of_neg hx, cuts, if_neg hx]
      cases greedy <;> exact List.findSome?_singleton

/-- A run goes as far as it can where nothing follows it before a character of the kind. -/
theorem findSome?_ends_run {α : Type} {f : Cursor → Option α}
    (hf : ∀ b x v, kind x = true → f ⟨b, x :: v, kept⟩ = none) (greedy : Bool) (b t : Text) :
    ((run greedy kind).ends ⟨b, t, kept⟩).findSome? f =
      if t.takeWhile kind = [] then none
      else f ⟨b ++ t.takeWhile kind, t.dropWhile kind, kept⟩ := by
  rw [run, ends_seq]
  cases t with
  | nil => simp [ends]
  | cons x t =>
    by_cases hx : kind x = true
    · have hone : (one kind).ends ⟨b, x :: t, kept⟩ = [⟨b ++ [x], t, kept⟩] := by
        simp [ends, hx, Cursor.pass]
      rw [hone, List.flatMap_singleton, ends_many_one, List.findSome?_map,
        findSome?_cuts_of_stop fun u y v hy => hf _ y v hy, List.takeWhile_cons_of_pos hx,
        List.dropWhile_cons_of_pos hx, if_neg (List.cons_ne_nil _ _)]
      simp
    · simp [ends, hx]

end Pattern

end FieldedText
