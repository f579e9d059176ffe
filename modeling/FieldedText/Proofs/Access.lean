/-
FieldedText/Proofs/Access.lean

What checked accesses give where they are in place.

Every offset that a program computes is the size of a text: of what comes before a
place.  So a cut at the size of a text's beginning gives that beginning and the rest
(`cutAt?_append`), and slices and searches follow from this.  Sizes compare as lengths
do when both texts begin the same one (`byteLength_le_iff`), which is how offsets of
different origin come to be in order.
-/
import Mathlib.Data.List.Infix
import FieldedText.Checked.Access
import FieldedText.Proofs.Search

namespace FieldedText

/-! ### Sizes -/

namespace Text

variable {a b t : Text}

@[simp] theorem byteLength_nil : byteLength [] = 0 := rfl

theorem foldl_utf8Size (n : Nat) (t : Text) :
    t.foldl (fun size c => size + c.utf8Size) n = n + byteLength t := by
  induction t generalizing n with
  | nil => rfl
  | cons c t ih =>
    simp only [byteLength, List.foldl_cons]
    rw [ih, ih (0 + c.utf8Size)]
    omega

@[simp] theorem byteLength_cons (c : Char) (t : Text) :
    byteLength (c :: t) = c.utf8Size + byteLength t := by
  rw [byteLength, List.foldl_cons, foldl_utf8Size, Nat.zero_add]

@[simp] theorem byteLength_append (a b : Text) :
    byteLength (a ++ b) = byteLength a + byteLength b := by
  induction a with
  | nil => simp
  | cons c a ih => rw [List.cons_append, byteLength_cons, byteLength_cons, ih, Nat.add_assoc]

@[simp] theorem byteLength_eq_zero_iff : byteLength t = 0 ↔ t = [] := by
  cases t with
  | nil => simp
  | cons c t =>
    have hpos := c.utf8Size_pos
    simp only [byteLength_cons, reduceCtorEq, iff_false]
    omega

/-- **Two beginnings of a text compare in bytes as they do in characters.** Of two beginnings one
begins the other, and the longer one has the more bytes. -/
theorem byteLength_le_iff (ha : a <+: t) (hb : b <+: t) :
    byteLength a ≤ byteLength b ↔ a.length ≤ b.length := by
  constructor
  · intro h
    by_contra hlt
    obtain ⟨u, rfl⟩ := List.prefix_of_prefix_length_le hb ha (by omega)
    -- what `a` has beyond `b` takes no room, so there is nothing of it
    have hu : u = [] := byteLength_eq_zero_iff.1 (by rw [byteLength_append] at h; omega)
    simp [hu] at hlt
  · intro h
    obtain ⟨u, rfl⟩ := List.prefix_of_prefix_length_le ha hb h
    rw [byteLength_append]
    omega

/-- Beginnings of a text that have the same size are the same. So an offset in a text stands for
one cut of it at most. -/
theorem eq_of_byteLength_eq (ha : a <+: t) (hb : b <+: t) (h : byteLength a = byteLength b) :
    a = b := by
  have hle := (byteLength_le_iff ha hb).1 (Nat.le_of_eq h)
  have hge := (byteLength_le_iff hb ha).1 (Nat.le_of_eq h.symm)
  exact List.IsPrefix.eq_of_length (List.prefix_of_prefix_length_le ha hb hle) (by omega)

end Text

namespace Checked

variable {α β : Type} {a b c t : Text} {n : Nat}

/-! ### Outcomes -/

@[simp] theorem bind_ok {ε : Type} (x : α) (f : α → Except ε β) :
    (Except.ok x >>= f) = f x := rfl

@[simp] theorem pure_eq {ε : Type} (x : α) : (pure x : Except ε α) = .ok x := rfl

@[simp] theorem done_ok (x : α) : done (.ok x) = .ok x := rfl

@[simp] theorem done_error (e : Error) : (done (.error e) : Run α) = .error (.error e) := rfl

theorem done_bind (x : Except Error α) (f : α → Except Error β) :
    done (x >>= f) = done x >>= fun a => done (f a) := by
  cases x <;> rfl

theorem done_map (f : α → β) (x : Except Error α) :
    done (x.map f) = done x >>= fun a => .ok (f a) := by
  cases x <;> rfl

/-- What a program reports is no panic. With it, a checked program that has been shown to be
`done` of another is free of panics at once. -/
theorem done_ne_panic (x : Except Error α) (p : Panic) : done x ≠ .error (.panic p) := by
  cases x <;> simp

theorem mapM_done {f : α → Run β} {g : α → Except Error β} (h : ∀ x, f x = done (g x))
    (xs : List α) : xs.mapM f = done (xs.mapM g) := by
  induction xs with
  | nil => rfl
  | cons x xs ih =>
    rw [List.mapM_cons, List.mapM_cons, h, ih]
    simp only [done_bind, done_ok, pure_eq]

/-! ### Slices -/

/-- **A text cut at the size of its beginning** is that beginning and the rest. Every slice is
reduced to this. -/
theorem cutAt?_append (a b : Text) : cutAt? a.byteLength (a ++ b) = some (a, b) := by
  induction a with
  | nil => cases b <;> rfl
  | cons c a ih =>
    have hpos := c.utf8Size_pos
    obtain ⟨n, hn⟩ : ∃ n, Text.byteLength (c :: a) = n + 1 :=
      ⟨c.utf8Size + Text.byteLength a - 1, by rw [Text.byteLength_cons]; omega⟩
    have hrest : n + 1 - c.utf8Size = Text.byteLength a := by
      rw [← hn, Text.byteLength_cons]
      omega
    rw [hn, List.cons_append, cutAt?, if_pos (by rw [Text.byteLength_cons] at hn; omega), hrest, ih]
    rfl

theorem sliceTo_eq (h : t = a ++ b) (hn : n = a.byteLength) : sliceTo t n = .ok a := by
  rw [sliceTo, h, hn, cutAt?_append]

theorem sliceFrom_eq (h : t = a ++ b) (hn : n = a.byteLength) : sliceFrom t n = .ok b := by
  rw [sliceFrom, h, hn, cutAt?_append]

/-- **A text is sliced between the size of what comes before a part and the size with it.** The
offsets are asked for by equations, since a program seldom has them in this form. -/
theorem slice_eq {start stop : Nat} (h : t = a ++ b ++ c) (hstart : start = a.byteLength)
    (hstop : stop = (a ++ b).byteLength) : slice t start stop = .ok b := by
  have hle : start ≤ stop := by rw [hstart, hstop, Text.byteLength_append]; omega
  have hrest : sliceFrom t start = .ok (b ++ c) :=
    sliceFrom_eq (by rw [h, List.append_assoc]) hstart
  have hpart : sliceTo (b ++ c) (stop - start) = .ok b :=
    sliceTo_eq rfl (by rw [hstart, hstop, Text.byteLength_append]; omega)
  rw [slice, if_pos hle, hrest, bind_ok, hpart]

/-- A slice within a character panics. -/
example : slice ['«', 'a', '»'] 1 3 = .error (.panic .slice) := rfl

/-! ### Searches -/

theorem indexOf?_of_cut? {mark head rest : Text} (h : Text.cut? mark t = some (head, rest)) :
    indexOf? mark t = some head.byteLength := by
  rw [indexOf?, h]
  rfl

theorem indexOf?_eq_none {mark : Text} (h : Text.cut? mark t = none) : indexOf? mark t = none := by
  rw [indexOf?, h]
  rfl

theorem lastIndexOf?_eq_none {mark : Char} (h : mark ∉ t) : lastIndexOf? mark t = none := by
  induction t with
  | nil => rfl
  | cons c t ih =>
    rw [List.mem_cons, not_or] at h
    rw [lastIndexOf?, ih h.2]
    exact if_neg (Ne.symm h.1)

theorem lastIndexOf?_append {mark : Char} (h : mark ∉ b) (a : Text) :
    lastIndexOf? mark (a ++ mark :: b) = some a.byteLength := by
  induction a with
  | nil => simp [lastIndexOf?, lastIndexOf?_eq_none h]
  | cons c a ih => rw [List.cons_append, lastIndexOf?, ih, Text.byteLength_cons]

/-! ### Lists and numbers -/

theorem element_append (xs : List α) (x : α) (ys : List α) :
    element (xs ++ x :: ys) xs.length = .ok x := by
  simp [element]

theorem minus_eq {k m : Nat} (h : m = n + k) : minus m k = .ok n := by
  rw [minus, if_pos (by omega), h, Nat.add_sub_cancel]

end Checked

end FieldedText
