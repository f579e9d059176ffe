/-
FieldedText/Proofs/Decimal.lean

Numbers in decimal are read as they were written.

A natural number is written as a run of digits that stands for it
(`digitsValue_natText`), and an integer is read again as every type that holds it
(`read?_intText`).  There is no white space to be trimmed in the text of either
(`trim_intText`).  As names, the numbers are ordinals, and have the order of the numbers
(`ordinalLe_natText`).
-/
import FieldedText.Data.Order
import FieldedText.Proofs.ListTemplate

namespace FieldedText

variable {m n : Nat} {c : Char} {i : Int} {type : IntegerType}

/-! ### Natural numbers -/

theorem isDigit_of_mem_natText (h : c ∈ natText n) : c.isDigit = true :=
  Nat.isDigit_of_mem_toDigits (by decide) (by decide) h

theorem natText_ne_nil (n : Nat) : natText n ≠ [] := Nat.toDigits_ne_nil

/-- **The digits of a number stand for it.** -/
theorem digitsValue_natText (n : Nat) : digitsValue (natText n) = n :=
  Nat.ofDigitChars_ten_toDigits

theorem isDigits_natText (n : Nat) : isDigits (natText n) = true := by
  rw [isDigits, Bool.and_eq_true, decide_eq_true_eq, List.all_eq_true]
  exact ⟨natText_ne_nil n, fun _ => isDigit_of_mem_natText⟩

theorem readNat?_natText (n : Nat) : readNat? (natText n) = some n := by
  rw [readNat?, if_pos (isDigits_natText n), digitsValue_natText]

theorem natText_injective : Function.Injective natText := by
  intro m n h
  rw [← digitsValue_natText m, h, digitsValue_natText]

/-- The names of two numbers are in the order of the numbers. -/
theorem ordinalLe_natText (h : m ≤ n) : Name.ordinalLe (natText m) (natText n) = true := by
  rw [Name.ordinalLe, digitsValue_natText, digitsValue_natText]
  obtain rfl | hlt := h.eq_or_lt
  · simp
  · simp [hlt]

/-! ### Integers -/

theorem isSpace_of_mem_intText (h : c ∈ intText i) : Text.isSpace c = false := by
  have hdigits {k : Nat} (hc : c ∈ natText k) : Text.isSpace c = false :=
    FieldSpec.isSpace_eq_false_of_isNameChar
      (ListTemplate.isNameChar_of_isDigit (isDigit_of_mem_natText hc))
  cases i with
  | ofNat k => exact hdigits h
  | negSucc k =>
    rcases List.mem_cons.1 h with rfl | hc
    · decide
    · exact hdigits hc

/-- A text without white space is trimmed to itself. Only its two ends matter, but this is all
that is needed of numbers. -/
theorem Text.trim_eq_self {t : Text} (h : ∀ c ∈ t, isSpace c = false) : t.trim = t := by
  have hdrop {u : Text} (hu : ∀ c ∈ u, isSpace c = false) : u.dropWhile isSpace = u := by
    cases u with
    | nil => rfl
    | cons d u => rw [List.dropWhile_cons_of_neg (by simp [hu d])]
  rw [trim, trimStart, hdrop h, trimEnd, trimEndBy, hdrop (by simpa using h), List.reverse_reverse]

theorem trim_intText (i : Int) : (intText i).trim = intText i :=
  Text.trim_eq_self fun _ => isSpace_of_mem_intText

/-- **An integer is read as a type that holds it.** Its sign is written only when it is negative,
and then the type has to be a signed one. -/
theorem IntegerType.read?_intText (h : type.holds i = true) : type.read? (intText i) = some i := by
  have hsigned : type.readSigned? (intText i) = some i := by
    cases i with
    | ofNat k =>
      obtain ⟨d, digits, hcons⟩ := List.exists_cons_of_ne_nil (natText_ne_nil k)
      have hdigit : d.isDigit = true := isDigit_of_mem_natText (n := k) (by simp [hcons])
      have hread := readNat?_natText k
      show type.readSigned? (natText k) = _
      rw [hcons] at hread ⊢
      -- the first digit is not a sign
      unfold readSigned?
      split
      · rename_i heq
        obtain ⟨rfl, -⟩ := List.cons.inj heq
        exact absurd hdigit (by decide)
      · rename_i heq
        obtain ⟨rfl, -⟩ := List.cons.inj heq
        exact absurd hdigit (by decide)
      · rw [hread]
        rfl
    | negSucc k =>
      -- an unsigned type holds no negative number
      have hneg : type.signed = true := by
        by_contra hunsigned
        rw [holds, least, if_neg hunsigned, Bool.and_eq_true, decide_eq_true_eq] at h
        exact absurd h.1 (by simp)
      show type.readSigned? ('-' :: natText (k + 1)) = _
      rw [readSigned?, if_pos hneg, readNat?_natText]
      rfl
  rw [read?, hsigned]
  exact if_pos h

end FieldedText
