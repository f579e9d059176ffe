/-
FieldedText/Proofs/Binary.lean

Numbers of a format, and what rounding does to them.

A number of a format has a significand of at most its precision, an exponent between its
bounds, and full precision unless it has the least exponent (`Binary.IsOf`).  Its quotient is
rounded to the number itself: the scale at which its significand is full is that of its exponent
(`ofQuotient_of_isOf`), and there the division leaves no remainder (`divideToEven_mul`).  So a
number of a format stays as it is in that format (`toFormat_eq_self`).
-/
import Mathlib.Algebra.Group.Nat.Defs
import FieldedText.Number.Binary

namespace FieldedText

namespace Binary

variable {format : Format} {negative : Bool} {m k : Nat} {p q : Int} {x : Binary}

/-- That a number is one of a format. Such a number is written in one way only: with full
precision, or with the least exponent. -/
def IsOf (format : Format) : Binary → Prop
  | .finite _ m q => m < Nat.pow 2 format.precision ∧ format.lowest ≤ q ∧ q ≤ format.highest ∧
      (q = format.lowest ∨ Nat.pow 2 (format.precision - 1) ≤ m)
  | _ => True

instance decidableIsOf (format : Format) : (x : Binary) → Decidable (IsOf format x)
  | .finite .. => instDecidableAnd
  | .nan => isTrue trivial
  | .infinite _ => isTrue trivial

theorem log2_mul_pow (hm : m ≠ 0) (k : Nat) : (m * 2 ^ k).log2 = m.log2 + k := by
  have hpos : 0 < 2 ^ k := Nat.two_pow_pos k
  rw [Nat.log2_eq_iff (Nat.mul_ne_zero hm (Nat.ne_of_gt hpos))]
  have hlow : 2 ^ m.log2 ≤ m := (Nat.le_log2 hm).1 (Nat.le_refl _)
  have hhigh : m < 2 ^ (m.log2 + 1) := (Nat.log2_lt hm).1 (Nat.lt_succ_self _)
  constructor
  · calc 2 ^ (m.log2 + k) = 2 ^ m.log2 * 2 ^ k := Nat.pow_add ..
      _ ≤ m * 2 ^ k := Nat.mul_le_mul_right _ hlow
  · calc m * 2 ^ k < 2 ^ (m.log2 + 1) * 2 ^ k := Nat.mul_lt_mul_of_pos_right hhigh hpos
      _ = 2 ^ (m.log2 + k + 1) := by rw [← Nat.pow_add, Nat.add_right_comm]

/-- A quotient without a remainder is not rounded, neither down nor to the even one. -/
theorem divideToEven_mul (m : Nat) (hk : 0 < k) : divideToEven (m * k) k = m := by
  rw [divideToEven, Nat.mul_mod_left, Nat.mul_div_cancel m hk]
  exact if_pos hk

/-- A number at the scale of a smaller exponent has a larger numerator over the same
denominator. -/
theorem scaled_eq (m : Nat) (h : p ≤ q) :
    m * 2 ^ q.toNat * 2 ^ (-p).toNat =
      m * 2 ^ (q - p).toNat * (2 ^ (-q).toNat * 2 ^ p.toNat) := by
  have hexponent : q.toNat + (-p).toNat = (q - p).toNat + ((-q).toNat + p.toNat) := by omega
  rw [Nat.mul_assoc, ← Nat.pow_add, hexponent, Nat.pow_add, Nat.pow_add, ← Nat.mul_assoc]

/-- The exponent that is tried first is that of the number, or the one before it, where the
significand has one bit more than there is room for. Then it is corrected, and either way the
number's own exponent is chosen. -/
theorem chosen_exponent (hzero : m ≠ 0) (hm : m < 2 ^ format.precision)
    (hlowest : format.lowest ≤ q)
    (hfull : q = format.lowest ∨ 2 ^ (format.precision - 1) ≤ m) :
    ∃ low, max format.lowest (m.log2 + q - format.precision) = low ∧ low ≤ q ∧
      (if 2 ^ format.precision ≤ m * 2 ^ (q - low).toNat then low + 1 else low) = q := by
  have hbits : m.log2 < format.precision := (Nat.log2_lt hzero).2 hm
  by_cases hq : q = format.lowest
  · refine ⟨q, by omega, Int.le_refl q, if_neg ?_⟩
    rw [Int.sub_self, Int.toNat_zero, Nat.pow_zero, Nat.mul_one]
    exact Nat.not_le.2 hm
  · have hle : format.precision - 1 ≤ m.log2 := (Nat.le_log2 hzero).2 (hfull.resolve_left hq)
    refine ⟨q - 1, by omega, by omega, ?_⟩
    have hone : (q - (q - 1)).toNat = 1 := by omega
    have hsucc : format.precision = format.precision - 1 + 1 := by omega
    rw [hone, if_pos, Int.sub_add_cancel]
    rw [hsucc, Nat.pow_succ, Nat.pow_one]
    exact Nat.mul_le_mul_right 2 (hfull.resolve_left hq)

/-- **A number of a format is rounded to itself.** The quotient is that of the number, written as
a fraction without a sign. -/
theorem ofQuotient_of_isOf (h : IsOf format (.finite negative m q)) :
    ofQuotient format negative (m * Nat.pow 2 q.toNat) (Nat.pow 2 (-q).toNat) =
      .finite negative m q := by
  obtain ⟨hm, hlowest, hhighest, hfull⟩ := h
  simp only [Nat.pow_eq] at hm hfull ⊢
  by_cases hzero : m = 0
  -- a number of significand zero has the least exponent, as it has not full precision
  · subst hzero
    have hq : q = format.lowest :=
      hfull.resolve_right (Nat.not_le.2 (Nat.two_pow_pos _))
    rw [ofQuotient, if_pos (Nat.zero_mul _), hq]
  · have hne : ¬ m * 2 ^ q.toNat = 0 := Nat.mul_ne_zero hzero (Nat.ne_of_gt (Nat.two_pow_pos _))
    have hsize : ((m * 2 ^ q.toNat).log2 : Int) - ((2 ^ (-q).toNat).log2 : Int) = m.log2 + q := by
      rw [log2_mul_pow hzero, Nat.log2_two_pow]
      omega
    -- The scale is chosen by the sizes of the numerator and the denominator, which are those of
    -- the significand and of a power of two.
    obtain ⟨low, hlow, hle, hchosen⟩ := chosen_exponent hzero hm hlowest hfull
    have hpos (p : Int) : 0 < 2 ^ (-q).toNat * 2 ^ p.toNat :=
      Nat.mul_pos (Nat.two_pow_pos _) (Nat.two_pow_pos _)
    have hquotient : m * 2 ^ q.toNat * 2 ^ (-low).toNat / (2 ^ (-q).toNat * 2 ^ low.toNat) =
        m * 2 ^ (q - low).toNat := by
      rw [scaled_eq m hle, Nat.mul_div_cancel _ (hpos low)]
    -- at the exponent of the number the quotient is its significand, and nothing remains
    have hrounded : divideToEven (m * 2 ^ q.toNat * 2 ^ (-q).toNat)
        (2 ^ (-q).toNat * 2 ^ q.toNat) = m := by
      rw [scaled_eq m (Int.le_refl q), Int.sub_self, Int.toNat_zero, Nat.pow_zero, Nat.mul_one,
        divideToEven_mul m (hpos q)]
    rw [ofQuotient, if_neg hne]
    simp only [Nat.pow_eq, hsize, hlow, hquotient, hchosen, hrounded, if_neg (Nat.ne_of_lt hm),
      if_neg (Int.not_lt.2 hhighest)]

/-- **A number of a format stays as it is in that format.** -/
theorem toFormat_eq_self (h : x.IsOf format) : x.toFormat format = x := by
  cases x with
  | nan => rfl
  | infinite => rfl
  | finite negative m q => exact ofQuotient_of_isOf h

end Binary

end FieldedText
