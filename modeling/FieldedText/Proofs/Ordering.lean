/-
FieldedText/Proofs/Ordering.lean

The orders of names.

Ordinals come by the numbers that they stand for.  No number has to be computed for this:
fewer digits behind the zeros that an ordinal begins with stand for less, and as many digits
are compared one by one (`ordinalLe_eq_textual`).  So ordinals of any length are in order, and
no two of them tie (`ordinalLe_antisymm`).

Other names come by the code points of their characters, and so by the bytes of their texts
(`lex_encodeBytes`): the bytes of a character are the digits of its code point behind a mark that
says how many they are.  In a listing of all names of a record one comes before another by one
of three rules (`Before`); the listing is in a total order, in which no two names tie
(`listedLe_antisymm`, `before_of_listedLe`).
-/
import FieldedText.Binding.Exchange
import FieldedText.Proofs.Decimal
import Mathlib.Algebra.Group.Nat.Defs
import Mathlib.Data.List.Lex

namespace FieldedText

variable {a b u v : Name} {c d : Char}

/-! ### Digits -/

theorem digitValue_lt (h : c.isDigit = true) : digitValue c < 10 := by
  have hbounds := Char.isDigit_iff_toNat.1 h
  have hnine : '9'.toNat = '0'.toNat + 9 := rfl
  rw [digitValue]
  omega

theorem toNat_eq_digitValue (h : c.isDigit = true) : c.toNat = '0'.toNat + digitValue c := by
  have hbounds := Char.isDigit_iff_toNat.1 h
  rw [digitValue]
  omega

theorem digitsValue_cons (c : Char) (u : Text) :
    digitsValue (c :: u) = digitValue c * 10 ^ u.length + digitsValue u := by
  have hvalue (t : Text) : digitsValue t = Nat.ofDigitChars 10 t 0 := rfl
  rw [hvalue, Nat.ofDigitChars_cons, Nat.ofDigitChars_eq_ofDigitChars_zero, hvalue, Nat.mul_zero,
    Nat.zero_add, Nat.mul_comm]
  rfl

theorem digitsValue_lt (h : ∀ c ∈ u, c.isDigit = true) : digitsValue u < 10 ^ u.length := by
  induction u with
  | nil => exact Nat.one_pos
  | cons c u ih =>
    obtain ⟨hc, hu⟩ := List.forall_mem_cons.1 h
    calc digitsValue (c :: u) = digitValue c * 10 ^ u.length + digitsValue u := digitsValue_cons c u
      _ < digitValue c * 10 ^ u.length + 10 ^ u.length := Nat.add_lt_add_left (ih hu) _
      _ = (digitValue c + 1) * 10 ^ u.length := by rw [Nat.add_mul, Nat.one_mul]
      _ ≤ 10 * 10 ^ u.length := Nat.mul_le_mul_right _ (digitValue_lt hc)
      _ = 10 ^ (c :: u).length := by rw [List.length_cons, Nat.pow_succ, Nat.mul_comm]

/-- A first digit decides, unless it is the same. Here `m` and `n` are the digits, and `p` and `q`
what follows them, which is less than the place value `k`. -/
theorem first_digit_le_iff {m n p q k : Nat} (hp : p < k) (hq : q < k) :
    m * k + p ≤ n * k + q ↔ m < n ∨ m = n ∧ p ≤ q := by
  rcases Nat.lt_trichotomy m n with hlt | rfl | hlt
  · have hmul := Nat.mul_le_mul_right k hlt
    rw [Nat.succ_mul] at hmul
    omega
  · omega
  · have hmul := Nat.mul_le_mul_right k hlt
    rw [Nat.succ_mul] at hmul
    omega

namespace Name

/-! ### Code points -/

theorem codeLe_total (a b : Name) : codeLe a b || codeLe b a := by
  induction a generalizing b with
  | nil => rfl
  | cons c a ih =>
    cases b with
    | nil => rfl
    | cons d b =>
      have hlater := ih b
      simp only [codeLe, Bool.or_eq_true, Bool.and_eq_true, decide_eq_true_eq, beq_iff_eq]
        at hlater ⊢
      rcases Nat.lt_trichotomy c.toNat d.toNat with hlt | heq | hlt
      · exact .inl (.inl hlt)
      · exact hlater.imp (fun h => .inr ⟨heq, h⟩) fun h => .inr ⟨heq.symm, h⟩
      · exact .inr (.inl hlt)

theorem codeLe_trans (a b c : Name) (hab : codeLe a b) (hbc : codeLe b c) : codeLe a c := by
  induction a generalizing b c with
  | nil => rfl
  | cons x a ih =>
    cases b with
    | nil => cases hab
    | cons y b =>
      cases c with
      | nil => cases hbc
      | cons z c =>
        simp only [codeLe, Bool.or_eq_true, Bool.and_eq_true, decide_eq_true_eq, beq_iff_eq]
          at hab hbc ⊢
        rcases hab with hxy | ⟨hxy, hab⟩ <;> rcases hbc with hyz | ⟨hyz, hbc⟩
        · exact .inl (hxy.trans hyz)
        · exact .inl (hxy.trans_eq hyz)
        · exact .inl (hxy.trans_lt hyz)
        · exact .inr ⟨hxy.trans hyz, ih b c hab hbc⟩

theorem codeLe_antisymm (hab : codeLe a b = true) (hba : codeLe b a = true) : a = b := by
  induction a generalizing b with
  | nil =>
    cases b with
    | nil => rfl
    | cons d b => cases hba
  | cons c a ih =>
    cases b with
    | nil => cases hab
    | cons d b =>
      simp only [codeLe, Bool.or_eq_true, Bool.and_eq_true, decide_eq_true_eq, beq_iff_eq]
        at hab hba
      rcases hab with hlt | ⟨hcode, hab⟩
      · exact absurd hba (by omega)
      · obtain ⟨-, hba⟩ := hba.resolve_left hcode.not_gt
        rw [Char.toNat_inj.1 hcode, ih hab hba]

/-! ### Bytes -/

/-- What differs within both of two lists differs there whatever follows them. -/
theorem lex_append {α : Type} {r : α → α → Prop} {x y : List α} (h : List.Lex r x y)
    (hne : ¬ x <+: y) (later others : List α) : List.Lex r (x ++ later) (y ++ others) := by
  induction h with
  | nil => exact absurd List.nil_prefix hne
  | rel h => exact .rel h
  | cons _ ih => exact .cons (ih fun hpre => hne (List.cons_prefix_cons.2 ⟨rfl, hpre⟩))

/-- The bytes of two characters are in the order of their code points, and differ within both. The
second part is what lets other bytes follow without changing the order. -/
theorem lex_utf8EncodeChar (h : c.toNat < d.toNat) :
    List.Lex (fun p q : UInt8 => p < q) (String.utf8EncodeChar c) (String.utf8EncodeChar d) ∧
      ¬ String.utf8EncodeChar c <+: String.utf8EncodeChar d := by
  have hbound : d.val.toNat < 1114112 := by
    rcases d.valid with hlow | hhigh
    · exact Nat.lt_trans hlow (by decide)
    · exact hhigh.2
  have hlt : c.val.toNat < d.val.toNat := h
  simp only [String.utf8EncodeChar]
  generalize c.val.toNat = m at hlt
  generalize d.val.toNat = n at hlt hbound
  -- the digits of both numbers in base sixty-four
  have hdigits (k : Nat) :
      k = 262144 * (k / 262144) + 4096 * (k / 4096 % 64) + 64 * (k / 64 % 64) + k % 64 := by
    omega
  have hm := hdigits m
  have hn := hdigits n
  -- one case for each number of bytes that the two characters have
  split_ifs <;>
    simp only [List.cons_lex_cons_iff, List.not_lex_nil, List.cons_prefix_cons, List.prefix_nil,
      List.nil_prefix, UInt8.lt_iff_toNat_lt, ← UInt8.toNat_inj, UInt8.toNat_ofNat', Nat.reducePow,
      reduceCtorEq, and_false, or_false, and_true, not_false_eq_true] <;>
    simp (disch := omega) only [Nat.mod_eq_of_lt (b := 256), Nat.mod_eq_of_lt (b := 8)] <;>
    omega

theorem encodeBytes_eq (t : Text) : encodeBytes t = t.flatMap String.utf8EncodeChar := by
  rw [encodeBytes, String.toUTF8, String.toByteArray_ofList, List.utf8Encode,
    List.data_toByteArray, List.toList_toArray]

theorem encodeBytes_cons (c : Char) (t : Text) :
    encodeBytes (c :: t) = String.utf8EncodeChar c ++ encodeBytes t := by
  rw [encodeBytes_eq, encodeBytes_eq, List.flatMap_cons]

/-- **Texts in the order of their code points are in the order of their bytes.** -/
theorem lex_encodeBytes (h : codeLe a b = true) (hne : a ≠ b) :
    List.Lex (fun p q : UInt8 => p < q) (encodeBytes a) (encodeBytes b) := by
  induction a generalizing b with
  | nil =>
    obtain ⟨d, b, rfl⟩ := List.exists_cons_of_ne_nil (Ne.symm hne)
    obtain ⟨first, bytes, hbytes⟩ := List.exists_cons_of_ne_nil
      (l := String.utf8EncodeChar d) (by simp)
    rw [encodeBytes_cons, hbytes]
    exact .nil
  | cons c a ih =>
    cases b with
    | nil => cases h
    | cons d b =>
      rw [encodeBytes_cons, encodeBytes_cons]
      simp only [codeLe, Bool.or_eq_true, Bool.and_eq_true, decide_eq_true_eq, beq_iff_eq] at h
      -- different characters differ within their bytes; with the same one the rest decides
      rcases h with hlt | ⟨hcode, hle⟩
      · obtain ⟨hlex, hpre⟩ := lex_utf8EncodeChar hlt
        exact lex_append hlex hpre _ _
      · obtain rfl := Char.toNat_inj.1 hcode
        exact List.Lex.append_left _ (ih hle fun heq => hne (congrArg _ heq)) _

/-! ### Ordinals -/

/-- As many digits are in the order of their code points. -/
theorem codeLe_iff_digitsValue (hu : ∀ c ∈ u, c.isDigit = true) (hv : ∀ c ∈ v, c.isDigit = true)
    (hlength : u.length = v.length) : codeLe u v = true ↔ digitsValue u ≤ digitsValue v := by
  induction u generalizing v with
  | nil =>
    obtain rfl := List.length_eq_zero_iff.1 hlength.symm
    simp [codeLe]
  | cons c u ih =>
    obtain ⟨d, v, rfl⟩ := List.exists_cons_of_length_eq_add_one hlength.symm
    obtain ⟨hc, hu⟩ := List.forall_mem_cons.1 hu
    obtain ⟨hd, hv⟩ := List.forall_mem_cons.1 hv
    have hlater : u.length = v.length := Nat.succ.inj hlength
    have hless := digitsValue_lt hu
    rw [hlater] at hless
    rw [digitsValue_cons, digitsValue_cons, hlater, first_digit_le_iff hless (digitsValue_lt hv),
      ← ih hu hv hlater]
    simp only [codeLe, toNat_eq_digitValue hc, toNat_eq_digitValue hd, Bool.or_eq_true,
      Bool.and_eq_true, decide_eq_true_eq, beq_iff_eq, Nat.add_lt_add_iff_left, Nat.add_right_inj]

/-- As many digits that stand for the same number are the same. -/
theorem eq_of_digitsValue (hu : ∀ c ∈ u, c.isDigit = true) (hv : ∀ c ∈ v, c.isDigit = true)
    (hlength : u.length = v.length) (hvalue : digitsValue u = digitsValue v) : u = v :=
  codeLe_antisymm ((codeLe_iff_digitsValue hu hv hlength).2 hvalue.le)
    ((codeLe_iff_digitsValue hv hu hlength.symm).2 hvalue.ge)

/-- **No two ordinals tie.** -/
theorem ordinalLe_antisymm (ha : isOrdinal a = true) (hb : isOrdinal b = true)
    (hab : ordinalLe a b = true) (hba : ordinalLe b a = true) : a = b := by
  simp only [ordinalLe, Bool.or_eq_true, Bool.and_eq_true, decide_eq_true_eq, beq_iff_eq]
    at hab hba
  exact eq_of_digitsValue (ListTemplate.of_isOrdinal ha).2 (ListTemplate.of_isOrdinal hb).2
    (by omega) (by omega)

/-- The digits of an ordinal behind the zeros that it begins with. -/
def significant (name : Name) : Name := name.dropWhile (· == '0')

/-- Whether one ordinal comes before another, or is the same, by their texts: the one with fewer
significant digits, of as many the one with smaller digits, and of the same the shorter one. No
number is computed, so ordinals may have any length. -/
def textualLe (a b : Name) : Bool :=
  (significant a).length < (significant b).length ||
    ((significant a).length == (significant b).length &&
      if significant a = significant b then a.length ≤ b.length
      else codeLe (significant a) (significant b))

theorem digitsValue_significant (a : Name) : digitsValue (significant a) = digitsValue a := by
  induction a with
  | nil => rfl
  | cons c a ih =>
    by_cases hc : c = '0'
    · have hzero : digitValue '0' = 0 := rfl
      have hdrop : significant ('0' :: a) = significant a := rfl
      rw [hc, hdrop, ih, digitsValue_cons, hzero, Nat.zero_mul, Nat.zero_add]
    · rw [significant, List.dropWhile_cons_of_neg (by simpa using hc)]

theorem isDigit_of_mem_significant (h : ∀ c ∈ a, c.isDigit = true) :
    ∀ c ∈ significant a, c.isDigit = true :=
  fun c hc => h c ((List.dropWhile_suffix _).subset hc)

/-- Fewer significant digits stand for less. -/
theorem digitsValue_lt_of_significant (ha : ∀ c ∈ a, c.isDigit = true)
    (hb : ∀ c ∈ b, c.isDigit = true) (h : (significant a).length < (significant b).length) :
    digitsValue a < digitsValue b := by
  rw [← digitsValue_significant a, ← digitsValue_significant b]
  have hdigits := isDigit_of_mem_significant hb
  cases hfirst : significant b with
  | nil =>
    rw [hfirst] at h
    cases h
  | cons c v =>
    rw [hfirst] at h hdigits
    -- the first significant digit is no zero
    have hc : 1 ≤ digitValue c := by
      have hhead := List.head?_dropWhile_not (· == '0') b
      rw [show b.dropWhile (· == '0') = c :: v from hfirst] at hhead
      have hne : c ≠ '0' := by simpa using hhead
      have hcode := toNat_eq_digitValue (hdigits c (List.mem_cons_self ..))
      by_contra hzero
      exact hne (Char.toNat_inj.1 (by omega))
    calc digitsValue (significant a) < 10 ^ (significant a).length :=
        digitsValue_lt (isDigit_of_mem_significant ha)
      _ ≤ 10 ^ v.length := Nat.pow_le_pow_right (by decide) (Nat.le_of_lt_succ h)
      _ ≤ digitValue c * 10 ^ v.length := Nat.le_mul_of_pos_left _ hc
      _ ≤ digitValue c * 10 ^ v.length + digitsValue v := Nat.le_add_right ..
      _ = digitsValue (c :: v) := (digitsValue_cons c v).symm

/-- **Ordinals are in order by their texts alone.** -/
theorem ordinalLe_eq_textual (ha : isOrdinal a = true) (hb : isOrdinal b = true) :
    ordinalLe a b = textualLe a b := by
  have hda := (ListTemplate.of_isOrdinal ha).2
  have hdb := (ListTemplate.of_isOrdinal hb).2
  rw [Bool.eq_iff_iff]
  simp only [ordinalLe, textualLe, Bool.or_eq_true, Bool.and_eq_true, decide_eq_true_eq, beq_iff_eq]
  -- Fewer significant digits stand for less, so only ordinals with as many of them need a look at
  -- the digits themselves.
  rcases Nat.lt_trichotomy (significant a).length (significant b).length with hlt | heq | hlt
  · have hvalue := digitsValue_lt_of_significant hda hdb hlt
    simp [hlt, hvalue]
  · have hle := codeLe_iff_digitsValue (isDigit_of_mem_significant hda)
      (isDigit_of_mem_significant hdb) heq
    rw [digitsValue_significant, digitsValue_significant] at hle
    -- with the same significant digits the numbers are the same, and the zeros before them
    -- decide; otherwise they differ
    split_ifs with hsame
    · have hvalue : digitsValue a = digitsValue b := by
        rw [← digitsValue_significant a, hsame, digitsValue_significant]
      simp [heq, hvalue]
    · have hvalue : digitsValue a ≠ digitsValue b := by
        intro hvalue
        refine hsame (eq_of_digitsValue (isDigit_of_mem_significant hda)
          (isDigit_of_mem_significant hdb) heq ?_)
        rw [digitsValue_significant, digitsValue_significant, hvalue]
      rw [hle]
      omega
  · have hvalue := digitsValue_lt_of_significant hdb hda hlt
    omega

/-! ### Listings -/

/-- That an ordinal stands for a smaller number, or for the same one with fewer digits. -/
def OrdinalBefore (a b : Name) : Prop :=
  digitsValue a < digitsValue b ∨ digitsValue a = digitsValue b ∧ a.length < b.length

/-- That a name comes before another one in a listing. Names that are no ordinals come first, by
their bytes, and ordinals after them, by their numbers. -/
inductive Before : Name → Name → Prop
  /-- Names that are no ordinals come in the order of their bytes. -/
  | named {a b : Name} (first : isOrdinal a = false) (second : isOrdinal b = false)
      (bytes : List.Lex (fun p q : UInt8 => p < q) (encodeBytes a) (encodeBytes b)) : Before a b
  /-- They come before all ordinals. -/
  | mixed {a b : Name} (first : isOrdinal a = false) (second : isOrdinal b = true) : Before a b
  | ordinals {a b : Name} (first : isOrdinal a = true) (second : isOrdinal b = true)
      (numbers : OrdinalBefore a b) : Before a b

theorem ordinalBefore_of_ordinalLe (ha : isOrdinal a = true) (hb : isOrdinal b = true)
    (h : ordinalLe a b = true) (hne : a ≠ b) : OrdinalBefore a b := by
  have hnot : ¬ ordinalLe b a = true := fun hba => hne (ordinalLe_antisymm ha hb h hba)
  simp only [ordinalLe, Bool.or_eq_true, Bool.and_eq_true, decide_eq_true_eq, beq_iff_eq] at h hnot
  unfold OrdinalBefore
  omega

/-- **The listing of names** is by the three rules. -/
theorem before_of_listedLe (h : listedLe a b = true) (hne : a ≠ b) : Before a b := by
  cases ha : isOrdinal a <;> cases hb : isOrdinal b <;> simp only [listedLe, ha, hb] at h
  case false.false => exact .named ha hb (lex_encodeBytes h hne)
  case false.true => exact .mixed ha hb
  case true.false => cases h
  case true.true => exact .ordinals ha hb (ordinalBefore_of_ordinalLe ha hb h hne)

theorem listedLe_total (a b : Name) : listedLe a b || listedLe b a := by
  cases ha : isOrdinal a <;> cases hb : isOrdinal b <;> simp only [listedLe, ha, hb]
  case false.false => exact codeLe_total a b
  case true.true => exact ordinalLe_total a b
  all_goals rfl

theorem listedLe_trans (a b c : Name) (hab : listedLe a b) (hbc : listedLe b c) :
    listedLe a c := by
  cases ha : isOrdinal a <;> cases hb : isOrdinal b <;> cases hc : isOrdinal c <;>
    simp only [listedLe, ha, hb, hc] at hab hbc ⊢
  case false.false.false => exact codeLe_trans a b c hab hbc
  case true.true.true => exact ordinalLe_trans a b c hab hbc
  all_goals first | rfl | contradiction

/-- **No two names tie in a listing.** -/
theorem listedLe_antisymm (hab : listedLe a b = true) (hba : listedLe b a = true) : a = b := by
  cases ha : isOrdinal a <;> cases hb : isOrdinal b <;> simp only [listedLe, ha, hb] at hab hba
  case false.false => exact codeLe_antisymm hab hba
  case false.true => cases hba
  case true.false => cases hab
  case true.true => exact ordinalLe_antisymm ha hb hab hba

end Name

end FieldedText
