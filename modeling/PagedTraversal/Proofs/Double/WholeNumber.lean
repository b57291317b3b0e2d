import PagedTraversal.Double.Rounding

/-!
# PagedTraversal.Proofs.Double.WholeNumber

Which whole numbers a double keeps apart. A whole number below `2 ^ 53` has a significand of its
own and is not rounded, and a larger one has a larger exponent, so a small number is never taken
for another one.

* `Double.nearestCode_of_small`, `Double.nearestCode_bounds`: the code of a whole number.
* `Double.eq_of_equals_ofInt`: numbers with equal doubles are the same, if one of them is small.
-/

namespace PagedTraversal

/-! ## Rounding between whole bounds -/

theorem roundHalfEven_one (num : Nat) : roundHalfEven num 1 = num := by
  simp [roundHalfEven, Nat.mod_one]

theorem le_roundHalfEven {low num den : Nat} (hden : 0 < den) (h : low * den ≤ num) :
    low ≤ roundHalfEven num den := by
  have hquotient : low ≤ num / den := (Nat.le_div_iff_mul_le hden).2 h
  simp only [roundHalfEven]
  split
  · exact hquotient
  · split
    · omega
    · split <;> omega

theorem roundHalfEven_le {high num den : Nat} (hden : 0 < den) (h : num < high * den) :
    roundHalfEven num den ≤ high := by
  have hquotient : num / den < high := (Nat.div_lt_iff_lt_mul hden).2 h
  simp only [roundHalfEven]
  split
  · omega
  · split
    · omega
    · split <;> omega

namespace Double

/-! ## Scale and significand -/

theorem pow_two_eq_binade : Nat.pow 2 52 = binade := by decide

/-- The numbers that a significand has room for. -/
theorem lt_iff_log2_lt {n : Nat} (hn : 0 < n) : n < 2 * binade ↔ n.log2 < 53 := by
  have hwidth : 2 * binade = Nat.pow 2 53 := by decide
  rw [hwidth]
  exact (Nat.log2_lt (by omega)).symm

/-- Shifted to a width, a whole number lies between two powers of two. The shift is to the left for
a short number and to the right for a long one, and the other power is one. -/
theorem shifted_bounds {n : Nat} (hn : 0 < n) (width : Nat) :
    Nat.pow 2 width * Nat.pow 2 (n.log2 - width) ≤ n * Nat.pow 2 (width - n.log2) ∧
      n * Nat.pow 2 (width - n.log2) < 2 * Nat.pow 2 width * Nat.pow 2 (n.log2 - width) := by
  have hlow : Nat.pow 2 n.log2 ≤ n := Nat.log2_self_le (by omega)
  have hhigh : n < 2 * Nat.pow 2 n.log2 := by
    rw [Nat.mul_comm]
    exact Nat.lt_log2_self
  have hsame : Nat.pow 2 width * Nat.pow 2 (n.log2 - width) =
      Nat.pow 2 n.log2 * Nat.pow 2 (width - n.log2) := by
    have hexponent : width + (n.log2 - width) = n.log2 + (width - n.log2) := by omega
    calc Nat.pow 2 width * Nat.pow 2 (n.log2 - width)
        = Nat.pow 2 (width + (n.log2 - width)) := (Nat.pow_add 2 width _).symm
      _ = Nat.pow 2 (n.log2 + (width - n.log2)) := by rw [hexponent]
      _ = Nat.pow 2 n.log2 * Nat.pow 2 (width - n.log2) := Nat.pow_add 2 n.log2 _
  have hpos : 0 < Nat.pow 2 (width - n.log2) := Nat.two_pow_pos _
  rw [Nat.mul_assoc, hsame, ← Nat.mul_assoc]
  exact ⟨Nat.mul_le_mul_right _ hlow, Nat.mul_lt_mul_of_pos_right hhigh hpos⟩

/-- The leading one of a whole number becomes the highest bit of the significand. -/
theorem scaleFor_one {n : Nat} (hn : 0 < n) : scaleFor n 1 = (n.log2 : Int) - 52 := by
  have hlog : Nat.log2 1 = 0 := by decide
  have hup : ((n.log2 : Int) - (0 : Nat) - 53).toNat = n.log2 - 53 := by omega
  have hdown : (-((n.log2 : Int) - (0 : Nat) - 53)).toNat = 53 - n.log2 := by omega
  have hwidth : 2 * binade = Nat.pow 2 53 := by decide
  have hwide := (shifted_bounds hn 53).1
  simp only [scaleFor, hlog, hup, hdown, hwidth, Nat.one_mul]
  rw [Nat.mul_comm, decide_eq_true hwide, if_pos rfl]
  omega

theorem nearestCode_one {n : Nat} (hn : 0 < n) :
    nearestCode n 1 =
      roundHalfEven (n * Nat.pow 2 (52 - n.log2)) (Nat.pow 2 (n.log2 - 52)) +
        (n.log2 + 1022) * binade := by
  have hne : n ≠ 0 := by omega
  have hup : (-((n.log2 : Int) - 52)).toNat = 52 - n.log2 := by omega
  have hdown : ((n.log2 : Int) - 52).toNat = n.log2 - 52 := by omega
  have hexponent : ((n.log2 : Int) - 52 + 1074).toNat = n.log2 + 1022 := by omega
  simp only [nearestCode, if_neg hne, scaleFor_one hn, roundScaled, hup, hdown, hexponent,
    Nat.one_mul]

/-- The code of a whole number lies in the binade of its leading one, or is the first code after it
where rounding carries over. -/
theorem nearestCode_bounds {n : Nat} (hn : 0 < n) :
    (n.log2 + 1023) * binade ≤ nearestCode n 1 ∧ nearestCode n 1 ≤ (n.log2 + 1024) * binade := by
  have hden : 0 < Nat.pow 2 (n.log2 - 52) := Nat.two_pow_pos _
  obtain ⟨hlow, hhigh⟩ := shifted_bounds hn 52
  rw [pow_two_eq_binade] at hlow hhigh
  have hlow := le_roundHalfEven hden hlow
  have hhigh := roundHalfEven_le hden hhigh
  have hsplit : (n.log2 + 1023) * binade = (n.log2 + 1022) * binade + binade := Nat.succ_mul _ _
  have hsplit' : (n.log2 + 1024) * binade = (n.log2 + 1023) * binade + binade := Nat.succ_mul _ _
  rw [nearestCode_one hn]
  omega

/-- The code of a small whole number is not rounded, and lies in the binade of its leading one. -/
theorem nearestCode_of_small {n : Nat} (hn : 0 < n) (hsmall : n < 2 * binade) :
    nearestCode n 1 = n * Nat.pow 2 (52 - n.log2) + (n.log2 + 1022) * binade ∧
      nearestCode n 1 < (n.log2 + 1024) * binade := by
  have hlog := (lt_iff_log2_lt hn).1 hsmall
  have hzero : n.log2 - 52 = 0 := by omega
  have hone : Nat.pow 2 0 = 1 := rfl
  have hhigh := (shifted_bounds hn 52).2
  rw [hzero, hone, pow_two_eq_binade, Nat.mul_one] at hhigh
  have hcode := nearestCode_one hn
  rw [hzero, hone, roundHalfEven_one] at hcode
  refine ⟨hcode, ?_⟩
  rw [hcode]
  simp only [binade] at *
  omega

/-- A small whole number shares its code with no other. -/
theorem eq_of_nearestCode_eq {m n : Nat} (hsmall : m < 2 * binade)
    (h : nearestCode m 1 = nearestCode n 1) : m = n := by
  rcases Nat.eq_zero_or_pos m with rfl | hm
  · rcases Nat.eq_zero_or_pos n with rfl | hn
    · rfl
    · have hlow := (nearestCode_bounds hn).1
      have hzero : nearestCode 0 1 = 0 := rfl
      simp only [binade] at hlow
      omega
  · rcases Nat.eq_zero_or_pos n with rfl | hn
    · have hlow := (nearestCode_bounds hm).1
      have hzero : nearestCode 0 1 = 0 := rfl
      simp only [binade] at hlow
      omega
    · obtain ⟨hcode, hbelow⟩ := nearestCode_of_small hm hsmall
      have habove := (nearestCode_bounds hm).1
      have hlow := (nearestCode_bounds hn).1
      have hhigh := (nearestCode_bounds hn).2
      -- a code in the binade of `m` belongs to a number with that leading one, or to one just below
      have hlog : n.log2 ≤ m.log2 := by
        simp only [binade] at *
        omega
      have hnsmall : n < 2 * binade := by
        rw [lt_iff_log2_lt hn]
        rw [lt_iff_log2_lt hm] at hsmall
        omega
      obtain ⟨hcode', hbelow'⟩ := nearestCode_of_small hn hnsmall
      have hsame : n.log2 = m.log2 := by
        simp only [binade] at *
        omega
      rw [hcode, hcode', hsame] at h
      exact Nat.eq_of_mul_eq_mul_right (Nat.two_pow_pos _) (Nat.add_right_cancel h)

/-! ## Signs -/

theorem toNat_bits_ofCode {negative : Bool} {code : Nat} (h : code < 2048 * binade) :
    (ofCode negative code).bits.toNat =
      if negative then 2048 * binade + code else code := by
  simp only [binade] at *
  cases negative <;>
    simp only [ofCode, Bool.false_eq_true, if_false, if_true, UInt64.toNat_ofNat'] <;> omega

/-- Equal doubles have the same magnitude, and the same sign too unless both are zero. -/
theorem code_eq_of_equals {s t : Bool} {c d : Nat} (hc : c < 2048 * binade) (hd : d < 2048 * binade)
    (h : (ofCode s c).equals (ofCode t d) = true) : c = d ∧ (s = t ∨ c = 0) := by
  have hbits : (ofCode s c).bits.toNat = if s then 2048 * binade + c else c := toNat_bits_ofCode hc
  have hbits' : (ofCode t d).bits.toNat = if t then 2048 * binade + d else d := toNat_bits_ofCode hd
  simp only [equals, Bool.and_eq_true, Bool.or_eq_true, beq_iff_eq] at h
  obtain ⟨-, h | ⟨hzero, hzero'⟩⟩ := h
  · rw [h, hbits'] at hbits
    cases s <;> cases t <;> simp only [Bool.false_eq_true, if_false, if_true] at hbits <;>
      simp <;> omega
  · simp only [isZero, exponentField, fraction, hbits, hbits', Bool.and_eq_true, beq_iff_eq,
      binade] at hzero hzero' hc hd
    have hc0 : c = 0 := by
      cases s <;> simp only [Bool.false_eq_true, if_false, if_true] at hzero <;> omega
    have hd0 : d = 0 := by
      cases t <;> simp only [Bool.false_eq_true, if_false, if_true] at hzero' <;> omega
    exact ⟨hc0.trans hd0.symm, .inr hc0⟩

theorem nearestCode_lt {n : Nat} (hn : n < 18446744073709551616) :
    nearestCode n 1 < 2048 * binade := by
  rcases Nat.eq_zero_or_pos n with rfl | hpos
  · decide
  · have hlog : n.log2 < 64 := (Nat.log2_lt (by omega)).2 hn
    have hhigh := (nearestCode_bounds hpos).2
    simp only [binade] at *
    omega

theorem nearestCode_eq_zero {n : Nat} (h : nearestCode n 1 = 0) : n = 0 := by
  have hcodes : nearestCode 0 1 = nearestCode n 1 := h.symm
  exact (eq_of_nearestCode_eq (by decide) hcodes).symm

/-- A small whole number has a double that no other whole number is rounded to. -/
theorem eq_of_equals_ofInt {i j : Int} (hsmall : i.natAbs < 2 * binade)
    (hj : j.natAbs < 18446744073709551616) (h : (ofInt i).equals (ofInt j) = true) : i = j := by
  have hi : i.natAbs < 18446744073709551616 := by
    simp only [binade] at hsmall
    omega
  obtain ⟨hcode, hsign⟩ := code_eq_of_equals (nearestCode_lt hi) (nearestCode_lt hj) h
  have hmagnitude : i.natAbs = j.natAbs := eq_of_nearestCode_eq hsmall hcode
  rcases hsign with hsign | hzero
  · simp only [decide_eq_decide] at hsign
    omega
  · have hi0 := nearestCode_eq_zero hzero
    omega

end Double

end PagedTraversal
