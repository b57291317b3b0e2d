import PagedTraversal.Double.Basic

/-!
# PagedTraversal.Double.Rounding

The binary64 number nearest to an exact ratio, a tie going to the even neighbour. Whole numbers
and decimal fractions are read through it. All arithmetic is on natural numbers; powers are
`Nat.pow` by name, which means the same whatever instances of `^` are in scope. Main statement:
the rounded ratio is at most half a unit off.
-/

namespace PagedTraversal

/-- The whole number nearest to `num / den`; a half goes to the even neighbour. -/
def roundHalfEven (num den : Nat) : Nat :=
  let quotient := num / den
  let remainder := num % den
  if 2 * remainder < den then quotient
  else if den < 2 * remainder then quotient + 1
  else if quotient % 2 = 0 then quotient else quotient + 1

/-- The result is at most half a unit away from the ratio. -/
theorem roundHalfEven_within (num : Nat) {den : Nat} (h : 0 < den) :
    2 * num ≤ (2 * roundHalfEven num den + 1) * den ∧
      2 * roundHalfEven num den * den ≤ 2 * num + den := by
  have hsplit := Nat.div_add_mod num den
  have hlt := Nat.mod_lt num h
  generalize hq : num / den = q at *
  generalize hr : num % den = r at *
  have hlow : (2 * q + 1) * den = 2 * (den * q) + den := by
    rw [Nat.add_mul, Nat.one_mul, Nat.mul_assoc, Nat.mul_comm q]
  have hhigh : (2 * (q + 1) + 1) * den = 2 * (den * q) + 3 * den := by
    rw [Nat.add_mul, Nat.one_mul, Nat.mul_assoc, Nat.add_mul, Nat.one_mul, Nat.mul_comm q]
    omega
  have hdown : 2 * q * den = 2 * (den * q) := by rw [Nat.mul_assoc, Nat.mul_comm q]
  have hup : 2 * (q + 1) * den = 2 * (den * q) + 2 * den := by
    rw [Nat.mul_assoc, Nat.add_mul, Nat.one_mul, Nat.mul_comm q]
    omega
  simp only [roundHalfEven, hq, hr]
  split
  · omega
  · split
    · omega
    · split <;> omega

/-- The whole number nearest to `num / (den * 2 ^ scale)`. -/
def roundScaled (num den : Nat) (scale : Int) : Nat :=
  roundHalfEven (num * Nat.pow 2 (-scale).toNat) (den * Nat.pow 2 scale.toNat)

namespace Double

/-- The scale at which `num / den` has a significand of fifty-three bits, or the least scale there
is when the ratio is too small for that. The two logarithms leave one binary place open, which
the comparison settles. -/
def scaleFor (num den : Nat) : Int :=
  let low : Int := (num.log2 : Int) - (den.log2 : Int) - 53
  let wide : Bool := den * Nat.pow 2 low.toNat * (2 * binade) ≤ num * Nat.pow 2 (-low).toNat
  max (if wide then low + 1 else low) (-1074)

/-- The magnitude code of the number nearest to `num / den`. A significand that rounds up to the
next power of two carries into the exponent, and a code from `infinityCode` on means overflow. -/
def nearestCode (num den : Nat) : Nat :=
  if num = 0 then 0
  else
    let scale := scaleFor num den
    roundScaled num den scale + (scale + 1074).toNat * binade

/-- The number nearest to a whole number. -/
def ofInt (i : Int) : Double := ofCode (i < 0) (nearestCode i.natAbs 1)

/-- The number nearest to `± digits * 10 ^ exponent`, or `none` where that is an infinity. Powers
of ten far outside the range are never formed. -/
def ofDecimal? (negative : Bool) (digits : Nat) (exponent : Int) : Option Double :=
  if digits = 0 then some (ofCode negative 0)
  else
    let places : Int := ((Nat.toDigits 10 digits).length : Int) + exponent
    if 310 < places then none
    else if places < -330 then some (ofCode negative 0)
    else
      let code := nearestCode (digits * Nat.pow 10 exponent.toNat) (Nat.pow 10 (-exponent).toNat)
      if code < infinityCode then some (ofCode negative code) else none

theorem isFinite_ofCode {code : Nat} (h : code < infinityCode) :
    (ofCode false code).isFinite = true := by
  have hcode : code < 9218868437227405312 := h
  have hbits : (ofCode false code).bits.toNat = code := by
    simp only [ofCode, Bool.false_eq_true, if_false, UInt64.toNat_ofNat']
    exact Nat.mod_eq_of_lt (by omega)
  have hfield : (ofCode false code).exponentField < 2047 := by
    rw [exponentField, hbits, binade]
    omega
  simp only [isFinite, bne_iff_ne]
  omega

/-- Beyond the signed 64-bit range neighbours are `2 ^ 11` apart. -/
theorem nearestCode_of_large {n : Nat} (hlow : 9223372036854775808 ≤ n)
    (hhigh : n < 18446744073709551616) :
    nearestCode n 1 = roundHalfEven n 2048 + 1085 * binade := by
  have hlog : n.log2 = 63 := (Nat.log2_eq_iff (by omega)).2 ⟨hlow, hhigh⟩
  have hone : Nat.log2 1 = 0 := by decide
  have hwide : 1024 * (2 * binade) ≤ n := by
    simp only [binade]
    omega
  have hscale : scaleFor n 1 = 11 := by
    simp +decide [scaleFor, hlog, hone, hwide]
  have hne : n ≠ 0 := by omega
  simp [nearestCode, hne, hscale, roundScaled]

theorem isFinite_ofInt_of_large {i : Int} (hlow : 9223372036854775807 < i)
    (hhigh : i ≤ 18446744073709551615) : (ofInt i).isFinite = true := by
  have hsign : decide (i < 0) = false := by
    simp only [decide_eq_false_iff_not]
    omega
  have hcode := nearestCode_of_large (n := i.natAbs) (by omega) (by omega)
  have hround := (roundHalfEven_within i.natAbs (show 0 < 2048 by decide)).2
  rw [ofInt, hsign]
  refine isFinite_ofCode ?_
  rw [hcode]
  simp only [infinityCode, binade]
  omega

end Double

end PagedTraversal
