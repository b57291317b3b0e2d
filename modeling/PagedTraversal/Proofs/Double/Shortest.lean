import Mathlib.Algebra.Order.Field.Power
import Mathlib.Algebra.Order.Ring.Rat
import Mathlib.Tactic.Linarith
import Mathlib.Tactic.Positivity
import Mathlib.Tactic.Ring
import PagedTraversal.Double.Shortest

/-!
# PagedTraversal.Proofs.Double.Shortest

The shortest decimal of a double belongs to that double alone. The reals that round to a double
form an interval, closed where the significand is even and open where it is odd. Neighbouring
intervals share an end that only one of them contains, so no decimal lies in two of them; and the
search for the shortest decimal never runs past the grids that are fine enough for a hit.

* `Double.covers_shortest`: the shortest decimal lies in the interval of its double.
* `Double.eq_of_covers`: a decimal in the intervals of two doubles of one sign makes them the same.
-/

namespace PagedTraversal

namespace Double

/-! ## Sign, exponent field and fraction -/

theorem exponentField_lt (d : Double) : d.exponentField < 2048 := Nat.mod_lt _ (by decide)

theorem fraction_lt (d : Double) : d.fraction < binade := Nat.mod_lt _ (by decide)

/-- The bits are the sign, the exponent field and the fraction. -/
theorem eq_of_parts {d e : Double} (hsign : d.isNegative = e.isNegative)
    (hfield : d.exponentField = e.exponentField) (hfraction : d.fraction = e.fraction) : d = e := by
  have hd := d.bits.toNat_lt
  have he := e.bits.toNat_lt
  simp only [isNegative, decide_eq_decide] at hsign
  simp only [exponentField, binade] at hfield
  simp only [fraction, binade] at hfraction
  have hbits : d.bits = e.bits := UInt64.toNat_inj.1 (by omega)
  cases d
  cases e
  cases hbits
  rfl

theorem significand_lt (d : Double) : d.significand < 2 * binade := by
  have := d.fraction_lt
  simp only [significand]
  split <;> omega

theorem significand_pos {d : Double} (h : d.isZero = false) : 0 < d.significand := by
  simp only [isZero, Bool.and_eq_false_iff, beq_eq_false_iff_ne] at h
  simp only [significand, binade]
  split <;> omega

theorem reachBelow_le (d : Double) : d.reachBelow ≤ 2 := by
  simp only [reachBelow]
  split <;> omega

theorem reachBelow_of_fraction {d : Double} (h : d.fraction ≠ 0) : d.reachBelow = 2 := by
  simp [reachBelow, h]

/-! ## The interval of a double -/

/-- A quarter of the last binary place. -/
def quarter (d : Double) : ℚ := 2 ^ (d.scale - 2)

theorem quarter_pos (d : Double) : 0 < d.quarter := by
  unfold quarter
  positivity

/-- The point halfway to the neighbour below. -/
def lowest (d : Double) : ℚ := (4 * d.significand - d.reachBelow) * d.quarter

/-- The point halfway to the neighbour above. -/
def highest (d : Double) : ℚ := (4 * d.significand + 2) * d.quarter

/-- The interval of magnitudes that round to `d`: its ends belong to it where the significand is
even, for a tie goes to the even neighbour. -/
def Covers (d : Double) (x : ℚ) : Prop :=
  if d.significand % 2 = 0 then d.lowest ≤ x ∧ x ≤ d.highest else d.lowest < x ∧ x < d.highest

theorem Covers.bounds {d : Double} {x : ℚ} (h : d.Covers x) : d.lowest ≤ x ∧ x ≤ d.highest := by
  unfold Covers at h
  split at h
  · exact h
  · exact ⟨h.1.le, h.2.le⟩

/-- Nothing in the interval of a nonzero double is zero. -/
theorem Covers.pos {d : Double} {x : ℚ} (hd : d.isZero = false) (h : d.Covers x) : 0 < x := by
  have hsignificand : (1 : ℚ) ≤ d.significand := by exact_mod_cast significand_pos hd
  have hreach : (d.reachBelow : ℚ) ≤ 2 := by exact_mod_cast d.reachBelow_le
  have hlowest : 0 < d.lowest := mul_pos (by linarith) d.quarter_pos
  exact lt_of_lt_of_le hlowest h.bounds.1

/-! ## Intervals do not overlap -/

/-- What the intervals of two doubles have in common when the first is the smaller one: nothing,
or one end, which belongs to one of them only. -/
def Apart (d e : Double) : Prop :=
  d.highest < e.lowest ∨
    (d.highest = e.lowest ∧ d.significand % 2 ≠ e.significand % 2)

theorem not_covers_of_apart {d e : Double} (h : Apart d e) {x : ℚ} (hd : d.Covers x)
    (he : e.Covers x) : False := by
  rcases h with hlt | ⟨heq, hparity⟩
  · linarith [hd.bounds.2, he.bounds.1]
  · have hend : d.highest ≤ x := heq ▸ he.bounds.1
    have hend' : x ≤ e.lowest := heq ▸ hd.bounds.2
    unfold Covers at hd he
    split at hd
    · split at he
      · omega
      · linarith [he.1]
    · linarith [hd.2]

/-- Where the last place is the same, the significands tell the intervals apart: those of
neighbours meet, and one of two neighbouring significands is odd. -/
theorem apart_of_significand_lt {d e : Double} (hquarter : e.quarter = d.quarter)
    (hreach : e.reachBelow = 2) (hlt : d.significand < e.significand) : Apart d e := by
  unfold Apart highest lowest
  rw [hquarter, hreach]
  rcases Nat.lt_or_eq_of_le (Nat.succ_le_of_lt hlt) with hfar | hnext
  · refine .inl (mul_lt_mul_of_pos_right ?_ d.quarter_pos)
    have : (d.significand : ℚ) + 2 ≤ e.significand := by exact_mod_cast hfar
    push_cast
    linarith
  · refine .inr ⟨?_, by omega⟩
    rw [← hnext]
    push_cast
    ring

theorem apart_of_fraction_lt {d e : Double} (hfield : d.exponentField = e.exponentField)
    (hfraction : d.fraction < e.fraction) : Apart d e := by
  refine apart_of_significand_lt ?_ (reachBelow_of_fraction (by omega)) ?_
  · simp only [quarter, scale, hfield]
  · simp only [significand, hfield]
    split <;> omega

/-- From the subnormal numbers to the first binade of normal ones the last place stays the same. -/
theorem apart_of_subnormal {d e : Double} (hd : d.exponentField = 0) (he : e.exponentField = 1) :
    Apart d e := by
  have hdsig : d.significand < binade := by simpa [significand, hd] using d.fraction_lt
  have hesig : binade ≤ e.significand := by simp [significand, he]
  refine apart_of_significand_lt ?_ ?_ (lt_of_lt_of_le hdsig hesig)
  · simp [quarter, scale, hd, he]
  · simp [reachBelow, he]

/-- From the second binade of normal numbers on, the last place doubles with each binade. -/
theorem two_mul_quarter_le {d e : Double} (hfield : d.exponentField < e.exponentField)
    (he : 1 < e.exponentField) : 2 * d.quarter ≤ e.quarter := by
  have hscale : d.scale + 1 ≤ e.scale := by
    simp only [scale]
    split <;> split <;> omega
  calc 2 * d.quarter = (2 : ℚ) ^ (d.scale - 2 + 1) := by
        rw [quarter, zpow_add_one₀ (by norm_num), mul_comm]
    _ ≤ e.quarter := zpow_le_zpow_right₀ (by norm_num) (by omega)

/-- The reach below the first number of a binade is halved, as its neighbour's last place is. -/
theorem apart_of_normal {d e : Double} (hfield : d.exponentField < e.exponentField)
    (he : 1 < e.exponentField) : Apart d e := by
  have hdouble := two_mul_quarter_le hfield he
  have hpos := d.quarter_pos
  have hd := d.significand_lt
  have hesig : e.significand = binade + e.fraction := by
    simp only [significand]
    rw [if_neg (by omega)]
  have hhighest : d.highest ≤ (8 * (binade : ℚ) - 2) * d.quarter := by
    refine mul_le_mul_of_nonneg_right ?_ hpos.le
    have : (d.significand : ℚ) + 1 ≤ 2 * binade := by exact_mod_cast hd
    linarith
  have hbinade : (4 : ℚ) ≤ binade := by norm_num [binade]
  have hcarried : (8 * (binade : ℚ) - 2) * d.quarter ≤ (4 * (binade : ℚ) - 1) * e.quarter := by
    calc (8 * (binade : ℚ) - 2) * d.quarter = (4 * (binade : ℚ) - 1) * (2 * d.quarter) := by ring
      _ ≤ (4 * (binade : ℚ) - 1) * e.quarter := mul_le_mul_of_nonneg_left hdouble (by linarith)
  by_cases hfraction : e.fraction = 0
  · have hreach : e.reachBelow = 1 := by simp [reachBelow, hfraction, he]
    have hlowest : e.lowest = (4 * (binade : ℚ) - 1) * e.quarter := by
      rw [lowest, hreach, hesig, hfraction]
      push_cast
      ring
    rcases (hhighest.trans (hcarried.trans hlowest.ge)).lt_or_eq with hlt | heq
    · exact .inl hlt
    · refine .inr ⟨heq, ?_⟩
      -- the ends meet only where nothing was lost above, that is below the last significand
      have hlast : d.highest = (8 * (binade : ℚ) - 2) * d.quarter := by linarith
      have hlast := mul_right_cancel₀ hpos.ne' hlast
      have hlast : (d.significand : ℚ) + 1 = 2 * binade := by linarith
      have hlast : d.significand + 1 = 2 * binade := by exact_mod_cast hlast
      rw [hesig, hfraction]
      simp only [binade] at hlast ⊢
      omega
  · have hreach : e.reachBelow = 2 := reachBelow_of_fraction hfraction
    refine .inl (lt_of_le_of_lt (hhighest.trans hcarried) ?_)
    refine mul_lt_mul_of_pos_right ?_ e.quarter_pos
    have : (1 : ℚ) ≤ e.fraction := by exact_mod_cast Nat.pos_of_ne_zero hfraction
    rw [hreach, hesig]
    push_cast
    linarith

theorem apart_of_field_lt {d e : Double} (h : d.exponentField < e.exponentField) : Apart d e := by
  by_cases he : e.exponentField = 1
  · exact apart_of_subnormal (by omega) he
  · exact apart_of_normal h (by omega)

/-- No magnitude rounds to two doubles of one sign. -/
theorem eq_of_covers {d e : Double} (hsign : d.isNegative = e.isNegative) {x : ℚ}
    (hd : d.Covers x) (he : e.Covers x) : d = e := by
  rcases Nat.lt_trichotomy d.exponentField e.exponentField with hlt | hfield | hgt
  · exact (not_covers_of_apart (apart_of_field_lt hlt) hd he).elim
  · rcases Nat.lt_trichotomy d.fraction e.fraction with hlt | hfraction | hgt
    · exact (not_covers_of_apart (apart_of_fraction_lt hfield hlt) hd he).elim
    · exact eq_of_parts hsign hfield hfraction
    · exact (not_covers_of_apart (apart_of_fraction_lt hfield.symm hgt) he hd).elim
  · exact (not_covers_of_apart (apart_of_field_lt hgt) he hd).elim

/-! ## The grids of powers of ten -/

/-- A power with a whole exponent is a natural power up to the scale that makes it one. -/
theorem cast_pow_toNat {b : ℕ} (hb : b ≠ 0) (z : ℤ) :
    ((Nat.pow b z.toNat : ℕ) : ℚ) = (b : ℚ) ^ z * (Nat.pow b (-z).toNat : ℕ) := by
  have hb' : (b : ℚ) ≠ 0 := by exact_mod_cast hb
  have hexponent : ((z.toNat : ℕ) : ℤ) = z + ((-z).toNat : ℕ) := by omega
  simp only [Nat.pow_eq, Nat.cast_pow]
  rw [← zpow_natCast, ← zpow_natCast, hexponent, zpow_add₀ hb']

/-- The scale on which the places of a double and the steps of a grid are whole numbers. -/
def commonScale (d : Double) (exponent : ℤ) : ℕ :=
  Nat.pow 2 (-(d.scale - 2)).toNat * Nat.pow 10 (-exponent).toNat

theorem commonScale_pos (d : Double) (exponent : ℤ) : 0 < d.commonScale exponent :=
  Nat.mul_pos (Nat.pow_pos (by decide)) (Nat.pow_pos (by decide))

theorem cast_unit (d : Double) (exponent : ℤ) :
    ((Nat.pow 2 (d.scale - 2).toNat * Nat.pow 10 (-exponent).toNat : ℕ) : ℚ) =
      d.quarter * d.commonScale exponent := by
  rw [Nat.cast_mul, cast_pow_toNat (by decide), commonScale, Nat.cast_mul, quarter, mul_assoc]
  rfl

theorem cast_step (d : Double) (exponent : ℤ) :
    ((Nat.pow 2 (-(d.scale - 2)).toNat * Nat.pow 10 exponent.toNat : ℕ) : ℚ) =
      10 ^ exponent * d.commonScale exponent := by
  rw [Nat.cast_mul, cast_pow_toNat (b := 10) (by decide), commonScale, Nat.cast_mul]
  push_cast
  ring

/-- The test of a grid point, on the common scale, is whether the interval covers it. -/
theorem inside_iff {d : Double} (hd : d.isZero = false) (exponent : ℤ) (c : ℕ) :
    let unit := Nat.pow 2 (d.scale - 2).toNat * Nat.pow 10 (-exponent).toNat
    let step := Nat.pow 2 (-(d.scale - 2)).toNat * Nat.pow 10 exponent.toNat
    let low := (4 * d.significand - d.reachBelow) * unit
    let high := (4 * d.significand + 2) * unit
    (if d.significand % 2 = 0 then decide (low ≤ c * step) && decide (c * step ≤ high)
      else decide (low < c * step) && decide (c * step < high)) = true ↔
      d.Covers (c * 10 ^ exponent) := by
  intro unit step low high
  have hscale : (0 : ℚ) < d.commonScale exponent := by exact_mod_cast d.commonScale_pos exponent
  have hunit : (unit : ℚ) = d.quarter * d.commonScale exponent := cast_unit d exponent
  have hstep : ((c * step : ℕ) : ℚ) = c * 10 ^ exponent * d.commonScale exponent := by
    rw [Nat.cast_mul, cast_step, mul_assoc]
  have hlow : (low : ℚ) = d.lowest * d.commonScale exponent := by
    have hreach : d.reachBelow ≤ 4 * d.significand := by
      have := d.reachBelow_le
      have := significand_pos hd
      omega
    rw [Nat.cast_mul, Nat.cast_sub hreach, hunit, lowest]
    push_cast
    ring
  have hhigh : (high : ℚ) = d.highest * d.commonScale exponent := by
    rw [Nat.cast_mul, hunit, highest]
    push_cast
    ring
  have hle : low ≤ c * step ↔ d.lowest ≤ c * 10 ^ exponent := by
    rw [← Nat.cast_le (α := ℚ), hlow, hstep, mul_le_mul_iff_left₀ hscale]
  have hlt : low < c * step ↔ d.lowest < c * 10 ^ exponent := by
    rw [← Nat.cast_lt (α := ℚ), hlow, hstep, mul_lt_mul_iff_left₀ hscale]
  have hle' : c * step ≤ high ↔ c * 10 ^ exponent ≤ d.highest := by
    rw [← Nat.cast_le (α := ℚ), hhigh, hstep, mul_le_mul_iff_left₀ hscale]
  have hlt' : c * step < high ↔ c * 10 ^ exponent < d.highest := by
    rw [← Nat.cast_lt (α := ℚ), hhigh, hstep, mul_lt_mul_iff_left₀ hscale]
  unfold Covers
  split <;> simp only [Bool.and_eq_true, decide_eq_true_eq, hle, hlt, hle', hlt']

/-- A point that the grid offers lies in the interval. -/
theorem covers_of_gridPoint? {d : Double} (hd : d.isZero = false) {exponent : ℤ} {c : ℕ}
    (h : d.gridPoint? exponent = some c) : d.Covers (c * 10 ^ exponent) := by
  simp only [gridPoint?] at h
  split at h
  · next hbelow _ =>
    cases h
    exact (inside_iff hd exponent _).1 hbelow
  · next _ habove =>
    cases h
    exact (inside_iff hd exponent _).1 habove
  · cases h
  · next hbelow habove =>
    have hbelow := (inside_iff hd exponent _).1 hbelow
    have habove := (inside_iff hd exponent _).1 habove
    split at h
    · cases h
      exact hbelow
    · split at h
      · cases h
        exact habove
      · split at h
        · cases h
          exact hbelow
        · cases h
          exact habove

/-- A grid finer than the interval has a point in it: the first one above the number. -/
theorem gridPoint?_isSome (d : Double) {exponent : ℤ}
    (hfine : (10 : ℚ) ^ exponent < 2 * d.quarter) : (d.gridPoint? exponent).isSome = true := by
  have hscale : (0 : ℚ) < d.commonScale exponent := by exact_mod_cast d.commonScale_pos exponent
  have hfine : Nat.pow 2 (-(d.scale - 2)).toNat * Nat.pow 10 exponent.toNat <
      2 * (Nat.pow 2 (d.scale - 2).toNat * Nat.pow 10 (-exponent).toNat) := by
    rw [← Nat.cast_lt (α := ℚ), cast_step, Nat.cast_mul, cast_unit]
    push_cast
    rw [← mul_assoc]
    exact mul_lt_mul_of_pos_right hfine hscale
  have hpos : 0 < Nat.pow 2 (-(d.scale - 2)).toNat * Nat.pow 10 exponent.toNat :=
    Nat.mul_pos (Nat.pow_pos (by decide)) (Nat.pow_pos (by decide))
  have hreach := d.reachBelow_le
  simp only [gridPoint?]
  generalize Nat.pow 2 (-(d.scale - 2)).toNat * Nat.pow 10 exponent.toNat = step at hfine hpos ⊢
  generalize Nat.pow 2 (d.scale - 2).toNat * Nat.pow 10 (-exponent).toNat = unit at hfine ⊢
  have hlow : (4 * d.significand - d.reachBelow) * unit <
      (4 * d.significand * unit / step + 1) * step :=
    calc (4 * d.significand - d.reachBelow) * unit ≤ 4 * d.significand * unit :=
          Nat.mul_le_mul_right _ (Nat.sub_le _ _)
      _ < (4 * d.significand * unit / step + 1) * step := by
          rw [Nat.mul_comm _ step]
          exact Nat.lt_mul_div_succ _ hpos
  have hhigh : (4 * d.significand * unit / step + 1) * step <
      (4 * d.significand + 2) * unit :=
    calc (4 * d.significand * unit / step + 1) * step
        = 4 * d.significand * unit / step * step + step := Nat.succ_mul _ _
      _ ≤ 4 * d.significand * unit + step := Nat.add_le_add_right (Nat.div_mul_le_self _ _) _
      _ < 4 * d.significand * unit + 2 * unit := Nat.add_lt_add_left hfine _
      _ = (4 * d.significand + 2) * unit := (Nat.add_mul _ _ _).symm
  simp only [hlow, hhigh, hlow.le, hhigh.le, decide_true, Bool.and_self, ite_self]
  split
  · rfl
  · rfl
  · next h => cases h
  · split
    · rfl
    · split
      · rfl
      · split <;> rfl

/-- Powers of ten and of two compared by `10 ^ a` and `2 ^ b`, whose exponents `a` and `b` are nearly
in the ratio of the logarithms. -/
theorem ten_pow_lt {e m : ℤ} {a b : ℕ}
    (hbase : ((10 : ℚ) ^ a) ^ e ≤ ((2 : ℚ) ^ b) ^ e) (h : b * e < a * m) :
    (10 : ℚ) ^ e < 2 ^ m := by
  have hpower : ((10 : ℚ) ^ e) ^ a < ((2 : ℚ) ^ m) ^ a :=
    calc ((10 : ℚ) ^ e) ^ a = ((10 : ℚ) ^ a) ^ e := by
          rw [← zpow_natCast, ← zpow_natCast, ← zpow_mul, ← zpow_mul, mul_comm]
      _ ≤ ((2 : ℚ) ^ b) ^ e := hbase
      _ = (2 : ℚ) ^ (b * e) := by rw [← zpow_natCast, ← zpow_mul]
      _ < (2 : ℚ) ^ (a * m) := zpow_lt_zpow_right₀ (by norm_num) h
      _ = ((2 : ℚ) ^ m) ^ a := by rw [← zpow_natCast, ← zpow_mul, mul_comm]
  exact lt_of_pow_lt_pow_left₀ a (by positivity) hpower

/-- The twentieth grid below the top is finer than the interval. -/
theorem lastGrid_fine {d : Double} (hd : d.isZero = false) :
    (10 : ℚ) ^ (d.topExponent - 20) < 2 * d.quarter := by
  have hlog : d.significand.log2 < 53 := by
    have hwidth : 2 * binade = 2 ^ 53 := by decide
    exact (Nat.log2_lt (significand_pos hd).ne').2 (hwidth ▸ d.significand_lt)
  have hscale : -1074 ≤ d.scale ∧ d.scale ≤ 972 := by
    have := d.exponentField_lt
    simp only [scale]
    split <;> omega
  have hquarter : 2 * d.quarter = 2 ^ (d.scale - 1) := by
    rw [quarter, mul_comm, ← zpow_add_one₀ (by norm_num)]
    congr 1
    ring
  rw [hquarter]
  rcases le_total 0 (d.topExponent - 20) with hsign | hsign
  · refine ten_pow_lt (a := 3) (b := 10) ?_ (by unfold topExponent at *; omega)
    exact zpow_le_zpow_left₀ hsign (by norm_num) (by norm_num)
  · refine ten_pow_lt (a := 28) (b := 93) ?_ (by unfold topExponent at *; omega)
    rw [← neg_neg (d.topExponent - 20), zpow_neg, zpow_neg ((2 : ℚ) ^ 93)]
    refine inv_anti₀ (by positivity) ?_
    exact zpow_le_zpow_left₀ (by omega) (by norm_num) (by norm_num)

/-- The shortest decimal lies in the interval of its double. -/
theorem covers_shortest {d : Double} (hd : d.isZero = false) :
    d.Covers (d.shortest.digits * 10 ^ d.shortest.exponent) := by
  let hit (below : ℕ) : Option Decimal :=
    (d.gridPoint? (d.topExponent - (below : ℤ))).map fun c => ⟨c, d.topExponent - (below : ℤ)⟩
  have hsome : ((List.range 21).findSome? hit).isSome = true := by
    refine List.findSome?_isSome_iff.2 ⟨20, by simp, ?_⟩
    simpa [hit] using gridPoint?_isSome d (lastGrid_fine hd)
  obtain ⟨decimal, hdecimal⟩ := Option.isSome_iff_exists.1 hsome
  have hshortest : d.shortest = decimal := by
    simp only [shortest]
    rw [show (List.range 21).findSome? _ = some decimal from hdecimal]
  obtain ⟨below, _, hbelow⟩ := List.exists_of_findSome?_eq_some hdecimal
  obtain ⟨c, hc, rfl⟩ := Option.map_eq_some_iff.1 hbelow
  rw [hshortest]
  exact covers_of_gridPoint? hd hc

end Double

end PagedTraversal
