/-!
# PagedTraversal.Double.Basic

Binary64 numbers as bit patterns. A pattern is read as sign, exponent field and fraction; a finite
one stands for `± significand * 2 ^ scale`. Nothing here goes through the machine's own floating
point, so every definition can be computed and reasoned about.
-/

namespace PagedTraversal

/-- A binary64 number, given by its 64 bits. -/
structure Double where
  bits : UInt64
deriving DecidableEq, Inhabited

namespace Double

/-- The number of fractions of one exponent: `2 ^ 52`. -/
def binade : Nat := 4503599627370496

/-- The sign bit is the most significant one. -/
def isNegative (d : Double) : Bool := 9223372036854775808 ≤ d.bits.toNat

/-- The eleven bits below the sign. -/
def exponentField (d : Double) : Nat := d.bits.toNat / binade % 2048

/-- The lowest fifty-two bits. -/
def fraction (d : Double) : Nat := d.bits.toNat % binade

/-- An exponent field of all ones is kept for the infinities and for what is not a number. -/
def isFinite (d : Double) : Bool := d.exponentField != 2047

def isNaN (d : Double) : Bool := d.exponentField == 2047 && d.fraction != 0

def isZero (d : Double) : Bool := d.exponentField == 0 && d.fraction == 0

/-- The whole number that, scaled by `2 ^ scale`, is the magnitude of a finite number. The leading
one is implied except where the exponent field is zero. -/
def significand (d : Double) : Nat :=
  if d.exponentField = 0 then d.fraction else binade + d.fraction

/-- The binary exponent that belongs to `significand`. -/
def scale (d : Double) : Int :=
  if d.exponentField = 0 then -1074 else (d.exponentField : Int) - 1075

/-- Numerical equality: the two zeros are equal, and what is not a number equals nothing. -/
def equals (a b : Double) : Bool :=
  !a.isNaN && !b.isNaN && (a == b || (a.isZero && b.isZero))

/-- The magnitude code of infinity. Codes of finite magnitudes are smaller, and they are in the
order of the magnitudes. -/
def infinityCode : Nat := 2047 * binade

/-- The number with the given sign and magnitude code. -/
def ofCode (negative : Bool) (code : Nat) : Double :=
  ⟨UInt64.ofNat (if negative then 9223372036854775808 + code else code)⟩

theorem equals_comm (a b : Double) : a.equals b = b.equals a := by
  have h : (a == b) = (b == a) := by
    by_cases hab : a = b
    · simp [hab]
    · have hba : ¬ b = a := fun e => hab e.symm
      simp [beq_eq_false_iff_ne.2 hab, beq_eq_false_iff_ne.2 hba]
  simp only [equals, h, Bool.and_comm a.isZero, Bool.and_comm (!a.isNaN)]

theorem equals_self {d : Double} (h : d.isNaN = false) : d.equals d = true := by
  simp [equals, h]

theorem isNaN_of_isFinite {d : Double} (h : d.isFinite = true) : d.isNaN = false := by
  simp only [isFinite, bne_iff_ne] at h
  simp [isNaN, h]

end Double

end PagedTraversal
