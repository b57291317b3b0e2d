import PagedTraversal.Double.Basic

/-!
# PagedTraversal.Double.Shortest

The shortest decimal that reads back as a given number. A decimal reads back when it lies in the
interval of reals that round to the number, and it is shortest when it lies on the coarsest grid
of powers of ten that meets the interval.
-/

namespace PagedTraversal

/-- The decimal `digits * 10 ^ exponent`. -/
structure Decimal where
  digits : Nat
  exponent : Int
deriving DecidableEq

namespace Double

/-- How far below a number its interval reaches, in quarters of its last binary place. The
neighbour below a power of two is nearer than the one above. -/
def reachBelow (d : Double) : Nat :=
  if d.fraction = 0 ∧ 1 < d.exponentField then 1 else 2

/-- The point of the grid of step `10 ^ exponent` that lies in the interval of `d` and is nearest
to it; a tie goes to the even multiple. Both sides are brought to a common scale, on which the
number is `4 * significand * unit`. -/
def gridPoint? (d : Double) (exponent : Int) : Option Nat :=
  let quarter := d.scale - 2
  let unit := Nat.pow 2 quarter.toNat * Nat.pow 10 (-exponent).toNat
  let step := Nat.pow 2 (-quarter).toNat * Nat.pow 10 exponent.toNat
  let value := 4 * d.significand * unit
  let low := (4 * d.significand - d.reachBelow) * unit
  let high := (4 * d.significand + 2) * unit
  let inside (c : Nat) : Bool :=
    if d.significand % 2 = 0 then low ≤ c * step && c * step ≤ high
    else low < c * step && c * step < high
  let below := value / step
  let above := below + 1
  match inside below, inside above with
  | true, false => some below
  | false, true => some above
  | false, false => none
  | true, true =>
    let down := value - below * step
    let up := above * step - value
    if down < up then some below
    else if up < down then some above
    else if below % 2 = 0 then some below else some above

/-- A power of ten above the magnitude of `d`, less than four orders too high. -/
def topExponent (d : Double) : Int :=
  (d.scale + (d.significand.log2 : Int)) * 30103 / 100000 + 2

/-- The shortest decimal for the magnitude of a finite number other than zero. Seventeen digits
always suffice, so the grids from the top down to the twentieth below it include a hit. -/
def shortest (d : Double) : Decimal :=
  let hit (below : Nat) : Option Decimal :=
    let exponent := d.topExponent - (below : Int)
    (d.gridPoint? exponent).map fun c => ⟨c, exponent⟩
  match (List.range 21).findSome? hit with
  | some decimal => decimal
  | none => ⟨d.significand, d.scale⟩

end Double

end PagedTraversal
