/-!
# PagedTraversal.Text.Hex

Hexadecimal digits: their values in either case, their lower-case forms, and runs of bytes written
with two digits each. Main statement: a run of bytes is read back from its text.
-/

namespace PagedTraversal

namespace Hex

/-- The value of a hexadecimal digit in either case. -/
def digitValue? (c : Char) : Option Nat :=
  let n := c.toNat
  if 48 ≤ n ∧ n ≤ 57 then some (n - 48)
  else if 97 ≤ n ∧ n ≤ 102 then some (n - 87)
  else if 65 ≤ n ∧ n ≤ 70 then some (n - 55)
  else none

/-- The lower-case digit of a value below sixteen. -/
def digit (n : Nat) : Char := Nat.digitChar n

/-- The given number of lowest hexadecimal digits, the most significant first. -/
def fixed : Nat → Nat → List Char
  | 0, _ => []
  | width + 1, n => fixed width (n / 16) ++ [digit (n % 16)]

/-- The number that a text of hexadecimal digits denotes. -/
def value? (cs : List Char) : Option Nat :=
  cs.foldlM (fun acc c => (digitValue? c).map fun d => acc * 16 + d) 0

/-- Two digits for each byte. -/
def ofBytes (bytes : List UInt8) : List Char := bytes.flatMap fun b => fixed 2 b.toNat

/-- The bytes of a text that holds two digits for each. -/
def bytes? : List Char → Option (List UInt8)
  | [] => some []
  | [_] => none
  | high :: low :: rest =>
    match digitValue? high, digitValue? low, bytes? rest with
    | some h, some l, some bs => some (UInt8.ofNat (h * 16 + l) :: bs)
    | _, _, _ => none

theorem length_fixed (width n : Nat) : (fixed width n).length = width := by
  induction width generalizing n with
  | zero => rfl
  | succ w ih => simp [fixed, ih]

theorem length_ofBytes (bytes : List UInt8) : (ofBytes bytes).length = 2 * bytes.length := by
  induction bytes with
  | nil => rfl
  | cons b r ih =>
    simp only [ofBytes, List.flatMap_cons, List.length_append, length_fixed, List.length_cons] at *
    omega

theorem digitValue?_digit {n : Nat} (h : n < 16) : digitValue? (digit n) = some n := by
  have all : ∀ i : Fin 16, digitValue? (digit i.val) = some i.val := by decide
  exact all ⟨n, h⟩

/-- Reading the bytes that were written gives them back. -/
theorem bytes?_ofBytes (bytes : List UInt8) : bytes? (ofBytes bytes) = some bytes := by
  induction bytes with
  | nil => rfl
  | cons b r ih =>
    have hb : b.toNat < 256 := b.toNat_lt
    have high := digitValue?_digit (show b.toNat / 16 % 16 < 16 by omega)
    have low := digitValue?_digit (show b.toNat % 16 < 16 by omega)
    have eq : b.toNat / 16 % 16 * 16 + b.toNat % 16 = b.toNat := by omega
    have split : ofBytes (b :: r) =
        digit (b.toNat / 16 % 16) :: digit (b.toNat % 16) :: ofBytes r := rfl
    rw [split, bytes?, high, low, ih]
    simp only [eq, UInt8.ofNat_toNat]

end Hex

end PagedTraversal
