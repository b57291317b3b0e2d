import Mathlib.Data.List.Induction
import PagedTraversal.Page

/-!
# PagedTraversal.Proofs.Paging.Offsets

Tokens as offsets. The bytes of a token are the digits of a number to the base 256, the most
significant first. So runs of one length denote different numbers and stand in their order, and the
offsets are exactly the runs of eight bytes.

* `PageToken.magnitude_lt`, `PageToken.lt_iff_magnitude_lt`: the number that a run of bytes denotes,
  against its length and its place in the order of the bytes.
* `PageToken.bigEndian_magnitude`: a run of bytes is what is written for its number.
* `PageToken.offset?_eq_some_iff`: the tokens that are read as an offset.
* `PageToken.offsets_in_order`: offsets and tokens of eight bytes are the same, in the same order.
-/

namespace PagedTraversal

namespace PageToken

/-! ## Runs of bytes as numbers -/

theorem magnitude_cons (b : UInt8) (bytes : List UInt8) :
    magnitude (b :: bytes) = b.toNat * Nat.pow 256 bytes.length + magnitude bytes := by
  -- the number is read from the front, so that its last byte is the one to take off
  induction bytes using List.reverseRecOn with
  | nil => simp [magnitude]
  | append_singleton bytes last ih =>
    rw [← List.cons_append, magnitude_append, magnitude_append, ih, List.length_append,
      List.length_singleton, Nat.pow_eq, Nat.pow_eq, Nat.pow_succ, Nat.add_mul, Nat.mul_assoc,
      Nat.add_assoc]

theorem magnitude_lt (bytes : List UInt8) : magnitude bytes < Nat.pow 256 bytes.length := by
  induction bytes using List.reverseRecOn with
  | nil => simp [magnitude]
  | append_singleton bytes last ih =>
    have hlast := last.toNat_lt
    rw [Nat.pow_eq] at ih
    rw [magnitude_append, List.length_append, List.length_singleton, Nat.pow_eq, Nat.pow_succ]
    omega

/-- Of two numbers the leading digits decide, and where they are equal the rest does. -/
theorem leading_lt_iff {a b m n p : Nat} (hm : m < p) (hn : n < p) :
    a * p + m < b * p + n ↔ a < b ∨ a = b ∧ m < n := by
  rcases Nat.lt_trichotomy a b with hlt | rfl | hgt
  · have hstep := Nat.mul_le_mul_right p hlt
    rw [Nat.succ_mul] at hstep
    omega
  · omega
  · have hstep := Nat.mul_le_mul_right p hgt
    rw [Nat.succ_mul] at hstep
    omega

/-- Runs of one length stand in the order of their numbers. -/
theorem lt_iff_magnitude_lt {xs ys : List UInt8} (h : xs.length = ys.length) :
    xs < ys ↔ magnitude xs < magnitude ys := by
  induction xs generalizing ys with
  | nil =>
    rw [List.length_eq_zero_iff.1 h.symm]
    simp
  | cons x xs ih =>
    cases ys with
    | nil => cases h
    | cons y ys =>
      have hrest : xs.length = ys.length := Nat.succ.inj h
      have hx := magnitude_lt xs
      have hy := magnitude_lt ys
      rw [hrest] at hx
      rw [List.cons_lt_cons_iff, ih hrest, magnitude_cons, magnitude_cons, hrest,
        leading_lt_iff hx hy, UInt8.lt_iff_toNat_lt, UInt8.toNat_inj]

theorem eq_of_magnitude_eq {xs ys : List UInt8} (h : xs.length = ys.length)
    (hsame : magnitude xs = magnitude ys) : xs = ys := by
  have hle : xs ≤ ys := by
    intro hlt
    have hnumber := (lt_iff_magnitude_lt h.symm).1 hlt
    omega
  have hge : ys ≤ xs := by
    intro hlt
    have hnumber := (lt_iff_magnitude_lt h).1 hlt
    omega
  exact List.le_antisymm hle hge

/-- A run of bytes is what is written for its number. -/
theorem bigEndian_magnitude (bytes : List UInt8) :
    bigEndian bytes.length (magnitude bytes) = bytes := by
  apply eq_of_magnitude_eq (length_bigEndian _ _)
  rw [magnitude_bigEndian, Nat.mod_eq_of_lt (magnitude_lt bytes)]

example : bigEndian 8 258 = [0, 0, 0, 0, 0, 0, 1, 2] := rfl

/-! ## Tokens as offsets -/

theorem length_ofOffset (n : UInt64) : (ofOffset n).bytes.length = 8 := length_bigEndian 8 _

theorem magnitude_ofOffset (n : UInt64) : magnitude (ofOffset n).bytes = n.toNat := by
  rw [ofOffset, magnitude_bigEndian]
  exact Nat.mod_eq_of_lt n.toNat_lt

/-- A token is read as an offset when it is the token of that offset. -/
theorem offset?_eq_some_iff {token : PageToken} {n : UInt64} :
    token.offset? = some n ↔ token.bytes.length = 8 ∧ (ofOffset n).bytes = token.bytes := by
  constructor
  · intro h
    rw [offset?] at h
    split at h
    · rename_i hlength
      have hfits : magnitude token.bytes < 18446744073709551616 := by
        have hlt := magnitude_lt token.bytes
        rwa [hlength] at hlt
      have hn : n.toNat = magnitude token.bytes := by
        rw [← Option.some.inj h]
        exact UInt64.toNat_ofNat_of_lt' hfits
      refine ⟨hlength, ?_⟩
      rw [ofOffset, hn, ← hlength, bigEndian_magnitude]
    · cases h
  · rintro ⟨-, hbytes⟩
    have htoken : token = ofOffset n := by
      cases token
      cases hbytes
      rfl
    rw [htoken, offset?_ofOffset]

/-- Offsets are written and read as runs of eight bytes: reading undoes writing, every run of eight
bytes is written for one offset and no other run is written, and byte by byte the tokens stand in
the order of the offsets. -/
structure OrderedCode (write : UInt64 → PageToken) (read? : PageToken → Option UInt64) : Prop where
  length : ∀ n, (write n).bytes.length = 8
  read_write : ∀ n, read? (write n) = some n
  read_iff : ∀ token n,
    read? token = some n ↔ token.bytes.length = 8 ∧ (write n).bytes = token.bytes
  injective : Function.Injective write
  onto : ∀ token, token.bytes.length = 8 ↔ ∃ n, write n = token
  order : ∀ m n, (write m).bytes < (write n).bytes ↔ m < n

theorem offsets_in_order : OrderedCode ofOffset offset? where
  length := length_ofOffset
  read_write := offset?_ofOffset
  read_iff token n := offset?_eq_some_iff
  injective m n h := by
    have hread := congrArg offset? h
    rw [offset?_ofOffset, offset?_ofOffset] at hread
    exact Option.some.inj hread
  onto token := by
    constructor
    · intro hlength
      have hread : token.offset? = some (UInt64.ofNat (magnitude token.bytes)) := by
        rw [offset?, if_pos hlength]
      have hbytes := (offset?_eq_some_iff.1 hread).2
      exact ⟨_, congrArg PageToken.mk hbytes⟩
    · rintro ⟨n, rfl⟩
      exact length_ofOffset n
  order m n := by
    have hlength : (ofOffset m).bytes.length = (ofOffset n).bytes.length := by
      rw [length_ofOffset, length_ofOffset]
    rw [lt_iff_magnitude_lt hlength, magnitude_ofOffset, magnitude_ofOffset,
      UInt64.lt_iff_toNat_lt]

end PageToken

end PagedTraversal
