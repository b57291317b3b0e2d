import PagedTraversal.Json.Document
import PagedTraversal.Json.Printer
import PagedTraversal.Proofs.Double.Shortest

/-!
# PagedTraversal.Proofs.Json.NumberText

The text of a number, as a literal. A literal that obeys the grammar is read back from its
characters, and the printer writes such a literal for every number: whole digits alone for a whole
number, and for a double its shortest digits with a point or a power of ten. A double can be told
from its literal, which denotes a decimal in the interval of that double only.

* `Literal.ofChars?_chars`: a literal that obeys the grammar is read back.
* `Literal.chars_ofNumber`: what the printer writes for a number.
* `Literal.ofNumber_injective`: different numbers are written as different literals.
-/

namespace PagedTraversal

namespace Json

/-! ## Decimal digits -/

theorem isDigit_of_mem_toDigits {n : Nat} {c : Char} (h : c ∈ Nat.toDigits 10 n) :
    c.isDigit = true :=
  Nat.isDigit_of_mem_toDigits (by decide) (by decide) h

/-- The digits of a positive number do not begin with a zero. -/
theorem toDigits_ne_zero_cons {n : Nat} (hn : 0 < n) (rest : List Char) :
    Nat.toDigits 10 n ≠ '0' :: rest := by
  induction n using Nat.strongRecOn generalizing rest with
  | ind n ih =>
    by_cases hsmall : n < 10
    · rw [Nat.toDigits_of_lt_base hsmall]
      simp
      omega
    · rw [Nat.toDigits_of_base_le (by decide) (by omega)]
      intro h
      cases hdigits : Nat.toDigits 10 (n / 10) with
      | nil => exact Nat.toDigits_ne_nil hdigits
      | cons first more =>
        rw [hdigits] at h
        cases h
        exact ih (n / 10) (by omega) (by omega) more hdigits

namespace Literal

/-! ## The characters of a literal -/

def fractionChars : Option (List Char) → List Char
  | none => []
  | some digits => '.' :: digits

def exponentChars : Option Int → List Char
  | none => []
  | some power => ['e', if power < 0 then '-' else '+'] ++ Nat.toDigits 10 power.natAbs

def signed (negative : Bool) (cs : List Char) : List Char := if negative then '-' :: cs else cs

/-- A literal as the printer spells it, with a sign in front of every power of ten. -/
def chars (n : Literal) : List Char :=
  signed n.negative (n.whole ++ (fractionChars n.fraction ++ exponentChars n.exponent))

/-- What the grammar asks of the digits of a literal. -/
structure WellFormed (n : Literal) : Prop where
  whole_ne_nil : n.whole ≠ []
  isDigit_of_mem_whole : ∀ c ∈ n.whole, c.isDigit = true
  no_leading_zero : ∀ c rest, n.whole ≠ '0' :: c :: rest
  fraction_ne_nil : n.fraction ≠ some []
  isDigit_of_mem_fraction : ∀ digits, n.fraction = some digits → ∀ c ∈ digits, c.isDigit = true

/-- Digits are split off up to the first character that is none. -/
theorem spanDigits_append {digits rest : List Char} (hdigits : ∀ c ∈ digits, c.isDigit = true)
    (hrest : ∀ c ∈ rest.head?, c.isDigit = false) :
    spanDigits (digits ++ rest) = (digits, rest) := by
  have hnone : rest.takeWhile Char.isDigit = [] ∧ rest.dropWhile Char.isDigit = rest := by
    cases rest with
    | nil => exact ⟨rfl, rfl⟩
    | cons c more => simp [hrest c rfl]
  rw [spanDigits, List.takeWhile_append_of_pos hdigits, List.dropWhile_append_of_pos hdigits,
    hnone.1, hnone.2, List.append_nil]

theorem whole?_append {n : Literal} (h : WellFormed n) {rest : List Char}
    (hrest : ∀ c ∈ rest.head?, c.isDigit = false) :
    whole? (n.whole ++ rest) = some (n.whole, rest) := by
  rw [whole?, spanDigits_append h.isDigit_of_mem_whole hrest]
  split
  · next heq => exact (h.whole_ne_nil (Prod.mk.inj heq).1).elim
  · next heq => exact (h.no_leading_zero _ _ (Prod.mk.inj heq).1).elim
  · rfl

theorem fraction?_append {n : Literal} (h : WellFormed n) {rest : List Char}
    (hdigit : ∀ c ∈ rest.head?, c.isDigit = false) (hpoint : ∀ c ∈ rest.head?, c ≠ '.') :
    fraction? (fractionChars n.fraction ++ rest) = some (n.fraction, rest) := by
  cases hfraction : n.fraction with
  | none =>
    rw [fractionChars, List.nil_append, fraction?]
    rintro more rfl
    exact hpoint '.' rfl rfl
  | some digits =>
    have hspan := spanDigits_append (h.isDigit_of_mem_fraction digits hfraction) hdigit
    simp only [fractionChars, List.cons_append, fraction?, hspan]
    split
    · next heq =>
      exact (h.fraction_ne_nil (hfraction.trans (congrArg some (Prod.mk.inj heq).1))).elim
    · next heq => cases heq; rfl

theorem exponent?_exponentChars (power : Option Int) :
    exponent? (exponentChars power) = some power := by
  cases power with
  | none => rfl
  | some power =>
    have hall : (Nat.toDigits 10 power.natAbs).all Char.isDigit = true :=
      List.all_eq_true.2 fun _ hc => isDigit_of_mem_toDigits hc
    have hempty : (Nat.toDigits 10 power.natAbs).isEmpty = false :=
      List.isEmpty_eq_false_iff.2 Nat.toDigits_ne_nil
    have hread : exponent? (exponentChars (some power)) =
        some (some (if power < 0 then -(power.natAbs : Int) else power.natAbs)) := by
      by_cases hneg : power < 0
      · simp only [exponentChars, if_pos hneg, List.cons_append, List.nil_append, exponent?,
          true_or, if_true, hempty, hall, Bool.not_true, Bool.or_self, Bool.false_eq_true, if_false,
          Nat.ofDigitChars_ten_toDigits]
      · simp only [exponentChars, if_neg hneg, List.cons_append, List.nil_append, exponent?,
          true_or, if_true, hempty, hall, Bool.not_true, Bool.or_self, Bool.false_eq_true, if_false,
          Nat.ofDigitChars_ten_toDigits]
    rw [hread]
    split <;> congr 2 <;> omega

/-- A literal that obeys the grammar is read back from its characters. -/
theorem ofChars?_chars {n : Literal} (h : WellFormed n) : ofChars? n.chars = some n := by
  have hpower : ∀ c ∈ (exponentChars n.exponent).head?, c.isDigit = false ∧ c ≠ '.' := by
    cases n.exponent with
    | none => simp [exponentChars]
    | some power => simp [exponentChars]
  have hafter : ∀ c ∈ (fractionChars n.fraction ++ exponentChars n.exponent).head?,
      c.isDigit = false := by
    cases n.fraction with
    | none => exact fun c hc => (hpower c hc).1
    | some digits => simp [fractionChars]
  have hwhole := whole?_append h hafter
  have hfraction := fraction?_append h (fun c hc => (hpower c hc).1) (fun c hc => (hpower c hc).2)
  have hsign : ∀ more, n.whole ++ (fractionChars n.fraction ++ exponentChars n.exponent) ≠
      '-' :: more := by
    intro more heq
    cases hcs : n.whole with
    | nil => exact h.whole_ne_nil hcs
    | cons c rest =>
      have hdigit := h.isDigit_of_mem_whole c (hcs ▸ List.mem_cons_self)
      rw [hcs] at heq
      cases heq
      exact absurd hdigit (by decide)
  cases hnegative : n.negative with
  | true =>
    simp only [chars, signed, hnegative, if_true, ofChars?, hwhole, hfraction,
      exponent?_exponentChars]
    rw [← hnegative]
  | false =>
    simp only [chars, signed, hnegative, Bool.false_eq_true, if_false, ofChars?, hwhole, hfraction,
      exponent?_exponentChars]
    rw [← hnegative]

/-! ## What a literal denotes -/

/-- The digits after the point, if any. -/
def places (n : Literal) : List Char := n.fraction.getD []

/-- The magnitude that a literal denotes. -/
def value (n : Literal) : ℚ :=
  (Nat.ofDigitChars 10 (n.whole ++ n.places) 0 : ℕ) *
    10 ^ (n.exponent.getD 0 - (n.places.length : ℤ))

/-! ## The literals of the printer -/

/-- The literal of a whole number. -/
def ofInteger (i : Int) : Literal := ⟨decide (i < 0), Nat.toDigits 10 i.natAbs, none, none⟩

/-- The literal of `digits * 10 ^ exponent` with a point and without a power of ten. -/
def positional (negative : Bool) (digits : List Char) (exponent : Int) : Literal :=
  let whole := (digits.length : Int) + exponent
  if 0 ≤ exponent then
    ⟨negative, digits ++ List.replicate exponent.toNat '0', some ['0'], none⟩
  else if 0 < whole then
    ⟨negative, digits.take whole.toNat, some (digits.drop whole.toNat), none⟩
  else ⟨negative, ['0'], some (List.replicate (-whole).toNat '0' ++ digits), none⟩

/-- The literal of `digits * 10 ^ exponent` with one whole digit and a power of ten. -/
def scientific (negative : Bool) (digits : List Char) (exponent : Int) : Literal :=
  let power := (digits.length : Int) + exponent - 1
  match digits with
  | first :: second :: rest => ⟨negative, [first], some (second :: rest), some power⟩
  | digits => ⟨negative, digits, none, some power⟩

/-- The literal of a double. -/
def ofDouble (d : Double) : Literal :=
  if d.isZero then ⟨d.isNegative, ['0'], some ['0'], none⟩
  else
    let decimal := d.shortest
    let digits := Nat.toDigits 10 decimal.digits
    let power := (digits.length : Int) + decimal.exponent - 1
    if -5 ≤ power ∧ power ≤ 15 then positional d.isNegative digits decimal.exponent
    else scientific d.isNegative digits decimal.exponent

def ofNumber : Number → Literal
  | .integer i _ => ofInteger i
  | .double d _ => ofDouble d

theorem chars_positional (negative : Bool) (digits : List Char) (exponent : Int) :
    (positional negative digits exponent).chars =
      signed negative (Json.positional digits exponent) := by
  simp only [positional, Json.positional]
  split
  · simp only [chars, fractionChars, exponentChars, List.append_nil]
  · split
    · simp only [chars, fractionChars, exponentChars, List.append_nil]
    · simp only [chars, fractionChars, exponentChars, List.append_nil, List.cons_append,
        List.nil_append]

theorem chars_scientific (negative : Bool) (digits : List Char) (exponent : Int) :
    (scientific negative digits exponent).chars =
      signed negative (Json.scientific digits exponent) := by
  match digits with
  | [] =>
    simp only [scientific, Json.scientific, chars, fractionChars, exponentChars, List.nil_append]
  | [first] =>
    simp only [scientific, Json.scientific, chars, fractionChars, exponentChars, List.nil_append,
      List.append_assoc]
  | first :: second :: rest =>
    simp only [scientific, Json.scientific, chars, fractionChars, exponentChars, List.cons_append,
      List.nil_append, List.append_assoc]

/-- What the printer writes for a number is the spelling of its literal. -/
theorem chars_ofNumber (n : Number) : (ofNumber n).chars = (numberText n).toList := by
  cases n with
  | integer i _ =>
    simp only [ofNumber, ofInteger, chars, fractionChars, exponentChars, List.append_nil, signed,
      numberText, integer, String.toList_ofList, decide_eq_true_eq]
  | double d _ =>
    simp only [ofNumber, ofDouble, numberText, Json.double, String.toList_ofList]
    split
    · rfl
    · split
      · rw [chars_positional, signed]
      · rw [chars_scientific, signed]

/-- The digits of a positive number, without a zero in front. -/
structure Digits (cs : List Char) : Prop where
  ne_nil : cs ≠ []
  isDigit_of_mem : ∀ c ∈ cs, c.isDigit = true
  ne_zero_cons : ∀ rest, cs ≠ '0' :: rest

theorem digits_toDigits {n : Nat} (hn : 0 < n) : Digits (Nat.toDigits 10 n) where
  ne_nil := Nat.toDigits_ne_nil
  isDigit_of_mem := fun _ hc => isDigit_of_mem_toDigits hc
  ne_zero_cons := toDigits_ne_zero_cons hn

theorem isDigit_of_mem_zeros {count : Nat} {c : Char} (h : c ∈ List.replicate count '0') :
    c.isDigit = true := by
  rw [List.eq_of_mem_replicate h]
  decide

theorem wellFormed_positional {digits : List Char} (h : Digits digits) (negative : Bool)
    (exponent : Int) : WellFormed (positional negative digits exponent) := by
  have hlength : 0 < digits.length := List.length_pos_iff.2 h.ne_nil
  simp only [positional]
  split
  · refine ⟨by simp [h.ne_nil], ?_, ?_, by simp, ?_⟩
    · intro c hc
      rcases List.mem_append.1 hc with hc | hc
      · exact h.isDigit_of_mem c hc
      · exact isDigit_of_mem_zeros hc
    · intro c rest heq
      cases hdigits : digits with
      | nil => exact h.ne_nil hdigits
      | cons first more =>
        rw [hdigits] at heq
        exact h.ne_zero_cons more ((List.cons.inj heq).1 ▸ hdigits)
    · rintro _ ⟨⟩
      simp
  · split
    · refine ⟨?_, ?_, ?_, ?_, ?_⟩
      · intro heq
        rw [List.take_eq_nil_iff] at heq
        rcases heq with heq | heq
        · omega
        · exact h.ne_nil heq
      · exact fun c hc => h.isDigit_of_mem c (List.mem_of_mem_take hc)
      · intro c rest heq
        have happend := List.take_append_drop ((digits.length : Int) + exponent).toNat digits
        rw [show digits.take _ = '0' :: c :: rest from heq] at happend
        exact h.ne_zero_cons _ happend.symm
      · intro heq
        have := List.drop_eq_nil_iff.1 (Option.some.inj heq)
        omega
      · rintro _ ⟨⟩ c hc
        exact h.isDigit_of_mem c (List.mem_of_mem_drop hc)
    · refine ⟨by simp, by simp, by simp, by simp [h.ne_nil], ?_⟩
      rintro _ ⟨⟩ c hc
      rcases List.mem_append.1 hc with hc | hc
      · exact isDigit_of_mem_zeros hc
      · exact h.isDigit_of_mem c hc

theorem wellFormed_scientific {digits : List Char} (h : Digits digits) (negative : Bool)
    (exponent : Int) : WellFormed (scientific negative digits exponent) := by
  match digits, h with
  | [], h => exact (h.ne_nil rfl).elim
  | [first], h =>
    refine ⟨by simp [scientific], h.isDigit_of_mem, by simp [scientific], by simp [scientific], ?_⟩
    rintro _ ⟨⟩
  | first :: second :: rest, h =>
    refine ⟨by simp [scientific], ?_, by simp [scientific], by simp [scientific], ?_⟩
    · intro c hc
      rw [List.mem_singleton.1 hc]
      exact h.isDigit_of_mem first List.mem_cons_self
    · rintro _ ⟨⟩ c hc
      exact h.isDigit_of_mem c (List.mem_cons_of_mem _ hc)

theorem value_positional {digits : List Char} (negative : Bool) (exponent : Int) :
    (positional negative digits exponent).value =
      (Nat.ofDigitChars 10 digits 0 : ℕ) * 10 ^ exponent := by
  simp only [positional]
  split
  · next hexponent =>
    have hpower : (10 : ℚ) ^ exponent = 10 ^ exponent.toNat := by
      rw [← zpow_natCast, Int.toNat_of_nonneg hexponent]
    simp only [value, places, Option.getD_some, Option.getD_none, Nat.ofDigitChars_append,
      Nat.ofDigitChars_replicate_zero, List.length_singleton]
    rw [hpower]
    norm_num [Nat.ofDigitChars]
    ring
  · next hexponent =>
    split
    · next hwhole =>
      have hplaces : 0 - (((digits.drop ((digits.length : Int) + exponent).toNat).length : ℕ) : ℤ) =
          exponent := by
        rw [List.length_drop]
        omega
      simp only [value, places, Option.getD_some, Option.getD_none, List.take_append_drop]
      rw [hplaces]
    · next hwhole =>
      have hplaces : 0 - (((List.replicate (-((digits.length : Int) + exponent)).toNat '0' ++
          digits).length : ℕ) : ℤ) = exponent := by
        rw [List.length_append, List.length_replicate]
        omega
      simp only [value, places, Option.getD_some, Option.getD_none, List.cons_append,
        List.nil_append]
      rw [hplaces, Nat.ofDigitChars_cons, Nat.ofDigitChars_append, Nat.ofDigitChars_replicate_zero]
      rfl

theorem value_scientific {digits : List Char} (hdigits : digits ≠ []) (negative : Bool)
    (exponent : Int) :
    (scientific negative digits exponent).value =
      (Nat.ofDigitChars 10 digits 0 : ℕ) * 10 ^ exponent := by
  match digits, hdigits with
  | [first], _ => simp [scientific, value, places]
  | first :: second :: rest, _ =>
    simp only [scientific, value, places, Option.getD_some, List.cons_append, List.nil_append,
      List.length_cons]
    congr 2
    omega

/-! ## Every number has a literal of its own -/

theorem shortest_digits_pos {d : Double} (hd : d.isZero = false) : 0 < d.shortest.digits := by
  refine Nat.pos_of_ne_zero fun hzero => ?_
  have hpos := (Double.covers_shortest hd).pos hd
  rw [hzero, Nat.cast_zero, zero_mul] at hpos
  exact lt_irrefl _ hpos

theorem wellFormed_ofInteger (i : Int) : WellFormed (ofInteger i) where
  whole_ne_nil := Nat.toDigits_ne_nil
  isDigit_of_mem_whole := fun _ hc => isDigit_of_mem_toDigits hc
  no_leading_zero := by
    intro c rest heq
    by_cases hzero : i.natAbs = 0
    · have hdigits : Nat.toDigits 10 i.natAbs = ['0'] := by rw [hzero, Nat.toDigits_zero]
      exact absurd (hdigits.symm.trans heq) (by simp)
    · exact toDigits_ne_zero_cons (Nat.pos_of_ne_zero hzero) _ heq
  fraction_ne_nil := by simp [ofInteger]
  isDigit_of_mem_fraction := by simp [ofInteger]

theorem wellFormed_zero (negative : Bool) : WellFormed ⟨negative, ['0'], some ['0'], none⟩ where
  whole_ne_nil := List.cons_ne_nil _ _
  isDigit_of_mem_whole := by simp
  no_leading_zero := by simp
  fraction_ne_nil := by simp
  isDigit_of_mem_fraction := by
    rintro _ ⟨⟩
    simp

theorem wellFormed_ofNumber (n : Number) : WellFormed (ofNumber n) := by
  cases n with
  | integer i _ => exact wellFormed_ofInteger i
  | double d _ =>
    simp only [ofNumber, ofDouble]
    split
    · exact wellFormed_zero d.isNegative
    · next hd =>
      have hdigits := digits_toDigits (shortest_digits_pos (Bool.eq_false_iff.2 hd))
      split
      · exact wellFormed_positional hdigits _ _
      · exact wellFormed_scientific hdigits _ _

theorem negative_ofDouble (d : Double) : (ofDouble d).negative = d.isNegative := by
  simp only [ofDouble]
  split
  · rfl
  · split
    · simp only [positional]
      split
      · rfl
      · split <;> rfl
    · simp only [scientific]
      split <;> rfl

theorem value_ofDouble_of_isZero {d : Double} (hd : d.isZero = true) : (ofDouble d).value = 0 := by
  rw [ofDouble, if_pos hd, value]
  norm_num [places, Nat.ofDigitChars]

/-- The literal of a double denotes its shortest decimal. -/
theorem value_ofDouble {d : Double} (hd : d.isZero = false) :
    (ofDouble d).value = d.shortest.digits * 10 ^ d.shortest.exponent := by
  simp only [ofDouble, hd, Bool.false_eq_true, if_false]
  split
  · rw [value_positional, Nat.ofDigitChars_ten_toDigits]
  · rw [value_scientific Nat.toDigits_ne_nil, Nat.ofDigitChars_ten_toDigits]

theorem covers_value_ofDouble {d : Double} (hd : d.isZero = false) :
    d.Covers (ofDouble d).value :=
  value_ofDouble hd ▸ Double.covers_shortest hd

theorem ofDouble_injective : Function.Injective ofDouble := by
  intro d e h
  have hsign : d.isNegative = e.isNegative := by
    rw [← negative_ofDouble, h, negative_ofDouble]
  cases hd : d.isZero <;> cases he : e.isZero
  · exact Double.eq_of_covers hsign (covers_value_ofDouble hd) (h ▸ covers_value_ofDouble he)
  · have hpos := (covers_value_ofDouble hd).pos hd
    rw [h, value_ofDouble_of_isZero he] at hpos
    exact (lt_irrefl _ hpos).elim
  · have hpos := (covers_value_ofDouble he).pos he
    rw [← h, value_ofDouble_of_isZero hd] at hpos
    exact (lt_irrefl _ hpos).elim
  · simp only [Double.isZero, Bool.and_eq_true, beq_iff_eq] at hd he
    exact Double.eq_of_parts hsign (hd.1.trans he.1.symm) (hd.2.trans he.2.symm)

theorem ofInteger_injective : Function.Injective ofInteger := by
  intro i j h
  obtain ⟨hsign, hwhole, -, -⟩ := Literal.mk.inj h
  have habs : i.natAbs = j.natAbs := by
    rw [← Nat.ofDigitChars_ten_toDigits (n := i.natAbs), hwhole, Nat.ofDigitChars_ten_toDigits]
  rw [decide_eq_decide] at hsign
  omega

/-- A double is never written like a whole number. -/
theorem isWhole_ofDouble (d : Double) : (ofDouble d).isWhole = false := by
  simp only [ofDouble]
  split
  · rfl
  · split
    · simp only [positional]
      split
      · rfl
      · split <;> rfl
    · simp only [scientific]
      split <;> simp [isWhole]

theorem ofInteger_ne_ofDouble (i : Int) (d : Double) : ofInteger i ≠ ofDouble d := by
  intro h
  have hwhole := isWhole_ofDouble d
  rw [← h] at hwhole
  cases hwhole

/-- Different numbers are written as different literals. -/
theorem ofNumber_injective : Function.Injective ofNumber := by
  intro m n h
  cases m <;> cases n
  case integer.integer i _ j _ =>
    cases ofInteger_injective h
    rfl
  case integer.double i _ d _ =>
    exact (ofInteger_ne_ofDouble i d h).elim
  case double.integer d _ i _ =>
    exact (ofInteger_ne_ofDouble i d h.symm).elim
  case double.double d _ e _ =>
    cases ofDouble_injective h
    rfl

end Literal

end Json

end PagedTraversal
