import Mathlib.Data.List.Induction
import PagedTraversal.Proofs.Text.BlankEnds
import PagedTraversal.Settings

/-!
# PagedTraversal.Proofs.Settings.Numerals

Numbers in variables. A text is a number when, without the blanks at its ends, it is decimal digits
with one plus sign in front of them or none, and what they denote is below `2 ^ 64`. The variables
that hold numbers are read in one order, and the first one with any other text is the one named.

* `Settings.ofDigits?_eq_some_iff`: reading digits, against the grammar `Settings.Numeral`.
* `Settings.numberOr_eq_ok_iff`, `Settings.numberOr_eq_error_iff`: one variable.
* `Settings.numberOr_bind_eq_error_iff`: a variable that is read ahead of others.
* `Settings.decided_by_numerals`: all variables.
-/

namespace PagedTraversal

namespace Settings

/-! ## Decimal digits -/

/-- A text of decimal digits and the number that it denotes. -/
inductive Numeral : List Char → Nat → Prop where
  | digit {d : Nat} (hd : d < 10) : Numeral [Nat.digitChar d] d
  | more {cs : List Char} {n d : Nat} (hcs : Numeral cs n) (hd : d < 10) :
    Numeral (cs ++ [Nat.digitChar d]) (10 * n + d)

theorem exists_digitChar {c : Char} (h : c.isDigit = true) : ∃ d < 10, c = Nat.digitChar d := by
  simp only [Char.isDigit, Bool.and_eq_true, decide_eq_true_eq] at h
  have hlow : 48 ≤ c.toNat := h.1
  have hhigh : c.toNat ≤ 57 := h.2
  have hd : c.toNat - 48 < 10 := by omega
  refine ⟨c.toNat - 48, hd, Char.toNat_inj.1 ?_⟩
  rw [Nat.toNat_digitChar_of_lt_ten hd]
  omega

theorem isDigit_digitChar {d : Nat} (hd : d < 10) : (Nat.digitChar d).isDigit = true := by
  rw [Nat.isDigit_digitChar, decide_eq_true hd]

theorem ofDigitChars_concat {d : Nat} (hd : d < 10) (cs : List Char) :
    Nat.ofDigitChars 10 (cs ++ [Nat.digitChar d]) 0 = 10 * Nat.ofDigitChars 10 cs 0 + d := by
  rw [Nat.ofDigitChars_append, Nat.ofDigitChars_cons_digitChar_of_lt_ten hd, Nat.ofDigitChars_nil]

namespace Numeral

variable {cs : List Char} {n : Nat}

theorem ne_nil (h : Numeral cs n) : cs ≠ [] := by
  cases h with
  | digit => exact List.cons_ne_nil _ _
  | more => exact List.concat_ne_nil _ _

theorem isDigit (h : Numeral cs n) : ∀ c ∈ cs, c.isDigit = true := by
  induction h with
  | digit hd =>
    intro c hc
    rw [List.mem_singleton.1 hc, isDigit_digitChar hd]
  | more _ hd ih =>
    intro c hc
    rcases List.mem_append.1 hc with hc | hc
    · exact ih c hc
    · rw [List.mem_singleton.1 hc, isDigit_digitChar hd]

theorem value (h : Numeral cs n) : Nat.ofDigitChars 10 cs 0 = n := by
  induction h with
  | @digit d hd =>
    have hone := ofDigitChars_concat hd []
    rwa [Nat.ofDigitChars_nil, Nat.mul_zero, Nat.zero_add] at hone
  | more _ hd ih => rw [ofDigitChars_concat hd, ih]

theorem of_isDigit (hne : cs ≠ []) (h : ∀ c ∈ cs, c.isDigit = true) :
    Numeral cs (Nat.ofDigitChars 10 cs 0) := by
  induction cs using List.reverseRecOn with
  | nil => exact absurd rfl hne
  | append_singleton cs c ih =>
    have hcs : ∀ b ∈ cs, b.isDigit = true := by
      intro b hb
      exact h b (List.mem_append_left _ hb)
    have hc : c.isDigit = true := h c (List.mem_append_right _ (List.mem_singleton_self c))
    obtain ⟨d, hd, rfl⟩ := exists_digitChar hc
    rw [ofDigitChars_concat hd]
    cases cs with
    | nil =>
      rw [Nat.ofDigitChars_nil, Nat.mul_zero, Nat.zero_add]
      exact .digit hd
    | cons b cs => exact .more (ih (List.cons_ne_nil b cs) hcs) hd

end Numeral

/-- Digits with one plus sign in front of them or none. -/
theorem numeral_dropPlus_iff {cs : List Char} {n : Nat} :
    Numeral (dropPlus cs) n ↔ ∃ digits, (cs = digits ∨ cs = '+' :: digits) ∧ Numeral digits n := by
  constructor
  · intro h
    refine ⟨dropPlus cs, ?_, h⟩
    unfold dropPlus
    split
    · exact Or.inr rfl
    · exact Or.inl rfl
  · rintro ⟨digits, rfl | rfl, h⟩
    · rwa [dropPlus_of_all_isDigit h.isDigit]
    · exact h

/-- Digits are read as what they denote, and no other text is read. -/
theorem ofDigits?_eq_some_iff {cs : List Char} {n : UInt64} :
    ofDigits? cs = some n ↔ Numeral (dropPlus cs) n.toNat := by
  constructor
  · intro h
    simp only [ofDigits?] at h
    split at h
    · cases h
    · rename_i hform
      simp only [Bool.or_eq_true, not_or, List.isEmpty_iff, Bool.not_eq_true, Bool.not_eq_false',
        List.all_eq_true] at hform
      split at h
      · rename_i hfits
        have hn : n.toNat = Nat.ofDigitChars 10 (dropPlus cs) 0 := by
          rw [← Option.some.inj h]
          exact UInt64.toNat_ofNat_of_lt' hfits
        rw [hn]
        exact .of_isDigit hform.1 hform.2
      · cases h
  · intro h
    have hempty : (dropPlus cs).isEmpty = false := List.isEmpty_eq_false_iff.2 h.ne_nil
    have hall : (dropPlus cs).all Char.isDigit = true := List.all_eq_true.2 h.isDigit
    simp only [ofDigits?, hempty, hall, h.value, Bool.not_true, Bool.or_self, Bool.false_eq_true,
      if_false]
    rw [if_pos n.toNat_lt, UInt64.ofNat_toNat]

/-! ## One variable -/

/-- The number that a text denotes: between its ends of `White_Space` stand digits with one plus
sign in front of them or none. -/
def Denotes (text : String) (n : Nat) : Prop :=
  ∃ core digits, TrimsTo text.toList core ∧ (core = digits ∨ core = '+' :: digits) ∧
    Numeral digits n

theorem ofDigits?_trimBlank_eq_some_iff {text : String} {n : UInt64} :
    ofDigits? (trimBlank text.toList) = some n ↔ Denotes text n.toNat := by
  rw [ofDigits?_eq_some_iff, numeral_dropPlus_iff]
  constructor
  · rintro ⟨digits, hdigits⟩
    exact ⟨_, digits, trimsTo_trimBlank text.toList, hdigits⟩
  · rintro ⟨core, digits, hcore, hdigits⟩
    rw [trimBlank_eq_iff.2 hcore]
    exact ⟨digits, hdigits⟩

/-- The text denotes a number that fits into 64 bits. -/
def IsNumber64 (text : String) : Prop := ∃ n ≤ 18446744073709551615, Denotes text n

theorem ofDigits?_trimBlank_eq_none_iff {text : String} :
    ofDigits? (trimBlank text.toList) = none ↔ ¬ IsNumber64 text := by
  rw [Option.eq_none_iff_forall_ne_some]
  constructor
  · rintro hnone ⟨n, hle, hn⟩
    have hfits : n < 18446744073709551616 := by omega
    apply hnone (UInt64.ofNat n)
    rw [ofDigits?_trimBlank_eq_some_iff, UInt64.toNat_ofNat_of_lt' hfits]
    exact hn
  · intro hnone n hn
    have hlt := n.toNat_lt
    exact hnone ⟨n.toNat, by omega, ofDigits?_trimBlank_eq_some_iff.1 hn⟩

variable {lookup : String → Option String} {key : String} {fallback : UInt64} {e : SettingsError}

/-- The variable is set, and to a text that is no number. -/
def Malformed (lookup : String → Option String) (key value : String) : Prop :=
  lookup key = some value ∧ ¬ IsNumber64 value

/-- What a variable contributes: the number that its text denotes, or the fallback when it is not
set. -/
def Contributes (lookup : String → Option String) (key : String) (fallback n : UInt64) : Prop :=
  match lookup key with
  | none => n = fallback
  | some text => Denotes text n.toNat

theorem numberOr_eq_ok_iff {n : UInt64} :
    numberOr lookup key fallback = .ok n ↔ Contributes lookup key fallback n := by
  cases hkey : lookup key with
  | none => simp only [numberOr, Contributes, hkey, Except.ok.injEq, eq_comm]
  | some text =>
    simp only [numberOr, Contributes, hkey, ← ofDigits?_trimBlank_eq_some_iff]
    cases ofDigits? (trimBlank text.toList) with
    | none => simp
    | some m => simp

theorem numberOr_eq_error_iff : numberOr lookup key fallback = .error e ↔
    ∃ value, Malformed lookup key value ∧ e = .invalidValue key value := by
  cases hkey : lookup key with
  | none => simp [numberOr, Malformed, hkey]
  | some text =>
    simp only [numberOr, Malformed, hkey, ← ofDigits?_trimBlank_eq_none_iff]
    cases hread : ofDigits? (trimBlank text.toList) with
    | none =>
      constructor
      · intro h
        cases h
        exact ⟨text, ⟨rfl, hread⟩, rfl⟩
      · rintro ⟨value, ⟨hvalue, -⟩, rfl⟩
        cases hvalue
        rfl
    | some n =>
      constructor
      · intro h
        cases h
      · rintro ⟨value, ⟨hvalue, hnone⟩, rfl⟩
        cases hvalue
        rw [hread] at hnone
        cases hnone

/-! ## All variables -/

/-- The variables that hold numbers, in the order in which they are read. -/
def numberKeys : List String :=
  ["GRAPH_PAGE_SIZE", "GRAPH_FETCH_LATENCY_MS", "GRAPH_PREFETCH_THRESHOLD"]

/-- The error names the first malformed variable of the list and gives its text as it is set. -/
inductive NamesFirst (lookup : String → Option String) : List String → SettingsError → Prop where
  | here {key value : String} {keys : List String} (h : Malformed lookup key value) :
    NamesFirst lookup (key :: keys) (.invalidValue key value)
  | later {key : String} {keys : List String} {e : SettingsError}
    (h : ∀ value, ¬ Malformed lookup key value) (he : NamesFirst lookup keys e) :
    NamesFirst lookup (key :: keys) e

/-- A variable that is read ahead of others fails before they do. -/
theorem numberOr_bind_eq_error_iff {α : Type} {keys : List String}
    {next : UInt64 → Except SettingsError α}
    (hnext : ∀ n e, next n = .error e ↔ NamesFirst lookup keys e) :
    (numberOr lookup key fallback >>= next) = .error e ↔ NamesFirst lookup (key :: keys) e := by
  cases hread : numberOr lookup key fallback with
  | error fault =>
    obtain ⟨value, hvalue, rfl⟩ := numberOr_eq_error_iff.1 hread
    constructor
    · intro h
      cases h
      exact .here hvalue
    · intro h
      cases h with
      | here hother =>
        rw [Option.some.inj (hvalue.1.symm.trans hother.1)]
        rfl
      | later hnone => exact absurd hvalue (hnone value)
  | ok n =>
    have hnone : ∀ value, ¬ Malformed lookup key value := by
      intro value hvalue
      have hfails : numberOr lookup key fallback = .error (.invalidValue key value) :=
        numberOr_eq_error_iff.2 ⟨value, hvalue, rfl⟩
      rw [hread] at hfails
      cases hfails
    constructor
    · intro h
      exact .later hnone ((hnext n e).1 h)
    · intro h
      cases h with
      | here hvalue => exact absurd hvalue (hnone _)
      | later _ he => exact (hnext n e).2 he

theorem numberOr_bind_eq_ok_iff {α : Type} {next : UInt64 → Except SettingsError α} {a : α} :
    (numberOr lookup key fallback >>= next) = .ok a ↔
      ∃ n, Contributes lookup key fallback n ∧ next n = .ok a := by
  simp only [← numberOr_eq_ok_iff]
  cases numberOr lookup key fallback with
  | error fault => simp [bind, Except.bind]
  | ok n => simp [bind, Except.bind]

theorem ofVariables_eq_error_iff :
    ofVariables lookup = .error e ↔ NamesFirst lookup numberKeys e := by
  refine numberOr_bind_eq_error_iff fun _ _ => numberOr_bind_eq_error_iff fun _ _ =>
    numberOr_bind_eq_error_iff fun _ e => ?_
  -- when all numbers are read, nothing can fail any more
  constructor
  · intro h
    cases h
  · intro h
    cases h

/-- The settings are what the variables contribute; the texts of the logging are taken as they
are. -/
structure TakenFrom (lookup : String → Option String) (s : Settings) : Prop where
  pageSize : Contributes lookup "GRAPH_PAGE_SIZE" default.pageSize s.pageSize
  fetchLatency : Contributes lookup "GRAPH_FETCH_LATENCY_MS" default.fetchLatency s.fetchLatency
  prefetchThreshold :
    Contributes lookup "GRAPH_PREFETCH_THRESHOLD" default.prefetchThreshold s.prefetchThreshold
  level : s.logging.level = (lookup "LOG_LEVEL").getD default.logging.level
  format : s.logging.format = (lookup "LOG_FORMAT").getD default.logging.format

theorem ofVariables_eq_ok_iff {s : Settings} : ofVariables lookup = .ok s ↔ TakenFrom lookup s := by
  simp only [ofVariables, numberOr_bind_eq_ok_iff]
  constructor
  · rintro ⟨pageSize, hpage, latency, hlatency, threshold, hthreshold, h⟩
    cases h
    exact ⟨hpage, hlatency, hthreshold, rfl, rfl⟩
  · rintro ⟨hpage, hlatency, hthreshold, hlevel, hformat⟩
    refine ⟨_, hpage, _, hlatency, _, hthreshold, ?_⟩
    rw [← hlevel, ← hformat]
    rfl

theorem exists_namesFirst_iff {keys : List String} :
    (∃ e, NamesFirst lookup keys e) ↔ ∃ key ∈ keys, ∃ value, Malformed lookup key value := by
  constructor
  · rintro ⟨e, h⟩
    induction h with
    | here h => exact ⟨_, List.mem_cons_self, _, h⟩
    | later _ _ ih =>
      obtain ⟨key, hkey, hvalue⟩ := ih
      exact ⟨key, List.mem_cons_of_mem _ hkey, hvalue⟩
  · rintro ⟨key, hkey, value, hvalue⟩
    induction keys with
    | nil => cases hkey
    | cons first keys ih =>
      by_cases hfirst : ∃ value, Malformed lookup first value
      · obtain ⟨value, hvalue⟩ := hfirst
        exact ⟨_, .here hvalue⟩
      · have hnone := not_exists.1 hfirst
        rcases List.mem_cons.1 hkey with rfl | hkey
        · exact absurd hvalue (hnone value)
        · obtain ⟨e, he⟩ := ih hkey
          exact ⟨e, .later hnone he⟩

/-- Only the variables of the list have a part in the error. -/
theorem NamesFirst.congr {other : String → Option String} {keys : List String}
    (hsame : ∀ key ∈ keys, other key = lookup key) (h : NamesFirst lookup keys e) :
    NamesFirst other keys e := by
  induction h with
  | here h =>
    rw [Malformed, ← hsame _ List.mem_cons_self] at h
    exact .here h
  | later h _ ih =>
    refine .later ?_ (ih fun key hkey => hsame key (List.mem_cons_of_mem _ hkey))
    intro value hvalue
    rw [Malformed, hsame _ List.mem_cons_self] at hvalue
    exact h value hvalue

/-- The texts of the variables decide whether the settings can be had, and as what. -/
structure DecidedByNumerals (lookup : String → Option String) : Prop where
  /-- There are no settings exactly when a variable is malformed. -/
  fails_iff : (∃ e, ofVariables lookup = .error e) ↔
    ∃ key ∈ numberKeys, ∃ value, Malformed lookup key value
  error_iff : ∀ e, ofVariables lookup = .error e ↔ NamesFirst lookup numberKeys e
  ok_iff : ∀ s, ofVariables lookup = .ok s ↔ TakenFrom lookup s
  /-- Whatever the other variables are set to, the failures are the same. -/
  unaffected : ∀ other : String → Option String, (∀ key ∈ numberKeys, other key = lookup key) →
    ∀ e, ofVariables other = .error e ↔ ofVariables lookup = .error e

theorem decided_by_numerals (lookup : String → Option String) : DecidedByNumerals lookup where
  fails_iff := by
    simp only [ofVariables_eq_error_iff]
    exact exists_namesFirst_iff
  error_iff _ := ofVariables_eq_error_iff
  ok_iff _ := ofVariables_eq_ok_iff
  unaffected other hsame e := by
    rw [ofVariables_eq_error_iff, ofVariables_eq_error_iff]
    constructor
    · exact NamesFirst.congr fun key hkey => (hsame key hkey).symm
    · exact NamesFirst.congr hsame

example : ofVariables (fun key =>
    if key = "GRAPH_FETCH_LATENCY_MS" then some " 1 0 "
    else if key = "GRAPH_PREFETCH_THRESHOLD" then some ""
    else none) = .error (.invalidValue "GRAPH_FETCH_LATENCY_MS" " 1 0 ") := rfl

end Settings

end PagedTraversal
