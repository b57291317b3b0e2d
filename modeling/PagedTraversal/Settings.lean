import PagedTraversal.Json.Document
import PagedTraversal.Text.Blank

/-!
# PagedTraversal.Settings

The settings of paging and logging, read from variables or from a JSON file. What is not set takes
its default. A variable holds its number as text between blanks; a file holds an object of the
settings, or an array of their values in order. Main statement: the decimal digits of a number are
read back as the number.
-/

namespace PagedTraversal

structure LogSettings where
  level : String
  format : String
deriving DecidableEq

structure Settings where
  /-- The number of rows in a page. -/
  pageSize : UInt64
  /-- How long a fetch takes, in milliseconds. -/
  fetchLatency : UInt64
  /-- Pages are requested ahead when no more rows than this are buffered. -/
  prefetchThreshold : UInt64
  logging : LogSettings
deriving DecidableEq

/-- Why settings cannot be had. -/
inductive SettingsError where
  | invalidValue (key value : String)
  | unreadable
  | notJson
deriving DecidableEq

def SettingsError.message? : SettingsError → Option String
  | .invalidValue key value => some ("Invalid value for " ++ key ++ ": " ++ value)
  | _ => none

namespace LogSettings

def default : LogSettings := ⟨"info", "pretty"⟩

end LogSettings

namespace Settings

def default : Settings := ⟨100, 0, 20, .default⟩

/-! ## Variables -/

/-- A text without a plus sign in front of it. -/
def dropPlus : List Char → List Char
  | '+' :: rest => rest
  | cs => cs

/-- The number that a text of decimal digits denotes, an optional plus sign in front of them, if it
is below `2 ^ 64`. -/
def ofDigits? (cs : List Char) : Option UInt64 :=
  let digits := dropPlus cs
  if digits.isEmpty || !digits.all Char.isDigit then none
  else
    let n := Nat.ofDigitChars 10 digits 0
    if n < 18446744073709551616 then some (UInt64.ofNat n) else none

theorem dropPlus_of_all_isDigit {cs : List Char} (h : ∀ c ∈ cs, c.isDigit = true) :
    dropPlus cs = cs := by
  unfold dropPlus
  split
  · exact absurd (h '+' List.mem_cons_self) (by decide)
  · rfl

/-- The decimal digits of a number are read back as the number. -/
theorem ofDigits?_toDigits (n : UInt64) : ofDigits? (Nat.toDigits 10 n.toNat) = some n := by
  have hdigit : ∀ c ∈ Nat.toDigits 10 n.toNat, c.isDigit = true := fun c hc =>
    Nat.isDigit_of_mem_toDigits (by decide) (by decide) hc
  have hempty : (Nat.toDigits 10 n.toNat).isEmpty = false := by simp
  have hall : (Nat.toDigits 10 n.toNat).all Char.isDigit = true := List.all_eq_true.2 hdigit
  rw [ofDigits?]
  simp only [dropPlus_of_all_isDigit hdigit, hempty, hall, Nat.ofDigitChars_ten_toDigits,
    Bool.not_true, Bool.or_self, Bool.false_eq_true, if_false]
  rw [if_pos n.toNat_lt, UInt64.ofNat_toNat]

/-- The number that a variable is set to, or the default when it is not set. -/
def numberOr (lookup : String → Option String) (key : String) (default : UInt64) :
    Except SettingsError UInt64 :=
  match lookup key with
  | none => .ok default
  | some value =>
    match ofDigits? (trimBlank value.toList) with
    | some n => .ok n
    | none => .error (.invalidValue key value)

/-- The settings of a set of variables. -/
def ofVariables (lookup : String → Option String) : Except SettingsError Settings := do
  let pageSize ← numberOr lookup "GRAPH_PAGE_SIZE" default.pageSize
  let fetchLatency ← numberOr lookup "GRAPH_FETCH_LATENCY_MS" default.fetchLatency
  let prefetchThreshold ← numberOr lookup "GRAPH_PREFETCH_THRESHOLD" default.prefetchThreshold
  pure ⟨pageSize, fetchLatency, prefetchThreshold,
    ⟨(lookup "LOG_LEVEL").getD default.logging.level,
      (lookup "LOG_FORMAT").getD default.logging.format⟩⟩

/-! ## Files -/

open Json (Document Piece)

/-- The number of a whole literal without sign that is below `2 ^ 64`. -/
def number? : Document → Option UInt64
  | .number n =>
    if n.isWhole && !n.negative && n.magnitude < 18446744073709551616 then
      some (UInt64.ofNat n.magnitude)
    else none
  | _ => none

def string? : Document → Option String
  | .string pieces => Piece.text? pieces
  | _ => none

/-- Reads a record whose fields have the given names. Each reader puts the value of its field into
the record. In an object a field may stand once, in any order, and other members are passed over
without a look at their values. In an array the values stand in the order of the fields, and
fields at the end may be left out. -/
def readRecord {α : Type} (fields : List (String × (Document → α → Option α))) (default : α) :
    Document → Option α
  | .array items =>
    if items.length ≤ fields.length then
      (items.zip fields).foldlM (fun record p => p.2.2 p.1 record) default
    else none
  | .object members =>
    let put (state : List String × α) (m : List Piece × Document) : Option (List String × α) :=
      match Piece.text? m.1 with
      | none => none
      | some name =>
        match fields.lookup name with
        | none => some state
        | some read =>
          if state.1.contains name then none
          else (read m.2 state.2).map fun record => (name :: state.1, record)
    (members.foldlM put ([], default)).map Prod.snd
  | _ => none

def logFields : List (String × (Document → LogSettings → Option LogSettings)) :=
  [("level", fun d s => (string? d).map fun level => { s with level := level }),
    ("format", fun d s => (string? d).map fun format => { s with format := format })]

def fields : List (String × (Document → Settings → Option Settings)) :=
  [("page_size", fun d s => (number? d).map fun n => { s with pageSize := n }),
    ("fetch_latency_ms", fun d s => (number? d).map fun n => { s with fetchLatency := n }),
    ("prefetch_threshold", fun d s => (number? d).map fun n => { s with prefetchThreshold := n }),
    ("logging", fun d s =>
      (readRecord logFields .default d).map fun logging => { s with logging := logging })]

def ofDocument? (d : Document) : Option Settings := readRecord fields default d

/-- The settings of a JSON text. -/
def ofText (text : String) : Except SettingsError Settings :=
  match (Document.ofText? text).bind ofDocument? with
  | some settings => .ok settings
  | none => .error .notJson

/-- The settings of a file with the given bytes. -/
def ofFile (bytes : ByteArray) : Except SettingsError Settings :=
  match String.fromUTF8? bytes with
  | some text => ofText text
  | none => .error .unreadable

end Settings

end PagedTraversal
