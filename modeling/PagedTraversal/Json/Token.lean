import PagedTraversal.Text.Hex

/-!
# PagedTraversal.Json.Token

The tokens of JSON text. A number token keeps its digits and a string token its characters and
surrogate halves, so that a text can be checked without deciding what its numbers and strings
denote. The scanner reads one character at a time and keeps what it is in the middle of.
-/

namespace PagedTraversal

namespace Json

/-- A number as written: `-`, whole digits, digits after the point, and the power of ten. -/
structure Literal where
  negative : Bool
  whole : List Char
  fraction : Option (List Char)
  exponent : Option Int

namespace Literal

/-- Splits the leading digits off a text. -/
def spanDigits (cs : List Char) : List Char × List Char :=
  (cs.takeWhile Char.isDigit, cs.dropWhile Char.isDigit)

/-- The whole part: one or more digits, no zero in front of another digit. -/
def whole? (cs : List Char) : Option (List Char × List Char) :=
  match spanDigits cs with
  | ([], _) => none
  | ('0' :: _ :: _, _) => none
  | split => some split

/-- The part after the point, if there is a point: one or more digits. -/
def fraction? : List Char → Option (Option (List Char) × List Char)
  | '.' :: rest =>
    match spanDigits rest with
    | ([], _) => none
    | (digits, rest) => some (some digits, rest)
  | rest => some (none, rest)

/-- The power of ten, which ends the number: `e` or `E`, a sign or none, one or more digits. -/
def exponent? : List Char → Option (Option Int)
  | [] => some none
  | e :: rest =>
    if e = 'e' ∨ e = 'E' then
      let (negative, digits) : Bool × List Char :=
        match rest with
        | '-' :: digits => (true, digits)
        | '+' :: digits => (false, digits)
        | digits => (false, digits)
      if digits.isEmpty || !digits.all Char.isDigit then none
      else
        let n : Int := Nat.ofDigitChars 10 digits 0
        some (some (if negative then -n else n))
    else none

/-- Reads a whole text as a number literal. -/
def ofChars? (cs : List Char) : Option Literal :=
  let (negative, cs) : Bool × List Char :=
    match cs with
    | '-' :: rest => (true, rest)
    | cs => (false, cs)
  match whole? cs with
  | none => none
  | some (whole, rest) =>
    match fraction? rest with
    | none => none
    | some (fraction, rest) =>
      match exponent? rest with
      | none => none
      | some exponent => some ⟨negative, whole, fraction, exponent⟩

end Literal

/-- A part of a string as written. A surrogate half is kept as its distance from the first one of
its kind; whether the halves of a string pair up is not looked at here. -/
inductive Piece where
  | char (c : Char)
  | high (offset : Nat)
  | low (offset : Nat)

namespace Piece

/-- The part that a four-digit escape stands for. -/
def ofUnit (unit : Nat) : Piece :=
  if 0xD800 ≤ unit ∧ unit < 0xDC00 then .high (unit - 0xD800)
  else if 0xDC00 ≤ unit ∧ unit < 0xE000 then .low (unit - 0xDC00)
  else .char (Char.ofNat unit)

/-- The characters that the parts of a string spell, where every high half is followed by a low
one and every low half is preceded by a high one. -/
def chars? : List Piece → Option (List Char)
  | [] => some []
  | .char c :: rest => (chars? rest).map (c :: ·)
  | .high h :: .low l :: rest => (chars? rest).map (Char.ofNat (0x10000 + h * 0x400 + l) :: ·)
  | _ => none

theorem chars?_map_char (cs : List Char) : chars? (cs.map char) = some cs := by
  induction cs with
  | nil => rfl
  | cons c rest ih => simp [chars?, ih]

/-- The text that the parts of a string spell. -/
def text? (pieces : List Piece) : Option String := (chars? pieces).map String.ofList

end Piece

inductive Token where
  | beginArray
  | endArray
  | beginObject
  | endObject
  | comma
  | colon
  | null
  | bool (b : Bool)
  | number (n : Literal)
  | string (s : List Piece)

namespace Token

/-- What the scanner is in the middle of. What was read so far is kept in reverse. -/
inductive Mode where
  | between
  | word (letters : List Char)
  | number (chars : List Char)
  | string (pieces : List Piece)
  | escape (pieces : List Piece)
  | unicode (pieces : List Piece) (missing : Nat) (value : Nat)

/-- The blanks of JSON text: space, tab, line feed and carriage return. -/
def isSpace (c : Char) : Bool := c == ' ' || c == '\t' || c == '\n' || c == '\r'

/-- The characters that can occur in a number. A run of them is one number or none. -/
def isNumberChar (c : Char) : Bool :=
  c.isDigit || c == '-' || c == '+' || c == '.' || c == 'e' || c == 'E'

def ofWord? (letters : List Char) : Option Token :=
  if letters = ['n', 'u', 'l', 'l'] then some .null
  else if letters = ['t', 'r', 'u', 'e'] then some (.bool true)
  else if letters = ['f', 'a', 'l', 's', 'e'] then some (.bool false)
  else none

/-- What a character does between two tokens: it is a token, or begins one, or is blank. -/
def start? (c : Char) : Option (List Token × Mode) :=
  if isSpace c then some ([], .between)
  else if c = '[' then some ([.beginArray], .between)
  else if c = ']' then some ([.endArray], .between)
  else if c = '\x7b' then some ([.beginObject], .between)
  else if c = '\x7d' then some ([.endObject], .between)
  else if c = ',' then some ([.comma], .between)
  else if c = ':' then some ([.colon], .between)
  else if c = '\x22' then some ([], .string [])
  else if c.isDigit || c == '-' then some ([], .number [c])
  else if c.isAlpha then some ([], .word [c])
  else none

/-- The character that a one-letter escape stands for. -/
def escaped? (c : Char) : Option Char :=
  if c = '\x22' ∨ c = '\\' ∨ c = '/' then some c
  else if c = 'b' then some '\x08'
  else if c = 'f' then some '\x0c'
  else if c = 'n' then some '\n'
  else if c = 'r' then some '\r'
  else if c = 't' then some '\t'
  else none

/-- Ends a word or number that the next character does not belong to. -/
def close? (token : Option Token) (c : Char) : Option (List Token × Mode) :=
  match token, start? c with
  | some t, some (ts, mode) => some (t :: ts, mode)
  | _, _ => none

/-- Reads one character: the tokens that are complete with it, and what the scanner is in the
middle of then. -/
def step? : Mode → Char → Option (List Token × Mode)
  | .between, c => start? c
  | .word letters, c =>
    if c.isAlpha then some ([], .word (c :: letters)) else close? (ofWord? letters.reverse) c
  | .number chars, c =>
    if isNumberChar c then some ([], .number (c :: chars))
    else close? ((Literal.ofChars? chars.reverse).map .number) c
  | .string pieces, c =>
    if c = '\x22' then some ([.string pieces.reverse], .between)
    else if c = '\\' then some ([], .escape pieces)
    else if c.toNat < 0x20 then none
    else some ([], .string (.char c :: pieces))
  | .escape pieces, c =>
    if c = 'u' then some ([], .unicode pieces 4 0)
    else (escaped? c).map fun e => ([], .string (.char e :: pieces))
  | .unicode pieces missing value, c =>
    (Hex.digitValue? c).map fun d =>
      let value := value * 16 + d
      ([], if missing ≤ 1 then .string (Piece.ofUnit value :: pieces)
        else .unicode pieces (missing - 1) value)

/-- The token that the end of the text completes. -/
def finish? : Mode → Option (List Token)
  | .between => some []
  | .word letters => (ofWord? letters.reverse).map ([·])
  | .number chars => (Literal.ofChars? chars.reverse).map fun n => [.number n]
  | _ => none

/-- Scans a text from a mode on, after the given tokens in reverse. -/
def scanFrom? (mode : Mode) (done : List Token) : List Char → Option (List Token)
  | [] => (finish? mode).map fun last => done.reverse ++ last
  | c :: rest =>
    match step? mode c with
    | none => none
    | some (tokens, mode) => scanFrom? mode (tokens.reverse ++ done) rest

/-- The tokens of a text. -/
def scan? (cs : List Char) : Option (List Token) := scanFrom? .between [] cs

end Token

end Json

end PagedTraversal
