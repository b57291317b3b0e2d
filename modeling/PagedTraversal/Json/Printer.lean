import PagedTraversal.Double.Shortest
import PagedTraversal.Json.Basic
import PagedTraversal.Text.Hex

/-!
# PagedTraversal.Json.Printer

The compact text of a JSON tree. Members are written in the order in which the tree holds them.
A double is written with its shortest digits, positionally from the fifth place after the point up
to sixteen whole digits and with a power of ten elsewhere.
-/

namespace PagedTraversal

namespace Json

/-- The escape of a character inside a string, or the character itself. -/
def escape (c : Char) : List Char :=
  if c = '\x22' then ['\\', '\x22']
  else if c = '\\' then ['\\', '\\']
  else if c = '\x08' then ['\\', 'b']
  else if c = '\x0c' then ['\\', 'f']
  else if c = '\n' then ['\\', 'n']
  else if c = '\r' then ['\\', 'r']
  else if c = '\t' then ['\\', 't']
  else if c.toNat < 0x20 then ['\\', 'u'] ++ Hex.fixed 4 c.toNat
  else [c]

def quote (s : String) : String :=
  String.ofList ('\x22' :: s.toList.flatMap escape ++ ['\x22'])

/-- A decimal with a point and at least one digit on either side of it. -/
def positional (digits : List Char) (exponent : Int) : List Char :=
  let whole := (digits.length : Int) + exponent
  if 0 ≤ exponent then digits ++ List.replicate exponent.toNat '0' ++ ['.', '0']
  else if 0 < whole then digits.take whole.toNat ++ '.' :: digits.drop whole.toNat
  else ['0', '.'] ++ List.replicate (-whole).toNat '0' ++ digits

/-- A decimal with one digit in front of the point and a signed power of ten. -/
def scientific (digits : List Char) (exponent : Int) : List Char :=
  let power := (digits.length : Int) + exponent - 1
  let mantissa :=
    match digits with
    | first :: second :: rest => first :: '.' :: second :: rest
    | digits => digits
  mantissa ++ ['e', if power < 0 then '-' else '+'] ++ Nat.toDigits 10 power.natAbs

/-- The shortest text of a finite double. -/
def double (d : Double) : String :=
  let magnitude :=
    if d.isZero then ['0', '.', '0']
    else
      let decimal := d.shortest
      let digits := Nat.toDigits 10 decimal.digits
      let power := (digits.length : Int) + decimal.exponent - 1
      if -5 ≤ power ∧ power ≤ 15 then positional digits decimal.exponent
      else scientific digits decimal.exponent
  String.ofList (if d.isNegative then '-' :: magnitude else magnitude)

def integer (i : Int) : String :=
  let digits := Nat.toDigits 10 i.natAbs
  String.ofList (if i < 0 then '-' :: digits else digits)

def numberText : Number → String
  | .integer i _ => integer i
  | .double d _ => double d

mutual

/-- The compact text of a tree. -/
def text : Json → String
  | .null => "null"
  | .bool true => "true"
  | .bool false => "false"
  | .number n => numberText n
  | .string s => quote s
  | .array items => "[" ++ ",".intercalate (itemTexts items) ++ "]"
  | .object members => "\x7b" ++ ",".intercalate (memberTexts members) ++ "\x7d"
termination_by structural j => j

def itemTexts : List Json → List String
  | [] => []
  | j :: rest => text j :: itemTexts rest
termination_by structural js => js

def memberTexts : List (String × Json) → List String
  | [] => []
  | (name, j) :: rest => (quote name ++ ":" ++ text j) :: memberTexts rest
termination_by structural ms => ms

end

end Json

end PagedTraversal
