import PagedTraversal.Double.Rounding
import PagedTraversal.Members

/-!
# PagedTraversal.Json.Basic

JSON trees. A number is a whole number of the signed or unsigned 64-bit range or a finite binary64
number, and the two are never equal. An object is a list of members, which is in the order of the
names in every tree that was read from a text (`Json.Sorted`).
-/

namespace PagedTraversal

/-- A JSON number. -/
inductive Number where
  | integer (value : Int)
      (inRange : -9223372036854775808 ≤ value ∧ value ≤ 18446744073709551615)
  | double (value : Double) (isFinite : value.isFinite = true)
deriving DecidableEq

namespace Number

def ofInt? (i : Int) : Option Number :=
  if h : -9223372036854775808 ≤ i ∧ i ≤ 18446744073709551615 then some (.integer i h) else none

def ofDouble? (d : Double) : Option Number :=
  if h : d.isFinite = true then some (.double d h) else none

def ofInt64 (i : Int64) : Number :=
  .integer i.toInt ⟨i.le_toInt, by have := i.toInt_lt; omega⟩

def ofUInt64 (n : UInt64) : Number :=
  .integer n.toNat ⟨by omega, by have := n.toNat_lt; omega⟩

/-- The number as a signed 64-bit integer, if it is a whole number of that range. -/
def toInt64? : Number → Option Int64
  | .integer i _ => if i ≤ 9223372036854775807 then some (Int64.ofInt i) else none
  | .double _ _ => none

/-- The double that a number is or is rounded to. -/
def toDouble : Number → Double
  | .integer i _ => Double.ofInt i
  | .double d _ => d

/-- Equality of numbers: a whole number never equals a double, and the two zeros are equal. -/
def equals : Number → Number → Bool
  | .integer i _, .integer j _ => i == j
  | .double a _, .double b _ => a.equals b
  | _, _ => false

theorem equals_self (n : Number) : n.equals n = true := by
  cases n with
  | integer i _ => simp [equals]
  | double d h => exact Double.equals_self (Double.isNaN_of_isFinite h)

theorem equals_comm (a b : Number) : a.equals b = b.equals a := by
  cases a <;> cases b <;> simp [equals, Double.equals_comm, BEq.comm]

theorem toInt64?_ofInt64 (i : Int64) : (ofInt64 i).toInt64? = some i := by
  have := i.toInt_lt
  simp only [ofInt64, toInt64?]
  rw [if_pos (by omega), Int64.ofInt_toInt]

end Number

/-- A JSON tree. -/
inductive Json where
  | null
  | bool (b : Bool)
  | number (n : Number)
  | string (s : String)
  | array (items : List Json)
  | object (members : List (String × Json))
deriving Inhabited

namespace Json

/-- The text of a string tree. -/
def string? : Json → Option String
  | .string s => some s
  | _ => none

mutual

/-- Equality of trees in the order in which they are kept: numbers are compared as numbers, arrays
item by item, and objects member by member. -/
def equals : Json → Json → Bool
  | .null, .null => true
  | .bool a, .bool b => a == b
  | .number a, .number b => a.equals b
  | .string a, .string b => a == b
  | .array a, .array b => equalItems a b
  | .object a, .object b => equalMembers a b
  | _, _ => false
termination_by structural a => a

def equalItems : List Json → List Json → Bool
  | [], [] => true
  | a :: as, b :: bs => equals a b && equalItems as bs
  | _, _ => false
termination_by structural as => as

def equalMembers : Members Json → Members Json → Bool
  | [], [] => true
  | (k, a) :: as, (l, b) :: bs => k == l && equals a b && equalMembers as bs
  | _, _ => false
termination_by structural as => as

end

mutual

/-- Every object in the tree lists its members in strictly increasing order of their names. -/
def Sorted : Json → Prop
  | .array items => SortedItems items
  | .object members => Members.Sorted members ∧ SortedMembers members
  | _ => True
termination_by structural j => j

def SortedItems : List Json → Prop
  | [] => True
  | j :: rest => Sorted j ∧ SortedItems rest
termination_by structural js => js

def SortedMembers : Members Json → Prop
  | [] => True
  | (_, j) :: rest => Sorted j ∧ SortedMembers rest
termination_by structural ms => ms

end

theorem sortedItems_iff {js : List Json} : SortedItems js ↔ ∀ j ∈ js, Sorted j := by
  induction js with
  | nil => simp [SortedItems]
  | cons j rest ih => simp [SortedItems, ih]

theorem sortedMembers_iff {ms : Members Json} : SortedMembers ms ↔ ∀ m ∈ ms, Sorted m.2 := by
  induction ms with
  | nil => simp [SortedMembers]
  | cons m rest ih => simp [SortedMembers, ih]

end Json

end PagedTraversal
