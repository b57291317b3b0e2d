import PagedTraversal.Json.Basic
import PagedTraversal.Json.Token

/-!
# PagedTraversal.Json.Document

JSON documents: what a text says before anyone asks for its values. Members stand in the order of
the text, repetitions included, and numbers and strings are kept as written. A document is built
from the tokens by a machine with a stack of open containers, one step for each token. Reading its
value bounds the nesting, rounds the numbers, pairs the surrogates and orders the members. Main
statement: in the tree of a text the members of every object are in the order of their names.
-/

namespace PagedTraversal

namespace Json

inductive Document where
  | null
  | bool (b : Bool)
  | number (n : Literal)
  | string (s : List Piece)
  | array (items : List Document)
  | object (members : List (List Piece × Document))

namespace Literal

/-- A literal without point and power of ten. -/
def isWhole (n : Literal) : Bool := n.fraction.isNone && n.exponent.isNone

/-- The whole number that the digits before the point denote. -/
def magnitude (n : Literal) : Nat := Nat.ofDigitChars 10 n.whole 0

/-- The double nearest to the literal, unless that is an infinity. -/
def double? (n : Literal) : Option Double :=
  let places := n.fraction.getD []
  Double.ofDecimal? n.negative (Nat.ofDigitChars 10 (n.whole ++ places) 0)
    (n.exponent.getD 0 - (places.length : Int))

/-- A whole literal of the 64-bit ranges is a whole number, save that `-0` is the negative zero;
any other literal is a double. -/
def number? (n : Literal) : Option Number :=
  let whole : Option Number :=
    if !n.isWhole then none
    else if n.negative then
      if n.magnitude = 0 ∨ 9223372036854775808 < n.magnitude then none
      else Number.ofInt? (-(n.magnitude : Int))
    else Number.ofInt? n.magnitude
  match whole with
  | some n => some n
  | none => n.double?.bind Number.ofDouble?

end Literal

namespace Document

/-- A container that is still open: what it holds so far, in reverse, and for an object the name
whose value is being read. -/
inductive Frame where
  | array (items : List Document)
  | object (members : List (List Piece × Document)) (key : List Piece)

/-- What may come next, inside the containers that are open. -/
inductive State where
  | value (stack : List Frame)
  | itemOrEnd (stack : List Frame)
  | nameOrEnd (stack : List Frame)
  | name (members : List (List Piece × Document)) (stack : List Frame)
  | colon (members : List (List Piece × Document)) (key : List Piece) (stack : List Frame)
  | after (value : Document) (stack : List Frame)

namespace State

/-- Begins a value with its first token. -/
def begin? (stack : List Frame) : Token → Option State
  | .null => some (.after .null stack)
  | .bool b => some (.after (.bool b) stack)
  | .number n => some (.after (.number n) stack)
  | .string s => some (.after (.string s) stack)
  | .beginArray => some (.itemOrEnd stack)
  | .beginObject => some (.nameOrEnd stack)
  | _ => none

def step? : State → Token → Option State
  | .value stack, t => begin? stack t
  | .itemOrEnd stack, .endArray => some (.after (.array []) stack)
  | .itemOrEnd stack, t => begin? (.array [] :: stack) t
  | .nameOrEnd stack, .endObject => some (.after (.object []) stack)
  | .nameOrEnd stack, .string s => some (.colon [] s stack)
  | .name members stack, .string s => some (.colon members s stack)
  | .colon members key stack, .colon => some (.value (.object members key :: stack))
  | .after v (.array items :: stack), .comma => some (.value (.array (v :: items) :: stack))
  | .after v (.array items :: stack), .endArray =>
    some (.after (.array (v :: items).reverse) stack)
  | .after v (.object members key :: stack), .comma => some (.name ((key, v) :: members) stack)
  | .after v (.object members key :: stack), .endObject =>
    some (.after (.object ((key, v) :: members).reverse) stack)
  | _, _ => none

/-- The document of a text that ends here. -/
def finish? : State → Option Document
  | .after v [] => some v
  | _ => none

end State

/-- The document that the tokens of a text make up. -/
def ofTokens? (tokens : List Token) : Option Document :=
  (tokens.foldlM State.step? (.value [])).bind State.finish?

def ofText? (text : String) : Option Document := (Token.scan? text.toList).bind ofTokens?

mutual

/-- The value of a document with at most the given number of containers inside one another. Of
members with one name the last counts. -/
def value? (depth : Nat) : Document → Option Json
  | .null => some .null
  | .bool b => some (.bool b)
  | .number n => n.number?.map .number
  | .string s => (Piece.text? s).map .string
  | .array items =>
    match depth with
    | 0 => none
    | depth + 1 => (values? depth items).map .array
  | .object members =>
    match depth with
    | 0 => none
    | depth + 1 => (pairs? depth members).map fun pairs => .object (Members.ofPairs pairs)
termination_by structural d => d

def values? (depth : Nat) : List Document → Option (List Json)
  | [] => some []
  | d :: rest =>
    match value? depth d, values? depth rest with
    | some v, some vs => some (v :: vs)
    | _, _ => none
termination_by structural ds => ds

def pairs? (depth : Nat) : List (List Piece × Document) → Option (List (String × Json))
  | [] => some []
  | (name, d) :: rest =>
    match Piece.text? name, value? depth d, pairs? depth rest with
    | some name, some v, some vs => some ((name, v) :: vs)
    | _, _, _ => none
termination_by structural ds => ds

end

mutual

theorem sorted_of_value? {depth : Nat} : {d : Document} → {j : Json} →
    value? depth d = some j → Sorted j
  | .null, j, h => by
    cases h
    simp [Sorted]
  | .bool b, j, h => by
    simp only [value?, Option.some.injEq] at h
    subst h
    simp [Sorted]
  | .number n, j, h => by
    simp only [value?, Option.map_eq_some_iff] at h
    obtain ⟨_, _, rfl⟩ := h
    simp [Sorted]
  | .string s, j, h => by
    simp only [value?, Option.map_eq_some_iff] at h
    obtain ⟨_, _, rfl⟩ := h
    simp [Sorted]
  | .array items, j, h => by
    cases depth with
    | zero => simp [value?] at h
    | succ depth =>
      simp only [value?, Option.map_eq_some_iff] at h
      obtain ⟨vs, hvs, rfl⟩ := h
      simpa only [Sorted] using sortedItems_of_values? hvs
  | .object members, j, h => by
    cases depth with
    | zero => simp [value?] at h
    | succ depth =>
      simp only [value?, Option.map_eq_some_iff] at h
      obtain ⟨pairs, hpairs, rfl⟩ := h
      have hall := sorted_of_mem_pairs? hpairs
      refine ⟨Members.sorted_ofPairs pairs, sortedMembers_iff.2 fun m hm => ?_⟩
      exact hall m (Members.mem_of_mem_ofPairs hm)
termination_by structural d => d

theorem sortedItems_of_values? {depth : Nat} : {ds : List Document} → {js : List Json} →
    values? depth ds = some js → SortedItems js
  | [], js, h => by
    cases h
    simp [SortedItems]
  | d :: rest, js, h => by
    simp only [values?] at h
    split at h
    · next v vs hv hvs =>
      cases h
      exact ⟨sorted_of_value? hv, sortedItems_of_values? hvs⟩
    · cases h
termination_by structural ds => ds

theorem sorted_of_mem_pairs? {depth : Nat} : {ds : List (List Piece × Document)} →
    {pairs : List (String × Json)} → pairs? depth ds = some pairs → ∀ m ∈ pairs, Sorted m.2
  | [], pairs, h => by
    cases h
    simp
  | (name, d) :: rest, pairs, h => by
    simp only [pairs?] at h
    split at h
    · next n v vs _ hv hvs =>
      cases h
      intro m hm
      rcases List.mem_cons.1 hm with e | e
      · subst e
        exact sorted_of_value? hv
      · exact sorted_of_mem_pairs? hvs m e
    · cases h
termination_by structural ds => ds

end

/-- The number of containers that a readable document may have inside one another. -/
def maxDepth : Nat := 127

end Document

/-- The tree that a JSON text denotes. -/
def ofText? (text : String) : Option Json :=
  (Document.ofText? text).bind (Document.value? Document.maxDepth)

/-- The tree of a text has its members in order. -/
theorem sorted_of_ofText? {text : String} {j : Json} (h : ofText? text = some j) : Sorted j := by
  obtain ⟨_, _, hd⟩ := Option.bind_eq_some_iff.1 h
  exact Document.sorted_of_value? hd

end Json

end PagedTraversal
