import PagedTraversal.Graph.Decode
import PagedTraversal.Json.Document

/-!
# PagedTraversal.Row

The rows of a traversal as they arrive: JSON text around the tree of one graph value.
-/

namespace PagedTraversal

/-- A row whose tree is not decoded yet. -/
structure Row where
  payload : Json

/-- Why a row's text yields no graph value: it is no JSON, or its tree is malformed. -/
inductive RowError where
  | notJson
  | malformed (e : DecodeError)
deriving DecidableEq

/-- What the error says. Of a text that is no JSON, the words are the parser's own. -/
def RowError.message? : RowError → Option String
  | .notJson => none
  | .malformed e => some e.message

namespace Row

/-- Takes the payload out of its envelope: the member `result` of an object. -/
def ofEnvelope? : Json → Except DecodeError Row
  | .object ms =>
    match Members.find? "result" ms with
    | some payload => .ok ⟨payload⟩
    | none => Decode.malformed "result" .envelopeWithoutResult
  | _ => Decode.malformed "result" .envelopeNotObject

def ofText? (text : String) : Except RowError Row :=
  match Json.ofText? text with
  | none => .error .notJson
  | some envelope =>
    match ofEnvelope? envelope with
    | .ok row => .ok row
    | .error e => .error (.malformed e)

/-- The graph value of a row. -/
def decode (row : Row) : Except DecodeError GraphValue := GraphValue.ofJson? row.payload

/-- Equality of rows as trees. -/
def equals (a b : Row) : Bool := a.payload.equals b.payload

/-- Equality of rows in the same order. -/
def equalLists : List Row → List Row → Bool
  | [], [] => true
  | a :: as, b :: bs => a.equals b && equalLists as bs
  | _, _ => false

end Row

end PagedTraversal
