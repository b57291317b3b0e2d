import PagedTraversal.Graph.Basic
import PagedTraversal.Json.Printer

/-!
# PagedTraversal.Graph.Tagged

The tagged JSON form of a graph value: an object with the variant as its only name, around the
parts of the variant in the order of their declaration. Scalars stand for themselves, and a double
that is not finite is written as `null`.
-/

namespace PagedTraversal

namespace Scalar

def json : Scalar → Json
  | .null => .null
  | .boolean b => .bool b
  | .integer i => .number (.ofInt64 i)
  | .double d =>
    match Number.ofDouble? d with
    | some n => .number n
    | none => .null
  | .string s => .string s

end Scalar

namespace GraphValue

/-- The JSON of a label set. -/
def labelsJson (labels : LabelSet) : Json := .array (labels.map .string)

/-- An absent identifier is written as `null`. -/
def idJson : Option ElementId → Json
  | none => .null
  | some id => id.raw

mutual

/-- The tagged form of a value. -/
def tagged : GraphValue → Json
  | .scalar s => .object [("Scalar", s.json)]
  | .map entries => .object [("Map", .object (taggedEntries entries))]
  | .list items => .object [("List", .array (taggedItems items))]
  | .vertex ⟨id, label, properties⟩ =>
    .object [("Vertex", .object [("id", id.raw), ("label", .string label),
      ("properties", .object (taggedProperties properties))])]
  | .edge ⟨id, label, outVertex, outVertexLabel, inVertex, inVertexLabel, properties⟩ =>
    .object [("Edge", .object [("id", id.raw), ("label", .string label),
      ("out_v", outVertex.raw), ("out_v_label", .string outVertexLabel),
      ("in_v", inVertex.raw), ("in_v_label", .string inVertexLabel),
      ("properties", .object (taggedProperties properties))])]
  | .path ⟨steps⟩ =>
    .object [("Path", .object [("objects", .array (taggedObjects steps)),
      ("labels", .array (steps.map fun s => labelsJson s.labels))])]
termination_by structural v => v

def taggedItems : List GraphValue → List Json
  | [] => []
  | v :: rest => tagged v :: taggedItems rest
termination_by structural vs => vs

def taggedEntries : List (String × GraphValue) → List (String × Json)
  | [] => []
  | (name, v) :: rest => (name, tagged v) :: taggedEntries rest
termination_by structural vs => vs

def taggedObjects : List (PathStep GraphValue) → List Json
  | [] => []
  | ⟨v, _⟩ :: rest => tagged v :: taggedObjects rest
termination_by structural vs => vs

def taggedProperties : List (String × List (PropertyValue GraphValue)) → List (String × Json)
  | [] => []
  | (name, values) :: rest => (name, .array (taggedPropertyValues values)) :: taggedProperties rest
termination_by structural vs => vs

def taggedPropertyValues : List (PropertyValue GraphValue) → List Json
  | [] => []
  | ⟨id, v, properties⟩ :: rest =>
    .object [("id", idJson id), ("value", tagged v),
      ("properties", .object (taggedEntries properties))] :: taggedPropertyValues rest
termination_by structural vs => vs

end

/-- The text of the tagged form. -/
def serialize (v : GraphValue) : String := v.tagged.text

end GraphValue

end PagedTraversal
