import PagedTraversal.Graph.Equality
import PagedTraversal.Json.Printer

/-!
# PagedTraversal.Graph.Access

Questions to graph values: the view of a value as one kind, which fails with both kinds when the
value is of another, and the look-ups and tests on elements and paths. What is not there is
`none`, never an error.
-/

namespace PagedTraversal

/-- A value was asked for as a kind that it is not of. -/
structure CastError where
  expected : Kind
  actual : Kind
deriving DecidableEq

def CastError.message (e : CastError) : String :=
  "Invalid cast: expected " ++ e.expected.name ++ ", got " ++ e.actual.name

/-- A string identifier is shown as its text, any other as its JSON text. -/
def ElementId.display (id : ElementId) : String :=
  match id.raw with
  | .string s => s
  | raw => raw.text

namespace Property

variable {α : Type}

/-- A property with one bare value. -/
def single (value : α) : Property α := [.bare value]

/-- The first value; further values of the property are passed over. -/
def value? (p : Property α) : Option α := p.head?.map PropertyValue.value

def isMultiValued (p : Property α) : Bool := 1 < p.length

end Property

namespace Vertex

variable {α : Type}

/-- Adds a property; one of the same name gives way to it. -/
def withProperty (v : Vertex α) (name : String) (p : Property α) : Vertex α :=
  { v with properties := Members.insert name p v.properties }

def property? (v : Vertex α) (name : String) : Option (Property α) :=
  Members.find? name v.properties

def hasLabel (v : Vertex α) (label : String) : Bool := v.label == label

end Vertex

namespace Edge

variable {α : Type}

/-- Adds a property; one of the same name gives way to it. -/
def withProperty (e : Edge α) (name : String) (p : Property α) : Edge α :=
  { e with properties := Members.insert name p e.properties }

def property? (e : Edge α) (name : String) : Option (Property α) :=
  Members.find? name e.properties

def hasLabel (e : Edge α) (label : String) : Bool := e.label == label

/-- Whether the edge leaves the vertex. -/
def leaves (e : Edge α) (v : Vertex α) : Bool := e.outVertex.equals v.id

/-- Whether the edge enters the vertex. -/
def enters (e : Edge α) (v : Vertex α) : Bool := e.inVertex.equals v.id

def leavesLabel (e : Edge α) (label : String) : Bool := e.outVertexLabel == label

def entersLabel (e : Edge α) (label : String) : Bool := e.inVertexLabel == label

end Edge

/-- A vertex or an edge: what has an identifier, a label and properties. -/
inductive Element (α : Type) where
  | vertex (v : Vertex α)
  | edge (e : Edge α)

namespace Element

variable {α : Type}

def id : Element α → ElementId
  | .vertex v => v.id
  | .edge e => e.id

def hasLabel : Element α → String → Bool
  | .vertex v => v.hasLabel
  | .edge e => e.hasLabel

def property? : Element α → String → Option (Property α)
  | .vertex v => v.property?
  | .edge e => e.property?

/-- The first value of a property. -/
def value? (e : Element α) (name : String) : Option α := (e.property? name).bind Property.value?

/-- Whether the first value of a property equals the expected one. -/
def hasProperty (e : Element GraphValue) (name : String) (expected : GraphValue) : Bool :=
  match e.value? name with
  | some v => v.equals expected
  | none => false

end Element

namespace GraphValue

def castError (v : GraphValue) (expected : Kind) : CastError := ⟨expected, v.kind⟩

def asVertex : GraphValue → Except CastError (Vertex GraphValue)
  | .vertex v => .ok v
  | other => .error (other.castError .vertex)

def asEdge : GraphValue → Except CastError (Edge GraphValue)
  | .edge e => .ok e
  | other => .error (other.castError .edge)

/-- A vertex or an edge; any other value is no vertex. -/
def asElement : GraphValue → Except CastError (Element GraphValue)
  | .vertex v => .ok (.vertex v)
  | .edge e => .ok (.edge e)
  | other => .error (other.castError .vertex)

def asPath : GraphValue → Except CastError (Path GraphValue)
  | .path p => .ok p
  | other => .error (other.castError .path)

def asString : GraphValue → Except CastError String
  | .scalar (.string s) => .ok s
  | other => .error (other.castError .string)

def asInteger : GraphValue → Except CastError Int64
  | .scalar (.integer i) => .ok i
  | other => .error (other.castError .integer)

/-- A double, or the double that a whole number is rounded to. -/
def asDouble : GraphValue → Except CastError Double
  | .scalar (.double d) => .ok d
  | .scalar (.integer i) => .ok (Double.ofInt i.toInt)
  | other => .error (other.castError .double)

def asBoolean : GraphValue → Except CastError Bool
  | .scalar (.boolean b) => .ok b
  | other => .error (other.castError .boolean)

def asMap : GraphValue → Except CastError (Members GraphValue)
  | .map entries => .ok entries
  | other => .error (other.castError .map)

def asList : GraphValue → Except CastError (List GraphValue)
  | .list items => .ok items
  | other => .error (other.castError .list)

def isNull : GraphValue → Bool
  | .scalar .null => true
  | _ => false

/-- The entry of a map; a value of another kind has none. -/
def get? (name : String) : GraphValue → Option GraphValue
  | .map entries => Members.find? name entries
  | _ => none

end GraphValue

namespace Path

variable {α : Type}

def object? (p : Path α) (i : Nat) : Option α := p.steps[i]?.map PathStep.object

def labels? (p : Path α) (i : Nat) : Option LabelSet := p.steps[i]?.map PathStep.labels

/-- Whether the object at an index carries exactly the given labels, in whatever order and however
often they are named: as many as there are different ones among them, and each of its own is one of
them. Past the end nothing does. -/
def hasLabels (p : Path α) (i : Nat) (labels : List String) : Bool :=
  match p.labels? i with
  | some actual =>
    let expected := LabelSet.ofList labels
    actual.length == expected.length && actual.all expected.contains
  | none => false

/-- The objects bound to a label, in the order of the path. -/
def objectsLabeled (p : Path α) (label : String) : List α :=
  (p.steps.filter fun s => s.labels.contains label).map PathStep.object

/-- The vertices of a path; other objects are passed over. -/
def vertices (p : Path GraphValue) : List (Vertex GraphValue) :=
  p.objects.filterMap fun o => o.asVertex.toOption

/-- The edges of a path; other objects are passed over. -/
def edges (p : Path GraphValue) : List (Edge GraphValue) :=
  p.objects.filterMap fun o => o.asEdge.toOption

def length (p : Path α) : Nat := p.steps.length

end Path

end PagedTraversal
