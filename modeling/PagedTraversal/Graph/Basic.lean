import PagedTraversal.Json.Basic

/-!
# PagedTraversal.Graph.Basic

The values that a traversal yields: scalars, maps, lists, vertices, edges and paths. The elements
are structures over the type of the values inside them, and `GraphValue` closes the circle. A path
pairs each object with its labels, so the two can never differ in number.
-/

namespace PagedTraversal

/-- The identifier of a vertex, an edge or a property value: any JSON tree, kept as received. -/
structure ElementId where
  raw : Json

namespace ElementId

def ofString (s : String) : ElementId := ⟨.string s⟩

def ofInt64 (i : Int64) : ElementId := ⟨.number (.ofInt64 i)⟩

/-- Identifiers are equal when their trees are. -/
def equals (a b : ElementId) : Bool := a.raw.equals b.raw

def string? (id : ElementId) : Option String := id.raw.string?

def int64? (id : ElementId) : Option Int64 :=
  match id.raw with
  | .number n => n.toInt64?
  | _ => none

end ElementId

inductive Scalar where
  | null
  | boolean (b : Bool)
  | integer (i : Int64)
  | double (d : Double)
  | string (s : String)
deriving DecidableEq

/-- One value of a property. A vertex property may give its values identifiers and properties of
their own; an edge property never does. -/
structure PropertyValue (α : Type) where
  id : Option ElementId
  value : α
  properties : List (String × α)

/-- The values of one property, in the order received. -/
abbrev Property (α : Type) := List (PropertyValue α)

structure Vertex (α : Type) where
  id : ElementId
  label : String
  properties : List (String × List (PropertyValue α))

/-- An edge runs from its out-vertex to its in-vertex and names both by identifier and label. -/
structure Edge (α : Type) where
  id : ElementId
  label : String
  outVertex : ElementId
  outVertexLabel : String
  inVertex : ElementId
  inVertexLabel : String
  properties : List (String × List (PropertyValue α))

/-- An object of a path and the labels of the traversal steps that it was bound to. -/
structure PathStep (α : Type) where
  object : α
  labels : LabelSet

structure Path (α : Type) where
  steps : List (PathStep α)

inductive GraphValue where
  | scalar (s : Scalar)
  | map (entries : List (String × GraphValue))
  | list (items : List GraphValue)
  | vertex (v : Vertex GraphValue)
  | edge (e : Edge GraphValue)
  | path (p : Path GraphValue)
deriving Inhabited

/-- The kinds of graph values; each kind of scalar is one of its own. -/
inductive Kind where
  | null
  | boolean
  | integer
  | double
  | string
  | map
  | list
  | vertex
  | edge
  | path
deriving DecidableEq

namespace Kind

def name : Kind → String
  | null => "null"
  | boolean => "boolean"
  | integer => "integer"
  | double => "double"
  | string => "string"
  | map => "map"
  | list => "list"
  | vertex => "vertex"
  | edge => "edge"
  | path => "path"

end Kind

def Scalar.kind : Scalar → Kind
  | .null => .null
  | .boolean _ => .boolean
  | .integer _ => .integer
  | .double _ => .double
  | .string _ => .string

def GraphValue.kind : GraphValue → Kind
  | .scalar s => s.kind
  | .map _ => .map
  | .list _ => .list
  | .vertex _ => .vertex
  | .edge _ => .edge
  | .path _ => .path

namespace PropertyValue

variable {α : Type}

/-- A value without identifier and properties. -/
def bare (value : α) : PropertyValue α := ⟨none, value, []⟩

def withId (p : PropertyValue α) (id : ElementId) : PropertyValue α := { p with id := some id }

def withProperty (p : PropertyValue α) (name : String) (value : α) : PropertyValue α :=
  { p with properties := Members.insert name value p.properties }

end PropertyValue

namespace Path

variable {α : Type}

def objects (p : Path α) : List α := p.steps.map PathStep.object

def labels (p : Path α) : List LabelSet := p.steps.map PathStep.labels

/-- The path of the given objects and label sets, if they are equally many. -/
def ofLists? (objects : List α) (labels : List LabelSet) : Option (Path α) :=
  if objects.length = labels.length then some ⟨List.zipWith PathStep.mk objects labels⟩ else none

theorem length_objects (p : Path α) : p.objects.length = p.labels.length := by
  simp [objects, labels]

theorem objects_zipWith {objects : List α} {labels : List LabelSet}
    (h : objects.length = labels.length) :
    (Path.mk (List.zipWith PathStep.mk objects labels)).objects = objects := by
  induction objects generalizing labels with
  | nil => rfl
  | cons o os ih =>
    cases labels with
    | nil => simp at h
    | cons l ls =>
      simp only [List.length_cons, Nat.add_right_cancel_iff] at h
      simpa [Path.objects] using ih h

theorem labels_zipWith {objects : List α} {labels : List LabelSet}
    (h : objects.length = labels.length) :
    (Path.mk (List.zipWith PathStep.mk objects labels)).labels = labels := by
  induction objects generalizing labels with
  | nil =>
    cases labels with
    | nil => rfl
    | cons l ls => simp at h
  | cons o os ih =>
    cases labels with
    | nil => simp at h
    | cons l ls =>
      simp only [List.length_cons, Nat.add_right_cancel_iff] at h
      simpa [Path.labels] using ih h

end Path

end PagedTraversal
