import PagedTraversal.Graph.Basic
import PagedTraversal.Graph.DecodeError

/-!
# PagedTraversal.Graph.Decode

The graph value of a JSON tree. An object whose `type` is `vertex` or `edge` is that element, one
that holds arrays under `objects` and `labels` is a path, and every other tree is taken as it
stands: object to map, array to list, primitive to scalar. Only elements and paths can be malformed.
The recursion follows the tree; where an element needs one member decoded, the members are walked
up to it.
-/

namespace PagedTraversal

/-- What an object is recognised as. A path comes with the numbers of its objects and labels. -/
inductive Shape where
  | vertex
  | edge
  | path (objects labels : Nat)
  | map
deriving DecidableEq

namespace Shape

def ofMembers (ms : Members Json) : Shape :=
  match Members.find? "type" ms with
  | some (.string "vertex") => vertex
  | some (.string "edge") => edge
  | _ =>
    match Members.find? "objects" ms, Members.find? "labels" ms with
    | some (.array objects), some (.array labels) => path objects.length labels.length
    | _, _ => map

end Shape

/-- The elements that hold properties. Only a vertex property can give its values identifiers and
properties of their own. -/
inductive Holder where
  | vertex
  | edge
deriving DecidableEq

namespace Decode

/-- Places an error one step further out. -/
def within {α : Type} (step : LocationStep) : Except DecodeError α → Except DecodeError α
  | .ok a => .ok a
  | .error e => .error (e.within step)

def malformed {α : Type} (name : String) (reason : Reason) : Except DecodeError α :=
  .error (.malformed [.member name] reason)

/-- An identifier that has to be there; `null` counts as missing. -/
def requiredId (name : String) (ms : Members Json) : Except DecodeError ElementId :=
  match Members.find? name ms with
  | none => malformed name .missing
  | some .null => malformed name .missing
  | some raw => .ok ⟨raw⟩

/-- A text that has to be there; `null` counts as missing. -/
def requiredString (name : String) (ms : Members Json) : Except DecodeError String :=
  match Members.find? name ms with
  | none => malformed name .missing
  | some .null => malformed name .missing
  | some (.string s) => .ok s
  | some _ => malformed name .notString

/-- The identifier of a property value; `null` counts as none. -/
def optionalId (ms : Members Json) : Option ElementId :=
  match Members.find? "id" ms with
  | none => none
  | some .null => none
  | some raw => some ⟨raw⟩

def scalar : Json → Scalar
  | .bool b => .boolean b
  | .number n =>
    match n.toInt64? with
    | some i => .integer i
    | none => .double n.toDouble
  | .string s => .string s
  | _ => .null

/-- The labels of the `i`-th object of a path: none, one, or the set of an array. -/
def labelSet (i : Nat) : Json → Except DecodeError LabelSet
  | .null => .ok []
  | .string s => .ok [s]
  | .array items =>
    match items.mapM Json.string? with
    | some labels => .ok (LabelSet.ofList labels)
    | none => .error (.malformed [.labels i] .labelNotString)
  | _ => .error (.malformed [.labels i] .notLabels)

def labelSets (i : Nat) : List Json → Except DecodeError (List LabelSet)
  | [] => .ok []
  | entry :: rest => do
    let labels ← labelSet i entry
    let more ← labelSets (i + 1) rest
    pure (labels :: more)

/-- The label sets under `labels`. -/
def pathLabels (ms : Members Json) : Except DecodeError (List LabelSet) :=
  match Members.find? "labels" ms with
  | some (.array entries) => labelSets 0 entries
  | _ => .ok []

/-- Whether a property value is written as an object with its value under `value`. -/
def isAnnotated (holder : Holder) (ms : Members Json) : Bool :=
  holder == .vertex && (Members.find? "value" ms).isSome

/-- Puts an annotated property value together; an error in its value comes first. -/
def annotated (ms : Members Json) (value : Except DecodeError GraphValue)
    (properties : Except DecodeError (List (String × GraphValue))) :
    Except DecodeError (PropertyValue GraphValue) := do
  let value ← value
  let properties ← properties
  pure ⟨optionalId ms, value, properties⟩

def bare (value : Except DecodeError GraphValue) : Except DecodeError (PropertyValue GraphValue) :=
  value.map PropertyValue.bare

mutual

/-- The graph value of a tree, or the first error in it. -/
def value : Json → Except DecodeError GraphValue
  | .array list => (items .item 0 list).map .list
  | .object ms =>
    match Shape.ofMembers ms with
    | .vertex => do
      let id ← requiredId "id" ms
      let label ← requiredString "label" ms
      let properties ← properties .vertex ms
      pure (.vertex ⟨id, label, properties⟩)
    | .edge => do
      let id ← requiredId "id" ms
      let label ← requiredString "label" ms
      let outVertex ← requiredId "outV" ms
      let outVertexLabel ← requiredString "outVLabel" ms
      let inVertex ← requiredId "inV" ms
      let inVertexLabel ← requiredString "inVLabel" ms
      let properties ← properties .edge ms
      pure (.edge ⟨id, label, outVertex, outVertexLabel, inVertex, inVertexLabel, properties⟩)
    | .path objects labels =>
      if objects = labels then do
        let objects ← pathObjects ms
        let labels ← pathLabels ms
        pure (.path ⟨List.zipWith PathStep.mk objects labels⟩)
      else .error (.unpaired objects labels)
    | .map => (members ms).map .map
  | other => .ok (.scalar (scalar other))
termination_by structural j => j

/-- The values of the items of an array, each located by its index. -/
def items (step : Nat → LocationStep) (i : Nat) : List Json → Except DecodeError (List GraphValue)
  | [] => .ok []
  | j :: rest => do
    let v ← within (step i) (value j)
    let vs ← items step (i + 1) rest
    pure (v :: vs)
termination_by structural js => js

/-- The values of the members of an object, each located by its name. -/
def members : List (String × Json) → Except DecodeError (List (String × GraphValue))
  | [] => .ok []
  | (name, j) :: rest => do
    let v ← within (.member name) (value j)
    let vs ← members rest
    pure ((name, v) :: vs)
termination_by structural ms => ms

/-- The value of the first member with the name. -/
def member (name : String) : List (String × Json) → Except DecodeError GraphValue
  | [] => .ok (.scalar .null)
  | (n, j) :: rest => if n = name then within (.member name) (value j) else member name rest
termination_by structural ms => ms

/-- The objects of a path: the values of the array under `objects`. -/
def pathObjects : List (String × Json) → Except DecodeError (List GraphValue)
  | [] => .ok []
  | (n, j) :: rest => if n = "objects" then pathObjectsOf j else pathObjects rest
termination_by structural ms => ms

def pathObjectsOf : Json → Except DecodeError (List GraphValue)
  | .array list => items .object 0 list
  | _ => .ok []
termination_by structural j => j

/-- The properties of an annotated property value, under `properties` if there are any. -/
def annotations : List (String × Json) → Except DecodeError (List (String × GraphValue))
  | [] => .ok []
  | (n, j) :: rest => if n = "properties" then annotationsOf j else annotations rest
termination_by structural ms => ms

/-- The properties of an annotated property value, written as `null` or an object. -/
def annotationsOf : Json → Except DecodeError (List (String × GraphValue))
  | .null => .ok []
  | .object ms => within (.member "properties") (members ms)
  | _ => malformed "properties" .notObject
termination_by structural j => j

/-- The properties of an element, under `properties` if there are any. -/
def properties (holder : Holder) : List (String × Json) →
    Except DecodeError (List (String × List (PropertyValue GraphValue)))
  | [] => .ok []
  | (n, j) :: rest => if n = "properties" then propertiesOf holder j else properties holder rest
termination_by structural ms => ms

/-- The properties of an element, written as `null` or an object. -/
def propertiesOf (holder : Holder) :
    Json → Except DecodeError (List (String × List (PropertyValue GraphValue)))
  | .null => .ok []
  | .object ms => namedProperties holder ms
  | _ => malformed "properties" .notObject
termination_by structural j => j

/-- Each property has the values of an array or the one value that stands in its place. -/
def namedProperties (holder : Holder) : List (String × Json) →
    Except DecodeError (List (String × List (PropertyValue GraphValue)))
  | [] => .ok []
  | (name, j) :: rest => do
    let p ← within (.property name) <|
      match listedValues? holder j with
      | some values => values
      | none =>
        match annotatedValue? holder j with
        | some v => v.map ([·])
        | none => (bare (value j)).map ([·])
    let ps ← namedProperties holder rest
    pure ((name, p) :: ps)
termination_by structural ms => ms

/-- The values of a property that is written as an array. -/
def listedValues? (holder : Holder) :
    Json → Option (Except DecodeError (List (PropertyValue GraphValue)))
  | .array list => some (propertyValues holder 0 list)
  | _ => none
termination_by structural j => j

/-- The values of an array of property values, each located by its index. -/
def propertyValues (holder : Holder) (i : Nat) : List Json →
    Except DecodeError (List (PropertyValue GraphValue))
  | [] => .ok []
  | j :: rest => do
    let v ← within (.item i) <|
      match annotatedValue? holder j with
      | some v => v
      | none => bare (value j)
    let vs ← propertyValues holder (i + 1) rest
    pure (v :: vs)
termination_by structural js => js

/-- A property value that is written as an object with its value under `value`. -/
def annotatedValue? (holder : Holder) :
    Json → Option (Except DecodeError (PropertyValue GraphValue))
  | .object ms =>
    if isAnnotated holder ms then some (annotated ms (member "value" ms) (annotations ms))
    else none
  | _ => none
termination_by structural j => j

end

/-! ## Members by name

The walks above stop at the first member of a name, so they can be told by a look-up of it. -/

theorem member_of_find? {name : String} {ms : Members Json} {j : Json}
    (h : Members.find? name ms = some j) :
    member name ms = within (.member name) (value j) := by
  induction ms with
  | nil => simp [Members.find?] at h
  | cons m rest ih =>
    by_cases hn : m.1 = name
    · simp only [Members.find?, hn, if_true, Option.some.injEq] at h
      simp [member, hn, h]
    · simp only [Members.find?, hn, if_false] at h
      simp [member, hn, ih h]

theorem pathObjects_eq (ms : Members Json) :
    pathObjects ms =
      match Members.find? "objects" ms with
      | none => .ok []
      | some j => pathObjectsOf j := by
  induction ms with
  | nil => rfl
  | cons m rest ih => by_cases hn : m.1 = "objects" <;> simp [pathObjects, Members.find?, hn, ih]

theorem annotations_eq (ms : Members Json) :
    annotations ms =
      match Members.find? "properties" ms with
      | none => .ok []
      | some j => annotationsOf j := by
  induction ms with
  | nil => rfl
  | cons m rest ih =>
    by_cases hn : m.1 = "properties" <;> simp [annotations, Members.find?, hn, ih]

theorem properties_eq (holder : Holder) (ms : Members Json) :
    properties holder ms =
      match Members.find? "properties" ms with
      | none => .ok []
      | some j => propertiesOf holder j := by
  induction ms with
  | nil => rfl
  | cons m rest ih =>
    by_cases hn : m.1 = "properties" <;> simp [properties, Members.find?, hn, ih]

end Decode

/-- The graph value of a JSON tree. -/
def GraphValue.ofJson? (j : Json) : Except DecodeError GraphValue := Decode.value j

end PagedTraversal
