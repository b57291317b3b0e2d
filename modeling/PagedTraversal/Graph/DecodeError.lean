/-!
# PagedTraversal.Graph.DecodeError

What can be wrong with the tree of a row, and where. A location lists the steps from the root of
the tree to the offending member, and only its text joins them into one field name.
-/

namespace PagedTraversal

/-- A step into a tree. The members that hold the properties of an element and the objects and
labels of a path are named together with the place inside them. -/
inductive LocationStep where
  | member (name : String)
  | item (i : Nat)
  | property (name : String)
  | object (i : Nat)
  | labels (i : Nat)
deriving DecidableEq

namespace LocationStep

def text : LocationStep → String
  | member name => name
  | item i => "[" ++ Nat.repr i ++ "]"
  | property name => "properties." ++ name
  | object i => "objects[" ++ Nat.repr i ++ "]"
  | labels i => "labels[" ++ Nat.repr i ++ "]"

end LocationStep

/-- The steps from the root of a tree to a place in it. -/
abbrev Location := List LocationStep

namespace Location

/-- The field name of a location: its steps, with a point in front of each that does not begin
with a bracket. -/
def text : Location → String
  | [] => ""
  | [step] => step.text
  | step :: rest =>
    let field := text rest
    if field.toList.head? = some '[' then step.text ++ field else step.text ++ "." ++ field

end Location

/-- Why a member cannot be accepted. -/
inductive Reason where
  | missing
  | notString
  | notObject
  | labelNotString
  | notLabels
  | envelopeNotObject
  | envelopeWithoutResult
deriving DecidableEq

namespace Reason

def text : Reason → String
  | missing => "missing"
  | notString => "expected a string"
  | notObject => "expected an object"
  | labelNotString => "label is not a string"
  | notLabels => "expected an array of labels"
  | envelopeNotObject => "row envelope is not an object"
  | envelopeWithoutResult => "missing from row envelope"

end Reason

/-- A tree that claims to be an element or a path and is not: a member is malformed, or the
objects and labels of a path are not equally many. -/
inductive DecodeError where
  | malformed (location : Location) (reason : Reason)
  | unpaired (objects labels : Nat)
deriving DecidableEq

namespace DecodeError

/-- The error as seen from one step further out. -/
def within (step : LocationStep) : DecodeError → DecodeError
  | malformed location reason => malformed (step :: location) reason
  | unpaired objects labels => unpaired objects labels

def message : DecodeError → String
  | malformed location reason => "Decode error at '" ++ location.text ++ "': " ++ reason.text
  | unpaired objects labels =>
    "Path structure mismatch: " ++ Nat.repr objects ++ " objects, " ++ Nat.repr labels ++
      " label sets"

/-- The text for objects and labels that differ in number when a path is put together by hand. -/
def unpairedPathMessage (objects labels : Nat) : String :=
  "Path objects and labels count mismatch: " ++ Nat.repr objects ++ " objects, " ++
    Nat.repr labels ++ " label sets"

end DecodeError

end PagedTraversal
