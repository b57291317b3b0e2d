import PagedTraversal.Json.Printer

/-!
# PagedTraversal.Json.Pretty

The text of a JSON tree over several lines, indented by two spaces for each container around them.
-/

namespace PagedTraversal

namespace Json

/-- A line break and the indentation of a depth. -/
def breakAt (depth : Nat) : String := String.ofList ('\n' :: List.replicate (2 * depth) ' ')

/-- A container around its parts, each on a line of its own. -/
def enclose (first last : String) (depth : Nat) (parts : List String) : String :=
  if parts.isEmpty then first ++ last
  else
    first ++ breakAt (depth + 1) ++ ("," ++ breakAt (depth + 1)).intercalate parts ++
      breakAt depth ++ last

mutual

def prettyAt (depth : Nat) : Json → String
  | .array items => enclose "[" "]" depth (prettyItems (depth + 1) items)
  | .object members => enclose "\x7b" "\x7d" depth (prettyMembers (depth + 1) members)
  | .null => text .null
  | .bool b => text (.bool b)
  | .number n => numberText n
  | .string s => quote s
termination_by structural j => j

def prettyItems (depth : Nat) : List Json → List String
  | [] => []
  | j :: rest => prettyAt depth j :: prettyItems depth rest
termination_by structural js => js

def prettyMembers (depth : Nat) : List (String × Json) → List String
  | [] => []
  | (name, j) :: rest => (quote name ++ ": " ++ prettyAt depth j) :: prettyMembers depth rest
termination_by structural ms => ms

end

def pretty (j : Json) : String := prettyAt 0 j

end Json

end PagedTraversal
