import PagedTraversal.Graph.Basic

/-!
# PagedTraversal.Graph.Equality

Equality of graph values. A whole number and a double are compared as doubles, so that a property
stored as `1.0` has the value `1`; identifiers are compared as JSON trees, where the two are never
equal. What is not a number equals nothing, itself included.
-/

namespace PagedTraversal

namespace Scalar

def equals : Scalar → Scalar → Bool
  | .null, .null => true
  | .boolean a, .boolean b => a == b
  | .integer a, .integer b => a == b
  | .double a, .double b => a.equals b
  | .integer i, .double d => (Double.ofInt i.toInt).equals d
  | .double d, .integer i => (Double.ofInt i.toInt).equals d
  | .string a, .string b => a == b
  | _, _ => false

end Scalar

/-- Equality of identifiers that may be absent. -/
def ElementId.equalOptions : Option ElementId → Option ElementId → Bool
  | none, none => true
  | some a, some b => a.equals b
  | _, _ => false

namespace GraphValue

mutual

def equals : GraphValue → GraphValue → Bool
  | .scalar a, .scalar b => a.equals b
  | .map a, .map b => equalEntries a b
  | .list a, .list b => equalItems a b
  | .vertex ⟨i, l, ps⟩, .vertex ⟨j, m, qs⟩ => i.equals j && l == m && equalProperties ps qs
  | .edge ⟨i, l, o, ol, n, nl, ps⟩, .edge ⟨j, m, p, pl, q, ql, qs⟩ =>
    i.equals j && l == m && o.equals p && ol == pl && n.equals q && nl == ql &&
      equalProperties ps qs
  | .path ⟨a⟩, .path ⟨b⟩ => equalSteps a b
  | _, _ => false
termination_by structural a => a

def equalItems : List GraphValue → List GraphValue → Bool
  | [], [] => true
  | a :: as, b :: bs => equals a b && equalItems as bs
  | _, _ => false
termination_by structural as => as

def equalEntries : List (String × GraphValue) → List (String × GraphValue) → Bool
  | [], [] => true
  | (k, a) :: as, (l, b) :: bs => k == l && equals a b && equalEntries as bs
  | _, _ => false
termination_by structural as => as

def equalSteps : List (PathStep GraphValue) → List (PathStep GraphValue) → Bool
  | [], [] => true
  | ⟨a, l⟩ :: as, ⟨b, m⟩ :: bs => equals a b && l == m && equalSteps as bs
  | _, _ => false
termination_by structural as => as

def equalProperties : List (String × List (PropertyValue GraphValue)) →
    List (String × List (PropertyValue GraphValue)) → Bool
  | [], [] => true
  | (k, a) :: as, (l, b) :: bs => k == l && equalPropertyValues a b && equalProperties as bs
  | _, _ => false
termination_by structural as => as

def equalPropertyValues : List (PropertyValue GraphValue) → List (PropertyValue GraphValue) → Bool
  | [], [] => true
  | ⟨i, a, ps⟩ :: as, ⟨j, b, qs⟩ :: bs =>
    ElementId.equalOptions i j && equals a b && equalEntries ps qs && equalPropertyValues as bs
  | _, _ => false
termination_by structural as => as

end

end GraphValue

end PagedTraversal
