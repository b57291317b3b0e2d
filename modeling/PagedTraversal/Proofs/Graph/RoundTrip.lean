import PagedTraversal.Graph.Tagged
import PagedTraversal.Proofs.Graph.WellFormed

/-!
# PagedTraversal.Proofs.Graph.RoundTrip

The tree of a graph value in the row format, and that decoding gives the value back.

Scalars, lists and maps are written as themselves, and an element as an object with its type. Each
property is written as an array of its values: those of a vertex are objects with the value under
`value`, those of an edge are bare. A path lists its objects and its label sets.

A value is canonical if whatever it keeps in an order is in the order it is kept in: the names of
maps and properties, the labels of a set, the members of the trees that serve as identifiers.
-/

namespace PagedTraversal

namespace GraphValue

/-- The tree of a property value with the trees of its parts. A vertex property leaves the
identifier out where there is none, and an edge property is only ever the value. -/
def writtenPropertyValue (holder : Holder) (id : Option ElementId) (value : Json)
    (properties : Members Json) : Json :=
  match holder, id with
  | .vertex, none => .object [("properties", .object properties), ("value", value)]
  | .vertex, some i =>
    .object [("id", i.raw), ("properties", .object properties), ("value", value)]
  | .edge, _ => value

mutual

/-- The tree of a value. Members are listed in the order of their names. -/
def written : GraphValue → Json
  | .scalar s => s.json
  | .map entries => .object (writtenEntries entries)
  | .list items => .array (writtenItems items)
  | .vertex ⟨id, label, properties⟩ =>
    .object [("id", id.raw), ("label", .string label),
      ("properties", .object (writtenProperties .vertex properties)), ("type", .string "vertex")]
  | .edge ⟨id, label, outVertex, outVertexLabel, inVertex, inVertexLabel, properties⟩ =>
    .object [("id", id.raw), ("inV", inVertex.raw), ("inVLabel", .string inVertexLabel),
      ("label", .string label), ("outV", outVertex.raw), ("outVLabel", .string outVertexLabel),
      ("properties", .object (writtenProperties .edge properties)), ("type", .string "edge")]
  | .path ⟨steps⟩ =>
    .object [("labels", .array (steps.map fun s => labelsJson s.labels)),
      ("objects", .array (writtenObjects steps))]
termination_by structural v => v

def writtenItems : List GraphValue → List Json
  | [] => []
  | v :: rest => written v :: writtenItems rest
termination_by structural vs => vs

def writtenEntries : List (String × GraphValue) → List (String × Json)
  | [] => []
  | (name, v) :: rest => (name, written v) :: writtenEntries rest
termination_by structural vs => vs

def writtenObjects : List (PathStep GraphValue) → List Json
  | [] => []
  | ⟨v, _⟩ :: rest => written v :: writtenObjects rest
termination_by structural vs => vs

def writtenProperties (holder : Holder) :
    List (String × List (PropertyValue GraphValue)) → List (String × Json)
  | [] => []
  | (name, values) :: rest =>
    (name, .array (writtenPropertyValues holder values)) :: writtenProperties holder rest
termination_by structural vs => vs

def writtenPropertyValues (holder : Holder) : List (PropertyValue GraphValue) → List Json
  | [] => []
  | ⟨id, v, properties⟩ :: rest =>
    writtenPropertyValue holder id (written v) (writtenEntries properties) ::
      writtenPropertyValues holder rest
termination_by structural vs => vs

end

mutual

def Canonical : GraphValue → Prop
  | .scalar _ => True
  | .map entries => Members.Sorted entries ∧ CanonicalEntries entries
  | .list items => CanonicalItems items
  | .vertex ⟨id, _, properties⟩ =>
    id.raw.Sorted ∧ Members.Sorted properties ∧ CanonicalProperties properties
  | .edge ⟨id, _, outVertex, _, inVertex, _, properties⟩ =>
    id.raw.Sorted ∧ outVertex.raw.Sorted ∧ inVertex.raw.Sorted ∧ Members.Sorted properties ∧
      CanonicalProperties properties
  | .path ⟨steps⟩ => CanonicalSteps steps
termination_by structural v => v

def CanonicalItems : List GraphValue → Prop
  | [] => True
  | v :: rest => Canonical v ∧ CanonicalItems rest
termination_by structural vs => vs

def CanonicalEntries : List (String × GraphValue) → Prop
  | [] => True
  | (_, v) :: rest => Canonical v ∧ CanonicalEntries rest
termination_by structural vs => vs

def CanonicalSteps : List (PathStep GraphValue) → Prop
  | [] => True
  | ⟨v, labels⟩ :: rest => LabelSet.Sorted labels ∧ Canonical v ∧ CanonicalSteps rest
termination_by structural vs => vs

def CanonicalProperties : List (String × List (PropertyValue GraphValue)) → Prop
  | [] => True
  | (_, values) :: rest => CanonicalPropertyValues values ∧ CanonicalProperties rest
termination_by structural vs => vs

def CanonicalPropertyValues : List (PropertyValue GraphValue) → Prop
  | [] => True
  | ⟨id, v, properties⟩ :: rest =>
    (∀ i, id = some i → i.raw.Sorted) ∧ Canonical v ∧ Members.Sorted properties ∧
      CanonicalEntries properties ∧ CanonicalPropertyValues rest
termination_by structural vs => vs

end

/-! ## Maps

What a map is taken for depends on the kinds of three of its entries, and these can be told from
the written tree. -/

theorem find?_writtenEntries (name : String) (entries : Members GraphValue) :
    Members.find? name (writtenEntries entries) = (Members.find? name entries).map written := by
  induction entries with
  | nil => rfl
  | cons m rest ih =>
    obtain ⟨n, v⟩ := m
    by_cases hname : n = name
    · simp [writtenEntries, Members.find?, hname]
    · simp [writtenEntries, Members.find?, hname, ih]

theorem eq_of_json_eq_string {s : Scalar} {text : String} (h : s.json = .string text) :
    s = .string text := by
  cases s with
  | double d =>
    simp only [Scalar.json] at h
    split at h <;> cases h
  | string t =>
    cases h
    rfl
  | _ => cases h

theorem json_ne_array {s : Scalar} {js : List Json} : s.json ≠ .array js := by
  intro h
  cases s with
  | double d =>
    simp only [Scalar.json] at h
    split at h <;> cases h
  | _ => cases h

theorem eq_of_written_eq_string {v : GraphValue} {text : String} (h : v.written = .string text) :
    v = .scalar (.string text) := by
  cases v with
  | scalar s => rw [eq_of_json_eq_string h]
  | _ => cases h

theorem eq_of_written_eq_array {v : GraphValue} {js : List Json} (h : v.written = .array js) :
    ∃ vs, v = .list vs := by
  cases v with
  | scalar s => exact absurd h json_ne_array
  | list items => exact ⟨items, rfl⟩
  | _ => cases h

theorem ofMembers_writtenEntries {entries : Members GraphValue} (hname : ¬ NamedElement entries)
    (hshape : ¬ ShapedPath entries) : Shape.ofMembers (writtenEntries entries) = .map := by
  have hentry : ∀ {name j}, Members.find? name (writtenEntries entries) = some j →
      ∃ v, Members.find? name entries = some v ∧ v.written = j := by
    intro name j h
    rw [find?_writtenEntries] at h
    exact Option.map_eq_some_iff.1 h
  rw [Shape.ofMembers_eq_map_iff]
  refine ⟨fun h => hname (.inl ?_), fun h => hname (.inr ?_), fun os ls hobjects hlabels => ?_⟩
  · obtain ⟨v, hv, hwritten⟩ := hentry h
    rw [hv, eq_of_written_eq_string hwritten]
  · obtain ⟨v, hv, hwritten⟩ := hentry h
    rw [hv, eq_of_written_eq_string hwritten]
  · obtain ⟨v, hv, hobjects⟩ := hentry hobjects
    obtain ⟨w, hw, hlabels⟩ := hentry hlabels
    obtain ⟨vs, rfl⟩ := eq_of_written_eq_array hobjects
    obtain ⟨ws, rfl⟩ := eq_of_written_eq_array hlabels
    exact hshape ⟨vs, ws, hv, hw⟩

end GraphValue

namespace Decode

open GraphValue (written writtenItems writtenEntries writtenObjects writtenProperties
  writtenPropertyValues labelsJson)

/-! ## Scalars and label sets -/

theorem value_json {s : Scalar} (h : s.IsFinite) : value s.json = .ok (.scalar s) := by
  cases s with
  | integer i => simp [Scalar.json, value, scalar, Number.toInt64?_ofInt64]
  | double d =>
    have hfinite : d.isFinite = true := h
    simp [Scalar.json, Number.ofDouble?, hfinite, value, scalar, Number.toInt64?, Number.toDouble]
  | _ => rfl

theorem mapM_string?_map (labels : List String) :
    (labels.map Json.string).mapM Json.string? = some labels := by
  induction labels with
  | nil => rfl
  | cons l rest ih => simp [Json.string?, ih]

theorem labelSet_labelsJson (i : Nat) {labels : LabelSet} (h : LabelSet.Sorted labels) :
    labelSet i (labelsJson labels) = .ok labels := by
  simp only [labelSet, labelsJson, mapM_string?_map, LabelSet.ofList_of_sorted h]

theorem labelSets_written (i : Nat) {steps : List (PathStep GraphValue)}
    (h : GraphValue.CanonicalSteps steps) :
    labelSets i (steps.map fun s => labelsJson s.labels) =
      .ok (steps.map PathStep.labels) := by
  induction steps generalizing i with
  | nil => rfl
  | cons s rest ih =>
    obtain ⟨hlabels, -, hrest⟩ := h
    simp only [List.map_cons, labelSets, labelSet_labelsJson i hlabels, ih (i + 1) hrest]
    rfl

theorem length_writtenObjects (steps : List (PathStep GraphValue)) :
    (writtenObjects steps).length = steps.length := by
  induction steps with
  | nil => rfl
  | cons s rest ih => simp [writtenObjects, ih]

theorem zipWith_steps (steps : List (PathStep GraphValue)) :
    List.zipWith PathStep.mk (steps.map PathStep.object) (steps.map PathStep.labels) = steps := by
  induction steps with
  | nil => rfl
  | cons s rest ih => simp [ih]

theorem propertyValue_written {holder : Holder} {id : Option ElementId} {j : Json} {v : GraphValue}
    {ms : Members Json} {entries : Members GraphValue} (hid : ∀ i, id = some i → i.IsPresent)
    (hbare : holder = .edge → id = none ∧ entries = []) (hv : value j = .ok v)
    (hentries : members ms = .ok entries) :
    propertyValue holder (GraphValue.writtenPropertyValue holder id j ms) =
      .ok ⟨id, v, entries⟩ := by
  cases holder with
  | vertex =>
    cases id with
    | none =>
      refine propertyValue_annotated (j := j) rfl hv ?_
      rw [annotations_eq]
      exact within_eq_ok.2 hentries
    | some i =>
      have hoptional : optionalId [("id", i.raw), ("properties", .object ms), ("value", j)] =
          some i := optionalId_eq_some.2 ⟨rfl, hid i rfl⟩
      have hannotations : annotations [("id", i.raw), ("properties", .object ms), ("value", j)] =
          .ok entries := by
        rw [annotations_eq]
        exact within_eq_ok.2 hentries
      have hvalue := propertyValue_annotated rfl hv hannotations
      rwa [hoptional] at hvalue
  | edge =>
    obtain ⟨rfl, rfl⟩ := hbare rfl
    rw [GraphValue.writtenPropertyValue, propertyValue_edge, hv]
    rfl

/-! ## The walk

The recursion is that of the writer. The members of a written element are known, so every look-up
in it is computed. -/

mutual

theorem value_written : ∀ {v : GraphValue}, v.WellFormed → v.Canonical → value v.written = .ok v
  | .scalar s, hwf, _ => value_json hwf
  | .map entries, hwf, hc => by
    have hshape := GraphValue.ofMembers_writtenEntries hwf.1 hwf.2.1
    have hentries := members_written hwf.2.2 hc.2
    simp only [written, value, hshape, hentries, Except.map]
  | .list items, hwf, hc => by
    have hitems := items_written .item 0 hwf hc
    simp only [written, value, hitems, Except.map]
  | .vertex ⟨id, label, ps⟩, hwf, hc => by
    have hps := namedProperties_written .vertex hwf.2 hc.2.2
    rw [written, value]
    generalize hms : [("id", id.raw), ("label", Json.string label),
      ("properties", Json.object (writtenProperties .vertex ps)),
      ("type", Json.string "vertex")] = ms
    have hshape : Shape.ofMembers ms = .vertex := by
      subst hms
      rfl
    have hid : requiredId "id" ms = .ok id := by
      subst hms
      exact requiredId_eq_ok.2 ⟨rfl, hwf.1⟩
    have hlabel : requiredString "label" ms = .ok label := by
      subst hms
      exact requiredString_of_find? rfl
    have hproperties : properties .vertex ms = .ok ps := by
      subst hms
      rw [properties_eq]
      exact hps
    simp only [hshape, hid, hlabel, hproperties]
    rfl
  | .edge ⟨id, label, outVertex, outLabel, inVertex, inLabel, ps⟩, hwf, hc => by
    obtain ⟨hid, hout, hin, hps⟩ := hwf
    have hps := namedProperties_written .edge hps hc.2.2.2.2
    rw [written, value]
    generalize hms : [("id", id.raw), ("inV", inVertex.raw), ("inVLabel", Json.string inLabel),
      ("label", Json.string label), ("outV", outVertex.raw), ("outVLabel", Json.string outLabel),
      ("properties", Json.object (writtenProperties .edge ps)),
      ("type", Json.string "edge")] = ms
    have hshape : Shape.ofMembers ms = .edge := by
      subst hms
      rfl
    have hid : requiredId "id" ms = .ok id := by
      subst hms
      exact requiredId_eq_ok.2 ⟨rfl, hid⟩
    have hlabel : requiredString "label" ms = .ok label := by
      subst hms
      exact requiredString_of_find? rfl
    have hout : requiredId "outV" ms = .ok outVertex := by
      subst hms
      exact requiredId_eq_ok.2 ⟨rfl, hout⟩
    have houtLabel : requiredString "outVLabel" ms = .ok outLabel := by
      subst hms
      exact requiredString_of_find? rfl
    have hin : requiredId "inV" ms = .ok inVertex := by
      subst hms
      exact requiredId_eq_ok.2 ⟨rfl, hin⟩
    have hinLabel : requiredString "inVLabel" ms = .ok inLabel := by
      subst hms
      exact requiredString_of_find? rfl
    have hproperties : properties .edge ms = .ok ps := by
      subst hms
      rw [properties_eq]
      exact hps
    simp only [hshape, hid, hlabel, hout, houtLabel, hin, hinLabel, hproperties]
    rfl
  | .path ⟨steps⟩, hwf, hc => by
    have hobjects := objects_written 0 hwf.2 hc
    have hlabels := labelSets_written 0 hc
    rw [written, value]
    generalize hms : [("labels", Json.array (steps.map fun s => labelsJson s.labels)),
      ("objects", Json.array (writtenObjects steps))] = ms
    have hshape : Shape.ofMembers ms = .path steps.length steps.length := by
      subst hms
      show Shape.path (writtenObjects steps).length (steps.map _).length = _
      rw [length_writtenObjects, List.length_map]
    have hobjects : pathObjects ms = .ok (steps.map PathStep.object) := by
      subst hms
      rw [pathObjects_eq]
      exact hobjects
    have hlabels : pathLabels ms = .ok (steps.map PathStep.labels) := by
      subst hms
      exact hlabels
    simp only [hshape, if_true, hobjects, hlabels]
    exact congrArg (fun ss => Except.ok (GraphValue.path ⟨ss⟩)) (zipWith_steps steps)

theorem items_written (step : Nat → LocationStep) (i : Nat) : ∀ {vs : List GraphValue},
    GraphValue.WellFormedItems vs → GraphValue.CanonicalItems vs →
    items step i (writtenItems vs) = .ok vs
  | [], _, _ => rfl
  | v :: rest, hwf, hc => by
    have hv := value_written hwf.1 hc.1
    have hrest := items_written step (i + 1) hwf.2 hc.2
    simp only [writtenItems, items, hv, within, hrest]
    rfl

theorem members_written : ∀ {entries : List (String × GraphValue)},
    GraphValue.WellFormedEntries entries → GraphValue.CanonicalEntries entries →
    members (writtenEntries entries) = .ok entries
  | [], _, _ => rfl
  | (name, v) :: rest, hwf, hc => by
    have hv := value_written hwf.1 hc.1
    have hrest := members_written hwf.2 hc.2
    simp only [writtenEntries, members, hv, within, hrest]
    rfl

theorem objects_written (i : Nat) : ∀ {steps : List (PathStep GraphValue)},
    GraphValue.WellFormedSteps steps → GraphValue.CanonicalSteps steps →
    items .object i (writtenObjects steps) = .ok (steps.map PathStep.object)
  | [], _, _ => rfl
  | ⟨v, labels⟩ :: rest, hwf, hc => by
    have hv := value_written hwf.1 hc.2.1
    have hrest := objects_written (i + 1) hwf.2 hc.2.2
    simp only [writtenObjects, items, hv, within, hrest]
    rfl

theorem namedProperties_written (holder : Holder) :
    ∀ {ps : List (String × List (PropertyValue GraphValue))},
    GraphValue.WellFormedProperties holder ps → GraphValue.CanonicalProperties ps →
    namedProperties holder (writtenProperties holder ps) = .ok ps
  | [], _, _ => rfl
  | (name, values) :: rest, hwf, hc => by
    have hvalues := propertyValues_written holder 0 hwf.1 hc.1
    have hrest := namedProperties_written holder hwf.2 hc.2
    simp only [writtenProperties, namedProperties_cons, property_array, hvalues, within, hrest]
    rfl

theorem propertyValues_written (holder : Holder) (i : Nat) :
    ∀ {values : List (PropertyValue GraphValue)},
    GraphValue.WellFormedPropertyValues holder values →
    GraphValue.CanonicalPropertyValues values →
    propertyValues holder i (writtenPropertyValues holder values) = .ok values
  | [], _, _ => rfl
  | ⟨id, v, entries⟩ :: rest, ⟨hid, hbare, hwf, hwfs, hwfrest⟩, ⟨_, hc, _, hcs, hcrest⟩ => by
    have hv := propertyValue_written hid hbare (value_written hwf hc) (members_written hwfs hcs)
    have hrest := propertyValues_written holder (i + 1) hwfrest hcrest
    simp only [writtenPropertyValues, propertyValues_cons, hv, within, hrest]
    rfl

end

end Decode

namespace GraphValue

/-! ## Order -/

theorem names_writtenEntries (entries : List (String × GraphValue)) :
    (writtenEntries entries).map Prod.fst = entries.map Prod.fst := by
  induction entries with
  | nil => rfl
  | cons m rest ih => simp [writtenEntries, ih]

theorem names_writtenProperties (holder : Holder)
    (ps : List (String × List (PropertyValue GraphValue))) :
    (writtenProperties holder ps).map Prod.fst = ps.map Prod.fst := by
  induction ps with
  | nil => rfl
  | cons m rest ih => simp [writtenProperties, ih]

theorem sorted_labelSets (steps : List (PathStep GraphValue)) :
    Json.SortedItems (steps.map fun s => labelsJson s.labels) := by
  have hlabels : ∀ labels : List String, Json.SortedItems (labels.map .string) := by
    intro labels
    induction labels with
    | nil => exact trivial
    | cons l rest ih => exact ⟨trivial, ih⟩
  induction steps with
  | nil => exact trivial
  | cons s rest ih => exact ⟨hlabels s.labels, ih⟩

theorem sorted_writtenPropertyValue {holder : Holder} {id : Option ElementId} {j : Json}
    {ms : Members Json} (hid : ∀ i, id = some i → i.raw.Sorted) (hj : j.Sorted)
    (hms : (Json.object ms).Sorted) : (writtenPropertyValue holder id j ms).Sorted := by
  cases holder with
  | vertex =>
    cases id with
    | none =>
      refine ⟨?_, hms, hj, trivial⟩
      rw [Members.sorted_iff]
      show ["properties", "value"].Pairwise (· < ·)
      decide
    | some i =>
      refine ⟨?_, hid i rfl, hms, hj, trivial⟩
      rw [Members.sorted_iff]
      show ["id", "properties", "value"].Pairwise (· < ·)
      decide
  | edge => exact hj

mutual

theorem sorted_written : ∀ {v : GraphValue}, v.Canonical → v.written.Sorted
  | .scalar s, _ => by
    cases s with
    | double d =>
      simp only [written, Scalar.json]
      split <;> exact trivial
    | _ => exact trivial
  | .map entries, hc =>
    ⟨Members.sorted_iff.2 (names_writtenEntries entries ▸ Members.sorted_iff.1 hc.1),
      sorted_writtenEntries hc.2⟩
  | .list items, hc => sorted_writtenItems hc
  | .vertex ⟨id, label, ps⟩, hc => by
    refine ⟨?_, hc.1, trivial, ⟨?_, sorted_writtenProperties .vertex hc.2.2⟩, trivial, trivial⟩
    · rw [Members.sorted_iff]
      show ["id", "label", "properties", "type"].Pairwise (· < ·)
      decide
    · rw [Members.sorted_iff, names_writtenProperties]
      exact Members.sorted_iff.1 hc.2.1
  | .edge ⟨id, label, outVertex, outLabel, inVertex, inLabel, ps⟩, hc => by
    obtain ⟨hid, hout, hin, hnames, hps⟩ := hc
    refine ⟨?_, hid, hin, trivial, trivial, hout, trivial,
      ⟨?_, sorted_writtenProperties .edge hps⟩, trivial, trivial⟩
    · rw [Members.sorted_iff]
      show ["id", "inV", "inVLabel", "label", "outV", "outVLabel", "properties", "type"].Pairwise
        (· < ·)
      decide
    · rw [Members.sorted_iff, names_writtenProperties]
      exact Members.sorted_iff.1 hnames
  | .path ⟨steps⟩, hc => by
    refine ⟨?_, sorted_labelSets steps, sorted_writtenObjects hc, trivial⟩
    rw [Members.sorted_iff]
    show ["labels", "objects"].Pairwise (· < ·)
    decide

theorem sorted_writtenItems : ∀ {vs : List GraphValue}, CanonicalItems vs →
    Json.SortedItems (writtenItems vs)
  | [], _ => trivial
  | _ :: _, hc => ⟨sorted_written hc.1, sorted_writtenItems hc.2⟩

theorem sorted_writtenEntries : ∀ {entries : List (String × GraphValue)},
    CanonicalEntries entries → Json.SortedMembers (writtenEntries entries)
  | [], _ => trivial
  | _ :: _, hc => ⟨sorted_written hc.1, sorted_writtenEntries hc.2⟩

theorem sorted_writtenObjects : ∀ {steps : List (PathStep GraphValue)}, CanonicalSteps steps →
    Json.SortedItems (writtenObjects steps)
  | [], _ => trivial
  | _ :: _, hc => ⟨sorted_written hc.2.1, sorted_writtenObjects hc.2.2⟩

theorem sorted_writtenProperties (holder : Holder) :
    ∀ {ps : List (String × List (PropertyValue GraphValue))}, CanonicalProperties ps →
    Json.SortedMembers (writtenProperties holder ps)
  | [], _ => trivial
  | _ :: _, hc =>
    ⟨sorted_writtenPropertyValues holder hc.1, sorted_writtenProperties holder hc.2⟩

theorem sorted_writtenPropertyValues (holder : Holder) :
    ∀ {values : List (PropertyValue GraphValue)}, CanonicalPropertyValues values →
    Json.SortedItems (writtenPropertyValues holder values)
  | [], _ => trivial
  | ⟨id, v, entries⟩ :: rest, ⟨hid, hc, hnames, hcs, hcrest⟩ => by
    refine ⟨sorted_writtenPropertyValue hid (sorted_written hc) ⟨?_, sorted_writtenEntries hcs⟩,
      sorted_writtenPropertyValues holder hcrest⟩
    rw [Members.sorted_iff, names_writtenEntries]
    exact Members.sorted_iff.1 hnames

end

/-- Decoding inverts writing on every well-formed value, and what is written is a tree that a
document can hold. -/
theorem ofJson?_written {v : GraphValue} (hwf : v.WellFormed) (hc : v.Canonical) :
    ofJson? v.written = .ok v ∧ v.written.Sorted :=
  ⟨Decode.value_written hwf hc, sorted_written hc⟩

/-- A path over a vertex with an annotated property that holds a map, and over an edge. -/
def samplePath : GraphValue :=
  .path ⟨
    [⟨.vertex ⟨.ofInt64 1, "person",
        [("name", [⟨some (.ofString "p"), .map [("type", .scalar (.double ⟨4607182418800017408⟩))],
          [("since", .list [.scalar (.integer 1), .scalar .null])]⟩])]⟩, ["a", "b"]⟩,
      ⟨.edge ⟨.ofString "e", "knows", .ofInt64 1, "person", .ofInt64 2, "person",
        [("weight", [.bare (.scalar (.integer (-1))), .bare (.list [])])]⟩, []⟩]⟩

theorem ofJson?_written_samplePath : ofJson? samplePath.written = .ok samplePath := by
  have hwf : samplePath.WellFormed := by
    simp [samplePath, WellFormed, WellFormedSteps, WellFormedProperties, WellFormedPropertyValues,
      WellFormedEntries, WellFormedItems, Path.length_objects, NamedElement, ShapedPath,
      Members.find?, Scalar.IsFinite, PropertyValue.bare, ElementId.IsPresent, ElementId.ofString,
      ElementId.ofInt64]
    decide
  have hlabels : LabelSet.Sorted ["a", "b"] := List.pairwise_pair.mpr (by decide)
  have hnone : LabelSet.Sorted [] := List.Pairwise.nil
  have hc : samplePath.Canonical := by
    simp [samplePath, Canonical, CanonicalSteps, CanonicalProperties, CanonicalPropertyValues,
      CanonicalEntries, CanonicalItems, hlabels, hnone, Members.Sorted, PropertyValue.bare,
      ElementId.ofString, ElementId.ofInt64, Json.Sorted]
  exact (ofJson?_written hwf hc).1

end GraphValue

end PagedTraversal
