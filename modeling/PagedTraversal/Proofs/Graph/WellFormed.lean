import PagedTraversal.Proofs.Graph.Occurrence

/-!
# PagedTraversal.Proofs.Graph.WellFormed

Well-formed graph values, and that every decoded value is one.

A value is well-formed if at every depth identifiers are there, the values of edge properties are
bare, doubles are finite, and no map is what should have been read as an element or a path. The
proof follows the walk of the decoder, with one statement for each of its functions.

* `Decode.wellFormed_value`: what the walk yields is well-formed.
* `GraphValue.wellFormed_of_ofJson?`: the same of a decoded value, with the lengths of the arrays
  that each path in it was read from.
-/

namespace PagedTraversal

def Scalar.IsFinite : Scalar → Prop
  | .double d => d.isFinite = true
  | _ => True

/-- `null` stands for an identifier that is missing. -/
def ElementId.IsPresent (id : ElementId) : Prop := id.raw ≠ .null

namespace GraphValue

def NamedElement (entries : Members GraphValue) : Prop :=
  Members.find? "type" entries = some (.scalar (.string "vertex")) ∨
    Members.find? "type" entries = some (.scalar (.string "edge"))

def ShapedPath (entries : Members GraphValue) : Prop :=
  ∃ objects labels, Members.find? "objects" entries = some (.list objects) ∧
    Members.find? "labels" entries = some (.list labels)

mutual

def WellFormed : GraphValue → Prop
  | .scalar s => s.IsFinite
  | .map entries => ¬ NamedElement entries ∧ ¬ ShapedPath entries ∧ WellFormedEntries entries
  | .list items => WellFormedItems items
  | .vertex ⟨id, _, properties⟩ => id.IsPresent ∧ WellFormedProperties .vertex properties
  | .edge ⟨id, _, outVertex, _, inVertex, _, properties⟩ =>
    id.IsPresent ∧ outVertex.IsPresent ∧ inVertex.IsPresent ∧ WellFormedProperties .edge properties
  | .path ⟨steps⟩ =>
    (Path.mk steps).objects.length = (Path.mk steps).labels.length ∧ WellFormedSteps steps
termination_by structural v => v

def WellFormedItems : List GraphValue → Prop
  | [] => True
  | v :: rest => WellFormed v ∧ WellFormedItems rest
termination_by structural vs => vs

def WellFormedEntries : List (String × GraphValue) → Prop
  | [] => True
  | (_, v) :: rest => WellFormed v ∧ WellFormedEntries rest
termination_by structural vs => vs

def WellFormedSteps : List (PathStep GraphValue) → Prop
  | [] => True
  | ⟨v, _⟩ :: rest => WellFormed v ∧ WellFormedSteps rest
termination_by structural vs => vs

def WellFormedProperties (holder : Holder) : List (String × List (PropertyValue GraphValue)) → Prop
  | [] => True
  | (_, values) :: rest => WellFormedPropertyValues holder values ∧ WellFormedProperties holder rest
termination_by structural vs => vs

/-- Only a vertex gives the values of its properties identifiers and properties of their own. -/
def WellFormedPropertyValues (holder : Holder) : List (PropertyValue GraphValue) → Prop
  | [] => True
  | ⟨id, v, properties⟩ :: rest =>
    (∀ i, id = some i → i.IsPresent) ∧ (holder = .edge → id = none ∧ properties = []) ∧
      WellFormed v ∧ WellFormedEntries properties ∧ WellFormedPropertyValues holder rest
termination_by structural vs => vs

end

theorem wellFormedPropertyValues_cons {holder : Holder} {p : PropertyValue GraphValue}
    {rest : List (PropertyValue GraphValue)} :
    WellFormedPropertyValues holder (p :: rest) ↔
      WellFormedPropertyValues holder [p] ∧ WellFormedPropertyValues holder rest := by
  obtain ⟨id, v, properties⟩ := p
  simp only [WellFormedPropertyValues, and_true, and_assoc]

theorem wellFormedPropertyValues_bare {holder : Holder} {v : GraphValue} (h : v.WellFormed) :
    WellFormedPropertyValues holder [PropertyValue.bare v] := by
  refine ⟨?_, fun _ => ⟨rfl, rfl⟩, h, trivial, trivial⟩
  intro i e
  cases e

theorem wellFormedSteps_zipWith {objects : List GraphValue} (h : WellFormedItems objects)
    (labels : List LabelSet) : WellFormedSteps (List.zipWith PathStep.mk objects labels) := by
  induction objects generalizing labels with
  | nil => exact trivial
  | cons v rest ih =>
    cases labels with
    | nil => exact trivial
    | cons l labels => exact ⟨h.1, ih h.2 labels⟩

end GraphValue

namespace Decode

theorem isFinite_scalar (j : Json) : (scalar j).IsFinite := by
  cases j with
  | number n =>
    unfold scalar
    cases n with
    | integer i hrange =>
      simp only [Number.toInt64?]
      split
      · exact trivial
      · next hlarge =>
        split at hlarge
        · cases hlarge
        · next h => exact Double.isFinite_ofInt_of_large (by omega) hrange.2
    | double d hfinite => exact hfinite
  | _ => exact trivial

theorem not_namedElement_of_members {ms : Members Json} {entries : Members GraphValue}
    (hshape : Shape.ofMembers ms = .map) (h : members ms = .ok entries) :
    ¬ GraphValue.NamedElement entries := by
  obtain ⟨hvertex, hedge, -⟩ := Shape.ofMembers_eq_map_iff.1 hshape
  rintro (hname | hname)
  · obtain ⟨j, hj, hv⟩ := find?_of_members h hname
    exact hvertex (eq_string_of_value hv ▸ hj)
  · obtain ⟨j, hj, hv⟩ := find?_of_members h hname
    exact hedge (eq_string_of_value hv ▸ hj)

theorem not_shapedPath_of_members {ms : Members Json} {entries : Members GraphValue}
    (hshape : Shape.ofMembers ms = .map) (h : members ms = .ok entries) :
    ¬ GraphValue.ShapedPath entries := by
  obtain ⟨-, -, hpath⟩ := Shape.ofMembers_eq_map_iff.1 hshape
  rintro ⟨objects, labels, hobjects, hlabels⟩
  obtain ⟨j, hj, hv⟩ := find?_of_members h hobjects
  obtain ⟨k, hk, hw⟩ := find?_of_members h hlabels
  obtain ⟨js, rfl⟩ := eq_array_of_value hv
  obtain ⟨ks, rfl⟩ := eq_array_of_value hw
  exact hpath js ks hj hk

theorem wellFormed_of_propertyValue {holder : Holder} {j : Json} {p : PropertyValue GraphValue}
    (hvalue : ∀ {v}, value j = .ok v → v.WellFormed)
    (hannotated : ∀ {p}, annotatedValue? holder j = some (.ok p) →
      GraphValue.WellFormedPropertyValues holder [p])
    (h : propertyValue holder j = .ok p) : GraphValue.WellFormedPropertyValues holder [p] := by
  unfold propertyValue at h
  split at h
  · next v hv =>
    subst h
    exact hannotated hv
  · obtain ⟨v, hv, rfl⟩ := map_eq_ok.1 h
    exact GraphValue.wellFormedPropertyValues_bare (hvalue hv)

/-! ## The walk

The recursion is that of the decoder. -/

mutual

theorem wellFormed_value : ∀ (j : Json) {v : GraphValue}, value j = .ok v → v.WellFormed
  | .null, v, h => by
    cases h
    exact isFinite_scalar .null
  | .bool b, v, h => by
    cases h
    exact isFinite_scalar (.bool b)
  | .number n, v, h => by
    cases h
    exact isFinite_scalar (.number n)
  | .string s, v, h => by
    cases h
    exact isFinite_scalar (.string s)
  | .array js, v, h => by
    simp only [value, map_eq_ok] at h
    obtain ⟨vs, hvs, rfl⟩ := h
    exact wellFormed_items .item 0 js hvs
  | .object ms, v, h => by
    rcases value_object_cases h with ⟨id, label, ps, -, hid, -, hps, rfl⟩ |
      ⟨id, label, out, outLabel, inn, inLabel, ps, -, hid, -, hout, -, hinn, -, hps, rfl⟩ |
      ⟨n, objects, labels, -, hobjects, -, rfl⟩ | ⟨entries, hshape, hentries, rfl⟩
    · exact ⟨(requiredId_eq_ok.1 hid).2, wellFormed_properties .vertex ms hps⟩
    · exact ⟨(requiredId_eq_ok.1 hid).2, (requiredId_eq_ok.1 hout).2, (requiredId_eq_ok.1 hinn).2,
        wellFormed_properties .edge ms hps⟩
    · exact ⟨Path.length_objects _,
        GraphValue.wellFormedSteps_zipWith (wellFormed_pathObjects ms hobjects) labels⟩
    · exact ⟨not_namedElement_of_members hshape hentries, not_shapedPath_of_members hshape hentries,
        wellFormed_members ms hentries⟩

theorem wellFormed_items (step : Nat → LocationStep) (i : Nat) : ∀ (js : List Json)
    {vs : List GraphValue}, items step i js = .ok vs → GraphValue.WellFormedItems vs
  | [], vs, h => by
    cases h
    exact trivial
  | j :: rest, vs, h => by
    simp only [items, bind_eq_ok, within_eq_ok] at h
    obtain ⟨v, hv, vs, hvs, h⟩ := h
    cases h
    exact ⟨wellFormed_value j hv, wellFormed_items step (i + 1) rest hvs⟩

theorem wellFormed_members : ∀ (ms : List (String × Json)) {entries : List (String × GraphValue)},
    members ms = .ok entries → GraphValue.WellFormedEntries entries
  | [], entries, h => by
    cases h
    exact trivial
  | (name, j) :: rest, entries, h => by
    simp only [members, bind_eq_ok, within_eq_ok] at h
    obtain ⟨v, hv, vs, hvs, h⟩ := h
    cases h
    exact ⟨wellFormed_value j hv, wellFormed_members rest hvs⟩

theorem wellFormed_member (name : String) : ∀ (ms : List (String × Json)) {v : GraphValue},
    member name ms = .ok v → v.WellFormed
  | [], v, h => by
    cases h
    exact trivial
  | (n, j) :: rest, v, h => by
    simp only [member] at h
    split at h
    · exact wellFormed_value j (within_eq_ok.1 h)
    · exact wellFormed_member name rest h

theorem wellFormed_pathObjects : ∀ (ms : List (String × Json)) {vs : List GraphValue},
    pathObjects ms = .ok vs → GraphValue.WellFormedItems vs
  | [], vs, h => by
    cases h
    exact trivial
  | (n, j) :: rest, vs, h => by
    simp only [pathObjects] at h
    split at h
    · exact wellFormed_pathObjectsOf j h
    · exact wellFormed_pathObjects rest h

theorem wellFormed_pathObjectsOf : ∀ (j : Json) {vs : List GraphValue},
    pathObjectsOf j = .ok vs → GraphValue.WellFormedItems vs
  | .array js, vs, h => wellFormed_items .object 0 js h
  | .null, vs, h | .bool _, vs, h | .number _, vs, h | .string _, vs, h | .object _, vs, h => by
    cases h
    exact trivial

theorem wellFormed_annotations :
    ∀ (ms : List (String × Json)) {entries : List (String × GraphValue)},
    annotations ms = .ok entries → GraphValue.WellFormedEntries entries
  | [], entries, h => by
    cases h
    exact trivial
  | (n, j) :: rest, entries, h => by
    simp only [annotations] at h
    split at h
    · exact wellFormed_annotationsOf j h
    · exact wellFormed_annotations rest h

theorem wellFormed_annotationsOf : ∀ (j : Json) {entries : List (String × GraphValue)},
    annotationsOf j = .ok entries → GraphValue.WellFormedEntries entries
  | .null, entries, h => by
    cases h
    exact trivial
  | .object ms, entries, h => wellFormed_members ms (within_eq_ok.1 h)
  | .bool _, entries, h | .number _, entries, h | .string _, entries, h | .array _, entries, h => by
    cases h

theorem wellFormed_properties (holder : Holder) : ∀ (ms : List (String × Json))
    {ps : List (String × List (PropertyValue GraphValue))},
    properties holder ms = .ok ps → GraphValue.WellFormedProperties holder ps
  | [], ps, h => by
    cases h
    exact trivial
  | (n, j) :: rest, ps, h => by
    simp only [properties] at h
    split at h
    · exact wellFormed_propertiesOf holder j h
    · exact wellFormed_properties holder rest h

theorem wellFormed_propertiesOf (holder : Holder) : ∀ (j : Json)
    {ps : List (String × List (PropertyValue GraphValue))},
    propertiesOf holder j = .ok ps → GraphValue.WellFormedProperties holder ps
  | .null, ps, h => by
    cases h
    exact trivial
  | .object ms, ps, h => wellFormed_namedProperties holder ms h
  | .bool _, ps, h | .number _, ps, h | .string _, ps, h | .array _, ps, h => by
    cases h

theorem wellFormed_namedProperties (holder : Holder) : ∀ (ms : List (String × Json))
    {ps : List (String × List (PropertyValue GraphValue))},
    namedProperties holder ms = .ok ps → GraphValue.WellFormedProperties holder ps
  | [], ps, h => by
    cases h
    exact trivial
  | (name, j) :: rest, ps, h => by
    simp only [namedProperties_cons, bind_eq_ok, within_eq_ok] at h
    obtain ⟨p, hp, ps, hps, h⟩ := h
    cases h
    refine ⟨?_, wellFormed_namedProperties holder rest hps⟩
    unfold property at hp
    split at hp
    · next values hvalues =>
      subst hp
      exact wellFormed_listedValues? holder j hvalues
    · obtain ⟨v, hv, rfl⟩ := map_eq_ok.1 hp
      exact wellFormed_of_propertyValue (wellFormed_value j)
        (wellFormed_annotatedValue? holder j) hv

theorem wellFormed_listedValues? (holder : Holder) : ∀ (j : Json)
    {ps : List (PropertyValue GraphValue)},
    listedValues? holder j = some (.ok ps) → GraphValue.WellFormedPropertyValues holder ps
  | .array js, ps, h => wellFormed_propertyValues holder 0 js (Option.some.inj h)
  | .null, ps, h | .bool _, ps, h | .number _, ps, h | .string _, ps, h | .object _, ps, h => by
    cases h

theorem wellFormed_propertyValues (holder : Holder) (i : Nat) : ∀ (js : List Json)
    {ps : List (PropertyValue GraphValue)},
    propertyValues holder i js = .ok ps → GraphValue.WellFormedPropertyValues holder ps
  | [], ps, h => by
    cases h
    exact trivial
  | j :: rest, ps, h => by
    simp only [propertyValues_cons, bind_eq_ok, within_eq_ok] at h
    obtain ⟨p, hp, ps, hps, h⟩ := h
    cases h
    exact GraphValue.wellFormedPropertyValues_cons.2
      ⟨wellFormed_of_propertyValue (wellFormed_value j) (wellFormed_annotatedValue? holder j) hp,
        wellFormed_propertyValues holder (i + 1) rest hps⟩

theorem wellFormed_annotatedValue? (holder : Holder) : ∀ (j : Json) {p : PropertyValue GraphValue},
    annotatedValue? holder j = some (.ok p) → GraphValue.WellFormedPropertyValues holder [p]
  | .object ms, p, h => by
    simp only [annotatedValue?] at h
    split at h
    · next hannotated =>
      have h := Option.some.inj h
      simp only [annotated, bind_eq_ok] at h
      obtain ⟨v, hv, entries, hentries, h⟩ := h
      cases h
      refine ⟨fun i hi => (optionalId_eq_some.1 hi).2, ?_, wellFormed_member "value" ms hv,
        wellFormed_annotations ms hentries, trivial⟩
      rintro rfl
      cases hannotated
    · cases h
  | .null, p, h | .bool _, p, h | .number _, p, h | .string _, p, h | .array _, p, h => by
    cases h

end

end Decode

namespace GraphValue

/-- Every decoded value is well-formed. A path has an object for each item under `objects` and a
label set for each item under `labels`: the value itself if it is one, and every path inside the
value, for which the two arrays stand in an object at some place of the tree. -/
theorem wellFormed_of_ofJson? {j : Json} {v : GraphValue} (h : ofJson? j = .ok v) :
    v.WellFormed ∧
      (∀ p, v = .path p → ∃ ms objects labels, j = .object ms ∧
        Members.find? "objects" ms = some (.array objects) ∧
        Members.find? "labels" ms = some (.array labels) ∧
        p.objects.length = objects.length ∧ p.labels.length = labels.length) ∧
      ∀ p, Occurs (.path p) v → ∃ l ms objects labels,
        (Decode.Place.tree j).At l (.tree (.object ms)) ∧ ofJson? (.object ms) = .ok (.path p) ∧
        Members.find? "objects" ms = some (.array objects) ∧
        Members.find? "labels" ms = some (.array labels) ∧
        p.objects.length = objects.length ∧ p.labels.length = labels.length := by
  refine ⟨Decode.wellFormed_value j h, ?_, fun p hp => ?_⟩
  · rintro p rfl
    obtain ⟨ms, rfl⟩ := Decode.eq_object_of_value h
    obtain ⟨objects, labels, hobjects, hlabels, hlengths⟩ := Decode.lengths_of_path h
    exact ⟨ms, objects, labels, rfl, hobjects, hlabels, hlengths⟩
  · obtain ⟨l, i, hi, hvalue⟩ := Decode.exists_place_of_occurs h hp
    obtain ⟨ms, rfl⟩ := Decode.eq_object_of_value hvalue
    obtain ⟨objects, labels, hobjects, hlabels, hlengths⟩ := Decode.lengths_of_path hvalue
    exact ⟨l, ms, objects, labels, hi, hvalue, hobjects, hlabels, hlengths⟩

/-- A path over a vertex whose name has an annotated value, and over a map with a type of its
own. -/
def sampleTree : Json :=
  .object
    [("labels", .array [.array [.string "b", .string "a"], .null]),
      ("objects", .array
        [.object
          [("id", .number (.ofInt64 1)), ("label", .string "person"),
            ("properties", .object
              [("name", .array
                [.object [("id", .null), ("properties", .object [("since", .number (.ofInt64 2))]),
                  ("value", .string "marko")]])]),
            ("type", .string "vertex")],
          .object [("objects", .array []), ("type", .string "graph")]])]

theorem wellFormed_of_ofJson?_sample :
    ∃ p, ofJson? sampleTree = .ok (.path p) ∧ (GraphValue.path p).WellFormed ∧
      p.objects.length = 2 ∧ p.labels = [["a", "b"], []] ∧
      ∃ l ms, (Decode.Place.tree (.array [sampleTree])).At l (.tree (.object ms)) ∧
        ofJson? (.object ms) = .ok (.path p) := by
  refine ⟨_, rfl, ?_, ?_, ?_, ?_⟩
  · exact (wellFormed_of_ofJson? (j := sampleTree) rfl).1
  · obtain ⟨ms, objects, labels, hms, hobjects, -, hlength, -⟩ :=
      (wellFormed_of_ofJson? (j := sampleTree) rfl).2.1 _ rfl
    rw [hlength]
    cases hms
    cases hobjects
    rfl
  · rfl
  · obtain ⟨l, ms, _, _, hat, hvalue, -⟩ :=
      (wellFormed_of_ofJson? (j := .array [sampleTree]) rfl).2.2 _
        (.inside (List.mem_singleton_self _) .here)
    exact ⟨l, ms, hat, hvalue⟩

end GraphValue

end PagedTraversal
