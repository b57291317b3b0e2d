import PagedTraversal.Proofs.Graph.Places

/-!
# PagedTraversal.Proofs.Graph.UnknownMembers

Members that the decoder does not know do not matter.

What a tree is read as is its `Role`, and an object in a role has a `Form`, which tells the members
that are read of it and the role of each. `Decode.strip` takes every other member away, at every
depth that is decoded. The proof goes by the roles: with the trees inside a tree read as before, so
is the tree.

* `Decode.find?_stripMembers`: what a look-up finds among the members that are left.
* `Decode.ofMembers_stripMembers`: an object keeps its shape.
* `Decode.kept`: in every role, what is left of a tree is read like the tree.
* `Decode.strip_strip`, `Decode.sorted_strip`: there is nothing more to take away, and the members
  that are left are in order.
* `GraphValue.unknown_members_ignored`: what a tree decodes to, value or error, does not depend on
  its unknown members.
-/

namespace PagedTraversal

namespace Decode

/-- What a tree is read as: a value, one or all of the values of a property, the properties of an
element or those of a property value, the objects of a path, or as it stands. -/
inductive Role where
  | tree
  | entry (holder : Holder)
  | property (holder : Holder)
  | properties (holder : Holder)
  | entries
  | objects
  | verbatim

/-- What an object is read as. -/
inductive Form where
  | vertex
  | edge
  | path
  | map
  | annotated
  | named (holder : Holder)
  | verbatim

def Form.ofShape : Shape → Form
  | .vertex => .vertex
  | .edge => .edge
  | .path _ _ => .path
  | .map => .map

/-- The members that are read of an object, with their roles. Under `none` stands a member that is
not known. -/
def Form.role? (name : String) : Form → Option Role
  | vertex => Members.find? name
      [("type", .verbatim), ("id", .verbatim), ("label", .verbatim),
        ("properties", .properties .vertex)]
  | edge => Members.find? name
      [("type", .verbatim), ("id", .verbatim), ("label", .verbatim), ("outV", .verbatim),
        ("outVLabel", .verbatim), ("inV", .verbatim), ("inVLabel", .verbatim),
        ("properties", .properties .edge)]
  | path => Members.find? name [("objects", .objects), ("labels", .verbatim)]
  | map => some .tree
  | annotated => Members.find? name [("id", .verbatim), ("value", .tree), ("properties", .entries)]
  | named holder => some (.property holder)
  | verbatim => some .verbatim

namespace Role

/-- The form of an object. One that stands for a value of a property is annotated before it is
anything else. -/
def form : Role → Members Json → Form
  | tree, ms => .ofShape (Shape.ofMembers ms)
  | entry holder, ms => if isAnnotated holder ms then .annotated else .ofShape (Shape.ofMembers ms)
  | property holder, ms =>
    if isAnnotated holder ms then .annotated else .ofShape (Shape.ofMembers ms)
  | properties holder, _ => .named holder
  | entries, _ => .map
  | objects, _ => .verbatim
  | verbatim, _ => .verbatim

/-- The role of the items of an array. -/
def ofItem : Role → Role
  | tree => tree
  | entry _ => tree
  | property holder => entry holder
  | objects => tree
  | _ => verbatim

end Role

mutual

/-- The tree without the members that are not known, wherever it is decoded. -/
def strip (r : Role) : Json → Json
  | .array js => .array (stripItems r.ofItem js)
  | .object ms => .object (stripMembers (r.form ms) ms)
  | j => j
termination_by structural j => j

def stripItems (r : Role) : List Json → List Json
  | [] => []
  | j :: rest => strip r j :: stripItems r rest
termination_by structural js => js

def stripMembers (f : Form) : List (String × Json) → List (String × Json)
  | [] => []
  | (name, j) :: rest =>
    match f.role? name with
    | some r => (name, strip r j) :: stripMembers f rest
    | none => stripMembers f rest
termination_by structural ms => ms

end

/-! ## What is left of a tree -/

theorem stripItems_eq_map (r : Role) (js : List Json) : stripItems r js = js.map (strip r) := by
  induction js with
  | nil => rfl
  | cons j rest ih => rw [stripItems, ih, List.map_cons]

theorem find?_stripMembers (f : Form) (name : String) (ms : Members Json) :
    Members.find? name (stripMembers f ms) =
      (f.role? name).bind fun r => (Members.find? name ms).map (strip r) := by
  induction ms with
  | nil => cases f.role? name <;> rfl
  | cons m rest ih =>
    obtain ⟨n, j⟩ := m
    rw [stripMembers]
    by_cases hn : n = name
    · subst hn
      cases hrole : f.role? n with
      | none =>
        rw [hrole] at ih
        exact ih
      | some r => simp [Members.find?]
    · have hskip : Members.find? name ((n, j) :: rest) = Members.find? name rest := by
        simp [Members.find?, hn]
      rw [hskip, ← ih]
      cases f.role? n with
      | none => rfl
      | some r => simp [Members.find?, hn]

theorem strip_verbatim (j : Json) : strip .verbatim j = j := by
  induction j using Inside.induction with
  | h j ih =>
    cases j with
    | array js =>
      have hitems : js.map (strip .verbatim) = js :=
        (List.map_congr_left fun j hj => ih j (.item hj)).trans (List.map_id js)
      rw [strip, stripItems_eq_map]
      exact congrArg Json.array hitems
    | object ms =>
      have hmembers : ∀ rest, (∀ m ∈ rest, m ∈ ms) → stripMembers .verbatim rest = rest := by
        intro rest hrest
        induction rest with
        | nil => rfl
        | cons m rest ihrest =>
          have hm : strip .verbatim m.2 = m.2 := ih m.2 (.member (hrest m List.mem_cons_self))
          rw [stripMembers, ihrest fun m hm => hrest m (List.mem_cons_of_mem _ hm)]
          exact congrArg (fun j => (m.1, j) :: rest) hm
      exact congrArg Json.object (hmembers ms fun _ hm => hm)
    | _ => rfl

theorem find?_verbatim {f : Form} {name : String} (h : f.role? name = some .verbatim)
    (ms : Members Json) : Members.find? name (stripMembers f ms) = Members.find? name ms := by
  rw [find?_stripMembers, h, Option.bind_some]
  cases Members.find? name ms with
  | none => rfl
  | some j => exact congrArg some (strip_verbatim j)

theorem find?_of_role {f : Form} {name : String} {r : Role} (h : f.role? name = some r)
    (ms : Members Json) :
    Members.find? name (stripMembers f ms) = (Members.find? name ms).map (strip r) := by
  rw [find?_stripMembers, h, Option.bind_some]

theorem find?_unknown {f : Form} {name : String} (h : f.role? name = none) (ms : Members Json) :
    Members.find? name (stripMembers f ms) = none := by
  rw [find?_stripMembers, h, Option.bind_none]

theorem strip_eq_string_iff {r : Role} {j : Json} {s : String} :
    strip r j = .string s ↔ j = .string s := by
  cases j <;> simp [strip]

theorem strip_eq_array {r : Role} {j : Json} {ks : List Json} (h : strip r j = .array ks) :
    ∃ js, j = .array js := by
  cases j with
  | array js => exact ⟨js, rfl⟩
  | _ => cases h

/-! ## Objects are recognised as before -/

theorem find?_type_of_vertex {ms : Members Json} (h : Shape.ofMembers ms = .vertex) :
    Members.find? "type" ms = some (.string "vertex") := by
  unfold Shape.ofMembers at h
  split at h
  · assumption
  · cases h
  · split at h <;> cases h

theorem find?_type_of_edge {ms : Members Json} (h : Shape.ofMembers ms = .edge) :
    Members.find? "type" ms = some (.string "edge") := by
  unfold Shape.ofMembers at h
  split at h
  · cases h
  · assumption
  · split at h <;> cases h

/-- The type that tells an element is kept, and so are the objects and labels that tell a path. A
path may lose a type, but none that would have made it an element. -/
theorem ofMembers_stripMembers (ms : Members Json) :
    Shape.ofMembers (stripMembers (.ofShape (Shape.ofMembers ms)) ms) = Shape.ofMembers ms := by
  cases hshape : Shape.ofMembers ms with
  | vertex =>
    have htype := (find?_verbatim (f := .vertex) rfl ms).trans (find?_type_of_vertex hshape)
    rw [Form.ofShape, Shape.ofMembers, htype]
    rfl
  | edge =>
    have htype := (find?_verbatim (f := .edge) rfl ms).trans (find?_type_of_edge hshape)
    rw [Form.ofShape, Shape.ofMembers, htype]
    rfl
  | path n m =>
    obtain ⟨objects, labels, hobjects, hlabels, rfl, rfl⟩ := Shape.ofMembers_eq_path hshape
    have htype : Members.find? "type" (stripMembers .path ms) = none := find?_unknown rfl ms
    have hobjects' : Members.find? "objects" (stripMembers .path ms) =
        (Members.find? "objects" ms).map (strip .objects) := find?_of_role rfl ms
    have hlabels' := (find?_verbatim (f := .path) rfl ms).trans hlabels
    rw [hobjects, Option.map_some, strip] at hobjects'
    rw [Form.ofShape, Shape.ofMembers, htype, hobjects', hlabels', stripItems_eq_map]
    simp
  | map =>
    obtain ⟨hvertex, hedge, hpath⟩ := Shape.ofMembers_eq_map_iff.1 hshape
    -- the trees change, but none of them becomes a text or an array that it was not
    have hname : ∀ s, Members.find? "type" (stripMembers .map ms) = some (.string s) →
        Members.find? "type" ms = some (.string s) := by
      intro s hs
      rw [find?_of_role rfl, Option.map_eq_some_iff] at hs
      obtain ⟨j, hj, hs⟩ := hs
      rw [hj, strip_eq_string_iff.1 hs]
    have harray : ∀ name ks, Members.find? name (stripMembers .map ms) = some (.array ks) →
        ∃ js, Members.find? name ms = some (.array js) := by
      intro name ks hs
      rw [find?_of_role rfl, Option.map_eq_some_iff] at hs
      obtain ⟨j, hj, hs⟩ := hs
      obtain ⟨js, rfl⟩ := strip_eq_array hs
      exact ⟨js, hj⟩
    refine Shape.ofMembers_eq_map_iff.2 ⟨fun h => hvertex (hname _ h), fun h => hedge (hname _ h),
      fun objects labels hobjects hlabels => ?_⟩
    obtain ⟨objects', hobjects'⟩ := harray _ _ hobjects
    obtain ⟨labels', hlabels'⟩ := harray _ _ hlabels
    exact hpath objects' labels' hobjects' hlabels'

theorem isAnnotated_stripMembers {holder : Holder} {ms : Members Json}
    (h : isAnnotated holder ms = true) : isAnnotated holder (stripMembers .annotated ms) = true := by
  have hvalue : Members.find? "value" (stripMembers .annotated ms) =
      (Members.find? "value" ms).map (strip .tree) := find?_of_role rfl ms
  simp only [isAnnotated, hvalue, Option.isSome_map] at h ⊢
  exact h

/-- Nothing is put into an object, so none becomes annotated. -/
theorem isAnnotated_of_stripMembers {holder : Holder} {f : Form} {ms : Members Json}
    (h : isAnnotated holder (stripMembers f ms) = true) : isAnnotated holder ms = true := by
  simp only [isAnnotated, Bool.and_eq_true, Option.isSome_iff_exists] at h ⊢
  obtain ⟨hholder, j, hj⟩ := h
  rw [find?_stripMembers, Option.bind_eq_some_iff] at hj
  obtain ⟨r, -, hj⟩ := hj
  obtain ⟨k, hk, -⟩ := Option.map_eq_some_iff.1 hj
  exact ⟨hholder, k, hk⟩

theorem form_entry_of_annotated {holder : Holder} {ms : Members Json}
    (h : isAnnotated holder ms = true) : (Role.entry holder).form ms = .annotated := if_pos h

theorem form_entry_of_not_annotated {holder : Holder} {ms : Members Json}
    (h : ¬ isAnnotated holder ms = true) :
    (Role.entry holder).form ms = .ofShape (Shape.ofMembers ms) := if_neg h

/-- An object keeps its form. -/
theorem form_stripMembers (r : Role) (ms : Members Json) :
    r.form (stripMembers (r.form ms) ms) = r.form ms := by
  have hshape := congrArg Form.ofShape (ofMembers_stripMembers ms)
  have hentry : ∀ holder, (Role.entry holder).form (stripMembers ((Role.entry holder).form ms) ms) =
      (Role.entry holder).form ms := by
    intro holder
    by_cases h : isAnnotated holder ms = true
    · rw [form_entry_of_annotated h]
      exact if_pos (isAnnotated_stripMembers h)
    · rw [form_entry_of_not_annotated h]
      exact (if_neg (mt isAnnotated_of_stripMembers h)).trans hshape
  cases r with
  | tree => exact hshape
  | entry holder => exact hentry holder
  | property holder => exact hentry holder
  | _ => rfl

/-! ## Trees are read as before -/

/-- Two trees are alike in a role if the same is read of them. -/
def Role.Alike : Role → Json → Json → Prop
  | tree, j, k => value j = value k
  | entry holder, j, k => propertyValue holder j = propertyValue holder k
  | .property holder, j, k => Decode.property holder j = Decode.property holder k
  | .properties holder, j, k => propertiesOf holder j = propertiesOf holder k
  | entries, j, k => annotationsOf j = annotationsOf k
  | objects, j, k => pathObjectsOf j = pathObjectsOf k
  | verbatim, j, k => j = k

/-- What is left of the tree is read like the tree, in every role. -/
def Kept (j : Json) : Prop := ∀ r : Role, r.Alike (strip r j) j

section Lists

variable {js : List Json} (hjs : ∀ j ∈ js, Kept j)
include hjs

theorem items_stripItems (step : Nat → LocationStep) (i : Nat) :
    items step i (stripItems .tree js) = items step i js := by
  induction js generalizing i with
  | nil => rfl
  | cons j rest ih =>
    have hj : value (strip .tree j) = value j := hjs j List.mem_cons_self .tree
    rw [stripItems, items, items, hj, ih fun k hk => hjs k (List.mem_cons_of_mem _ hk)]

theorem propertyValues_stripItems (holder : Holder) (i : Nat) :
    propertyValues holder i (stripItems (.entry holder) js) = propertyValues holder i js := by
  induction js generalizing i with
  | nil => rfl
  | cons j rest ih =>
    have hj : propertyValue holder (strip (.entry holder) j) = propertyValue holder j :=
      hjs j List.mem_cons_self (.entry holder)
    rw [stripItems, propertyValues_cons, propertyValues_cons, hj,
      ih fun k hk => hjs k (List.mem_cons_of_mem _ hk)]

end Lists

section Members

variable {ms : Members Json} (hms : ∀ m ∈ ms, Kept m.2)
include hms

theorem members_stripMembers : members (stripMembers .map ms) = members ms := by
  induction ms with
  | nil => rfl
  | cons m rest ih =>
    obtain ⟨name, j⟩ := m
    have hj : value (strip .tree j) = value j := hms (name, j) List.mem_cons_self .tree
    have hrest := ih fun m hm => hms m (List.mem_cons_of_mem _ hm)
    simp only [stripMembers, Form.role?, members, hj, hrest]

theorem namedProperties_stripMembers (holder : Holder) :
    namedProperties holder (stripMembers (.named holder) ms) = namedProperties holder ms := by
  induction ms with
  | nil => rfl
  | cons m rest ih =>
    obtain ⟨name, j⟩ := m
    have hj : property holder (strip (.property holder) j) = property holder j :=
      hms (name, j) List.mem_cons_self (.property holder)
    have hrest := ih fun m hm => hms m (List.mem_cons_of_mem _ hm)
    simp only [stripMembers, Form.role?, namedProperties_cons, hj, hrest]

end Members

section Object

variable {f : Form} {name : String}

theorem requiredId_stripMembers (h : f.role? name = some .verbatim) (ms : Members Json) :
    requiredId name (stripMembers f ms) = requiredId name ms := by
  rw [requiredId, requiredId, find?_verbatim h]

theorem requiredString_stripMembers (h : f.role? name = some .verbatim) (ms : Members Json) :
    requiredString name (stripMembers f ms) = requiredString name ms := by
  rw [requiredString, requiredString, find?_verbatim h]

theorem optionalId_stripMembers (h : f.role? "id" = some .verbatim) (ms : Members Json) :
    optionalId (stripMembers f ms) = optionalId ms := by
  rw [optionalId, optionalId, find?_verbatim h]

theorem pathLabels_stripMembers (h : f.role? "labels" = some .verbatim) (ms : Members Json) :
    pathLabels (stripMembers f ms) = pathLabels ms := by
  rw [pathLabels, pathLabels, find?_verbatim h]

variable {ms : Members Json} (hinside : ∀ i, Inside i (.object ms) → Kept i)
include hinside

theorem properties_stripMembers {holder : Holder}
    (h : f.role? "properties" = some (.properties holder)) :
    properties holder (stripMembers f ms) = properties holder ms := by
  rw [properties_eq, properties_eq, find?_of_role h]
  cases hj : Members.find? "properties" ms with
  | none => rfl
  | some j => exact hinside j (.found hj) (.properties holder)

theorem annotations_stripMembers (h : f.role? "properties" = some .entries) :
    annotations (stripMembers f ms) = annotations ms := by
  rw [annotations_eq, annotations_eq, find?_of_role h]
  cases hj : Members.find? "properties" ms with
  | none => rfl
  | some j => exact hinside j (.found hj) .entries

theorem pathObjects_stripMembers (h : f.role? "objects" = some .objects) :
    pathObjects (stripMembers f ms) = pathObjects ms := by
  rw [pathObjects_eq, pathObjects_eq, find?_of_role h]
  cases hj : Members.find? "objects" ms with
  | none => rfl
  | some j => exact hinside j (.found hj) .objects

theorem value_stripMembers :
    value (.object (stripMembers (.ofShape (Shape.ofMembers ms)) ms)) = value (.object ms) := by
  have hkept := ofMembers_stripMembers ms
  cases hshape : Shape.ofMembers ms with
  | vertex =>
    rw [hshape, Form.ofShape] at hkept
    simp only [value, Form.ofShape, hkept, hshape]
    rw [requiredId_stripMembers rfl, requiredString_stripMembers rfl,
      properties_stripMembers hinside rfl]
  | edge =>
    rw [hshape, Form.ofShape] at hkept
    simp only [value, Form.ofShape, hkept, hshape]
    rw [requiredId_stripMembers rfl, requiredString_stripMembers rfl, requiredId_stripMembers rfl,
      requiredString_stripMembers rfl, requiredId_stripMembers rfl, requiredString_stripMembers rfl,
      properties_stripMembers hinside rfl]
  | path n m =>
    rw [hshape, Form.ofShape] at hkept
    simp only [value, Form.ofShape, hkept, hshape]
    rw [pathObjects_stripMembers hinside rfl, pathLabels_stripMembers rfl]
  | map =>
    rw [hshape, Form.ofShape] at hkept
    simp only [value, Form.ofShape, hkept, hshape]
    rw [members_stripMembers fun m hm => hinside m.2 (.member hm)]

theorem annotated_stripMembers {holder : Holder} (hvalue : isAnnotated holder ms = true) :
    annotated (stripMembers .annotated ms) (member "value" (stripMembers .annotated ms))
      (annotations (stripMembers .annotated ms)) =
    annotated ms (member "value" ms) (annotations ms) := by
  obtain ⟨j, hj⟩ : ∃ j, Members.find? "value" ms = some j := by
    simp only [isAnnotated, Bool.and_eq_true, Option.isSome_iff_exists] at hvalue
    exact hvalue.2
  have hread : value (strip .tree j) = value j := hinside j (.found hj) .tree
  have hj' : Members.find? "value" (stripMembers .annotated ms) = some (strip .tree j) := by
    rw [find?_of_role (r := .tree) rfl, hj, Option.map_some]
  rw [annotated, annotated, member_of_find? hj, member_of_find? hj', hread,
    annotations_stripMembers hinside rfl, optionalId_stripMembers rfl]

theorem propertyValue_stripMembers (holder : Holder) :
    propertyValue holder (.object (stripMembers ((Role.entry holder).form ms) ms)) =
      propertyValue holder (.object ms) := by
  rw [propertyValue_object, propertyValue_object]
  by_cases h : isAnnotated holder ms = true
  · rw [form_entry_of_annotated h, if_pos h, if_pos (isAnnotated_stripMembers h),
      annotated_stripMembers hinside h]
  · rw [form_entry_of_not_annotated h, if_neg h, if_neg (mt isAnnotated_of_stripMembers h),
      value_stripMembers hinside]

end Object

theorem property_object (holder : Holder) (ms : Members Json) :
    property holder (.object ms) = (propertyValue holder (.object ms)).map ([·]) := rfl

theorem kept_array {js : List Json} (hjs : ∀ j ∈ js, Kept j) : Kept (.array js) := by
  have htree : value (strip .tree (.array js)) = value (.array js) := by
    rw [strip, value, value, Role.ofItem, items_stripItems hjs]
  intro r
  cases r with
  | tree => exact htree
  | entry holder => exact congrArg bare htree
  | property holder =>
    rw [Role.Alike, strip, property_array, property_array, Role.ofItem,
      propertyValues_stripItems hjs]
  | objects =>
    rw [Role.Alike, strip, pathObjectsOf, pathObjectsOf, Role.ofItem, items_stripItems hjs]
  | verbatim => exact strip_verbatim _
  | properties holder => rfl
  | entries => rfl

theorem kept_object {ms : Members Json} (hinside : ∀ i, Inside i (.object ms) → Kept i) :
    Kept (.object ms) := by
  have hmembers : ∀ m ∈ ms, Kept m.2 := fun m hm => hinside m.2 (.member hm)
  intro r
  cases r with
  | tree => exact value_stripMembers hinside
  | entry holder => exact propertyValue_stripMembers hinside holder
  | property holder =>
    rw [Role.Alike, strip, property_object, property_object]
    exact congrArg (Except.map ([·])) (propertyValue_stripMembers hinside holder)
  | properties holder =>
    rw [Role.Alike, strip, propertiesOf, propertiesOf, Role.form,
      namedProperties_stripMembers hmembers]
  | entries =>
    rw [Role.Alike, strip, annotationsOf, annotationsOf, Role.form, members_stripMembers hmembers]
  | objects => rfl
  | verbatim => exact strip_verbatim _

/-- In every role, what is left of a tree is read like the tree. -/
theorem kept (j : Json) : Kept j := by
  induction j using Inside.induction with
  | h j ih =>
    cases j with
    | array js => exact kept_array fun j hj => ih j (.item hj)
    | object ms => exact kept_object ih
    | _ => intro r; cases r <;> rfl

/-! ## Nothing more is taken away the second time -/

theorem stripMembers_stripMembers (f : Form) {ms : Members Json}
    (hms : ∀ m ∈ ms, ∀ r, strip r (strip r m.2) = strip r m.2) :
    stripMembers f (stripMembers f ms) = stripMembers f ms := by
  induction ms with
  | nil => rfl
  | cons m rest ih =>
    obtain ⟨name, j⟩ := m
    have hrest := ih fun m hm => hms m (List.mem_cons_of_mem _ hm)
    have hj := hms (name, j) List.mem_cons_self
    cases hrole : f.role? name with
    | none => simp only [stripMembers, hrole, hrest]
    | some r => simp only [stripMembers, hrole, hrest, hj r]

theorem strip_strip (r : Role) (j : Json) : strip r (strip r j) = strip r j := by
  induction j using Inside.induction generalizing r with
  | h j ih =>
    cases j with
    | array js =>
      simp only [strip, stripItems_eq_map, List.map_map]
      exact congrArg Json.array (List.map_congr_left fun j hj => ih j (.item hj) r.ofItem)
    | object ms =>
      simp only [strip, form_stripMembers]
      exact congrArg Json.object
        (stripMembers_stripMembers (r.form ms) fun m hm r' => ih m.2 (.member hm) r')
    | _ => rfl

theorem names_stripMembers (f : Form) (ms : Members Json) :
    ((stripMembers f ms).map Prod.fst).Sublist (ms.map Prod.fst) := by
  induction ms with
  | nil => exact List.Sublist.slnil
  | cons m rest ih =>
    obtain ⟨name, j⟩ := m
    rw [stripMembers]
    cases f.role? name with
    | none => exact ih.cons name
    | some r => exact ih.cons_cons name

theorem sortedMembers_stripMembers (f : Form) {ms : Members Json}
    (hms : ∀ m ∈ ms, ∀ r, (strip r m.2).Sorted) : Json.SortedMembers (stripMembers f ms) := by
  induction ms with
  | nil => exact trivial
  | cons m rest ih =>
    obtain ⟨name, j⟩ := m
    have hrest := ih fun m hm => hms m (List.mem_cons_of_mem _ hm)
    rw [stripMembers]
    cases f.role? name with
    | none => exact hrest
    | some r => exact ⟨hms (name, j) List.mem_cons_self r, hrest⟩

/-- What is left is in order, as the tree was. -/
theorem sorted_strip (r : Role) {j : Json} (h : j.Sorted) : (strip r j).Sorted := by
  induction j using Inside.induction generalizing r with
  | h j ih =>
    cases j with
    | array js =>
      rw [strip, stripItems_eq_map, Json.Sorted, Json.sortedItems_iff]
      intro k hk
      obtain ⟨j, hj, rfl⟩ := List.mem_map.1 hk
      exact ih j (.item hj) r.ofItem ((Inside.item hj).sorted h)
    | object ms =>
      have hnames := Members.sorted_iff.1 (show Members.Sorted ms ∧ _ from h).1
      exact ⟨Members.sorted_iff.2 (hnames.sublist (names_stripMembers _ ms)),
        sortedMembers_stripMembers _ fun m hm r' =>
          ih m.2 (.member hm) r' ((Inside.member hm).sorted h)⟩
    | _ => exact trivial

end Decode

/-- The tree of a value without the members that are not known. -/
def Json.known (j : Json) : Json := Decode.strip .tree j

namespace GraphValue

/-- A tree decodes to what it decodes to without its unknown members, be it a value or an error. So
it does not matter what stands under them: trees that are the same without them decode alike. -/
theorem unknown_members_ignored (j : Json) :
    ofJson? j.known = ofJson? j ∧ ∀ k : Json, k.known = j.known → ofJson? k = ofJson? j := by
  have hkept : ∀ i : Json, ofJson? i.known = ofJson? i := fun i => Decode.kept i .tree
  refine ⟨hkept j, fun k hk => ?_⟩
  calc ofJson? k = ofJson? k.known := (hkept k).symm
    _ = ofJson? j.known := congrArg ofJson? hk
    _ = ofJson? j := hkept j

/-- A path of a vertex and an edge with unknown members at every depth. Under them stands what would
not decode, or would be taken for something else, in the place of a known one. -/
def noisyPath : Json :=
  .object
    [("labels", .array [.null, .null]),
      ("objects", .array
        [.object
          [("id", .string "v"), ("inV", .object [("type", .string "edge")]),
            ("label", .string "person"), ("objects", .array []),
            ("properties", .object
              [("name", .array
                [.object
                  [("id", .string "p"), ("type", .string "vertex"),
                    ("value", .string "marko")]])]),
            ("type", .string "vertex")],
          .object
            [("id", .string "e"), ("inV", .string "w"), ("inVLabel", .string "software"),
              ("label", .string "created"), ("outV", .string "v"),
              ("outVLabel", .string "person"), ("type", .string "edge"),
              ("value", .object [("type", .string "vertex")])]]),
      ("type", .object [("type", .string "vertex")])]

/-- The same path without them. -/
def quietPath : Json :=
  .object
    [("labels", .array [.null, .null]),
      ("objects", .array
        [.object
          [("id", .string "v"), ("label", .string "person"),
            ("properties", .object
              [("name", .array
                [.object [("id", .string "p"), ("value", .string "marko")]])]),
            ("type", .string "vertex")],
          .object
            [("id", .string "e"), ("inV", .string "w"), ("inVLabel", .string "software"),
              ("label", .string "created"), ("outV", .string "v"),
              ("outVLabel", .string "person"), ("type", .string "edge")]])]

theorem unknown_members_ignored_noisyPath :
    noisyPath.known = quietPath ∧ quietPath.known = quietPath ∧
      ∃ p, ofJson? quietPath = .ok (.path p) ∧ ofJson? noisyPath = .ok (.path p) := by
  have hknown : noisyPath.known = quietPath := rfl
  have hsame : noisyPath.known = quietPath.known := rfl
  exact ⟨hknown, rfl, _, rfl, (unknown_members_ignored quietPath).2 noisyPath hsame⟩

end GraphValue

end PagedTraversal
