import PagedTraversal.Proofs.Graph.Decoding

/-!
# PagedTraversal.Proofs.Graph.Places

The places of a tree at which something is decoded, and what is asked of the tree there.

A place is a tree that is decoded on its own, or an annotated value of a vertex property. It has
parts, in the order in which they are looked at: demands on its members, and further places inside
it. The walk over a tree follows the parts down to the leaves and gathers the demands.

* `Place.parts`: the parts of each kind of place.
* `Place.At`: the places of a tree, each with its location; `Place.mem_walk_iff`: the walk meets the
  demands of these places and no others.
* `Place.malformed_iff`: a place is malformed if a demand among its parts is not met.
-/

namespace PagedTraversal

namespace Decode

/-! ## Demands -/

/-- What a place asks of one of its members, with what was found there. -/
inductive Demand where
  | identifier (found : Option Json)
  | text (found : Option Json)
  | properties (found : Option Json)
  | labels (entry : Json)
  | pairs (objects labels : Nat)

namespace Demand

/-- `null` counts as missing; properties may be missing. -/
def Met : Demand → Prop
  | identifier found => ∃ raw, found = some raw ∧ raw ≠ .null
  | text found => ∃ s, found = some (.string s)
  | properties found => found = none ∨ found = some .null ∨ ∃ ms, found = some (.object ms)
  | labels entry => entry = .null ∨ (∃ s, entry = .string s) ∨
      ∃ items, entry = .array items ∧ ∀ item ∈ items, ∃ s, item = .string s
  | pairs n m => n = m

/-- What is wrong with a demand that is not met. -/
def error? (location : Location) : Demand → Option DecodeError
  | identifier none => some (.malformed location .missing)
  | identifier (some .null) => some (.malformed location .missing)
  | identifier (some _) => none
  | text none => some (.malformed location .missing)
  | text (some .null) => some (.malformed location .missing)
  | text (some (.string _)) => none
  | text (some _) => some (.malformed location .notString)
  | properties none => none
  | properties (some .null) => none
  | properties (some (.object _)) => none
  | properties (some _) => some (.malformed location .notObject)
  | labels .null => none
  | labels (.string _) => none
  | labels (.array items) =>
    match items.mapM Json.string? with
    | some _ => none
    | none => some (.malformed location .labelNotString)
  | labels _ => some (.malformed location .notLabels)
  | pairs n m => if n = m then none else some (.unpaired n m)

theorem mapM_string?_eq_some_iff {items : List Json} :
    (∃ labels, items.mapM Json.string? = some labels) ↔ ∀ item ∈ items, ∃ s, item = .string s := by
  induction items with
  | nil => simp
  | cons item rest ih =>
    cases item with
    | string s =>
      simp only [List.mapM_cons, Json.string?, Option.bind_eq_bind, Option.bind_some,
        List.forall_mem_cons, ← ih]
      cases rest.mapM Json.string? <;> simp
    | _ => simp [List.mapM_cons, Json.string?]

theorem met_iff {d : Demand} (location : Location) : d.Met ↔ d.error? location = none := by
  cases d with
  | identifier found => rcases found with _ | ⟨_ | _ | _ | _ | _ | _⟩ <;> simp [Met, error?]
  | text found => rcases found with _ | ⟨_ | _ | _ | _ | _ | _⟩ <;> simp [Met, error?]
  | properties found => rcases found with _ | ⟨_ | _ | _ | _ | _ | _⟩ <;> simp [Met, error?]
  | labels entry =>
    cases entry with
    | array items =>
      simp only [Met, error?]
      have hitems := @mapM_string?_eq_some_iff items
      split
      · next labels hlabels => simpa using hitems.1 ⟨labels, hlabels⟩
      · next hnone => simpa [hnone] using hitems
    | _ => simp [Met, error?]
  | pairs n m =>
    simp only [Met, error?]
    split <;> simp [*]

theorem error?_append (step : LocationStep) (location : Location) (d : Demand) :
    d.error? (step :: location) = (d.error? location).map (DecodeError.within step) := by
  cases d with
  | identifier found => rcases found with _ | ⟨_ | _ | _ | _ | _ | _⟩ <;> rfl
  | text found => rcases found with _ | ⟨_ | _ | _ | _ | _ | _⟩ <;> rfl
  | properties found => rcases found with _ | ⟨_ | _ | _ | _ | _ | _⟩ <;> rfl
  | labels entry =>
    cases entry with
    | array items =>
      simp only [error?]
      split <;> rfl
    | _ => rfl
  | pairs n m =>
    simp only [error?]
    split <;> rfl

end Demand

/-- A demand with the location of what it is about, as seen from a place further out. -/
structure Check where
  location : Location
  demand : Demand

namespace Check

def error? (c : Check) : Option DecodeError := c.demand.error? c.location

def within (location : Location) (c : Check) : Check := ⟨location ++ c.location, c.demand⟩

theorem error?_within (step : LocationStep) (c : Check) :
    (c.within [step]).error? = c.error?.map (DecodeError.within step) :=
  Demand.error?_append step c.location c.demand

@[simp] theorem within_nil (c : Check) : c.within [] = c := rfl

@[simp] theorem map_within_nil (cs : List Check) : cs.map (within []) = cs := List.map_id cs

@[simp] theorem within_within (l l' : Location) (c : Check) :
    (c.within l').within l = c.within (l ++ l') := by
  simp [within]

end Check

/-! ## Places and their parts -/

/-- A tree that is decoded on its own, or a value of a vertex property that is written as an object
with its value under `value`. -/
inductive Place where
  | tree (j : Json)
  | annotated (ms : Members Json)

inductive Part where
  | check (c : Check)
  | place (location : Location) (p : Place)

def Part.within (location : Location) : Part → Part
  | check c => check (c.within location)
  | place l p => place (location ++ l) p

namespace Place

/-- The place of one value of a property. -/
def ofEntry (holder : Holder) : Json → Place
  | .object ms => if isAnnotated holder ms then annotated ms else tree (.object ms)
  | j => tree j

/-- The tree that a place looks at. -/
def json : Place → Json
  | tree j => j
  | annotated ms => .object ms

theorem ofEntry_object (holder : Holder) (ms : Members Json) :
    ofEntry holder (.object ms) = if isAnnotated holder ms then annotated ms else tree (.object ms) :=
  rfl

@[simp] theorem json_ofEntry (holder : Holder) (j : Json) : (ofEntry holder j).json = j := by
  unfold ofEntry
  split
  · split <;> rfl
  · rfl

end Place

/-- One part for each item of an array, the first of which has the given index. -/
def indexed (part : Nat → Json → Part) (i : Nat) : List Json → List Part
  | [] => []
  | j :: rest => part i j :: indexed part (i + 1) rest

def itemParts (step : Nat → LocationStep) : Nat → List Json → List Part :=
  indexed fun i j => .place [step i] (.tree j)

def labelParts : Nat → List Json → List Part :=
  indexed fun i entry => .check ⟨[.labels i], .labels entry⟩

def entryParts (holder : Holder) : Nat → List Json → List Part :=
  indexed fun i j => .place [.item i] (.ofEntry holder j)

def memberParts (ms : Members Json) : List Part :=
  ms.map fun m => .place [.member m.1] (.tree m.2)

/-- The values of a property: those of an array, or the one that stands in its place. -/
def valueParts (holder : Holder) : Json → List Part
  | .array items => entryParts holder 0 items
  | j => [.place [] (.ofEntry holder j)]

def propertyParts (holder : Holder) (ms : Members Json) : List Part :=
  ms.flatMap fun m => (valueParts holder m.2).map (Part.within [.property m.1])

def identifierPart (name : String) (ms : Members Json) : Part :=
  .check ⟨[.member name], .identifier (Members.find? name ms)⟩

def textPart (name : String) (ms : Members Json) : Part :=
  .check ⟨[.member name], .text (Members.find? name ms)⟩

def propertiesPart (ms : Members Json) : Part :=
  .check ⟨[.member "properties"], .properties (Members.find? "properties" ms)⟩

/-- The members of the object that is found, if one is. -/
def objectMembers : Option Json → Members Json
  | some (.object ms) => ms
  | _ => []

def arrayItems : Option Json → List Json
  | some (.array items) => items
  | _ => []

namespace Place

/-- The parts of a place in the order in which they are looked at. The members of an object come in
the order in which it keeps them, which is that of their names in every tree that was read. -/
def parts : Place → List Part
  | tree (.array items) => itemParts .item 0 items
  | tree (.object ms) =>
    match Shape.ofMembers ms with
    | .vertex => identifierPart "id" ms :: textPart "label" ms :: propertiesPart ms ::
        propertyParts .vertex (objectMembers (Members.find? "properties" ms))
    | .edge => identifierPart "id" ms :: textPart "label" ms ::
        identifierPart "outV" ms :: textPart "outVLabel" ms ::
        identifierPart "inV" ms :: textPart "inVLabel" ms :: propertiesPart ms ::
        propertyParts .edge (objectMembers (Members.find? "properties" ms))
    | .path objects labels => .check ⟨[], .pairs objects labels⟩ ::
        itemParts .object 0 (arrayItems (Members.find? "objects" ms)) ++
        labelParts 0 (arrayItems (Members.find? "labels" ms))
    | .map => memberParts ms
  | tree _ => []
  | annotated ms =>
    (Members.find? "value" ms).toList.map (fun j => .place [.member "value"] (tree j)) ++
      propertiesPart ms :: (memberParts (objectMembers (Members.find? "properties" ms))).map
        (Part.within [.member "properties"])

theorem parts_annotated (ms : Members Json) :
    (annotated ms).parts =
      (Members.find? "value" ms).toList.map (fun j => .place [.member "value"] (tree j)) ++
        propertiesPart ms :: (memberParts (objectMembers (Members.find? "properties" ms))).map
          (Part.within [.member "properties"]) :=
  rfl

/-- A malformed place: an element without what it needs, a path whose objects and labels
do not go together, an annotated value whose properties are no object. -/
def Malformed : Place → Prop
  | tree (.object ms) =>
    let lacksId (name : String) := ¬ (Demand.identifier (Members.find? name ms)).Met
    let lacksText (name : String) := ¬ (Demand.text (Members.find? name ms)).Met
    match Shape.ofMembers ms with
    | .vertex => lacksId "id" ∨ lacksText "label" ∨
        ¬ (Demand.properties (Members.find? "properties" ms)).Met
    | .edge => lacksId "id" ∨ lacksText "label" ∨ lacksId "outV" ∨ lacksText "outVLabel" ∨
        lacksId "inV" ∨ lacksText "inVLabel" ∨
        ¬ (Demand.properties (Members.find? "properties" ms)).Met
    | .path objects labels => objects ≠ labels ∨
        ∃ entries, Members.find? "labels" ms = some (.array entries) ∧
          ∃ entry ∈ entries, ¬ (Demand.labels entry).Met
    | .map => False
  | tree _ => False
  | annotated ms => ¬ (Demand.properties (Members.find? "properties" ms)).Met

end Place

/-! ## What the parts contain -/

section Parts

variable {c : Check} {l : Location} {p : Place} {holder : Holder} {i : Nat} {js : List Json}
  {ms : Members Json} {step : Nat → LocationStep} {part : Part}

theorem mem_indexed_iff {f : Nat → Json → Part} :
    part ∈ indexed f i js ↔ ∃ n j, js[n]? = some j ∧ part = f (i + n) j := by
  induction js generalizing i with
  | nil => simp [indexed]
  | cons j rest ih =>
    rw [indexed, List.mem_cons, ih]
    constructor
    · rintro (e | ⟨n, j', hj', e⟩)
      · exact ⟨0, j, rfl, e⟩
      · exact ⟨n + 1, j', hj', by rw [e, Nat.add_assoc, Nat.add_comm 1]⟩
    · rintro ⟨n, j', hj', e⟩
      cases n with
      | zero =>
        cases hj'
        exact .inl e
      | succ n => exact .inr ⟨n, j', hj', by rw [e, Nat.add_assoc, Nat.add_comm 1]⟩

theorem mem_indexed {f : Nat → Json → Part} (h : part ∈ indexed f i js) :
    ∃ k, ∃ j ∈ js, part = f k j := by
  obtain ⟨n, j, hj, e⟩ := mem_indexed_iff.1 h
  exact ⟨i + n, j, List.mem_of_getElem? hj, e⟩

theorem exists_mem_indexed {f : Nat → Json → Part} {j : Json} (h : j ∈ js) :
    ∃ k, f k j ∈ indexed f i js := by
  obtain ⟨n, hn⟩ := List.getElem?_of_mem h
  exact ⟨i + n, mem_indexed_iff.2 ⟨n, j, hn, rfl⟩⟩

theorem place_mem_itemParts (h : .place l p ∈ itemParts step i js) : ∃ j ∈ js, p = .tree j := by
  obtain ⟨k, j, hj, e⟩ := mem_indexed h
  cases e
  exact ⟨j, hj, rfl⟩

theorem place_mem_entryParts (h : .place l p ∈ entryParts holder i js) :
    ∃ j ∈ js, p = .ofEntry holder j := by
  obtain ⟨k, j, hj, e⟩ := mem_indexed h
  cases e
  exact ⟨j, hj, rfl⟩

theorem place_mem_memberParts (h : .place l p ∈ memberParts ms) : ∃ m ∈ ms, p = .tree m.2 := by
  obtain ⟨m, hm, e⟩ := List.mem_map.1 h
  cases e
  exact ⟨m, hm, rfl⟩

theorem not_place_mem_labelParts : .place l p ∉ labelParts i js := by
  intro h
  obtain ⟨k, j, hj, e⟩ := mem_indexed h
  cases e

theorem place_mem_within {parts : List Part} {outer : Location}
    (h : .place l p ∈ parts.map (Part.within outer)) : ∃ l', .place l' p ∈ parts := by
  obtain ⟨part, hpart, e⟩ := List.mem_map.1 h
  cases part with
  | check c => cases e
  | place l' p' =>
    cases e
    exact ⟨l', hpart⟩

/-- The place of a value of a property comes from an item of the array under the name of the
property, or from what stands there itself. -/
theorem place_mem_propertyParts (h : .place l p ∈ propertyParts holder ms) :
    ∃ m ∈ ms, (∃ js, m.2 = .array js ∧ ∃ j ∈ js, p = .ofEntry holder j) ∨
      p = .ofEntry holder m.2 := by
  obtain ⟨⟨name, j⟩, hm, h⟩ := List.mem_flatMap.1 h
  obtain ⟨l', h⟩ := place_mem_within h
  refine ⟨(name, j), hm, ?_⟩
  cases j with
  | array js => exact .inl ⟨js, rfl, place_mem_entryParts h⟩
  | _ =>
    cases List.mem_singleton.1 h
    exact .inr rfl

theorem not_check_mem_itemParts : .check c ∉ itemParts step i js := by
  intro h
  obtain ⟨k, j, hj, e⟩ := mem_indexed h
  cases e

theorem not_check_mem_memberParts : .check c ∉ memberParts ms := by
  intro h
  obtain ⟨m, hm, e⟩ := List.mem_map.1 h
  cases e

theorem not_check_mem_within {parts : List Part} {outer : Location}
    (h : ∀ c, .check c ∉ parts) : .check c ∉ parts.map (Part.within outer) := by
  intro hc
  obtain ⟨part, hpart, e⟩ := List.mem_map.1 hc
  cases part with
  | check c' => exact h c' hpart
  | place l p => cases e

theorem not_check_mem_propertyParts : .check c ∉ propertyParts holder ms := by
  intro h
  obtain ⟨m, hm, h⟩ := List.mem_flatMap.1 h
  refine not_check_mem_within (fun c hc => ?_) h
  unfold valueParts at hc
  split at hc
  · obtain ⟨k, j, hj, e⟩ := mem_indexed hc
    cases e
  · cases List.mem_singleton.1 hc

theorem unmet_mem_labelParts : (∃ c, .check c ∈ labelParts i js ∧ ¬ c.demand.Met) ↔
    ∃ entry ∈ js, ¬ (Demand.labels entry).Met := by
  constructor
  · rintro ⟨c, hc, hunmet⟩
    obtain ⟨k, entry, hentry, e⟩ := mem_indexed hc
    cases e
    exact ⟨entry, hentry, hunmet⟩
  · rintro ⟨entry, hentry, hunmet⟩
    obtain ⟨k, hk⟩ := exists_mem_indexed (f := fun i entry => .check ⟨[.labels i], .labels entry⟩)
      (i := i) hentry
    exact ⟨_, hk, hunmet⟩

end Parts

theorem mem_of_find? {name : String} {ms : Members Json} {j : Json}
    (h : Members.find? name ms = some j) : (name, j) ∈ ms := by
  induction ms with
  | nil => cases h
  | cons m rest ih =>
    obtain ⟨n, k⟩ := m
    by_cases hn : n = name
    · simp only [Members.find?, hn, if_true, Option.some.injEq] at h
      rw [hn, h]
      exact List.mem_cons_self
    · simp only [Members.find?, hn, if_false] at h
      exact List.mem_cons_of_mem _ (ih h)

namespace Place

/-- The demands of a place are met unless it is malformed. -/
theorem malformed_iff {p : Place} :
    p.Malformed ↔ ∃ c, .check c ∈ p.parts ∧ ¬ c.demand.Met := by
  match p with
  | tree (.object ms) =>
    simp only [Malformed, parts]
    cases hshape : Shape.ofMembers ms with
    | vertex => simp [identifierPart, textPart, propertiesPart, not_check_mem_propertyParts,
        or_and_right, exists_or]
    | edge => simp [identifierPart, textPart, propertiesPart, not_check_mem_propertyParts,
        or_and_right, exists_or]
    | path objects labels =>
      obtain ⟨os, ls, -, hlabels, -, -⟩ := Shape.ofMembers_eq_path hshape
      have hpairs : (Demand.pairs objects labels).Met ↔ objects = labels := Iff.rfl
      simp [not_check_mem_itemParts, or_and_right, exists_or, hlabels, arrayItems,
        unmet_mem_labelParts, hpairs]
    | map => simp [not_check_mem_memberParts]
  | tree (.array js) => simp [Malformed, parts, not_check_mem_itemParts]
  | tree .null | tree (.bool _) | tree (.number _) | tree (.string _) => simp [Malformed, parts]
  | annotated ms =>
    have hmembers : ∀ c, .check c ∉ (memberParts (objectMembers
        (Members.find? "properties" ms))).map (Part.within [.member "properties"]) :=
      fun c => not_check_mem_within fun c => not_check_mem_memberParts
    simp [Malformed, parts, propertiesPart, hmembers]

end Place

/-! ## Trees inside a tree -/

/-- The tree `j` stands somewhere inside the other one. -/
inductive Inside : Json → Json → Prop where
  | item {j : Json} {js : List Json} (h : j ∈ js) : Inside j (.array js)
  | member {m : String × Json} {ms : Members Json} (h : m ∈ ms) : Inside m.2 (.object ms)
  | trans {i j k : Json} (h : Inside i j) (h' : Inside j k) : Inside i k

namespace Inside

theorem sizeOf_lt {i j : Json} (h : Inside i j) : sizeOf i < sizeOf j := by
  induction h with
  | item h =>
    have := List.sizeOf_lt_of_mem h
    rw [Json.array.sizeOf_spec]
    omega
  | @member m ms h =>
    have := List.sizeOf_lt_of_mem h
    have hm : sizeOf m = 1 + sizeOf m.1 + sizeOf m.2 := rfl
    rw [Json.object.sizeOf_spec]
    omega
  | trans _ _ ih ih' => exact Nat.lt_trans ih ih'

/-- What holds of a tree whenever it holds of the trees inside it holds of every tree. -/
theorem induction {P : Json → Prop} (h : ∀ j, (∀ i, Inside i j → P i) → P j) (j : Json) : P j :=
  (measure (sizeOf : Json → Nat)).wf.induction j fun j ih => h j fun i hi => ih i hi.sizeOf_lt

theorem sorted {i j : Json} (h : Inside i j) (hj : j.Sorted) : i.Sorted := by
  induction h with
  | @item j js h =>
    rw [Json.Sorted] at hj
    exact Json.sortedItems_iff.1 hj j h
  | @member m ms h =>
    rw [Json.Sorted] at hj
    exact Json.sortedMembers_iff.1 hj.2 m h
  | trans _ _ ih ih' => exact ih (ih' hj)

theorem found {name : String} {ms : Members Json} {j : Json} (h : Members.find? name ms = some j) :
    Inside j (.object ms) :=
  .member (m := (name, j)) (mem_of_find? h)

theorem objectMembers {name : String} {ms : Members Json} {m : String × Json}
    (h : m ∈ objectMembers (Members.find? name ms)) : Inside m.2 (.object ms) := by
  unfold Decode.objectMembers at h
  split at h
  · next ps hps => exact .trans (.member h) (found hps)
  · cases h

theorem arrayItems {name : String} {ms : Members Json} {j : Json}
    (h : j ∈ arrayItems (Members.find? name ms)) : Inside j (.object ms) := by
  unfold Decode.arrayItems at h
  split at h
  · next js hjs => exact .trans (.item h) (found hjs)
  · cases h

theorem property {holder : Holder} {name : String} {ms : Members Json} {l : Location} {p : Place}
    (h : .place l p ∈ propertyParts holder (Decode.objectMembers (Members.find? name ms))) :
    Inside p.json (.object ms) := by
  obtain ⟨m, hm, ⟨js, hjs, j, hj, rfl⟩ | rfl⟩ := place_mem_propertyParts h
  · have hitem : Inside j m.2 := by
      rw [hjs]
      exact .item hj
    rw [Place.json_ofEntry]
    exact .trans hitem (.objectMembers hm)
  · rw [Place.json_ofEntry]
    exact .objectMembers hm

/-- The places among the parts of a place are further inside. -/
theorem of_mem_parts {p q : Place} {l : Location} (h : .place l q ∈ p.parts) :
    Inside q.json p.json := by
  match p with
  | .tree (.array js) =>
    obtain ⟨j, hj, rfl⟩ := place_mem_itemParts h
    exact .item hj
  | .tree (.object ms) =>
    simp only [Place.parts] at h
    split at h
    · simp only [identifierPart, textPart, propertiesPart, List.mem_cons, reduceCtorEq,
        false_or] at h
      exact property h
    · simp only [identifierPart, textPart, propertiesPart, List.mem_cons, reduceCtorEq,
        false_or] at h
      exact property h
    · simp only [List.cons_append, List.mem_cons, reduceCtorEq, List.mem_append,
        not_place_mem_labelParts, or_false, false_or] at h
      obtain ⟨j, hj, rfl⟩ := place_mem_itemParts h
      exact .arrayItems hj
    · obtain ⟨m, hm, rfl⟩ := place_mem_memberParts h
      exact .member hm
  | .tree .null | .tree (.bool _) | .tree (.number _) | .tree (.string _) => cases h
  | .annotated ms =>
    simp only [Place.parts_annotated, propertiesPart, List.mem_append, List.mem_cons, reduceCtorEq,
      false_or, List.mem_map, Option.mem_toList] at h
    rcases h with ⟨j, hj, e⟩ | h
    · cases e
      exact found hj
    · obtain ⟨l', h⟩ := place_mem_within (List.mem_map.2 h)
      obtain ⟨m, hm, rfl⟩ := place_mem_memberParts h
      exact .objectMembers hm

end Inside

/-! ## The walk -/

namespace Place

/-- What holds of a place whenever it holds of the places among its parts holds of every place. -/
theorem inductionOnParts {P : Place → Prop}
    (h : ∀ p, (∀ l q, .place l q ∈ p.parts → P q) → P p) (p : Place) : P p :=
  (measure fun p : Place => sizeOf p.json).wf.induction p fun p ih =>
    h p fun _ q hq => ih q (Inside.of_mem_parts hq).sizeOf_lt

/-- The demands of a place and of all places inside it, in the order in which they come up. -/
def walk (p : Place) : List Check :=
  p.parts.attach.flatMap fun
    | ⟨.check c, _⟩ => [c]
    | ⟨.place l q, _⟩ => (walk q).map (Check.within l)
termination_by sizeOf p.json
decreasing_by exact (Inside.of_mem_parts (by assumption)).sizeOf_lt

end Place

def Part.walk : Part → List Check
  | check c => [c]
  | place l q => q.walk.map (Check.within l)

theorem Part.walk_within (l : Location) (part : Part) :
    (part.within l).walk = part.walk.map (Check.within l) := by
  cases part <;> simp [within, walk, Function.comp_def]

namespace Place

theorem walk_eq (p : Place) : p.walk = p.parts.flatMap Part.walk := by
  have hparts : p.parts.attach.flatMap (fun part => part.1.walk) = p.parts.flatMap Part.walk := by
    rw [← List.flatMap_map (f := Subtype.val), List.attach_map_subtype_val]
  rw [walk, ← hparts]
  congr 1
  funext ⟨part, hpart⟩
  cases part <;> rfl

/-- `p.At l q`: inside the place `p`, at the location `l`, there is the place `q`. -/
inductive At (p : Place) : Location → Place → Prop where
  | here : At p [] p
  | inside {l l' : Location} {q r : Place} : At p l q → .place l' r ∈ q.parts → At p (l ++ l') r

theorem At.of_part {p q : Place} {l : Location} (hq : .place l q ∈ p.parts) : p.At l q :=
  .inside .here hq

theorem At.trans {p q r : Place} {l l' : Location} (hq : p.At l q) (h : q.At l' r) :
    p.At (l ++ l') r := by
  induction h with
  | here =>
    rw [List.append_nil]
    exact hq
  | inside _ hr ih =>
    rw [← List.append_assoc]
    exact .inside ih hr

/-- In a sorted tree the members of every place are in the order of their names. -/
theorem At.sorted {p q : Place} {l : Location} (h : p.At l q) (hp : p.json.Sorted) :
    q.json.Sorted := by
  induction h with
  | here => exact hp
  | inside _ hr ih => exact (Inside.of_mem_parts hr).sorted ih

theorem At.walk_subset {p q : Place} {l : Location} (h : p.At l q) {c : Check} (hc : c ∈ q.walk) :
    c.within l ∈ p.walk := by
  induction h generalizing c with
  | here => exact hc
  | inside _ hr ih =>
    rw [← Check.within_within]
    refine ih ?_
    rw [walk_eq]
    exact List.mem_flatMap.2 ⟨_, hr, List.mem_map.2 ⟨c, hc, rfl⟩⟩

/-- The walk meets the demands of the places of a tree, each where it belongs, and no others. -/
theorem mem_walk_iff {p : Place} {c : Check} :
    c ∈ p.walk ↔ ∃ l q d, p.At l q ∧ .check d ∈ q.parts ∧ c = d.within l := by
  constructor
  · induction p using inductionOnParts generalizing c with
    | h p ih =>
      intro hc
      rw [walk_eq] at hc
      obtain ⟨part, hpart, hc⟩ := List.mem_flatMap.1 hc
      cases part with
      | check d =>
        cases List.mem_singleton.1 hc
        exact ⟨[], p, c, .here, hpart, rfl⟩
      | place l q =>
        obtain ⟨c', hc', rfl⟩ := List.mem_map.1 hc
        obtain ⟨l', r, d, hr, hd, rfl⟩ := ih l q hpart hc'
        exact ⟨l ++ l', r, d, .trans (.of_part hpart) hr, hd, Check.within_within _ _ _⟩
  · rintro ⟨l, q, d, hq, hd, rfl⟩
    refine hq.walk_subset (c := d) ?_
    rw [walk_eq]
    have hself : d ∈ (Part.check d).walk := List.mem_singleton.2 rfl
    exact List.mem_flatMap.2 ⟨_, hd, hself⟩

/-- All demands of the walk are met if and only if no place is malformed. -/
theorem walk_met_iff {p : Place} :
    (∀ c ∈ p.walk, c.demand.Met) ↔ ∀ l q, p.At l q → ¬ q.Malformed := by
  constructor
  · intro hmet l q hq hmalformed
    obtain ⟨d, hd, hunmet⟩ := malformed_iff.1 hmalformed
    exact hunmet (hmet (d.within l) (mem_walk_iff.2 ⟨l, q, d, hq, hd, rfl⟩))
  · intro hsound c hc
    obtain ⟨l, q, d, hq, hd, rfl⟩ := mem_walk_iff.1 hc
    exact Classical.byContradiction fun hunmet =>
      hsound l q hq (malformed_iff.2 ⟨d, hd, hunmet⟩)

end Place

end Decode

end PagedTraversal
