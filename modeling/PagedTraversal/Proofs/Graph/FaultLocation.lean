import PagedTraversal.Proofs.Graph.AccessPath
import PagedTraversal.Proofs.Graph.FirstFault

/-!
# PagedTraversal.Proofs.Graph.FaultLocation

The location of an error leads to what is wrong. In a tree whose names are plain, the field of an
error reads as an access path, the path leads through the tree to an object or an array, and what
stands or is missing there under the last name or index is what the reason says.

* `Decode.Part.Leads`: the location of a part leads to what the part is about; one lemma for each
  kind of part.
* `Decode.Place.At.leads`: the location of a place leads to its tree, by induction on the way there.
* `GraphValue.error_leads_to_culprit`: the same of the error of a tree.
-/

namespace PagedTraversal

namespace Json

mutual

/-- Every name of a member in the tree satisfies `P`. -/
def AllNames (P : String → Prop) : Json → Prop
  | .array items => AllNamesItems P items
  | .object members => AllNamesMembers P members
  | _ => True
termination_by structural j => j

def AllNamesItems (P : String → Prop) : List Json → Prop
  | [] => True
  | j :: rest => AllNames P j ∧ AllNamesItems P rest
termination_by structural js => js

def AllNamesMembers (P : String → Prop) : Members Json → Prop
  | [] => True
  | (name, j) :: rest => P name ∧ AllNames P j ∧ AllNamesMembers P rest
termination_by structural ms => ms

end

variable {P : String → Prop}

theorem allNamesItems_iff {js : List Json} : AllNamesItems P js ↔ ∀ j ∈ js, AllNames P j := by
  induction js with
  | nil => simp [AllNamesItems]
  | cons j rest ih => simp [AllNamesItems, ih]

theorem allNamesMembers_iff {ms : Members Json} :
    AllNamesMembers P ms ↔ ∀ m ∈ ms, P m.1 ∧ AllNames P m.2 := by
  induction ms with
  | nil => simp [AllNamesMembers]
  | cons m rest ih => simp [AllNamesMembers, ih, and_assoc]

end Json

/-- What the reason says of the member or item that is found. -/
def Reason.Blames : Reason → Option Json → Prop
  | missing, found => found = none ∨ found = some .null
  | notString, found => ∃ j, found = some j ∧ j ≠ .null ∧ ∀ s, j ≠ .string s
  | notObject, found => ∃ j, found = some j ∧ j ≠ .null ∧ ∀ ms, j ≠ .object ms
  | labelNotString, found => ∃ items, found = some (.array items) ∧
      ∃ item ∈ items, ∀ s, item ≠ .string s
  | notLabels, found => ∃ j, found = some j ∧ j ≠ .null ∧ (∀ s, j ≠ .string s) ∧
      ∀ items, j ≠ .array items
  | _, _ => False

/-- Members belong to objects and items to arrays. -/
def Access.Fits : Access → Json → Prop
  | member _, .object _ => True
  | item _, .array _ => True
  | _, _ => False

/-- The path leads to an object or array in the tree, and `found` is what stands there as the member
or item that the path names last. -/
def Json.Finds (j : Json) (path : AccessPath) (found : Option Json) : Prop :=
  ∃ front last parent, path = front ++ [last] ∧ j.at? front = some parent ∧ last.Fits parent ∧
    parent.access? last = found

theorem Json.Finds.within {i j : Json} {outer path : AccessPath} {found : Option Json}
    (h : i.Finds path found) (hi : j.at? outer = some i) : j.Finds (outer ++ path) found := by
  obtain ⟨front, last, parent, rfl, hparent, hfits, hfound⟩ := h
  exact ⟨outer ++ front, last, parent, (List.append_assoc _ _ _).symm,
    Json.at?_of_at? hi hparent, hfits, hfound⟩

namespace Decode

theorem Inside.allNames {P : String → Prop} {i j : Json} (h : Inside i j) (hj : j.AllNames P) :
    i.AllNames P := by
  induction h with
  | @item j js h =>
    rw [Json.AllNames] at hj
    exact Json.allNamesItems_iff.1 hj j h
  | @member m ms h =>
    rw [Json.AllNames] at hj
    exact (Json.allNamesMembers_iff.1 hj m h).2
  | trans _ _ ih ih' => exact ih (ih' hj)

/-! ## Demands -/

/-- What stands at the member that a demand is about. -/
def Demand.found : Demand → Option Json
  | identifier found => found
  | text found => found
  | properties found => found
  | labels entry => some entry
  | pairs _ _ => none

/-- The error of a demand blames what was found, or tells that a path does not go together. -/
theorem Demand.error?_cases {d : Demand} {location : Location} {e : DecodeError}
    (h : d.error? location = some e) :
    (∃ reason, e = .malformed location reason ∧ reason.Blames d.found ∧ ∀ n m, d ≠ .pairs n m) ∨
      ∃ n m, d = .pairs n m ∧ n ≠ m ∧ e = .unpaired n m := by
  cases d with
  | identifier found =>
    rcases found with _ | ⟨_ | _ | _ | _ | _ | _⟩ <;> cases h <;> simp [found, Reason.Blames]
  | text found =>
    rcases found with _ | ⟨_ | _ | _ | _ | _ | _⟩ <;> cases h <;> simp [found, Reason.Blames]
  | properties found =>
    rcases found with _ | ⟨_ | _ | _ | _ | _ | _⟩ <;> cases h <;> simp [found, Reason.Blames]
  | labels entry =>
    cases entry with
    | array items =>
      have hunmet : ¬ (Demand.labels (.array items)).Met := by
        intro hmet
        rw [(Demand.met_iff location).1 hmet] at h
        cases h
      simp only [error?] at h
      split at h <;> cases h
      exact .inl ⟨.labelNotString, rfl, by simpa [found, Reason.Blames, Met] using hunmet, by simp⟩
    | _ => cases h <;> simp [found, Reason.Blames]
  | pairs n m =>
    simp only [error?] at h
    split at h
    · cases h
    · next hne =>
      cases h
      exact .inr ⟨n, m, rfl, hne, rfl⟩

/-! ## Parts -/

/-- The location of the part leads to what the part is about. The numbers of objects and labels are
no member. -/
def Part.Leads (j : Json) : Part → Prop
  | check c => (∀ s ∈ c.location, s.Plain) ∧
      ((∃ n m, c.demand = .pairs n m) ∨ j.Finds c.location.accesses c.demand.found)
  | place l q => (∀ s ∈ l, s.Plain) ∧ j.at? l.accesses = some q.json

theorem accesses_append (l more : Location) :
    Location.accesses (l ++ more) = l.accesses ++ Location.accesses more :=
  List.flatMap_append

theorem Part.Leads.within {i j : Json} {part : Part} {outer : Location} (h : part.Leads i)
    (hplain : ∀ s ∈ outer, s.Plain) (hi : j.at? outer.accesses = some i) :
    (part.within outer).Leads j := by
  cases part with
  | check c =>
    obtain ⟨hlocation, hfinds⟩ := h
    refine ⟨List.forall_mem_append.2 ⟨hplain, hlocation⟩, hfinds.imp_right fun hfinds => ?_⟩
    have hwithin := hfinds.within hi
    rw [← accesses_append] at hwithin
    exact hwithin
  | place l q =>
    obtain ⟨hlocation, hq⟩ := h
    refine ⟨List.forall_mem_append.2 ⟨hplain, hlocation⟩, ?_⟩
    rw [accesses_append]
    exact Json.at?_of_at? hi hq

section Parts

variable {holder : Holder} {js : List Json} {ms : Members Json} {part : Part} {name : String}

theorem leads_items (h : part ∈ itemParts .item 0 js) : part.Leads (.array js) := by
  obtain ⟨n, j, hj, rfl⟩ := mem_indexed_iff.1 h
  rw [Nat.zero_add]
  refine ⟨by simp [LocationStep.Plain], ?_⟩
  simp [Location.accesses, LocationStep.accesses, Json.at?, Json.access?, hj, Place.json]

theorem leads_objects {os : List Json} (hos : Members.find? "objects" ms = some (.array os))
    (h : part ∈ itemParts .object 0 os) : part.Leads (.object ms) := by
  obtain ⟨n, j, hj, rfl⟩ := mem_indexed_iff.1 h
  rw [Nat.zero_add]
  refine ⟨by simp [LocationStep.Plain], ?_⟩
  simp [Location.accesses, LocationStep.accesses, Json.at?, Json.access?, hos, hj, Place.json]

theorem leads_labels {ls : List Json} (hls : Members.find? "labels" ms = some (.array ls))
    (h : part ∈ labelParts 0 ls) : part.Leads (.object ms) := by
  obtain ⟨n, entry, hentry, rfl⟩ := mem_indexed_iff.1 h
  rw [Nat.zero_add]
  have hlabels : (Json.object ms).at? [.member "labels"] = some (.array ls) := by
    simp [Json.at?, Json.access?, hls]
  exact ⟨by simp [LocationStep.Plain], .inr ⟨_, .item n, .array ls, rfl, hlabels, trivial, hentry⟩⟩

theorem leads_members (hsorted : Members.Sorted ms) (hnames : ∀ m ∈ ms, PlainName m.1)
    (h : part ∈ memberParts ms) : part.Leads (.object ms) := by
  obtain ⟨m, hm, rfl⟩ := List.mem_map.1 h
  refine ⟨by simpa [LocationStep.Plain] using hnames m hm, ?_⟩
  simp [Location.accesses, LocationStep.accesses, Json.at?, Json.access?,
    Members.find?_of_mem hsorted hm, Place.json]

theorem leads_values {j : Json} (h : part ∈ valueParts holder j) : part.Leads j := by
  unfold valueParts at h
  split at h
  · next js =>
    obtain ⟨n, k, hk, rfl⟩ := mem_indexed_iff.1 h
    rw [Nat.zero_add]
    refine ⟨by simp [LocationStep.Plain], ?_⟩
    simp [Location.accesses, LocationStep.accesses, Json.at?, Json.access?, hk]
  · cases List.mem_singleton.1 h
    exact ⟨by simp, by simp [Location.accesses, Json.at?]⟩

theorem leads_properties {ps : Members Json} (hsorted : Members.Sorted ps)
    (hnames : ∀ m ∈ ps, PlainName m.1) (hps : Members.find? "properties" ms = some (.object ps))
    (h : part ∈ propertyParts holder ps) : part.Leads (.object ms) := by
  obtain ⟨m, hm, h⟩ := List.mem_flatMap.1 h
  obtain ⟨part, hpart, rfl⟩ := List.mem_map.1 h
  refine (leads_values hpart).within (by simpa [LocationStep.Plain] using hnames m hm) ?_
  simp [Location.accesses, LocationStep.accesses, Json.at?, Json.access?, hps,
    Members.find?_of_mem hsorted hm]

/-- A demand on a member of an object. -/
theorem leads_check (hname : PlainName name) {d : Demand} (hd : d.found = Members.find? name ms) :
    (Part.check ⟨[.member name], d⟩).Leads (.object ms) :=
  ⟨by simpa [LocationStep.Plain] using hname,
    .inr ⟨[], .member name, .object ms, rfl, rfl, trivial, hd.symm⟩⟩

end Parts

/-! ## Places -/

/-- A tree with its members in order and under plain names. -/
structure Legible (j : Json) : Prop where
  sorted : j.Sorted
  plainNames : j.AllNames PlainName

theorem Legible.inside {i j : Json} (hj : Legible j) (h : Inside i j) : Legible i :=
  ⟨h.sorted hj.sorted, h.allNames hj.plainNames⟩

theorem Legible.members {ms : Members Json} (h : Legible (.object ms)) :
    Members.Sorted ms ∧ ∀ m ∈ ms, PlainName m.1 := by
  obtain ⟨hsorted, hnames⟩ := h
  rw [Json.Sorted] at hsorted
  rw [Json.AllNames, Json.allNamesMembers_iff] at hnames
  exact ⟨hsorted.1, fun m hm => (hnames m hm).1⟩

section Place

variable {ms : Members Json} {part : Part} {holder : Holder}

theorem leads_of_mem_properties (h : Legible (.object ms))
    (hpart : part ∈ propertyParts holder (objectMembers (Members.find? "properties" ms))) :
    part.Leads (.object ms) := by
  unfold objectMembers at hpart
  split at hpart
  · next ps hps =>
    obtain ⟨hsorted, hnames⟩ := (h.inside (Inside.found hps)).members
    exact leads_properties hsorted hnames hps hpart
  · cases hpart

theorem leads_of_mem_annotated (h : Legible (.object ms))
    (hpart : part ∈ (Place.annotated ms).parts) : part.Leads (.object ms) := by
  rw [Place.parts_annotated] at hpart
  rcases List.mem_append.1 hpart with hpart | hpart
  · obtain ⟨j, hj, rfl⟩ := List.mem_map.1 hpart
    have hj : Members.find? "value" ms = some j := Option.mem_toList.1 hj
    have hplain : PlainName "value" := by decide
    refine ⟨by simpa [LocationStep.Plain] using hplain, ?_⟩
    simp [Location.accesses, LocationStep.accesses, Json.at?, Json.access?, hj, Place.json]
  · rcases List.mem_cons.1 hpart with rfl | hpart
    · exact leads_check (by decide) rfl
    · obtain ⟨inner, hinner, rfl⟩ := List.mem_map.1 hpart
      unfold objectMembers at hinner
      split at hinner
      · next ps hps =>
        obtain ⟨hsorted, hnames⟩ := (h.inside (Inside.found hps)).members
        have hplain : PlainName "properties" := by decide
        refine (leads_members hsorted hnames hinner).within
          (by simpa [LocationStep.Plain] using hplain) ?_
        simp [Location.accesses, LocationStep.accesses, Json.at?, Json.access?, hps]
      · cases hinner

theorem leads_of_mem_object (h : Legible (.object ms))
    (hpart : part ∈ (Place.tree (.object ms)).parts) : part.Leads (.object ms) := by
  unfold Place.parts at hpart
  cases hshape : Shape.ofMembers ms with
  | vertex =>
    simp only [hshape, List.mem_cons] at hpart
    rcases hpart with rfl | rfl | rfl | hpart
    · exact leads_check (by decide) rfl
    · exact leads_check (by decide) rfl
    · exact leads_check (by decide) rfl
    · exact leads_of_mem_properties h hpart
  | edge =>
    simp only [hshape, List.mem_cons] at hpart
    rcases hpart with rfl | rfl | rfl | rfl | rfl | rfl | rfl | hpart
    · exact leads_check (by decide) rfl
    · exact leads_check (by decide) rfl
    · exact leads_check (by decide) rfl
    · exact leads_check (by decide) rfl
    · exact leads_check (by decide) rfl
    · exact leads_check (by decide) rfl
    · exact leads_check (by decide) rfl
    · exact leads_of_mem_properties h hpart
  | path objects labels =>
    obtain ⟨os, ls, hos, hls, -, -⟩ := Shape.ofMembers_eq_path hshape
    simp only [hshape, hos, hls, arrayItems, List.cons_append, List.mem_cons,
      List.mem_append] at hpart
    rcases hpart with rfl | hpart | hpart
    · exact ⟨by simp, .inl ⟨objects, labels, rfl⟩⟩
    · exact leads_objects hos hpart
    · exact leads_labels hls hpart
  | map =>
    simp only [hshape] at hpart
    obtain ⟨hsorted, hnames⟩ := h.members
    exact leads_members hsorted hnames hpart

end Place

theorem leads_of_mem_parts {p : Place} (h : Legible p.json) {part : Part} (hpart : part ∈ p.parts) :
    part.Leads p.json := by
  match p with
  | .annotated ms => exact leads_of_mem_annotated h hpart
  | .tree (.object ms) => exact leads_of_mem_object h hpart
  | .tree (.array js) => exact leads_items hpart
  | .tree .null | .tree (.bool _) | .tree (.number _) | .tree (.string _) => cases hpart

/-- The location of a place leads to its tree. -/
theorem Place.At.leads {p q : Place} {l : Location} (h : p.At l q) (hp : Legible p.json) :
    Legible q.json ∧ (Part.place l q).Leads p.json := by
  induction h with
  | here => exact ⟨hp, by simp, by simp [Location.accesses, Json.at?]⟩
  | @inside l l' q r _ hr ih =>
    obtain ⟨hq, hplain, hlocation⟩ := ih
    have hpart := leads_of_mem_parts hq hr
    exact ⟨hq.inside (Inside.of_mem_parts hr), hpart.within hplain hlocation⟩

/-- The error of the first fault points at what it blames. -/
theorem Place.FirstFault.leads {p : Place} (hp : Legible p.json) {l : Location} {reason : Reason}
    (h : p.FirstFault (.malformed l reason)) :
    (∀ s ∈ l, s.Plain) ∧ ∃ found, p.json.Finds l.accesses found ∧ reason.Blames found := by
  obtain ⟨-, l', q, d, -, -, -, hq, hd, -, herror⟩ := h
  obtain ⟨hlegible, hplain, hlocation⟩ := hq.leads hp
  obtain ⟨hcheck, hfinds⟩ := (leads_of_mem_parts hlegible hd).within hplain hlocation
  rcases Demand.error?_cases herror with ⟨reason, e, hblames, hnone⟩ | ⟨n, m, -, -, e⟩ <;> cases e
  exact ⟨hcheck, _, hfinds.resolve_left fun ⟨n, m, e⟩ => hnone n m e, hblames⟩

/-- The counts of objects and labels are asked for where a tree is shaped like a path. -/
theorem Place.shape_of_pairs {p : Place} {l : Location} {n m : Nat}
    (h : .check ⟨l, .pairs n m⟩ ∈ p.parts) :
    ∃ ms, p = .tree (.object ms) ∧ Shape.ofMembers ms = .path n m := by
  match p with
  | .tree (.object ms) =>
    refine ⟨ms, rfl, ?_⟩
    unfold Place.parts at h
    cases hshape : Shape.ofMembers ms with
    | vertex =>
      simp [hshape, identifierPart, textPart, propertiesPart, not_check_mem_propertyParts] at h
    | edge =>
      simp [hshape, identifierPart, textPart, propertiesPart, not_check_mem_propertyParts] at h
    | path objects labels =>
      simp only [hshape, List.cons_append, List.mem_cons, Part.check.injEq, Check.mk.injEq,
        Demand.pairs.injEq, List.mem_append, not_check_mem_itemParts, false_or] at h
      rcases h with ⟨-, rfl, rfl⟩ | h
      · rfl
      · obtain ⟨k, j, hj, e⟩ := mem_indexed h
        cases e
    | map => simp [hshape, not_check_mem_memberParts] at h
  | .tree (.array js) => exact absurd h not_check_mem_itemParts
  | .tree .null | .tree (.bool _) | .tree (.number _) | .tree (.string _) => cases h
  | .annotated ms =>
    have hmembers : ∀ c, .check c ∉ (memberParts (objectMembers
        (Members.find? "properties" ms))).map (Part.within [.member "properties"]) :=
      fun c => not_check_mem_within fun c => not_check_mem_memberParts
    simp [Place.parts_annotated, propertiesPart, hmembers] at h

end Decode

namespace GraphValue

open Decode

/-- The tree holds, at a place that is decoded, a path with the given numbers of objects and
labels. -/
def HasPath (j : Json) (n m : Nat) : Prop :=
  ∃ l ms objects labels, (Place.tree j).At l (.tree (.object ms)) ∧
    Shape.ofMembers ms = .path n m ∧
    Members.find? "objects" ms = some (.array objects) ∧ objects.length = n ∧
    Members.find? "labels" ms = some (.array labels) ∧ labels.length = m

/-- The field of an error, read as an access path, leads to what the reason blames; and numbers of
objects and labels that differ are those of a path in the tree. -/
theorem error_leads_to_culprit {j : Json} (hsorted : j.Sorted) (hnames : j.AllNames PlainName) :
    (∀ l reason, ofJson? j = .error (.malformed l reason) →
      ∃ path found, AccessPath.ofText? l.text = some path ∧ j.Finds path found ∧
        reason.Blames found) ∧
    (∀ n m, ofJson? j = .error (.unpaired n m) → n ≠ m ∧ HasPath j n m) := by
  have hlegible : Legible (Place.tree j).json := ⟨hsorted, hnames⟩
  have hfault : ∀ e, ofJson? j = .error e → (Place.tree j).FirstFault e := by
    intro e he
    rw [Place.firstFault_iff, ← reads (.tree j)]
    exact congrArg fault? he
  refine ⟨fun l reason h => ?_, fun n m h => ?_⟩
  · obtain ⟨hplain, found, hfinds, hblames⟩ := (hfault _ h).leads hlegible
    have hne : l ≠ [] := by
      rintro rfl
      obtain ⟨front, last, -, e, -⟩ := hfinds
      simp [Location.accesses] at e
    exact ⟨l.accesses, found, AccessPath.ofText?_text hne hplain, hfinds, hblames⟩
  · obtain ⟨-, l, q, ⟨location, demand⟩, -, -, -, hq, hd, -, herror⟩ := hfault _ h
    rcases Demand.error?_cases herror with ⟨reason, e, -⟩ | ⟨n, m, rfl, hne, e⟩ <;> cases e
    obtain ⟨ms, rfl, hshape⟩ := Place.shape_of_pairs hd
    obtain ⟨objects, labels, hobjects, hlabels, hn, hm⟩ := Shape.ofMembers_eq_path hshape
    exact ⟨hne, l, ms, objects, labels, hq, hshape, hobjects, hn, hlabels, hm⟩

/-- A list that holds a path over a vertex, one of whose friends is a vertex without identifier. -/
def friendWithoutId : Json :=
  .array
    [.bool true,
      .object
        [("labels", .array [.string "a"]),
          ("objects", .array
            [.object
              [("id", .number (.ofInt64 1)), ("label", .string "person"),
                ("properties", .object
                  [("friend", .array
                    [.object [("value", .object
                      [("label", .string "person"), ("type", .string "vertex")])]])]),
                ("type", .string "vertex")]])]]

theorem error_leads_to_culprit_friend :
    ∃ l, ofJson? friendWithoutId = .error (.malformed l .missing) ∧
      l.text = "[1].objects[0].properties.friend[0].value.id" ∧
      ∃ path found, AccessPath.ofText? l.text = some path ∧ friendWithoutId.Finds path found ∧
        Reason.missing.Blames found := by
  have hsorted : friendWithoutId.Sorted := by
    simp only [friendWithoutId, Json.Sorted, Json.SortedItems, Json.SortedMembers, Members.Sorted]
    decide
  have hnames : friendWithoutId.AllNames PlainName := by
    simp [friendWithoutId, Json.AllNames, Json.AllNamesItems, Json.AllNamesMembers]
    decide
  have herror : ofJson? friendWithoutId = .error (.malformed
      [.item 1, .object 0, .property "friend", .item 0, .member "value", .member "id"]
      .missing) := rfl
  exact ⟨_, herror, by decide, (error_leads_to_culprit hsorted hnames).1 _ _ herror⟩

end GraphValue

end PagedTraversal
