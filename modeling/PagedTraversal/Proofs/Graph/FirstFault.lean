import PagedTraversal.Proofs.Graph.Places

/-!
# PagedTraversal.Proofs.Graph.FirstFault

When a tree decodes, and the error when it does not. Decoding goes along the walk over the places of
the tree and stops at the first demand that is not met.

* `Decode.Answers`: a computation that fails with the error of the first check that is not met; one
  lemma for each way in which the decoder puts computations together.
* `Decode.reads`: every place is decoded along its walk, by induction on its parts.
* `GraphValue.first_fault_of_ofJson?`: a tree decodes if and only if no place in it is malformed, and
  else the error is that of the first demand of the walk that is not met.
-/

namespace PagedTraversal

namespace Decode

variable {α β : Type}

/-! ## Computations that stop at the first check -/

/-- The error of a computation that fails. -/
def fault? : Except DecodeError α → Option DecodeError
  | .ok _ => none
  | .error e => some e

/-- The computation fails with the error of the first check that is not met, and succeeds if there
is none. -/
def Answers (x : Except DecodeError α) (checks : List Check) : Prop :=
  fault? x = checks.findSome? Check.error?

section Answers

variable {x : Except DecodeError α} {f : α → Except DecodeError β} {cs ds : List Check}

theorem answers_ok (a : α) : Answers (.ok a) [] := rfl

theorem answers_check {c : Check} (h : fault? x = c.error?) : Answers x [c] := by
  rw [Answers, h, List.findSome?_cons]
  cases c.error? <;> rfl

theorem Answers.bind (hx : Answers x cs) (hf : ∀ a, Answers (f a) ds) :
    Answers (x >>= f) (cs ++ ds) := by
  rw [Answers, List.findSome?_append, ← hx]
  cases x with
  | ok a => exact hf a
  | error e => rfl

/-- A last step that cannot fail adds no check. -/
theorem Answers.bind_pure {g : α → β} (hx : Answers x cs) :
    Answers (x >>= fun a => pure (g a)) cs := by
  rw [Answers, ← hx]
  cases x <;> rfl

theorem Answers.map {g : α → β} (hx : Answers x cs) : Answers (x.map g) cs := by
  rw [Answers, ← hx]
  cases x <;> rfl

theorem Answers.within (step : LocationStep) (hx : Answers x cs) :
    Answers (within step x) (cs.map (Check.within [step])) := by
  have hchecks : (cs.map (Check.within [step])).findSome? Check.error? =
      (cs.findSome? Check.error?).map (DecodeError.within step) := by
    rw [List.findSome?_map, List.map_findSome?]
    congr 1
    funext c
    exact c.error?_within step
  rw [Answers, hchecks, ← hx]
  cases x <;> rfl

end Answers

/-! ## Members that are asked for -/

theorem answers_requiredId (name : String) (ms : Members Json) :
    Answers (requiredId name ms) (identifierPart name ms).walk := by
  refine answers_check ?_
  unfold requiredId Check.error?
  split <;> simp_all [Demand.error?, malformed, fault?]

theorem answers_requiredString (name : String) (ms : Members Json) :
    Answers (requiredString name ms) (textPart name ms).walk := by
  refine answers_check ?_
  unfold requiredString Check.error?
  split <;> simp_all [Demand.error?, malformed, fault?]

theorem answers_labelSet (i : Nat) (entry : Json) :
    Answers (labelSet i entry) [⟨[.labels i], .labels entry⟩] := by
  refine answers_check ?_
  cases entry with
  | array items =>
    simp only [labelSet, Check.error?, Demand.error?]
    cases items.mapM Json.string? <;> rfl
  | _ => rfl

theorem answers_labelSets (i : Nat) (entries : List Json) :
    Answers (labelSets i entries) ((labelParts i entries).flatMap Part.walk) := by
  induction entries generalizing i with
  | nil => exact answers_ok []
  | cons entry rest ih => exact (answers_labelSet i entry).bind fun _ => (ih (i + 1)).bind_pure

theorem answers_pathLabels (ms : Members Json) : Answers (pathLabels ms)
    ((labelParts 0 (arrayItems (Members.find? "labels" ms))).flatMap Part.walk) := by
  unfold pathLabels
  cases Members.find? "labels" ms with
  | none => exact answers_ok []
  | some j =>
    cases j with
    | array entries => exact answers_labelSets 0 entries
    | _ => exact answers_ok []

/-! ## Lists and members -/

/-- The place is decoded along its walk. -/
def Reads : Place → Prop
  | .tree j => Answers (value j) (Place.tree j).walk
  | .annotated ms =>
    Answers (annotated ms (member "value" ms) (annotations ms)) (Place.annotated ms).walk

/-- All places among the parts are decoded along their walks. -/
def AllRead (parts : List Part) : Prop := ∀ l q, .place l q ∈ parts → Reads q

namespace AllRead

theorem tail {part : Part} {parts : List Part} (h : AllRead (part :: parts)) : AllRead parts :=
  fun l q hq => h l q (List.mem_cons_of_mem _ hq)

theorem left {parts more : List Part} (h : AllRead (parts ++ more)) : AllRead parts :=
  fun l q hq => h l q (List.mem_append_left _ hq)

theorem right {parts more : List Part} (h : AllRead (parts ++ more)) : AllRead more :=
  fun l q hq => h l q (List.mem_append_right _ hq)

theorem of_within {parts : List Part} {outer : Location}
    (h : AllRead (parts.map (Part.within outer))) : AllRead parts :=
  fun l q hq => h (outer ++ l) q (List.mem_map.2 ⟨_, hq, rfl⟩)

end AllRead

theorem flatMap_walk_within (l : Location) (parts : List Part) :
    (parts.map (Part.within l)).flatMap Part.walk =
      (parts.flatMap Part.walk).map (Check.within l) := by
  rw [List.flatMap_map, List.map_flatMap]
  congr 1
  funext part
  exact part.walk_within l

theorem answers_items (step : Nat → LocationStep) (i : Nat) {js : List Json}
    (h : AllRead (itemParts step i js)) :
    Answers (items step i js) ((itemParts step i js).flatMap Part.walk) := by
  induction js generalizing i with
  | nil => exact answers_ok []
  | cons j rest ih =>
    have hj : Reads (.tree j) := h [step i] _ List.mem_cons_self
    exact (hj.within (step i)).bind fun _ => (ih (i + 1) h.tail).bind_pure

theorem answers_members {ms : Members Json} (h : AllRead (memberParts ms)) :
    Answers (members ms) ((memberParts ms).flatMap Part.walk) := by
  induction ms with
  | nil => exact answers_ok []
  | cons m rest ih =>
    have hm : Reads (.tree m.2) := h [.member m.1] _ List.mem_cons_self
    exact (hm.within (.member m.1)).bind fun _ => (ih h.tail).bind_pure

theorem answers_pathObjects {ms : Members Json}
    (h : AllRead (itemParts .object 0 (arrayItems (Members.find? "objects" ms)))) :
    Answers (pathObjects ms)
      ((itemParts .object 0 (arrayItems (Members.find? "objects" ms))).flatMap Part.walk) := by
  rw [pathObjects_eq]
  cases hfound : Members.find? "objects" ms with
  | none => exact answers_ok []
  | some j =>
    rw [hfound] at h
    cases j with
    | array js => exact answers_items .object 0 h
    | _ => exact answers_ok []

theorem member_of_not_find? {name : String} {ms : Members Json}
    (h : Members.find? name ms = none) : member name ms = .ok (.scalar .null) := by
  induction ms with
  | nil => rfl
  | cons m rest ih =>
    by_cases hn : m.1 = name
    · simp [Members.find?, hn] at h
    · simp only [Members.find?, hn, if_false] at h
      simp [member, hn, ih h]

/-! ## Properties -/

theorem answers_propertyValue {holder : Holder} {j : Json} (h : Reads (.ofEntry holder j)) :
    Answers (propertyValue holder j) (Place.ofEntry holder j).walk := by
  cases j with
  | object ms =>
    rw [Place.ofEntry_object] at h ⊢
    rw [propertyValue_object]
    split at h
    · next hannotated =>
      rw [if_pos hannotated, if_pos hannotated]
      exact h
    · next hannotated =>
      rw [if_neg hannotated, if_neg hannotated]
      exact Answers.map h
  | _ => exact Answers.map h

theorem answers_propertyValues {holder : Holder} (i : Nat) {js : List Json}
    (h : AllRead (entryParts holder i js)) :
    Answers (propertyValues holder i js) ((entryParts holder i js).flatMap Part.walk) := by
  induction js generalizing i with
  | nil => exact answers_ok []
  | cons j rest ih =>
    rw [propertyValues_cons]
    have hj := answers_propertyValue (h [.item i] _ List.mem_cons_self)
    exact (hj.within (.item i)).bind fun _ => (ih (i + 1) h.tail).bind_pure

theorem answers_property {holder : Holder} {j : Json} (h : AllRead (valueParts holder j)) :
    Answers (property holder j) ((valueParts holder j).flatMap Part.walk) := by
  have hone : (∀ js, j ≠ .array js) → Answers (property holder j)
      ((valueParts holder j).flatMap Part.walk) := by
    intro hj
    have hparts : valueParts holder j = [.place [] (.ofEntry holder j)] := by
      cases j with
      | array js => exact absurd rfl (hj js)
      | _ => rfl
    have hvalue : property holder j = (propertyValue holder j).map ([·]) := by
      cases j with
      | array js => exact absurd rfl (hj js)
      | _ => rfl
    rw [hparts] at h ⊢
    have hentry := answers_propertyValue (h [] _ List.mem_cons_self)
    rw [hvalue, List.flatMap_singleton, Part.walk, Check.map_within_nil]
    exact hentry.map
  cases j with
  | array js =>
    rw [property_array]
    exact answers_propertyValues 0 h
  | _ => exact hone fun js hjs => by cases hjs

theorem answers_namedProperties {holder : Holder} {ms : Members Json}
    (h : AllRead (propertyParts holder ms)) :
    Answers (namedProperties holder ms) ((propertyParts holder ms).flatMap Part.walk) := by
  induction ms with
  | nil => exact answers_ok []
  | cons m rest ih =>
    obtain ⟨name, j⟩ := m
    have hj : AllRead (valueParts holder j) := h.left.of_within
    have hrest : AllRead (propertyParts holder rest) := h.right
    have hwalk : (propertyParts holder ((name, j) :: rest)).flatMap Part.walk =
        ((valueParts holder j).flatMap Part.walk).map (Check.within [.property name]) ++
          (propertyParts holder rest).flatMap Part.walk := by
      rw [← flatMap_walk_within, ← List.flatMap_append]
      rfl
    rw [namedProperties_cons, hwalk]
    exact ((answers_property hj).within (.property name)).bind fun _ => (ih hrest).bind_pure

/-- The member under `properties` is an object, `null` or missing, and then its members are read. -/
theorem answers_properties {holder : Holder} {ms : Members Json}
    (h : AllRead (propertyParts holder (objectMembers (Members.find? "properties" ms)))) :
    Answers (properties holder ms) ((propertiesPart ms).walk ++
      (propertyParts holder (objectMembers (Members.find? "properties" ms))).flatMap
        Part.walk) := by
  rw [properties_eq]
  unfold propertiesPart
  cases hfound : Members.find? "properties" ms with
  | none => exact answers_ok []
  | some j =>
    rw [hfound] at h
    cases j with
    | object ps => exact (answers_namedProperties h)
    | _ => rfl

theorem answers_annotations {ms : Members Json}
    (h : AllRead (memberParts (objectMembers (Members.find? "properties" ms)))) :
    Answers (annotations ms) ((propertiesPart ms).walk ++
      ((memberParts (objectMembers (Members.find? "properties" ms))).flatMap Part.walk).map
        (Check.within [.member "properties"])) := by
  rw [annotations_eq]
  unfold propertiesPart
  cases hfound : Members.find? "properties" ms with
  | none => exact answers_ok []
  | some j =>
    rw [hfound] at h
    cases j with
    | object ps => exact (answers_members h).within (.member "properties")
    | _ => rfl

/-! ## Trees -/

theorem answers_pairs {objects labels : Nat} {x : Except DecodeError α} {cs : List Check}
    (h : Answers x cs) :
    Answers (if objects = labels then x else .error (.unpaired objects labels))
      (⟨[], .pairs objects labels⟩ :: cs) := by
  by_cases hpaired : objects = labels
  · rw [if_pos hpaired, Answers, h, List.findSome?_cons]
    simp [Check.error?, Demand.error?, hpaired]
  · rw [if_neg hpaired, Answers, List.findSome?_cons]
    simp [Check.error?, Demand.error?, hpaired, fault?]

theorem reads_object {ms : Members Json} (h : AllRead (Place.tree (.object ms)).parts) :
    Reads (.tree (.object ms)) := by
  rw [Reads, Place.walk_eq, value]
  unfold Place.parts at h ⊢
  cases hshape : Shape.ofMembers ms with
  | vertex =>
    simp only [hshape] at h ⊢
    have hproperties := answers_properties h.tail.tail.tail
    exact (answers_requiredId "id" ms).bind fun _ => (answers_requiredString "label" ms).bind
      fun _ => hproperties.bind_pure
  | edge =>
    simp only [hshape] at h ⊢
    have hproperties := answers_properties h.tail.tail.tail.tail.tail.tail.tail
    exact (answers_requiredId "id" ms).bind fun _ => (answers_requiredString "label" ms).bind
      fun _ => (answers_requiredId "outV" ms).bind fun _ =>
      (answers_requiredString "outVLabel" ms).bind fun _ => (answers_requiredId "inV" ms).bind
      fun _ => (answers_requiredString "inVLabel" ms).bind fun _ => hproperties.bind_pure
  | path objects labels =>
    simp only [hshape] at h ⊢
    rw [List.cons_append, List.flatMap_cons, List.flatMap_append]
    refine answers_pairs ?_
    exact (answers_pathObjects h.tail.left).bind fun _ => (answers_pathLabels ms).bind_pure
  | map =>
    simp only [hshape] at h ⊢
    exact (answers_members h).map

theorem reads_annotated {ms : Members Json} (h : AllRead (Place.annotated ms).parts) :
    Reads (.annotated ms) := by
  rw [Place.parts_annotated] at h
  rw [Reads, Place.walk_eq, Place.parts_annotated]
  have hproperties := answers_annotations h.right.tail.of_within
  rw [List.flatMap_append, List.flatMap_cons, flatMap_walk_within]
  refine Answers.bind ?_ fun _ => hproperties.bind_pure
  cases hfound : Members.find? "value" ms with
  | none =>
    rw [member_of_not_find? hfound]
    exact answers_ok _
  | some j =>
    rw [member_of_find? hfound]
    have hj : Reads (.tree j) := by
      rw [hfound] at h
      exact h.left [.member "value"] _ List.mem_cons_self
    simpa [Part.walk] using hj.within (.member "value")

/-- Every place is decoded along its walk. -/
theorem reads (p : Place) : Reads p := by
  induction p using Place.inductionOnParts with
  | h p ih =>
    match p with
    | .annotated ms => exact reads_annotated ih
    | .tree (.object ms) => exact reads_object ih
    | .tree (.array js) =>
      rw [Reads, Place.walk_eq, value]
      exact (answers_items .item 0 ih).map
    | .tree .null | .tree (.bool _) | .tree (.number _) | .tree (.string _) =>
      rw [Reads, Place.walk_eq]
      exact answers_ok _

theorem findSome?_eq_none_iff_met {checks : List Check} :
    checks.findSome? Check.error? = none ↔ ∀ c ∈ checks, c.demand.Met := by
  rw [List.findSome?_eq_none_iff]
  exact forall₂_congr fun c _ => (Demand.met_iff c.location).symm

/-- The checks up to and with the first one that is not met, and its error. -/
theorem findSome?_eq_some_iff_unmet {checks : List Check} {e : DecodeError} :
    checks.findSome? Check.error? = some e ↔ ∃ before c after, checks = before ++ c :: after ∧
      (∀ b ∈ before, b.demand.Met) ∧ c.error? = some e := by
  rw [List.findSome?_eq_some_iff]
  constructor
  · rintro ⟨before, c, after, hchecks, herror, hbefore⟩
    exact ⟨before, c, after, hchecks,
      fun b hb => (Demand.met_iff b.location).2 (hbefore b hb), herror⟩
  · rintro ⟨before, c, after, hchecks, hbefore, herror⟩
    exact ⟨before, c, after, hchecks, herror,
      fun b hb => (Demand.met_iff b.location).1 (hbefore b hb)⟩

/-- The error `e` is that of the first demand of the walk over the place that is not met. It is
asked by a malformed place `q`, found at the location `l`, which is where the error points to. -/
def Place.FirstFault (p : Place) (e : DecodeError) : Prop :=
  ∃ before l q d after, p.walk = before ++ d.within l :: after ∧ (∀ c ∈ before, c.demand.Met) ∧
    p.At l q ∧ .check d ∈ q.parts ∧ q.Malformed ∧ (d.within l).error? = some e

theorem Place.firstFault_iff {p : Place} {e : DecodeError} :
    p.FirstFault e ↔ p.walk.findSome? Check.error? = some e := by
  rw [findSome?_eq_some_iff_unmet]
  constructor
  · rintro ⟨before, l, q, d, after, hwalk, hbefore, -, -, -, herror⟩
    exact ⟨before, d.within l, after, hwalk, hbefore, herror⟩
  · rintro ⟨before, c, after, hwalk, hbefore, herror⟩
    have hc : c ∈ p.walk := by
      rw [hwalk]
      exact List.mem_append_right _ List.mem_cons_self
    obtain ⟨l, q, d, hq, hd, rfl⟩ := Place.mem_walk_iff.1 hc
    have hunmet : ¬ d.demand.Met := by
      intro hmet
      have hnone := (Demand.met_iff (d.within l).location).1 hmet
      rw [Check.error?] at herror
      exact absurd (hnone.symm.trans herror) (by simp)
    exact ⟨before, l, q, d, after, hwalk, hbefore, hq, hd, Place.malformed_iff.2 ⟨d, hd, hunmet⟩,
      herror⟩

end Decode

namespace GraphValue

open Decode

/-- A tree decodes if and only if no place in it is malformed, and else the error is that of the
first fault of the walk over it. The walk meets the demands of the places of the tree and no others,
and the members of an object in the order in which it keeps them, which in a sorted tree is that of
their names at every place. -/
theorem first_fault_of_ofJson? (j : Json) :
    ((∃ v, ofJson? j = .ok v) ↔ ∀ l p, (Place.tree j).At l p → ¬ p.Malformed) ∧
    (∀ e, ofJson? j = .error e ↔ (Place.tree j).FirstFault e) ∧
    (∀ c, c ∈ (Place.tree j).walk ↔
      ∃ l p d, (Place.tree j).At l p ∧ .check d ∈ p.parts ∧ c = d.within l) ∧
    (j.Sorted → ∀ l p, (Place.tree j).At l p → p.json.Sorted) := by
  have hreads : fault? (ofJson? j) = (Place.tree j).walk.findSome? Check.error? := reads (.tree j)
  refine ⟨?success, fun e => ?fault, fun c => Place.mem_walk_iff, fun hj l p hp => hp.sorted hj⟩
  case success =>
    rw [← Place.walk_met_iff, ← findSome?_eq_none_iff_met, ← hreads]
    cases ofJson? j <;> simp [fault?]
  case fault =>
    rw [Place.firstFault_iff, ← hreads]
    cases ofJson? j <;> simp [fault?]

end GraphValue

end PagedTraversal
