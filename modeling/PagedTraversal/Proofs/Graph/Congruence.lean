import PagedTraversal.Proofs.Graph.Equality
import PagedTraversal.Proofs.Graph.FirstFault

/-!
# PagedTraversal.Proofs.Graph.Congruence

Decoding respects equality: equal trees decode to equal values, or fail with the same error.

The two decodings run in step. `Decode.Agree` says of two computations that both succeed, with
related results, or both fail with one error; each way of putting computations together keeps it.
A tree is `Respected` if decoding it agrees with decoding any equal tree, and every tree is, by
induction on the trees inside it.

* `Decode.respected`: equal trees decode alike.
* `GraphValue.ofJson?_respects_equality`: decoding as a function on trees up to equality.
-/

namespace PagedTraversal

namespace Decode

variable {α β α' β' : Type}

/-- Both computations succeed with related results, or both fail with one error. -/
def Agree (R : α → β → Prop) : Except DecodeError α → Except DecodeError β → Prop
  | .ok a, .ok b => R a b
  | .error e, .error f => e = f
  | _, _ => False

section Agree

variable {R : α → β → Prop} {S : α' → β' → Prop} {x : Except DecodeError α}
  {y : Except DecodeError β}

theorem Agree.bind (h : Agree R x y) {f : α → Except DecodeError α'} {g : β → Except DecodeError β'}
    (hf : ∀ a b, R a b → Agree S (f a) (g b)) : Agree S (x >>= f) (y >>= g) := by
  cases x <;> cases y <;> first | exact h.elim | skip
  · exact h
  · exact hf _ _ h

theorem Agree.map (h : Agree R x y) {f : α → α'} {g : β → β'} (hf : ∀ a b, R a b → S (f a) (g b)) :
    Agree S (x.map f) (y.map g) := by
  cases x <;> cases y <;> first | exact h.elim | skip
  · exact h
  · exact hf _ _ h

/-- A last step that cannot fail. -/
theorem Agree.bind_pure (h : Agree R x y) {f : α → α'} {g : β → β'}
    (hf : ∀ a b, R a b → S (f a) (g b)) :
    Agree S (x >>= fun a => pure (f a)) (y >>= fun b => pure (g b)) :=
  h.bind fun a b hab => hf a b hab

theorem Agree.within (step : LocationStep) (h : Agree R x y) :
    Agree R (within step x) (within step y) := by
  cases x <;> cases y <;> first | exact h.elim | skip
  · exact congrArg (DecodeError.within step) h
  · exact h

theorem agree_of_eq {x y : Except DecodeError α} (h : x = y) : Agree (· = ·) x y := by
  subst h
  cases x <;> exact rfl

end Agree

/-! ## Members that are asked for -/

theorem mapM_string?_congr {js ks : List Json} (h : Json.equalItems js ks = true) :
    js.mapM Json.string? = ks.mapM Json.string? := by
  induction js generalizing ks with
  | nil =>
    cases ks with
    | nil => rfl
    | cons k ks => cases h
  | cons j js ih =>
    cases ks with
    | nil => cases h
    | cons k ks =>
      simp only [Json.equalItems, Bool.and_eq_true] at h
      have hstring : j.string? = k.string? := by
        cases Json.matches_of_equals h.1 <;> rfl
      rw [List.mapM_cons, List.mapM_cons, hstring, ih h.2]

theorem labelSet_congr (i : Nat) {j k : Json} (h : j.equals k = true) :
    labelSet i j = labelSet i k := by
  cases Json.matches_of_equals h with
  | array hitems => simp only [labelSet, mapM_string?_congr hitems]
  | _ => rfl

theorem labelSets_congr (i : Nat) {js ks : List Json} (h : Json.equalItems js ks = true) :
    labelSets i js = labelSets i ks := by
  induction js generalizing i ks with
  | nil =>
    cases ks with
    | nil => rfl
    | cons k ks => cases h
  | cons j js ih =>
    cases ks with
    | nil => cases h
    | cons k ks =>
      simp only [Json.equalItems, Bool.and_eq_true] at h
      rw [labelSets, labelSets, labelSet_congr i h.1, ih (i + 1) h.2]

section Members

variable {ms ns : Members Json} (h : Json.equalMembers ms ns = true) (name : String)
include h

theorem pathShape_congr :
    (match Members.find? "objects" ms, Members.find? "labels" ms with
      | some (.array objects), some (.array labels) => Shape.path objects.length labels.length
      | _, _ => Shape.map) =
    match Members.find? "objects" ns, Members.find? "labels" ns with
      | some (.array objects), some (.array labels) => Shape.path objects.length labels.length
      | _, _ => Shape.map := by
  rcases Json.find?_of_equalMembers h "objects" with ⟨hms, hns⟩ | ⟨j, k, hms, hns, hobjects⟩
  · rw [hms, hns]
  · rw [hms, hns]
    rcases Json.find?_of_equalMembers h "labels" with ⟨hms, hns⟩ | ⟨j, k, hms, hns, hlabels⟩
    · rw [hms, hns]
      cases hobjects <;> rfl
    · rw [hms, hns]
      cases hobjects with
      | array hos =>
        cases hlabels with
        | array hls => simp only [Json.length_of_equalItems hos, Json.length_of_equalItems hls]
        | _ => rfl
      | _ => rfl

theorem ofMembers_congr : Shape.ofMembers ms = Shape.ofMembers ns := by
  unfold Shape.ofMembers
  -- the type decides only where it is a text; else it is for the objects and labels to decide
  rcases Json.find?_of_equalMembers h "type" with ⟨hms, hns⟩ | ⟨j, k, hms, hns, htype⟩
  · rw [hms, hns]
    exact pathShape_congr h
  · rw [hms, hns]
    cases htype with
    | string s => split <;> first | rfl | exact pathShape_congr h
    | _ => exact pathShape_congr h

theorem requiredId_congr :
    Agree (fun i j => i.equals j = true) (requiredId name ms) (requiredId name ns) := by
  unfold requiredId
  rcases Json.find?_of_equalMembers h name with ⟨hms, hns⟩ | ⟨j, k, hms, hns, hid⟩
  · rw [hms, hns]
    exact rfl
  · rw [hms, hns]
    have hequal := Json.equals_of_matches hid
    cases hid <;> first | exact rfl | exact hequal

theorem requiredString_congr : Agree (· = ·) (requiredString name ms) (requiredString name ns) := by
  refine agree_of_eq ?_
  unfold requiredString
  rcases Json.find?_of_equalMembers h name with ⟨hms, hns⟩ | ⟨j, k, hms, hns, htext⟩
  · rw [hms, hns]
  · rw [hms, hns]
    cases htext <;> rfl

theorem optionalId_congr : ElementId.equalOptions (optionalId ms) (optionalId ns) = true := by
  unfold optionalId
  rcases Json.find?_of_equalMembers h "id" with ⟨hms, hns⟩ | ⟨j, k, hms, hns, hid⟩
  · rw [hms, hns]
    rfl
  · rw [hms, hns]
    have hequal := Json.equals_of_matches hid
    cases hid <;> first | rfl | exact hequal

theorem isAnnotated_congr (holder : Holder) : isAnnotated holder ms = isAnnotated holder ns := by
  unfold isAnnotated
  rcases Json.find?_of_equalMembers h "value" with ⟨hms, hns⟩ | ⟨j, k, hms, hns, -⟩
  · rw [hms, hns]
  · rw [hms, hns]
    rfl

theorem pathLabels_congr : Agree (· = ·) (pathLabels ms) (pathLabels ns) := by
  refine agree_of_eq ?_
  unfold pathLabels
  rcases Json.find?_of_equalMembers h "labels" with ⟨hms, hns⟩ | ⟨j, k, hms, hns, hlabels⟩
  · rw [hms, hns]
  · rw [hms, hns]
    cases hlabels with
    | array hitems => exact labelSets_congr 0 hitems
    | _ => rfl

end Members

/-! ## Lists and members -/

/-- Decoding the tree agrees with decoding any equal one. -/
def Respected (j : Json) : Prop :=
  ∀ k, j.equals k = true → Agree (fun v w => v.equals w = true) (value j) (value k)

/-- All trees inside the given one are respected. -/
def RespectedInside (j : Json) : Prop := ∀ i, Inside i j → Respected i

theorem RespectedInside.found {ms : Members Json} (hms : RespectedInside (.object ms))
    {name : String} {j : Json} (h : Members.find? name ms = some j) :
    Respected j ∧ RespectedInside j :=
  ⟨hms j (.found h), fun i hi => hms i (.trans hi (.found h))⟩

theorem items_congr (step : Nat → LocationStep) (i : Nat) {js ks : List Json}
    (hjs : RespectedInside (.array js)) (h : Json.equalItems js ks = true) :
    Agree (fun vs ws => GraphValue.equalItems vs ws = true) (items step i js) (items step i ks) := by
  have hall : ∀ j ∈ js, Respected j := fun j hj => hjs j (.item hj)
  clear hjs
  induction js generalizing i ks with
  | nil =>
    cases ks with
    | nil => exact rfl
    | cons k ks => cases h
  | cons j js ih =>
    cases ks with
    | nil => cases h
    | cons k ks =>
      simp only [Json.equalItems, Bool.and_eq_true] at h
      have hj := hall j List.mem_cons_self k h.1
      have hrest := ih (i + 1) h.2 fun j' hj' => hall j' (List.mem_cons_of_mem _ hj')
      refine (hj.within (step i)).bind fun v w hvw => hrest.bind_pure fun vs ws hvs => ?_
      simp [GraphValue.equalItems, hvw, hvs]

theorem members_congr {ms ns : Members Json} (hms : RespectedInside (.object ms))
    (h : Json.equalMembers ms ns = true) :
    Agree (fun vs ws => GraphValue.equalEntries vs ws = true) (members ms) (members ns) := by
  have hall : ∀ m ∈ ms, Respected m.2 := fun m hm => hms m.2 (.member hm)
  clear hms
  induction ms generalizing ns with
  | nil =>
    cases ns with
    | nil => exact rfl
    | cons n ns => cases h
  | cons m ms ih =>
    cases ns with
    | nil => cases h
    | cons n ns =>
      obtain ⟨name, j⟩ := m
      obtain ⟨name', k⟩ := n
      simp only [Json.equalMembers, Bool.and_eq_true, beq_iff_eq] at h
      obtain ⟨⟨rfl, hvalue⟩, hrest⟩ := h
      have hj := hall (name, j) List.mem_cons_self k hvalue
      have hrest := ih hrest fun m hm => hall m (List.mem_cons_of_mem _ hm)
      refine (hj.within (.member name)).bind fun v w hvw => hrest.bind_pure fun vs ws hvs => ?_
      simp [GraphValue.equalEntries, hvw, hvs]

section Members

variable {ms ns : Members Json} (hms : RespectedInside (.object ms))
  (h : Json.equalMembers ms ns = true)
include hms h

theorem member_congr (name : String) :
    Agree (fun v w => v.equals w = true) (member name ms) (member name ns) := by
  rcases Json.find?_of_equalMembers h name with ⟨hj, hk⟩ | ⟨j, k, hj, hk, hmatch⟩
  · rw [member_of_not_find? hj, member_of_not_find? hk]
    exact rfl
  · rw [member_of_find? hj, member_of_find? hk]
    exact ((hms.found hj).1 k (Json.equals_of_matches hmatch)).within (.member name)

theorem pathObjects_congr :
    Agree (fun vs ws => GraphValue.equalItems vs ws = true) (pathObjects ms) (pathObjects ns) := by
  rw [pathObjects_eq, pathObjects_eq]
  rcases Json.find?_of_equalMembers h "objects" with ⟨hj, hk⟩ | ⟨j, k, hj, hk, hmatch⟩
  · rw [hj, hk]
    exact rfl
  · have hinside := (hms.found hj).2
    rw [hj, hk]
    cases hmatch with
    | array hitems => exact items_congr .object 0 hinside hitems
    | _ => exact rfl

theorem annotations_congr :
    Agree (fun vs ws => GraphValue.equalEntries vs ws = true) (annotations ms) (annotations ns) := by
  rw [annotations_eq, annotations_eq]
  rcases Json.find?_of_equalMembers h "properties" with ⟨hj, hk⟩ | ⟨j, k, hj, hk, hmatch⟩
  · rw [hj, hk]
    exact rfl
  · have hinside := (hms.found hj).2
    rw [hj, hk]
    cases hmatch with
    | object hmembers => exact (members_congr hinside hmembers).within (.member "properties")
    | _ => exact rfl

theorem annotated_congr :
    Agree (fun p q => GraphValue.equalPropertyValues [p] [q] = true)
      (annotated ms (member "value" ms) (annotations ms))
      (annotated ns (member "value" ns) (annotations ns)) := by
  have hid := optionalId_congr h
  refine (member_congr hms h "value").bind fun v w hvw => ?_
  refine (annotations_congr hms h).bind_pure fun vs ws hvs => ?_
  simp [GraphValue.equalPropertyValues, hid, hvw, hvs]

end Members

/-! ## Properties -/

theorem bare_congr {x y : Except DecodeError GraphValue}
    (h : Agree (fun v w => v.equals w = true) x y) :
    Agree (fun p q => GraphValue.equalPropertyValues [p] [q] = true) (bare x) (bare y) := by
  refine h.map fun v w hvw => ?_
  simp [GraphValue.equalPropertyValues, GraphValue.equalEntries, PropertyValue.bare,
    ElementId.equalOptions, hvw]

theorem propertyValue_congr (holder : Holder) {j k : Json} (hj : Respected j)
    (hinside : RespectedInside j) (h : j.equals k = true) :
    Agree (fun p q => GraphValue.equalPropertyValues [p] [q] = true)
      (propertyValue holder j) (propertyValue holder k) := by
  have hbare := bare_congr (hj k h)
  cases Json.matches_of_equals h with
  | object hmembers =>
    rw [propertyValue_object, propertyValue_object, isAnnotated_congr hmembers holder]
    split
    · exact annotated_congr hinside hmembers
    · exact hbare
  | _ => exact hbare

theorem equalPropertyValues_cons {p q : PropertyValue GraphValue}
    {ps qs : List (PropertyValue GraphValue)} :
    GraphValue.equalPropertyValues (p :: ps) (q :: qs) = true ↔
      GraphValue.equalPropertyValues [p] [q] = true ∧
        GraphValue.equalPropertyValues ps qs = true := by
  simp [GraphValue.equalPropertyValues]

theorem propertyValues_congr (holder : Holder) (i : Nat) {js ks : List Json}
    (hjs : RespectedInside (.array js)) (h : Json.equalItems js ks = true) :
    Agree (fun ps qs => GraphValue.equalPropertyValues ps qs = true)
      (propertyValues holder i js) (propertyValues holder i ks) := by
  have hall : ∀ j ∈ js, Respected j ∧ RespectedInside j := fun j hj =>
    ⟨hjs j (.item hj), fun i hi => hjs i (.trans hi (.item hj))⟩
  clear hjs
  induction js generalizing i ks with
  | nil =>
    cases ks with
    | nil => exact rfl
    | cons k ks => cases h
  | cons j js ih =>
    cases ks with
    | nil => cases h
    | cons k ks =>
      simp only [Json.equalItems, Bool.and_eq_true] at h
      obtain ⟨hj, hinside⟩ := hall j List.mem_cons_self
      have hvalue := propertyValue_congr holder hj hinside h.1
      have hrest := ih (i + 1) h.2 fun j' hj' => hall j' (List.mem_cons_of_mem _ hj')
      rw [propertyValues_cons, propertyValues_cons]
      exact (hvalue.within (.item i)).bind fun p q hpq => hrest.bind_pure fun ps qs hps =>
        equalPropertyValues_cons.2 ⟨hpq, hps⟩

theorem property_congr (holder : Holder) {j k : Json} (hj : Respected j)
    (hinside : RespectedInside j) (h : j.equals k = true) :
    Agree (fun ps qs => GraphValue.equalPropertyValues ps qs = true)
      (property holder j) (property holder k) := by
  have hone : Agree (fun ps qs => GraphValue.equalPropertyValues ps qs = true)
      ((propertyValue holder j).map ([·])) ((propertyValue holder k).map ([·])) :=
    (propertyValue_congr holder hj hinside h).map fun p q hpq => hpq
  cases Json.matches_of_equals h with
  | array hitems =>
    rw [property_array, property_array]
    exact propertyValues_congr holder 0 hinside hitems
  | _ => exact hone

theorem namedProperties_congr (holder : Holder) {ms ns : Members Json}
    (hms : RespectedInside (.object ms)) (h : Json.equalMembers ms ns = true) :
    Agree (fun ps qs => GraphValue.equalProperties ps qs = true)
      (namedProperties holder ms) (namedProperties holder ns) := by
  have hall : ∀ m ∈ ms, Respected m.2 ∧ RespectedInside m.2 := fun m hm =>
    ⟨hms m.2 (.member hm), fun i hi => hms i (.trans hi (.member hm))⟩
  clear hms
  induction ms generalizing ns with
  | nil =>
    cases ns with
    | nil => exact rfl
    | cons n ns => cases h
  | cons m ms ih =>
    cases ns with
    | nil => cases h
    | cons n ns =>
      obtain ⟨name, j⟩ := m
      obtain ⟨name', k⟩ := n
      simp only [Json.equalMembers, Bool.and_eq_true, beq_iff_eq] at h
      obtain ⟨⟨rfl, hvalue⟩, hrest⟩ := h
      obtain ⟨hj, hinside⟩ := hall (name, j) List.mem_cons_self
      have hproperty := property_congr holder hj hinside hvalue
      have hrest := ih hrest fun m hm => hall m (List.mem_cons_of_mem _ hm)
      rw [namedProperties_cons, namedProperties_cons]
      refine (hproperty.within (.property name)).bind fun p q hpq => hrest.bind_pure
        fun ps qs hps => ?_
      simp [GraphValue.equalProperties, hpq, hps]

theorem properties_congr (holder : Holder) {ms ns : Members Json}
    (hms : RespectedInside (.object ms)) (h : Json.equalMembers ms ns = true) :
    Agree (fun ps qs => GraphValue.equalProperties ps qs = true)
      (properties holder ms) (properties holder ns) := by
  rw [properties_eq, properties_eq]
  rcases Json.find?_of_equalMembers h "properties" with ⟨hj, hk⟩ | ⟨j, k, hj, hk, hmatch⟩
  · rw [hj, hk]
    exact rfl
  · have hinside := (hms.found hj).2
    rw [hj, hk]
    cases hmatch with
    | object hmembers => exact namedProperties_congr holder hinside hmembers
    | _ => exact rfl

/-! ## Trees -/

theorem scalar_congr {m n : Number} (h : m.equals n = true) :
    (scalar (.number m)).equals (scalar (.number n)) = true := by
  cases m with
  | integer i hi =>
    cases n with
    | integer j hj =>
      simp only [Number.equals, beq_iff_eq] at h
      subst h
      exact Scalar.equals_self (isFinite_scalar (.number (.integer i hi)))
    | double d hd => cases h
  | double d hd =>
    cases n with
    | integer j hj => cases h
    | double e he => exact h

theorem equalSteps_zipWith {vs ws : List GraphValue} (h : GraphValue.equalItems vs ws = true)
    (labels : List LabelSet) :
    GraphValue.equalSteps (List.zipWith PathStep.mk vs labels)
      (List.zipWith PathStep.mk ws labels) = true := by
  induction vs generalizing ws labels with
  | nil =>
    cases ws with
    | nil => rfl
    | cons w ws => cases h
  | cons v vs ih =>
    cases ws with
    | nil => cases h
    | cons w ws =>
      simp only [GraphValue.equalItems, Bool.and_eq_true] at h
      cases labels with
      | nil => rfl
      | cons l labels => simp [GraphValue.equalSteps, h.1, ih h.2]

theorem respected_object {ms : Members Json} (hms : RespectedInside (.object ms)) :
    Respected (.object ms) := by
  intro k hk
  cases Json.matches_of_equals hk with
  | @object _ ns h =>
    rw [value, value, ofMembers_congr h]
    cases Shape.ofMembers ns with
    | vertex =>
      refine (requiredId_congr h "id").bind fun id id' hid => ?_
      refine (requiredString_congr h "label").bind fun label label' hlabel => ?_
      refine (properties_congr .vertex hms h).bind_pure fun ps qs hps => ?_
      simp [GraphValue.equals, hid, hlabel, hps]
    | edge =>
      refine (requiredId_congr h "id").bind fun id id' hid => ?_
      refine (requiredString_congr h "label").bind fun label label' hlabel => ?_
      refine (requiredId_congr h "outV").bind fun out out' hout => ?_
      refine (requiredString_congr h "outVLabel").bind fun outLabel outLabel' houtLabel => ?_
      refine (requiredId_congr h "inV").bind fun inn inn' hinn => ?_
      refine (requiredString_congr h "inVLabel").bind fun inLabel inLabel' hinLabel => ?_
      refine (properties_congr .edge hms h).bind_pure fun ps qs hps => ?_
      simp [GraphValue.equals, hid, hlabel, hout, houtLabel, hinn, hinLabel, hps]
    | path objects labels =>
      simp only
      split
      · refine (pathObjects_congr hms h).bind fun vs ws hvs => ?_
        refine (pathLabels_congr h).bind_pure fun sets sets' hsets => ?_
        subst hsets
        exact equalSteps_zipWith hvs sets
      · exact rfl
    | map =>
      exact (members_congr hms h).map fun vs ws hvs => hvs

/-- Equal trees decode alike. -/
theorem respected (j : Json) : Respected j := by
  induction j using Inside.induction with
  | h j hinside =>
    cases j with
    | object ms => exact respected_object hinside
    | array js =>
      intro k hk
      cases Json.matches_of_equals hk with
      | array hitems => exact (items_congr .item 0 hinside hitems).map fun vs ws hvs => hvs
    | null =>
      intro k hk
      cases Json.matches_of_equals hk
      exact rfl
    | bool b =>
      intro k hk
      cases Json.matches_of_equals hk
      exact beq_self_eq_true b
    | number n =>
      intro k hk
      cases Json.matches_of_equals hk with
      | number h => exact scalar_congr h
    | string s =>
      intro k hk
      cases Json.matches_of_equals hk
      exact beq_self_eq_true s

end Decode

namespace GraphValue

/-- Decoding as a function on trees up to equality: trees that hold the same, whatever the order of
their members, decode to equal values or fail with one error. Every decoded value equals itself,
and of any two values each equals the other or neither does. -/
theorem ofJson?_respects_equality :
    (∀ j k : Json, j.Sorted → k.Sorted → j.SameValue k →
      Decode.Agree (fun v w => v.equals w = true) (ofJson? j) (ofJson? k)) ∧
    (∀ (j : Json) (v : GraphValue), ofJson? j = .ok v → v.equals v = true) ∧
    ∀ a b : GraphValue, a.equals b = b.equals a := by
  refine ⟨fun j k hj hk hsame => ?_, fun j v hv => ?_, equals_comm⟩
  · exact Decode.respected j k ((Json.sameValue_iff_equals hj hk).1 hsame)
  · have hself := Decode.respected j j j.equals_self
    unfold ofJson? at hv
    rw [hv] at hself
    exact hself

/-- A vertex with a property of one annotated value. -/
def scoredVertex (score : Number) : Json :=
  .object
    [("id", .number (.ofInt64 1)), ("label", .string "person"),
      ("properties", .object
        [("score", .array [.object [("id", .string "a"), ("value", .number score)]])]),
      ("type", .string "vertex")]

theorem ofJson?_respects_equality_zeros :
    Decode.Agree (fun v w => v.equals w = true)
      (ofJson? (scoredVertex (.double ⟨0⟩ rfl)))
      (ofJson? (scoredVertex (.double ⟨9223372036854775808⟩ rfl))) := by
  have hsorted : ∀ score, (scoredVertex score).Sorted := fun score => by
    simp only [scoredVertex, Json.Sorted, Json.SortedItems, Json.SortedMembers, Members.sorted_iff,
      List.map_cons, List.map_nil]
    decide
  have hsame : (scoredVertex (.double ⟨0⟩ rfl)).SameValue
      (scoredVertex (.double ⟨9223372036854775808⟩ rfl)) :=
    (Json.sameValue_iff_equals (hsorted _) (hsorted _)).2 (by decide)
  exact ofJson?_respects_equality.1 _ _ (hsorted _) (hsorted _) hsame

end GraphValue

end PagedTraversal
