import PagedTraversal.Graph.Decode

/-!
# PagedTraversal.Proofs.Graph.Decoding

What a tree has when it decodes, one statement for each function of the decoder. Later proofs go
by these and not by the definitions.

* `Decode.value_object_cases`: the four things that an object can decode to.
* `Decode.property`, `Decode.propertyValue`: how the member of a property and one of its values are
  read, apart from the walk that finds them.
* `Decode.find?_of_members`: a member of a map decodes on its own.
-/

namespace PagedTraversal

/-- An object is taken for a map if it is neither named an element nor shaped like a path. -/
theorem Shape.ofMembers_eq_map_iff {ms : Members Json} :
    Shape.ofMembers ms = .map ↔
      Members.find? "type" ms ≠ some (.string "vertex") ∧
      Members.find? "type" ms ≠ some (.string "edge") ∧
      ∀ objects labels, Members.find? "objects" ms = some (.array objects) →
        Members.find? "labels" ms ≠ some (.array labels) := by
  unfold Shape.ofMembers
  constructor
  · intro h
    split at h
    · cases h
    · cases h
    · next hvertex hedge =>
      refine ⟨hvertex, hedge, fun objects labels hobjects hlabels => ?_⟩
      rw [hobjects, hlabels] at h
      cases h
  · rintro ⟨hvertex, hedge, hpath⟩
    split
    · next hname => exact absurd hname hvertex
    · next hname => exact absurd hname hedge
    · split
      · next objects labels hobjects hlabels => exact absurd hlabels (hpath _ _ hobjects)
      · rfl

theorem Shape.ofMembers_eq_path {ms : Members Json} {n m : Nat}
    (h : Shape.ofMembers ms = .path n m) :
    ∃ objects labels, Members.find? "objects" ms = some (.array objects) ∧
      Members.find? "labels" ms = some (.array labels) ∧ objects.length = n ∧
      labels.length = m := by
  unfold Shape.ofMembers at h
  split at h
  · cases h
  · cases h
  · split at h
    · next objects labels hobjects hlabels =>
      cases h
      exact ⟨objects, labels, hobjects, hlabels, rfl, rfl⟩
    · cases h

namespace Decode

variable {α β : Type}

theorem bind_eq_ok {x : Except DecodeError α} {f : α → Except DecodeError β} {b : β} :
    (x >>= f) = .ok b ↔ ∃ a, x = .ok a ∧ f a = .ok b := by
  cases x <;> simp [bind, Except.bind]

theorem map_eq_ok {x : Except DecodeError α} {f : α → β} {b : β} :
    x.map f = .ok b ↔ ∃ a, x = .ok a ∧ f a = b := by
  cases x <;> simp [Except.map]

theorem within_eq_ok {step : LocationStep} {x : Except DecodeError α} {a : α} :
    within step x = .ok a ↔ x = .ok a := by
  cases x <;> simp [within]

theorem requiredId_eq_ok {name : String} {ms : Members Json} {id : ElementId} :
    requiredId name ms = .ok id ↔ Members.find? name ms = some id.raw ∧ id.raw ≠ .null := by
  unfold requiredId
  split
  · next h => simp [malformed, h]
  · next h =>
    constructor
    · intro e
      cases e
    · rintro ⟨e, hnull⟩
      rw [h] at e
      exact absurd (Option.some.inj e).symm hnull
  · next raw hnull h =>
    constructor
    · intro e
      cases e
      exact ⟨h, hnull⟩
    · rintro ⟨e, -⟩
      rw [h] at e
      cases id
      cases e
      rfl

theorem requiredString_of_find? {name : String} {ms : Members Json} {s : String}
    (h : Members.find? name ms = some (.string s)) : requiredString name ms = .ok s := by
  simp [requiredString, h]

theorem optionalId_eq_some {ms : Members Json} {id : ElementId} :
    optionalId ms = some id ↔ Members.find? "id" ms = some id.raw ∧ id.raw ≠ .null := by
  unfold optionalId
  split
  · next h => simp [h]
  · next h =>
    constructor
    · intro e
      cases e
    · rintro ⟨e, hnull⟩
      rw [h] at e
      exact absurd (Option.some.inj e).symm hnull
  · next raw hnull h =>
    constructor
    · intro e
      cases e
      exact ⟨h, hnull⟩
    · rintro ⟨e, -⟩
      rw [h] at e
      cases id
      cases e
      rfl

/-! ## Objects -/

/-- What an object decodes to, with all that was read for it. -/
theorem value_object_cases {ms : Members Json} {v : GraphValue} (h : value (.object ms) = .ok v) :
    (∃ id label ps, Shape.ofMembers ms = .vertex ∧
      requiredId "id" ms = .ok id ∧ requiredString "label" ms = .ok label ∧
      properties .vertex ms = .ok ps ∧ v = .vertex ⟨id, label, ps⟩) ∨
    (∃ id label outVertex outLabel inVertex inLabel ps, Shape.ofMembers ms = .edge ∧
      requiredId "id" ms = .ok id ∧ requiredString "label" ms = .ok label ∧
      requiredId "outV" ms = .ok outVertex ∧ requiredString "outVLabel" ms = .ok outLabel ∧
      requiredId "inV" ms = .ok inVertex ∧ requiredString "inVLabel" ms = .ok inLabel ∧
      properties .edge ms = .ok ps ∧
      v = .edge ⟨id, label, outVertex, outLabel, inVertex, inLabel, ps⟩) ∨
    (∃ n objects labels, Shape.ofMembers ms = .path n n ∧ pathObjects ms = .ok objects ∧
      pathLabels ms = .ok labels ∧ v = .path ⟨List.zipWith PathStep.mk objects labels⟩) ∨
    (∃ entries, Shape.ofMembers ms = .map ∧ members ms = .ok entries ∧ v = .map entries) := by
  simp only [value] at h
  split at h
  · next hshape =>
    simp only [bind_eq_ok] at h
    obtain ⟨id, hid, label, hlabel, ps, hps, h⟩ := h
    cases h
    exact .inl ⟨id, label, ps, hshape, hid, hlabel, hps, rfl⟩
  · next hshape =>
    simp only [bind_eq_ok] at h
    obtain ⟨id, hid, label, hlabel, out, hout, outLabel, houtLabel, inn, hinn, inLabel, hinLabel,
      ps, hps, h⟩ := h
    cases h
    exact .inr (.inl ⟨id, label, out, outLabel, inn, inLabel, ps, hshape, hid, hlabel, hout,
      houtLabel, hinn, hinLabel, hps, rfl⟩)
  · next n m hshape =>
    split at h
    · next hpaired =>
      subst hpaired
      simp only [bind_eq_ok] at h
      obtain ⟨objects, hobjects, labels, hlabels, h⟩ := h
      cases h
      exact .inr (.inr (.inl ⟨n, objects, labels, hshape, hobjects, hlabels, rfl⟩))
    · cases h
  · next hshape =>
    obtain ⟨entries, hentries, h⟩ := map_eq_ok.1 h
    exact .inr (.inr (.inr ⟨entries, hshape, hentries, h.symm⟩))

theorem eq_string_of_value {j : Json} {s : String} (h : value j = .ok (.scalar (.string s))) :
    j = .string s := by
  cases j with
  | null => cases h
  | bool b => cases h
  | number n =>
    simp only [value, scalar, Except.ok.injEq, GraphValue.scalar.injEq] at h
    split at h <;> cases h
  | string t =>
    cases h
    rfl
  | array js =>
    obtain ⟨vs, -, h⟩ := map_eq_ok.1 h
    cases h
  | object ms =>
    rcases value_object_cases h with ⟨_, _, _, -, -, -, -, e⟩ |
      ⟨_, _, _, _, _, _, _, -, -, -, -, -, -, -, -, e⟩ | ⟨_, _, _, -, -, -, e⟩ | ⟨_, -, -, e⟩ <;>
      cases e

theorem eq_array_of_value {j : Json} {vs : List GraphValue} (h : value j = .ok (.list vs)) :
    ∃ js, j = .array js := by
  cases j with
  | array js => exact ⟨js, rfl⟩
  | object ms =>
    rcases value_object_cases h with ⟨_, _, _, -, -, -, -, e⟩ |
      ⟨_, _, _, _, _, _, _, -, -, -, -, -, -, -, -, e⟩ | ⟨_, _, _, -, -, -, e⟩ | ⟨_, -, -, e⟩ <;>
      cases e
  | _ => cases h

theorem eq_object_of_value {j : Json} {p : Path GraphValue} (h : value j = .ok (.path p)) :
    ∃ ms, j = .object ms := by
  cases j with
  | object ms => exact ⟨ms, rfl⟩
  | array js =>
    obtain ⟨vs, -, h⟩ := map_eq_ok.1 h
    cases h
  | _ => cases h

theorem find?_of_members {ms : Members Json} {entries : Members GraphValue}
    (h : members ms = .ok entries) {name : String} {v : GraphValue}
    (hv : Members.find? name entries = some v) :
    ∃ j, Members.find? name ms = some j ∧ value j = .ok v := by
  induction ms generalizing entries with
  | nil =>
    cases h
    cases hv
  | cons m rest ih =>
    obtain ⟨n, j⟩ := m
    simp only [members, bind_eq_ok, within_eq_ok] at h
    obtain ⟨w, hw, ws, hws, h⟩ := h
    cases h
    by_cases hname : n = name
    · simp only [Members.find?, hname, if_true, Option.some.injEq] at hv ⊢
      exact ⟨j, rfl, hv ▸ hw⟩
    · simp only [Members.find?, hname, if_false] at hv ⊢
      exact ih hws hv

/-! ## Lists -/

theorem length_of_items {step : Nat → LocationStep} {i : Nat} {js : List Json}
    {vs : List GraphValue} (h : items step i js = .ok vs) : vs.length = js.length := by
  induction js generalizing i vs with
  | nil =>
    cases h
    rfl
  | cons j rest ih =>
    simp only [items, bind_eq_ok] at h
    obtain ⟨v, -, vs, hvs, h⟩ := h
    cases h
    simp [ih hvs]

theorem length_of_labelSets {i : Nat} {entries : List Json} {sets : List LabelSet}
    (h : labelSets i entries = .ok sets) : sets.length = entries.length := by
  induction entries generalizing i sets with
  | nil =>
    cases h
    rfl
  | cons entry rest ih =>
    simp only [labelSets, bind_eq_ok] at h
    obtain ⟨labels, -, more, hmore, h⟩ := h
    cases h
    simp [ih hmore]

/-- A path has the values of the items under `objects` and the label sets of the entries under
`labels`. -/
theorem lists_of_path {ms : Members Json} {p : Path GraphValue}
    (h : value (.object ms) = .ok (.path p)) :
    ∃ objects labels, Members.find? "objects" ms = some (.array objects) ∧
      Members.find? "labels" ms = some (.array labels) ∧
      items .object 0 objects = .ok p.objects ∧ labelSets 0 labels = .ok p.labels := by
  rcases value_object_cases h with ⟨_, _, _, -, -, -, -, e⟩ |
    ⟨_, _, _, _, _, _, _, -, -, -, -, -, -, -, -, e⟩ | ⟨n, vs, sets, hshape, hvs, hsets, e⟩ |
    ⟨_, -, -, e⟩ <;> cases e
  obtain ⟨objects, labels, hobjects, hlabels, hn, hm⟩ := Shape.ofMembers_eq_path hshape
  rw [pathObjects_eq, hobjects] at hvs
  rw [pathLabels, hlabels] at hsets
  have hlength : vs.length = objects.length := length_of_items hvs
  have hlength' : sets.length = labels.length := length_of_labelSets hsets
  have hpaired : vs.length = sets.length := by omega
  refine ⟨objects, labels, hobjects, hlabels, ?_, ?_⟩
  · rw [Path.objects_zipWith hpaired]
    exact hvs
  · rw [Path.labels_zipWith hpaired]
    exact hsets

/-- A path has an object for each item under `objects` and a label set for each under `labels`. -/
theorem lengths_of_path {ms : Members Json} {p : Path GraphValue}
    (h : value (.object ms) = .ok (.path p)) :
    ∃ objects labels, Members.find? "objects" ms = some (.array objects) ∧
      Members.find? "labels" ms = some (.array labels) ∧
      p.objects.length = objects.length ∧ p.labels.length = labels.length := by
  obtain ⟨objects, labels, hobjects, hlabels, hitems, hsets⟩ := lists_of_path h
  exact ⟨objects, labels, hobjects, hlabels, length_of_items hitems, length_of_labelSets hsets⟩

/-! ## Properties -/

/-- One value of a property: an annotated one, or a bare tree. -/
def propertyValue (holder : Holder) (j : Json) : Except DecodeError (PropertyValue GraphValue) :=
  match annotatedValue? holder j with
  | some v => v
  | none => bare (value j)

/-- The values of a property: those of an array, or the one that stands in its place. -/
def property (holder : Holder) (j : Json) : Except DecodeError (List (PropertyValue GraphValue)) :=
  match listedValues? holder j with
  | some values => values
  | none => (propertyValue holder j).map ([·])

theorem namedProperties_cons (holder : Holder) (name : String) (j : Json) (rest : Members Json) :
    namedProperties holder ((name, j) :: rest) = (do
      let p ← within (.property name) (property holder j)
      let ps ← namedProperties holder rest
      pure ((name, p) :: ps)) := by
  simp only [namedProperties, property, propertyValue]
  cases annotatedValue? holder j <;> rfl

theorem propertyValues_cons (holder : Holder) (i : Nat) (j : Json) (rest : List Json) :
    propertyValues holder i (j :: rest) = (do
      let v ← within (.item i) (propertyValue holder j)
      let vs ← propertyValues holder (i + 1) rest
      pure (v :: vs)) := by
  rw [propertyValues]
  rfl

theorem property_array (holder : Holder) (js : List Json) :
    property holder (.array js) = propertyValues holder 0 js := by
  rw [property, listedValues?]

theorem propertyValue_object (holder : Holder) (ms : Members Json) :
    propertyValue holder (.object ms) =
      if isAnnotated holder ms then annotated ms (member "value" ms) (annotations ms)
      else bare (value (.object ms)) := by
  rw [propertyValue, annotatedValue?]
  cases isAnnotated holder ms <;> rfl

theorem propertyValue_annotated {ms : Members Json} {j : Json} {v : GraphValue}
    {entries : Members GraphValue} (hj : Members.find? "value" ms = some j) (hv : value j = .ok v)
    (hentries : annotations ms = .ok entries) :
    propertyValue .vertex (.object ms) = .ok ⟨optionalId ms, v, entries⟩ := by
  have hannotated : isAnnotated .vertex ms = true := by
    simp [isAnnotated, hj]
  rw [propertyValue_object, if_pos hannotated, member_of_find? hj, hv, hentries]
  rfl

theorem propertyValue_edge (j : Json) : propertyValue .edge j = bare (value j) := by
  cases j with
  | object ms => rw [propertyValue_object, if_neg (by simp [isAnnotated])]
  | _ => rfl

end Decode

end PagedTraversal
