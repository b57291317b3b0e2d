import PagedTraversal.Proofs.Graph.Places

/-!
# PagedTraversal.Proofs.Graph.Occurrence

The values inside a value, at every depth, and where they come from. Each function of the decoder
puts a value into its result only after it has decoded it at one of the places that it looks at. So
what occurs in a decoded value has been decoded on its own, somewhere in the tree.

* `GraphValue.Occurs`: a value is another one or stands somewhere inside it.
* `Decode.exists_place_of_occurs`: the place at which an occurring value was decoded.
-/

namespace PagedTraversal

/-- The value of a property and the values of its own properties. -/
def PropertyValue.values {α : Type} (p : PropertyValue α) : List α :=
  p.value :: p.properties.map Prod.snd

namespace GraphValue

/-- The values in the properties of an element. -/
def propertyValues (properties : List (String × List (PropertyValue GraphValue))) :
    List GraphValue :=
  properties.flatMap fun property => property.2.flatMap PropertyValue.values

/-- The values directly inside a value. -/
def children : GraphValue → List GraphValue
  | .scalar _ => []
  | .map entries => entries.map Prod.snd
  | .list items => items
  | .vertex v => propertyValues v.properties
  | .edge e => propertyValues e.properties
  | .path p => p.objects

/-- The value `w` is the other one, or stands somewhere inside it. -/
inductive Occurs (w : GraphValue) : GraphValue → Prop where
  | here : Occurs w w
  | inside {u v : GraphValue} (hu : u ∈ v.children) (hw : Occurs w u) : Occurs w v

end GraphValue

namespace Decode

/-! ## Lists, members and values of properties

What stands in the result of a walk was decoded at one of the parts that the walk goes by. -/

/-- A walk that reads one item after another has read each element of its result from an item. -/
theorem exists_item_of_mem {α : Type} {f : Nat → List Json → Except DecodeError (List α)}
    {g : Json → Except DecodeError α} {step : Nat → LocationStep} (hnil : ∀ i, f i [] = .ok [])
    (hcons : ∀ i j rest, f i (j :: rest) = (do
      let a ← within (step i) (g j)
      let more ← f (i + 1) rest
      pure (a :: more)))
    {i : Nat} {js : List Json} {result : List α} (h : f i js = .ok result) {a : α}
    (ha : a ∈ result) : ∃ (n : Nat) (j : Json), js[n]? = some j ∧ g j = .ok a := by
  induction js generalizing i result with
  | nil =>
    cases (hnil i).symm.trans h
    cases ha
  | cons j rest ih =>
    simp only [hcons, bind_eq_ok, within_eq_ok] at h
    obtain ⟨b, hb, more, hmore, h⟩ := h
    cases h
    rcases List.mem_cons.1 ha with rfl | ha
    · exact ⟨0, j, rfl, hb⟩
    · obtain ⟨n, k, hk, hread⟩ := ih hmore ha
      exact ⟨n + 1, k, hk, hread⟩

theorem place_of_mem_items {step : Nat → LocationStep} {i : Nat} {js : List Json}
    {vs : List GraphValue} (h : items step i js = .ok vs) {v : GraphValue} (hv : v ∈ vs) :
    ∃ l j, .place l (.tree j) ∈ itemParts step i js ∧ value j = .ok v := by
  obtain ⟨n, j, hj, hvalue⟩ :=
    exists_item_of_mem (f := items step) (fun _ => rfl) (fun _ _ _ => rfl) h hv
  exact ⟨_, j, mem_indexed_iff.2 ⟨n, j, hj, rfl⟩, hvalue⟩

theorem place_of_mem_propertyValues {holder : Holder} {i : Nat} {js : List Json}
    {ps : List (PropertyValue GraphValue)} (h : propertyValues holder i js = .ok ps)
    {p : PropertyValue GraphValue} (hp : p ∈ ps) :
    ∃ l j, .place l (.ofEntry holder j) ∈ entryParts holder i js ∧
      propertyValue holder j = .ok p := by
  obtain ⟨n, j, hj, hvalue⟩ :=
    exists_item_of_mem (f := propertyValues holder) (fun _ => rfl) (propertyValues_cons holder) h hp
  exact ⟨_, j, mem_indexed_iff.2 ⟨n, j, hj, rfl⟩, hvalue⟩

theorem place_of_mem_members {ms : Members Json} {entries : Members GraphValue}
    (h : members ms = .ok entries) {v : GraphValue} (hv : v ∈ entries.map Prod.snd) :
    ∃ l j, .place l (.tree j) ∈ memberParts ms ∧ value j = .ok v := by
  induction ms generalizing entries with
  | nil =>
    cases h
    cases hv
  | cons m rest ih =>
    obtain ⟨name, j⟩ := m
    simp only [members, bind_eq_ok, within_eq_ok] at h
    obtain ⟨w, hw, ws, hws, h⟩ := h
    cases h
    rcases List.mem_cons.1 hv with rfl | hv
    · exact ⟨[.member name], j, List.mem_cons_self, hw⟩
    · obtain ⟨l, k, hk, hvalue⟩ := ih hws hv
      exact ⟨l, k, List.mem_cons_of_mem _ hk, hvalue⟩

theorem place_of_mem_property {holder : Holder} {j : Json} {ps : List (PropertyValue GraphValue)}
    (h : property holder j = .ok ps) {p : PropertyValue GraphValue} (hp : p ∈ ps) :
    ∃ l k, .place l (.ofEntry holder k) ∈ valueParts holder j ∧ propertyValue holder k = .ok p := by
  by_cases harray : ∃ js, j = .array js
  · obtain ⟨js, rfl⟩ := harray
    rw [property_array] at h
    exact place_of_mem_propertyValues h hp
  · have hbare : property holder j = (propertyValue holder j).map ([·]) ∧
        valueParts holder j = [.place [] (.ofEntry holder j)] := by
      cases j with
      | array js => exact (harray ⟨js, rfl⟩).elim
      | _ => exact ⟨rfl, rfl⟩
    rw [hbare.1] at h
    obtain ⟨q, hq, rfl⟩ := map_eq_ok.1 h
    cases List.mem_singleton.1 hp
    exact ⟨[], j, hbare.2 ▸ List.mem_singleton_self _, hq⟩

theorem place_of_mem_namedProperties {holder : Holder} {ms : Members Json}
    {properties : List (String × List (PropertyValue GraphValue))}
    (h : namedProperties holder ms = .ok properties)
    {named : String × List (PropertyValue GraphValue)} (hnamed : named ∈ properties)
    {p : PropertyValue GraphValue} (hp : p ∈ named.2) :
    ∃ l j, .place l (.ofEntry holder j) ∈ propertyParts holder ms ∧
      propertyValue holder j = .ok p := by
  induction ms generalizing properties with
  | nil =>
    cases h
    cases hnamed
  | cons m rest ih =>
    obtain ⟨name, j⟩ := m
    simp only [namedProperties_cons, bind_eq_ok, within_eq_ok] at h
    obtain ⟨qs, hqs, more, hmore, h⟩ := h
    cases h
    rcases List.mem_cons.1 hnamed with rfl | hnamed
    · obtain ⟨l, k, hk, hvalue⟩ := place_of_mem_property hqs hp
      exact ⟨_, k, List.mem_append_left _ (List.mem_map.2 ⟨_, hk, rfl⟩), hvalue⟩
    · obtain ⟨l, k, hk, hvalue⟩ := ih hmore hnamed
      exact ⟨l, k, List.mem_append_right _ hk, hvalue⟩

/-- The properties of an element are those of the object under `properties`, if there is one. -/
theorem namedProperties_of_properties {holder : Holder} {ms : Members Json}
    {ps : List (String × List (PropertyValue GraphValue))} (h : properties holder ms = .ok ps) :
    namedProperties holder (objectMembers (Members.find? "properties" ms)) = .ok ps := by
  rw [properties_eq] at h
  cases hfound : Members.find? "properties" ms with
  | none =>
    rw [hfound] at h
    exact h
  | some j =>
    rw [hfound] at h
    cases j with
    | null => exact h
    | object inner => exact h
    | _ => cases h

/-- The same of the properties of an annotated value. -/
theorem members_of_annotations {ms : Members Json} {entries : Members GraphValue}
    (h : annotations ms = .ok entries) :
    members (objectMembers (Members.find? "properties" ms)) = .ok entries := by
  rw [annotations_eq] at h
  cases hfound : Members.find? "properties" ms with
  | none =>
    rw [hfound] at h
    exact h
  | some j =>
    rw [hfound] at h
    cases j with
    | null => exact h
    | object inner => exact within_eq_ok.1 h
    | _ => cases h

/-- A value in a property value stands at the place of that, or one step inside it. -/
theorem at_of_mem_values {holder : Holder} {j : Json} {p : PropertyValue GraphValue}
    (h : propertyValue holder j = .ok p) {v : GraphValue} (hv : v ∈ p.values) :
    ∃ l i, (Place.ofEntry holder j).At l (.tree i) ∧ value i = .ok v := by
  by_cases hannotated : ∃ ms, j = .object ms ∧ isAnnotated holder ms = true
  · obtain ⟨ms, rfl, hannotated⟩ := hannotated
    obtain ⟨found, hfound⟩ : ∃ found, Members.find? "value" ms = some found :=
      Option.isSome_iff_exists.1 (Bool.and_eq_true_iff.1 hannotated).2
    rw [propertyValue_object, if_pos hannotated, member_of_find? hfound] at h
    simp only [annotated, bind_eq_ok, within_eq_ok] at h
    obtain ⟨w, hw, entries, hentries, h⟩ := h
    cases h
    rw [Place.ofEntry_object, if_pos hannotated]
    rcases List.mem_cons.1 hv with rfl | hv
    · refine ⟨[.member "value"], found, .of_part ?_, hw⟩
      rw [Place.parts_annotated, hfound]
      exact List.mem_cons_self
    · obtain ⟨l, k, hk, hvalue⟩ := place_of_mem_members (members_of_annotations hentries) hv
      have hpart := List.mem_map_of_mem (f := Part.within [.member "properties"]) hk
      refine ⟨[.member "properties"] ++ l, k, .of_part ?_, hvalue⟩
      exact List.mem_append_right _ (List.mem_cons_of_mem _ hpart)
  · have hbare : propertyValue holder j = bare (value j) ∧ Place.ofEntry holder j = .tree j := by
      cases j with
      | object ms =>
        have hnot : ¬ isAnnotated holder ms = true := fun hms => hannotated ⟨ms, rfl, hms⟩
        rw [propertyValue_object, Place.ofEntry_object, if_neg hnot, if_neg hnot]
        exact ⟨rfl, rfl⟩
      | _ => exact ⟨rfl, rfl⟩
    rw [hbare.1] at h
    obtain ⟨w, hw, rfl⟩ := map_eq_ok.1 h
    cases List.mem_singleton.1 hv
    exact ⟨[], j, hbare.2 ▸ .here, hw⟩

/-! ## Values inside a value -/

/-- A value in the properties of an element stands at a place of the object of the element. -/
theorem at_of_mem_propertyValues {holder : Holder} {ms : Members Json}
    {ps : List (String × List (PropertyValue GraphValue))} (h : properties holder ms = .ok ps)
    (hparts : ∀ l q, .place l q ∈
        propertyParts holder (objectMembers (Members.find? "properties" ms)) →
      .place l q ∈ (Place.tree (.object ms)).parts)
    {v : GraphValue} (hv : v ∈ GraphValue.propertyValues ps) :
    ∃ l i, (Place.tree (.object ms)).At l (.tree i) ∧ value i = .ok v := by
  obtain ⟨named, hnamed, hv⟩ := List.mem_flatMap.1 hv
  obtain ⟨p, hp, hv⟩ := List.mem_flatMap.1 hv
  obtain ⟨l, j, hj, hvalue⟩ :=
    place_of_mem_namedProperties (namedProperties_of_properties h) hnamed hp
  obtain ⟨l', i, hi, hvalue⟩ := at_of_mem_values hvalue hv
  exact ⟨l ++ l', i, .trans (.of_part (hparts l _ hj)) hi, hvalue⟩

/-- What stands directly inside a decoded value has been decoded at a place of the tree. -/
theorem at_of_mem_children {j : Json} {v : GraphValue} (h : value j = .ok v) {u : GraphValue}
    (hu : u ∈ v.children) : ∃ l i, (Place.tree j).At l (.tree i) ∧ value i = .ok u := by
  cases j with
  | array js =>
    obtain ⟨vs, hvs, rfl⟩ := map_eq_ok.1 h
    obtain ⟨l, i, hi, hvalue⟩ := place_of_mem_items hvs hu
    exact ⟨l, i, .of_part hi, hvalue⟩
  | object ms =>
    rcases value_object_cases h with ⟨id, label, ps, hshape, -, -, hps, rfl⟩ |
      ⟨id, label, out, outLabel, inn, inLabel, ps, hshape, -, -, -, -, -, -, hps, rfl⟩ |
      ⟨n, _, _, hshape, -, -, rfl⟩ | ⟨entries, hshape, hentries, rfl⟩
    · refine at_of_mem_propertyValues hps (fun l q hq => ?_) hu
      simp [Place.parts, hshape, hq]
    · refine at_of_mem_propertyValues hps (fun l q hq => ?_) hu
      simp [Place.parts, hshape, hq]
    · obtain ⟨objects, labels, hobjects, -, hitems, -⟩ := lists_of_path h
      obtain ⟨l, i, hi, hvalue⟩ := place_of_mem_items hitems hu
      refine ⟨l, i, .of_part ?_, hvalue⟩
      simp [Place.parts, hshape, hobjects, arrayItems, hi]
    · obtain ⟨l, i, hi, hvalue⟩ := place_of_mem_members hentries hu
      refine ⟨l, i, .of_part ?_, hvalue⟩
      simp only [Place.parts, hshape]
      exact hi
  | _ =>
    cases h
    cases hu

/-- What occurs in a decoded value has been decoded at a place of the tree. -/
theorem exists_place_of_occurs {j : Json} {v w : GraphValue} (h : value j = .ok v)
    (hw : w.Occurs v) : ∃ l i, (Place.tree j).At l (.tree i) ∧ value i = .ok w := by
  induction hw generalizing j with
  | here => exact ⟨[], j, .here, h⟩
  | inside hu _ ih =>
    obtain ⟨l, i, hi, hvalue⟩ := at_of_mem_children h hu
    obtain ⟨l', k, hk, hvalue⟩ := ih hvalue
    exact ⟨l ++ l', k, .trans hi hk, hvalue⟩

end Decode

end PagedTraversal
