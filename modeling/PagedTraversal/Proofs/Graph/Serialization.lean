import PagedTraversal.Proofs.Graph.Congruence
import PagedTraversal.Proofs.Graph.RoundTrip
import PagedTraversal.Proofs.Json.ReadBack

/-!
# PagedTraversal.Proofs.Graph.Serialization

Serialization loses nothing of a decoded value. Scalars are written without a tag, and an absent
identifier, a `null` identifier and a double that is not finite are all written as `null`. A
well-formed value has no `null` identifier and no such double, and of two well-formed values with
one tagged form every part is the same.

* `GraphValue.eq_of_tagged_eq`: the tagged form of a well-formed value belongs to it alone.
* `GraphValue.eq_of_serialize_eq`: decoded values with one text are the same at every depth.
-/

namespace PagedTraversal

/-- A finite scalar is known by its tree: what is written can be read. -/
theorem Scalar.eq_of_json_eq {x y : Scalar} (hx : x.IsFinite) (hy : y.IsFinite)
    (h : x.json = y.json) : x = y := by
  have hread := Decode.value_json hx
  rw [h, Decode.value_json hy] at hread
  exact (GraphValue.scalar.inj (Except.ok.inj hread)).symm

theorem ElementId.eq_of_raw_eq {a b : ElementId} (h : a.raw = b.raw) : a = b := by
  cases a
  cases b
  cases h
  rfl

namespace GraphValue

theorem labelsJson_injective : Function.Injective labelsJson := by
  intro l m h
  refine List.map_injective_iff.2 ?_ (Json.array.inj h)
  rintro s _ ⟨⟩
  rfl

/-- An identifier that is there is not written like one that is absent. -/
theorem eq_of_idJson_eq {a b : Option ElementId} (ha : ∀ i, a = some i → i.IsPresent)
    (hb : ∀ i, b = some i → i.IsPresent) (h : idJson a = idJson b) : a = b := by
  cases a with
  | none =>
    cases b with
    | none => rfl
    | some j => exact (hb j rfl h.symm).elim
  | some i =>
    cases b with
    | none => exact (ha i rfl h).elim
    | some j => rw [ElementId.eq_of_raw_eq h]

theorem steps_eq {as bs : List (PathStep GraphValue)}
    (hobjects : as.map PathStep.object = bs.map PathStep.object)
    (hlabels : as.map (fun s => labelsJson s.labels) = bs.map fun s => labelsJson s.labels) :
    as = bs := by
  induction as generalizing bs with
  | nil =>
    cases bs with
    | nil => rfl
    | cons _ _ => cases hobjects
  | cons a as ih =>
    cases bs with
    | nil => cases hobjects
    | cons b bs =>
      obtain ⟨object, labels⟩ := a
      obtain ⟨object', labels'⟩ := b
      obtain ⟨hobject, hmoreObjects⟩ := List.cons.inj hobjects
      obtain ⟨hlabel, hmoreLabels⟩ := List.cons.inj hlabels
      obtain rfl : object = object' := hobject
      obtain rfl : labels = labels' := labelsJson_injective hlabel
      rw [ih hmoreObjects hmoreLabels]

/-! ## Values

The recursion is that of the tagged form. -/

mutual

/-- The tagged form of a well-formed value belongs to it alone. -/
theorem eq_of_tagged_eq : {g h : GraphValue} → g.WellFormed → h.WellFormed →
    g.tagged = h.tagged → g = h
  | .scalar x, h, hg, hh, heq => by
    cases h with
    | scalar y =>
      simp only [tagged, Json.object.injEq, List.cons.injEq, Prod.mk.injEq, true_and,
        and_true] at heq
      rw [Scalar.eq_of_json_eq hg hh heq]
    | _ => simp [tagged] at heq
  | .map entries, h, hg, hh, heq => by
    cases h with
    | map others =>
      simp only [tagged, Json.object.injEq, List.cons.injEq, Prod.mk.injEq, true_and,
        and_true] at heq
      rw [eq_of_taggedEntries_eq hg.2.2 hh.2.2 heq]
    | _ => simp [tagged] at heq
  | .list items, h, hg, hh, heq => by
    cases h with
    | list others =>
      simp only [tagged, Json.object.injEq, Json.array.injEq, List.cons.injEq, Prod.mk.injEq,
        true_and, and_true] at heq
      rw [eq_of_taggedItems_eq hg hh heq]
    | _ => simp [tagged] at heq
  | .vertex ⟨id, label, properties⟩, h, hg, hh, heq => by
    cases h with
    | vertex w =>
      obtain ⟨id', label', properties'⟩ := w
      simp only [tagged, Json.object.injEq, Json.string.injEq, List.cons.injEq, Prod.mk.injEq,
        true_and, and_true] at heq
      obtain ⟨hid, rfl, hproperties⟩ := heq
      rw [ElementId.eq_of_raw_eq hid, eq_of_taggedProperties_eq hg.2 hh.2 hproperties]
    | _ => simp [tagged] at heq
  | .edge ⟨id, label, outVertex, outVertexLabel, inVertex, inVertexLabel, properties⟩, h, hg, hh,
      heq => by
    cases h with
    | edge f =>
      obtain ⟨id', label', outVertex', outLabel', inVertex', inLabel', properties'⟩ := f
      simp only [tagged, Json.object.injEq, Json.string.injEq, List.cons.injEq, Prod.mk.injEq,
        true_and, and_true] at heq
      obtain ⟨hid, rfl, hout, rfl, hin, rfl, hproperties⟩ := heq
      rw [ElementId.eq_of_raw_eq hid, ElementId.eq_of_raw_eq hout, ElementId.eq_of_raw_eq hin,
        eq_of_taggedProperties_eq hg.2.2.2 hh.2.2.2 hproperties]
    | _ => simp [tagged] at heq
  | .path ⟨steps⟩, h, hg, hh, heq => by
    cases h with
    | path q =>
      obtain ⟨others⟩ := q
      simp only [tagged, Json.object.injEq, Json.array.injEq, List.cons.injEq, Prod.mk.injEq,
        true_and, and_true] at heq
      rw [steps_eq (objects_eq_of_taggedObjects_eq hg.2 hh.2 heq.1) heq.2]
    | _ => simp [tagged] at heq
termination_by structural g => g

theorem eq_of_taggedItems_eq : {as bs : List GraphValue} → WellFormedItems as →
    WellFormedItems bs → taggedItems as = taggedItems bs → as = bs
  | [], bs, ha, hb, heq => by
    cases bs with
    | nil => rfl
    | cons _ _ => cases heq
  | a :: as, bs, ha, hb, heq => by
    cases bs with
    | nil => cases heq
    | cons b bs =>
      obtain ⟨hfirst, hrest⟩ := List.cons.inj heq
      rw [eq_of_tagged_eq ha.1 hb.1 hfirst, eq_of_taggedItems_eq ha.2 hb.2 hrest]
termination_by structural as => as

theorem eq_of_taggedEntries_eq : {as bs : List (String × GraphValue)} → WellFormedEntries as →
    WellFormedEntries bs → taggedEntries as = taggedEntries bs → as = bs
  | [], bs, ha, hb, heq => by
    cases bs with
    | nil => rfl
    | cons _ _ => cases heq
  | (name, a) :: as, bs, ha, hb, heq => by
    cases bs with
    | nil => cases heq
    | cons b bs =>
      obtain ⟨hfirst, hrest⟩ := List.cons.inj heq
      obtain ⟨rfl, hvalue⟩ := Prod.mk.inj hfirst
      rw [eq_of_tagged_eq ha.1 hb.1 hvalue, eq_of_taggedEntries_eq ha.2 hb.2 hrest]
termination_by structural as => as

theorem objects_eq_of_taggedObjects_eq : {as bs : List (PathStep GraphValue)} →
    WellFormedSteps as → WellFormedSteps bs → taggedObjects as = taggedObjects bs →
    as.map PathStep.object = bs.map PathStep.object
  | [], bs, ha, hb, heq => by
    cases bs with
    | nil => rfl
    | cons _ _ => cases heq
  | ⟨a, l⟩ :: as, bs, ha, hb, heq => by
    cases bs with
    | nil => cases heq
    | cons b bs =>
      obtain ⟨hfirst, hrest⟩ := List.cons.inj heq
      rw [List.map_cons, List.map_cons, eq_of_tagged_eq ha.1 hb.1 hfirst,
        objects_eq_of_taggedObjects_eq ha.2 hb.2 hrest]
termination_by structural as => as

theorem eq_of_taggedProperties_eq {holder : Holder} :
    {as bs : List (String × List (PropertyValue GraphValue))} → WellFormedProperties holder as →
    WellFormedProperties holder bs → taggedProperties as = taggedProperties bs → as = bs
  | [], bs, ha, hb, heq => by
    cases bs with
    | nil => rfl
    | cons _ _ => cases heq
  | (name, a) :: as, bs, ha, hb, heq => by
    cases bs with
    | nil => cases heq
    | cons b bs =>
      obtain ⟨hfirst, hrest⟩ := List.cons.inj heq
      obtain ⟨rfl, hvalues⟩ := Prod.mk.inj hfirst
      rw [eq_of_taggedPropertyValues_eq ha.1 hb.1 (Json.array.inj hvalues),
        eq_of_taggedProperties_eq ha.2 hb.2 hrest]
termination_by structural as => as

theorem eq_of_taggedPropertyValues_eq {holder : Holder} :
    {as bs : List (PropertyValue GraphValue)} → WellFormedPropertyValues holder as →
    WellFormedPropertyValues holder bs → taggedPropertyValues as = taggedPropertyValues bs → as = bs
  | [], bs, ha, hb, heq => by
    cases bs with
    | nil => rfl
    | cons _ _ => cases heq
  | ⟨id, a, entries⟩ :: as, bs, ha, hb, heq => by
    cases bs with
    | nil => cases heq
    | cons b bs =>
      obtain ⟨id', b, entries'⟩ := b
      obtain ⟨hpresent, -, ha, hentries, has⟩ := ha
      obtain ⟨hpresent', -, hb, hentries', hbs⟩ := hb
      simp only [taggedPropertyValues, Json.object.injEq, List.cons.injEq, Prod.mk.injEq, true_and,
        and_true] at heq
      obtain ⟨⟨hid, hvalue, hproperties⟩, hrest⟩ := heq
      rw [eq_of_idJson_eq hpresent hpresent' hid, eq_of_tagged_eq ha hb hvalue,
        eq_of_taggedEntries_eq hentries hentries' hproperties,
        eq_of_taggedPropertyValues_eq has hbs hrest]
termination_by structural as => as

end

/-- Decoded values with one text are the same at every depth, and equal. -/
theorem eq_of_serialize_eq {i j : Json} {g h : GraphValue} (hg : ofJson? i = .ok g)
    (hh : ofJson? j = .ok h) (heq : g.serialize = h.serialize) : g = h ∧ g.equals h = true := by
  have hsame : g = h := eq_of_tagged_eq (Decode.wellFormed_value i hg)
    (Decode.wellFormed_value j hh) (Json.text_injective heq)
  subst hsame
  have hself := Decode.respected i i i.equals_self
  unfold ofJson? at hg
  rw [hg] at hself
  exact ⟨rfl, hself⟩

/-- A vertex with one property. -/
def weightedVertex (weight : Json) : Json :=
  .object
    [("id", .number (.ofInt64 1)), ("label", .string "person"),
      ("properties", .object [("weight", weight)]), ("type", .string "vertex")]

/-- A property may be given as one value or as a list of one, which are different trees. -/
theorem eq_of_serialize_eq_weightedVertex :
    ∃ g h, ofJson? (weightedVertex (.number (.double ⟨4607182418800017408⟩ rfl))) = .ok g ∧
      ofJson? (weightedVertex (.array [.number (.double ⟨4607182418800017408⟩ rfl)])) = .ok h ∧
      g.serialize = h.serialize ∧ g = h ∧ g.equals h = true :=
  ⟨_, _, rfl, rfl, rfl, eq_of_serialize_eq
    (i := weightedVertex (.number (.double ⟨4607182418800017408⟩ rfl)))
    (j := weightedVertex (.array [.number (.double ⟨4607182418800017408⟩ rfl)])) rfl rfl rfl⟩

end GraphValue

end PagedTraversal
