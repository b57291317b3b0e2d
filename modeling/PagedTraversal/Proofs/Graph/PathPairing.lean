import Mathlib.Data.List.Perm.Subperm
import PagedTraversal.Graph.Access
import PagedTraversal.Proofs.Graph.Decoding

/-!
# PagedTraversal.Proofs.Graph.PathPairing

A path pairs the items under `objects` with the entries under `labels`, index for index, and what is
asked of it by index or by label goes by that pairing.

* `LabelSet.eq_of_subset`: of two label sets with equally many labels, one that lies in the other is
  the other. This is why counting decides whether an object carries exactly the given labels.
* `Decode.LabelsOf`: the label set of an entry.
* `GraphValue.path_pairs`: what a decoded path has at each index, and what it answers.
-/

namespace PagedTraversal

namespace LabelSet

theorem Sorted.nodup {set : LabelSet} (h : Sorted set) : set.Nodup := by
  refine List.Pairwise.imp ?_ h
  rintro a b hlt rfl
  exact String.lt_irrefl _ hlt

theorem eq_of_perm {a b : LabelSet} (ha : Sorted a) (hb : Sorted b) (h : a.Perm b) : a = b :=
  h.eq_of_pairwise (fun _ _ _ _ hlt hgt => absurd hgt (String.lt_asymm hlt)) ha hb

theorem eq_of_subset {a b : LabelSet} (ha : Sorted a) (hb : Sorted b)
    (hlength : a.length = b.length) (hsubset : ∀ l ∈ a, l ∈ b) : a = b := by
  have hpart : a.Subperm b := List.subperm_of_subset ha.nodup hsubset
  exact eq_of_perm ha hb (hpart.perm_of_length_le (Nat.le_of_eq hlength.symm))

/-- A set in order is the set of a list if and only if it has the labels of the list. -/
theorem eq_ofList_iff {set : LabelSet} (h : Sorted set) {labels : List String} :
    set = ofList labels ↔ ∀ l, l ∈ labels ↔ l ∈ set := by
  constructor
  · rintro rfl l
    exact mem_ofList.symm
  · intro hsame
    refine eq_of_perm h (sorted_ofList labels) ?_
    refine (List.perm_ext_iff_of_nodup h.nodup (sorted_ofList labels).nodup).2 fun l => ?_
    rw [mem_ofList]
    exact (hsame l).symm

end LabelSet

namespace Path

variable {α : Type} {p : Path α}

theorem object?_eq (i : Nat) : p.object? i = p.objects[i]? := by
  simp [object?, objects]

theorem labels?_eq (i : Nat) : p.labels? i = p.labels[i]? := by
  simp [labels?, labels]

/-- The labels are counted and looked up among the given ones, repetitions of which count once. -/
theorem hasLabels_iff (hsorted : ∀ set ∈ p.labels, LabelSet.Sorted set) (i : Nat)
    (labels : List String) :
    p.hasLabels i labels = true ↔ ∃ set, p.labels? i = some set ∧ ∀ l, l ∈ labels ↔ l ∈ set := by
  unfold hasLabels
  cases hset : p.labels? i with
  | none => simp
  | some set =>
    have hset' : LabelSet.Sorted set := by
      rw [labels?_eq] at hset
      exact hsorted set (List.mem_of_getElem? hset)
    simp only [Bool.and_eq_true, beq_iff_eq, List.all_eq_true, List.contains_iff_mem,
      Option.some.injEq, exists_eq_left', ← LabelSet.eq_ofList_iff hset']
    constructor
    · rintro ⟨hlength, hsubset⟩
      exact LabelSet.eq_of_subset hset' (LabelSet.sorted_ofList labels) hlength hsubset
    · intro hsame
      rw [← hsame]
      exact ⟨rfl, fun _ h => h⟩

/-- The object at an index, if its label set has the label. -/
def boundAt? (p : Path α) (label : String) (i : Nat) : Option α :=
  if ∃ set, p.labels? i = some set ∧ label ∈ set then p.object? i else none

theorem boundAt?_cons_zero (s : PathStep α) (rest : List (PathStep α)) (label : String) :
    boundAt? ⟨s :: rest⟩ label 0 = if label ∈ s.labels then some s.object else none := by
  simp [boundAt?, labels?, object?]

/-- The objects bound to a label are found at the indices whose label sets have it. -/
theorem objectsLabeled_eq (p : Path α) (label : String) :
    p.objectsLabeled label = (List.range p.length).filterMap (p.boundAt? label) := by
  obtain ⟨steps⟩ := p
  induction steps with
  | nil => rfl
  | cons s rest ih =>
    have hshift : boundAt? ⟨s :: rest⟩ label ∘ Nat.succ = boundAt? ⟨rest⟩ label := rfl
    simp only [objectsLabeled, length] at ih ⊢
    rw [List.length_cons, List.range_succ_eq_map, List.filterMap_cons, List.filterMap_map, hshift,
      ← ih, boundAt?_cons_zero, List.filter_cons]
    by_cases hbound : label ∈ s.labels
    · simp [hbound]
    · simp [hbound]

end Path

namespace Decode

/-- The label set of an entry under `labels`: none, the one label, or the labels of the array, in
order and each of them once. -/
inductive LabelsOf : Json → LabelSet → Prop where
  | none : LabelsOf .null []
  | one (label : String) : LabelsOf (.string label) [label]
  | many {labels : List String} {set : LabelSet} : LabelSet.Sorted set →
      (∀ l, l ∈ set ↔ l ∈ labels) → LabelsOf (.array (labels.map .string)) set

theorem LabelsOf.sorted {entry : Json} {set : LabelSet} (h : LabelsOf entry set) :
    LabelSet.Sorted set := by
  cases h with
  | none => exact List.Pairwise.nil
  | one label => exact List.pairwise_singleton _ _
  | many hsorted _ => exact hsorted

theorem eq_map_of_mapM_string? {items : List Json} {labels : List String}
    (h : items.mapM Json.string? = some labels) : items = labels.map .string := by
  induction items generalizing labels with
  | nil =>
    cases h
    rfl
  | cons item rest ih =>
    simp only [List.mapM_cons, Option.bind_eq_bind, Option.pure_def, Option.bind_eq_some_iff] at h
    obtain ⟨s, hs, more, hmore, h⟩ := h
    cases h
    cases item with
    | string t =>
      cases hs
      rw [ih hmore, List.map_cons]
    | _ => cases hs

theorem labelsOf_of_labelSet {i : Nat} {entry : Json} {set : LabelSet}
    (h : labelSet i entry = .ok set) : LabelsOf entry set := by
  cases entry with
  | null =>
    cases h
    exact .none
  | string s =>
    cases h
    exact .one s
  | array items =>
    simp only [labelSet] at h
    split at h
    · next labels hlabels =>
      cases h
      rw [eq_map_of_mapM_string? hlabels]
      exact .many (LabelSet.sorted_ofList labels) fun l => LabelSet.mem_ofList
    · cases h
  | _ => cases h

theorem getElem?_of_labelSets {i : Nat} {entries : List Json} {sets : List LabelSet}
    (h : labelSets i entries = .ok sets) {k : Nat} {entry : Json} (hk : entries[k]? = some entry) :
    ∃ set, sets[k]? = some set ∧ LabelsOf entry set := by
  induction entries generalizing i sets k with
  | nil => cases hk
  | cons first rest ih =>
    simp only [labelSets, bind_eq_ok] at h
    obtain ⟨labels, hlabels, more, hmore, h⟩ := h
    cases h
    cases k with
    | zero =>
      cases hk
      exact ⟨labels, rfl, labelsOf_of_labelSet hlabels⟩
    | succ k => exact ih hmore hk

theorem getElem?_of_items {step : Nat → LocationStep} {i : Nat} {js : List Json}
    {vs : List GraphValue} (h : items step i js = .ok vs) {k : Nat} {j : Json}
    (hk : js[k]? = some j) : ∃ v, value j = .ok v ∧ vs[k]? = some v := by
  induction js generalizing i vs k with
  | nil => cases hk
  | cons first rest ih =>
    simp only [items, bind_eq_ok, within_eq_ok] at h
    obtain ⟨v, hv, more, hmore, h⟩ := h
    cases h
    cases k with
    | zero =>
      cases hk
      exact ⟨v, hv, rfl⟩
    | succ k => exact ih hmore hk

/-- An object that is recognised as a path decodes to the objects and label sets of its two arrays. -/
theorem path_of_value {ms : Members Json} {objects labels : List Json} {v : GraphValue}
    (hvertex : Members.find? "type" ms ≠ some (.string "vertex"))
    (hedge : Members.find? "type" ms ≠ some (.string "edge"))
    (hobjects : Members.find? "objects" ms = some (.array objects))
    (hlabels : Members.find? "labels" ms = some (.array labels))
    (h : value (.object ms) = .ok v) :
    ∃ p vs sets, v = .path p ∧ items .object 0 objects = .ok vs ∧ labelSets 0 labels = .ok sets ∧
      p.objects = vs ∧ p.labels = sets := by
  have hshape : Shape.ofMembers ms = .path objects.length labels.length := by
    unfold Shape.ofMembers
    split
    · next hname => exact absurd hname hvertex
    · next hname => exact absurd hname hedge
    · rw [hobjects, hlabels]
  rcases value_object_cases h with ⟨_, _, _, e, -⟩ | ⟨_, _, _, _, _, _, _, e, -⟩ |
    ⟨n, vs, sets, e, hvs, hsets, rfl⟩ | ⟨_, e, -⟩
  · rw [hshape] at e
    cases e
  · rw [hshape] at e
    cases e
  · rw [pathObjects_eq, hobjects] at hvs
    rw [pathLabels, hlabels] at hsets
    have hpaired : vs.length = sets.length := by
      rw [hshape, Shape.path.injEq] at e
      rw [length_of_items hvs, length_of_labelSets hsets, e.1, e.2]
    exact ⟨_, vs, sets, rfl, hvs, hsets, Path.objects_zipWith hpaired, Path.labels_zipWith hpaired⟩
  · rw [hshape] at e
    cases e

end Decode

namespace GraphValue

/-- The path of the items under `objects` and the entries under `labels`.
`length`: it has an object for each item, and there are as many entries. `object`, `labels`: at each
index stand the value of the item and the label set of the entry. `beyond`: past the end there is
neither. `labeled`: the objects bound to a label are those at the indices whose label sets have it,
in the order of the path. `exact`: an object carries exactly the given labels if its label set has
them and no others. -/
structure PathPairs (objects labels : List Json) (p : Path GraphValue) : Prop where
  length : p.length = objects.length ∧ labels.length = objects.length
  object : ∀ (i : Nat) item, objects[i]? = some item →
    ∃ v, ofJson? item = .ok v ∧ p.object? i = some v
  labels : ∀ (i : Nat) entry, labels[i]? = some entry →
    ∃ set, p.labels? i = some set ∧ Decode.LabelsOf entry set
  beyond : ∀ i, objects.length ≤ i → p.object? i = none ∧ p.labels? i = none
  labeled : ∀ label,
    p.objectsLabeled label = (List.range objects.length).filterMap (p.boundAt? label)
  exact : ∀ i named, p.hasLabels i named = true ↔
    i < objects.length ∧ ∃ set, p.labels? i = some set ∧ ∀ l, l ∈ named ↔ l ∈ set

theorem path_pairs {ms : Members Json} {objects labels : List Json} {v : GraphValue}
    (hvertex : Members.find? "type" ms ≠ some (.string "vertex"))
    (hedge : Members.find? "type" ms ≠ some (.string "edge"))
    (hobjects : Members.find? "objects" ms = some (.array objects))
    (hlabels : Members.find? "labels" ms = some (.array labels))
    (h : ofJson? (.object ms) = .ok v) : ∃ p, v = .path p ∧ PathPairs objects labels p := by
  obtain ⟨p, vs, sets, rfl, hvs, hsets, rfl, rfl⟩ :=
    Decode.path_of_value hvertex hedge hobjects hlabels h
  have hlength : p.length = objects.length := by
    rw [← Decode.length_of_items hvs, Path.objects, List.length_map, Path.length]
  have hpaired : p.labels.length = objects.length := by
    rw [← p.length_objects, Decode.length_of_items hvs]
  have hsorted : ∀ set ∈ p.labels, LabelSet.Sorted set := by
    intro set hset
    obtain ⟨i, hi⟩ := List.getElem?_of_mem hset
    have hin : i < labels.length := by
      rw [← Decode.length_of_labelSets hsets]
      exact (List.getElem?_eq_some_iff.1 hi).1
    obtain ⟨set', hset', hof⟩ := Decode.getElem?_of_labelSets hsets (List.getElem?_eq_getElem hin)
    rw [hi] at hset'
    cases hset'
    exact hof.sorted
  refine ⟨p, rfl, ⟨hlength, ?_⟩, ?_, ?_, ?_, ?_, ?_⟩
  · rw [← Decode.length_of_labelSets hsets, hpaired]
  · intro i item hitem
    rw [Path.object?_eq]
    exact Decode.getElem?_of_items hvs hitem
  · intro i entry hentry
    rw [Path.labels?_eq]
    exact Decode.getElem?_of_labelSets hsets hentry
  · intro i hi
    rw [Path.object?_eq, Path.labels?_eq, List.getElem?_eq_none_iff, List.getElem?_eq_none_iff,
      p.length_objects, hpaired]
    exact ⟨hi, hi⟩
  · intro label
    rw [Path.objectsLabeled_eq, hlength]
  · intro i named
    rw [Path.hasLabels_iff hsorted]
    constructor
    · rintro ⟨set, hset, hsame⟩
      have hin := hset
      rw [Path.labels?_eq] at hin
      exact ⟨hpaired ▸ (List.getElem?_eq_some_iff.1 hin).1, set, hset, hsame⟩
    · exact And.right

/-- Three numbers, of which the first is bound to two labels, one of them named twice. -/
def labeledNumbers : Members Json :=
  [("labels", .array [.array [.string "b", .string "a", .string "b"], .null, .string "a"]),
    ("objects", .array
      [.number (.ofInt64 1), .number (.ofInt64 2), .number (.ofInt64 3)])]

theorem path_pairs_labeledNumbers :
    ∃ p, ofJson? (.object labeledNumbers) = .ok (.path p) ∧
      p.labels = [["a", "b"], [], ["a"]] ∧
      p.objectsLabeled "a" = [.scalar (.integer 1), .scalar (.integer 3)] ∧
      p.hasLabels 0 ["a", "b", "a"] = true ∧ p.hasLabels 0 ["a", "a"] = false ∧
      p.hasLabels 3 [] = false := by
  have hvertex : Members.find? "type" labeledNumbers ≠ some (.string "vertex") := nofun
  have hedge : Members.find? "type" labeledNumbers ≠ some (.string "edge") := nofun
  obtain ⟨p, hp, hpairs⟩ := path_pairs hvertex hedge rfl rfl rfl
  cases hp
  have hsame : ∀ l, l ∈ ["a", "b", "a"] ↔ l ∈ ["a", "b"] := by
    intro l
    simp [or_comm]
  exact ⟨_, rfl, rfl, rfl, (hpairs.exact 0 _).2 ⟨by decide, ["a", "b"], rfl, hsame⟩, rfl, rfl⟩

end GraphValue

end PagedTraversal
