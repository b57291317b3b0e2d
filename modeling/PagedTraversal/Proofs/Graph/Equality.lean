import PagedTraversal.Graph.Equality
import PagedTraversal.Proofs.Double.WholeNumber
import PagedTraversal.Proofs.Graph.WellFormed
import PagedTraversal.Proofs.Json.Equality

/-!
# PagedTraversal.Proofs.Graph.Equality

The laws of equality of graph values. It is symmetric. It is not transitive: a whole number is
rounded to a double before it is compared with one, so that two whole numbers from `2 ^ 53` on can
both equal a double and not each other.

* `GraphValue.equals_comm`: equality is symmetric.
* `GraphValue.equals_trans_iff`: values that equal a third one are equal unless different whole
  numbers face each other in them, which takes numbers that a double cannot tell apart.
-/

namespace PagedTraversal

/-! ## Scalars and identifiers -/

theorem ElementId.equals_comm (a b : ElementId) : a.equals b = b.equals a :=
  Json.equals_comm a.raw b.raw

theorem ElementId.equals_trans {a b c : ElementId} (hab : a.equals b = true)
    (hbc : b.equals c = true) : a.equals c = true :=
  Json.equals_trans hab hbc

theorem ElementId.equalOptions_comm (a b : Option ElementId) :
    equalOptions a b = equalOptions b a := by
  cases a with
  | none => cases b <;> rfl
  | some i =>
    cases b with
    | none => rfl
    | some j => exact i.equals_comm j

theorem ElementId.equalOptions_trans {a b c : Option ElementId} (hab : equalOptions a b = true)
    (hbc : equalOptions b c = true) : equalOptions a c = true := by
  cases a with
  | none => cases b <;> first | exact hbc | cases hab
  | some i =>
    cases b with
    | none => cases hab
    | some j =>
      cases c with
      | none => cases hbc
      | some k => exact ElementId.equals_trans hab hbc

namespace Scalar

theorem equals_self {x : Scalar} (h : x.IsFinite) : x.equals x = true := by
  cases x with
  | null => rfl
  | boolean b => exact beq_self_eq_true b
  | integer i => exact beq_self_eq_true i
  | double d => exact Double.equals_self (Double.isNaN_of_isFinite h)
  | string s => exact beq_self_eq_true s

theorem equals_comm (x y : Scalar) : x.equals y = y.equals x := by
  cases x <;> cases y <;> simp [equals, BEq.comm, Double.equals_comm]

/-- Of two whole numbers: they are the same. -/
def SameInteger : Scalar → Scalar → Prop
  | .integer i, .integer j => i = j
  | _, _ => True

/-- Of two whole numbers: one of them is below `2 ^ 53`, the sign apart. -/
def OneExact : Scalar → Scalar → Prop
  | .integer i, .integer j =>
    i.toInt.natAbs < 9007199254740992 ∨ j.toInt.natAbs < 9007199254740992
  | _, _ => True

theorem sameInteger_of_equals {x z : Scalar} (h : x.equals z = true) : x.SameInteger z := by
  cases x <;> cases z <;> first | exact trivial | skip
  exact beq_iff_eq.1 h

/-- Only two whole numbers can equal a third scalar, which is then a double, and not each other. -/
theorem equals_of_sameInteger {x y z : Scalar} (hxy : x.equals y = true) (hyz : y.equals z = true)
    (h : x.SameInteger z) : x.equals z = true := by
  cases x <;> cases y <;> cases z <;>
    simp only [equals, SameInteger, beq_iff_eq, Bool.false_eq_true] at *
  case boolean.boolean.boolean => exact hxy.trans hyz
  case integer.integer.integer => exact h
  case integer.integer.double =>
    rw [hxy]
    exact hyz
  case integer.double.integer => exact h
  case integer.double.double => exact Double.equals_trans hxy hyz
  case double.integer.integer =>
    rw [← hyz]
    exact hxy
  case double.integer.double =>
    rw [Double.equals_comm] at hxy
    exact Double.equals_trans hxy hyz
  case double.double.integer =>
    rw [Double.equals_comm] at hxy
    exact Double.equals_trans hyz hxy
  case double.double.double => exact Double.equals_trans hxy hyz
  case string.string.string => exact hxy.trans hyz

theorem natAbs_toInt_lt (i : Int64) : i.toInt.natAbs < 18446744073709551616 := by
  have := i.le_toInt
  have := i.toInt_lt
  omega

/-- Two whole numbers that equal one double are the same, if one of them is small. -/
theorem sameInteger_of_oneExact {x y z : Scalar} (hxy : x.equals y = true)
    (hyz : y.equals z = true) (h : x.OneExact z) : x.SameInteger z := by
  cases x <;> cases z <;> first | exact trivial | skip
  next i k =>
  cases y <;> simp only [equals, beq_iff_eq, Bool.false_eq_true] at hxy hyz
  · exact hxy.trans hyz
  · next d =>
    have hdoubles : (Double.ofInt i.toInt).equals (Double.ofInt k.toInt) = true :=
      Double.equals_trans hxy (Double.equals_comm _ _ ▸ hyz)
    rcases h with hi | hk
    · exact Int64.toInt_inj.1 (Double.eq_of_equals_ofInt hi (natAbs_toInt_lt k) hdoubles)
    · rw [Double.equals_comm] at hdoubles
      exact (Int64.toInt_inj.1 (Double.eq_of_equals_ofInt hk (natAbs_toInt_lt i) hdoubles)).symm

end Scalar

namespace GraphValue

/-! ## Symmetry -/

mutual

theorem equals_comm : ∀ a b : GraphValue, a.equals b = b.equals a
  | .scalar x, b => by
    cases b with
    | scalar y => exact x.equals_comm y
    | _ => rfl
  | .map xs, b => by
    cases b with
    | map ys => exact equalEntries_comm xs ys
    | _ => rfl
  | .list xs, b => by
    cases b with
    | list ys => exact equalItems_comm xs ys
    | _ => rfl
  | .vertex ⟨i, l, ps⟩, b => by
    cases b with
    | vertex w =>
      simp only [equals, i.equals_comm, BEq.comm (a := l), equalProperties_comm ps w.properties]
    | _ => rfl
  | .edge ⟨i, l, o, ol, n, nl, ps⟩, b => by
    cases b with
    | edge w =>
      simp only [equals, i.equals_comm, o.equals_comm, n.equals_comm, BEq.comm (a := l),
        BEq.comm (a := ol), BEq.comm (a := nl), equalProperties_comm ps w.properties]
    | _ => rfl
  | .path ⟨xs⟩, b => by
    cases b with
    | path q => exact equalSteps_comm xs q.steps
    | _ => rfl

theorem equalItems_comm : ∀ xs ys : List GraphValue, equalItems xs ys = equalItems ys xs
  | [], ys => by cases ys <;> rfl
  | x :: xs, ys => by
    cases ys with
    | nil => rfl
    | cons y ys => simp only [equalItems, equals_comm x y, equalItems_comm xs ys]

theorem equalEntries_comm : ∀ xs ys : List (String × GraphValue),
    equalEntries xs ys = equalEntries ys xs
  | [], ys => by cases ys <;> rfl
  | (k, x) :: xs, ys => by
    cases ys with
    | nil => rfl
    | cons y ys =>
      simp only [equalEntries, BEq.comm (a := k), equals_comm x y.2, equalEntries_comm xs ys]

theorem equalSteps_comm : ∀ xs ys : List (PathStep GraphValue), equalSteps xs ys = equalSteps ys xs
  | [], ys => by cases ys <;> rfl
  | ⟨x, l⟩ :: xs, ys => by
    cases ys with
    | nil => rfl
    | cons y ys =>
      simp only [equalSteps, equals_comm x y.object, BEq.comm (a := l), equalSteps_comm xs ys]

theorem equalProperties_comm : ∀ xs ys : List (String × List (PropertyValue GraphValue)),
    equalProperties xs ys = equalProperties ys xs
  | [], ys => by cases ys <;> rfl
  | (k, x) :: xs, ys => by
    cases ys with
    | nil => rfl
    | cons y ys =>
      simp only [equalProperties, BEq.comm (a := k), equalPropertyValues_comm x y.2,
        equalProperties_comm xs ys]

theorem equalPropertyValues_comm : ∀ xs ys : List (PropertyValue GraphValue),
    equalPropertyValues xs ys = equalPropertyValues ys xs
  | [], ys => by cases ys <;> rfl
  | ⟨i, x, ps⟩ :: xs, ys => by
    cases ys with
    | nil => rfl
    | cons y ys =>
      simp only [equalPropertyValues, ElementId.equalOptions_comm i y.id, equals_comm x y.value,
        equalEntries_comm ps y.properties, equalPropertyValues_comm xs ys]

end

/-! ## Equality in a chain -/

/-- How two graph values can be equal. -/
inductive Matches : GraphValue → GraphValue → Prop where
  | scalar {x y : Scalar} (h : x.equals y = true) : Matches (.scalar x) (.scalar y)
  | map {xs ys : List (String × GraphValue)} (h : equalEntries xs ys = true) :
      Matches (.map xs) (.map ys)
  | list {xs ys : List GraphValue} (h : equalItems xs ys = true) : Matches (.list xs) (.list ys)
  | vertex {i j : ElementId} {l : String} {ps qs : List (String × List (PropertyValue GraphValue))}
      (hid : i.equals j = true) (hps : equalProperties ps qs = true) :
      Matches (.vertex ⟨i, l, ps⟩) (.vertex ⟨j, l, qs⟩)
  | edge {i j o p n q : ElementId} {l ol nl : String}
      {ps qs : List (String × List (PropertyValue GraphValue))} (hid : i.equals j = true)
      (hout : o.equals p = true) (hinn : n.equals q = true) (hps : equalProperties ps qs = true) :
      Matches (.edge ⟨i, l, o, ol, n, nl, ps⟩) (.edge ⟨j, l, p, ol, q, nl, qs⟩)
  | path {xs ys : List (PathStep GraphValue)} (h : equalSteps xs ys = true) :
      Matches (.path ⟨xs⟩) (.path ⟨ys⟩)

theorem matches_of_equals {a b : GraphValue} (h : a.equals b = true) : Matches a b := by
  cases a <;> cases b <;> first | cases h | skip
  case scalar.scalar => exact .scalar h
  case map.map => exact .map h
  case list.list => exact .list h
  case vertex.vertex v w =>
    simp only [equals, Bool.and_eq_true, beq_iff_eq] at h
    obtain ⟨⟨hid, hlabel⟩, hps⟩ := h
    cases v
    cases w
    cases hlabel
    exact .vertex hid hps
  case edge.edge e f =>
    simp only [equals, Bool.and_eq_true, beq_iff_eq] at h
    obtain ⟨⟨⟨⟨⟨⟨hid, hlabel⟩, hout⟩, houtLabel⟩, hinn⟩, hinLabel⟩, hps⟩ := h
    cases e
    cases f
    cases hlabel
    cases houtLabel
    cases hinLabel
    exact .edge hid hout hinn hps
  case path.path => exact .path h

theorem equals_of_matches {a b : GraphValue} (h : Matches a b) : a.equals b = true := by
  cases h with
  | scalar h => exact h
  | map h => exact h
  | list h => exact h
  | vertex hid hps => simp [equals, hid, hps]
  | edge hid hout hinn hps => simp [equals, hid, hout, hinn, hps]
  | path h => exact h

mutual

/-- The property holds of the scalars at each place that both values have. -/
def Facing (P : Scalar → Scalar → Prop) : GraphValue → GraphValue → Prop
  | .scalar x, .scalar y => P x y
  | .map xs, .map ys => FacingEntries P xs ys
  | .list xs, .list ys => FacingItems P xs ys
  | .vertex ⟨_, _, ps⟩, .vertex ⟨_, _, qs⟩ => FacingProperties P ps qs
  | .edge ⟨_, _, _, _, _, _, ps⟩, .edge ⟨_, _, _, _, _, _, qs⟩ => FacingProperties P ps qs
  | .path ⟨xs⟩, .path ⟨ys⟩ => FacingSteps P xs ys
  | _, _ => True
termination_by structural v => v

def FacingItems (P : Scalar → Scalar → Prop) : List GraphValue → List GraphValue → Prop
  | x :: xs, y :: ys => Facing P x y ∧ FacingItems P xs ys
  | _, _ => True
termination_by structural vs => vs

def FacingEntries (P : Scalar → Scalar → Prop) :
    List (String × GraphValue) → List (String × GraphValue) → Prop
  | (_, x) :: xs, (_, y) :: ys => Facing P x y ∧ FacingEntries P xs ys
  | _, _ => True
termination_by structural vs => vs

def FacingSteps (P : Scalar → Scalar → Prop) :
    List (PathStep GraphValue) → List (PathStep GraphValue) → Prop
  | ⟨x, _⟩ :: xs, ⟨y, _⟩ :: ys => Facing P x y ∧ FacingSteps P xs ys
  | _, _ => True
termination_by structural vs => vs

def FacingProperties (P : Scalar → Scalar → Prop) :
    List (String × List (PropertyValue GraphValue)) →
    List (String × List (PropertyValue GraphValue)) → Prop
  | (_, x) :: xs, (_, y) :: ys => FacingPropertyValues P x y ∧ FacingProperties P xs ys
  | _, _ => True
termination_by structural vs => vs

def FacingPropertyValues (P : Scalar → Scalar → Prop) :
    List (PropertyValue GraphValue) → List (PropertyValue GraphValue) → Prop
  | ⟨_, x, ps⟩ :: xs, ⟨_, y, qs⟩ :: ys =>
    Facing P x y ∧ FacingEntries P ps qs ∧ FacingPropertyValues P xs ys
  | _, _ => True
termination_by structural vs => vs

end

/-- `P` holds of scalars that are equal. -/
def HoldsOfEqual (P : Scalar → Scalar → Prop) : Prop :=
  ∀ x y : Scalar, x.equals y = true → P x y

/-- Scalars that equal a third one are equal if `P` holds of them. -/
def Bridges (P : Scalar → Scalar → Prop) : Prop :=
  ∀ x y z : Scalar, x.equals y = true → y.equals z = true → P x z → x.equals z = true

section Facing

variable {P : Scalar → Scalar → Prop}

mutual

theorem facing_of_equals (hP : HoldsOfEqual P) : ∀ {a b : GraphValue},
    a.equals b = true → Facing P a b
  | .scalar x, b, h => by
    cases matches_of_equals h with
    | scalar h => exact hP x _ h
  | .map xs, b, h => by
    cases matches_of_equals h with
    | map h => exact facingEntries_of_equal hP h
  | .list xs, b, h => by
    cases matches_of_equals h with
    | list h => exact facingItems_of_equal hP h
  | .vertex ⟨i, l, ps⟩, b, h => by
    cases matches_of_equals h with
    | vertex hid hps => exact facingProperties_of_equal hP hps
  | .edge ⟨i, l, o, ol, n, nl, ps⟩, b, h => by
    cases matches_of_equals h with
    | edge hid hout hinn hps => exact facingProperties_of_equal hP hps
  | .path ⟨xs⟩, b, h => by
    cases matches_of_equals h with
    | path h => exact facingSteps_of_equal hP h

theorem facingItems_of_equal (hP : HoldsOfEqual P) : ∀ {xs ys : List GraphValue},
    equalItems xs ys = true → FacingItems P xs ys
  | [], _, _ => trivial
  | x :: xs, ys, h => by
    cases ys with
    | nil => exact trivial
    | cons y ys =>
      simp only [equalItems, Bool.and_eq_true] at h
      exact ⟨facing_of_equals hP h.1, facingItems_of_equal hP h.2⟩

theorem facingEntries_of_equal (hP : HoldsOfEqual P) : ∀ {xs ys : List (String × GraphValue)},
    equalEntries xs ys = true → FacingEntries P xs ys
  | [], _, _ => trivial
  | (k, x) :: xs, ys, h => by
    cases ys with
    | nil => exact trivial
    | cons y ys =>
      simp only [equalEntries, Bool.and_eq_true] at h
      exact ⟨facing_of_equals hP h.1.2, facingEntries_of_equal hP h.2⟩

theorem facingSteps_of_equal (hP : HoldsOfEqual P) : ∀ {xs ys : List (PathStep GraphValue)},
    equalSteps xs ys = true → FacingSteps P xs ys
  | [], _, _ => trivial
  | ⟨x, l⟩ :: xs, ys, h => by
    cases ys with
    | nil => exact trivial
    | cons y ys =>
      simp only [equalSteps, Bool.and_eq_true] at h
      exact ⟨facing_of_equals hP h.1.1, facingSteps_of_equal hP h.2⟩

theorem facingProperties_of_equal (hP : HoldsOfEqual P) :
    ∀ {xs ys : List (String × List (PropertyValue GraphValue))},
    equalProperties xs ys = true → FacingProperties P xs ys
  | [], _, _ => trivial
  | (k, x) :: xs, ys, h => by
    cases ys with
    | nil => exact trivial
    | cons y ys =>
      simp only [equalProperties, Bool.and_eq_true] at h
      exact ⟨facingPropertyValues_of_equal hP h.1.2, facingProperties_of_equal hP h.2⟩

theorem facingPropertyValues_of_equal (hP : HoldsOfEqual P) :
    ∀ {xs ys : List (PropertyValue GraphValue)},
    equalPropertyValues xs ys = true → FacingPropertyValues P xs ys
  | [], _, _ => trivial
  | ⟨i, x, ps⟩ :: xs, ys, h => by
    cases ys with
    | nil => exact trivial
    | cons y ys =>
      simp only [equalPropertyValues, Bool.and_eq_true] at h
      exact ⟨facing_of_equals hP h.1.1.2, facingEntries_of_equal hP h.1.2,
        facingPropertyValues_of_equal hP h.2⟩

end

mutual

theorem equals_of_facing (hP : Bridges P) : ∀ {a b c : GraphValue},
    a.equals b = true → b.equals c = true → Facing P a c → a.equals c = true
  | .scalar x, b, c, hab, hbc, hac => by
    cases matches_of_equals hab with
    | scalar hxy =>
      cases matches_of_equals hbc with
      | scalar hyz => exact hP x _ _ hxy hyz hac
  | .map xs, b, c, hab, hbc, hac => by
    cases matches_of_equals hab with
    | map hxy =>
      cases matches_of_equals hbc with
      | map hyz => exact equalEntries_of_facing hP hxy hyz hac
  | .list xs, b, c, hab, hbc, hac => by
    cases matches_of_equals hab with
    | list hxy =>
      cases matches_of_equals hbc with
      | list hyz => exact equalItems_of_facing hP hxy hyz hac
  | .vertex ⟨i, l, ps⟩, b, c, hab, hbc, hac => by
    cases matches_of_equals hab with
    | vertex hid hps =>
      cases matches_of_equals hbc with
      | vertex hid' hps' =>
        exact equals_of_matches (.vertex (ElementId.equals_trans hid hid')
          (equalProperties_of_facing hP hps hps' hac))
  | .edge ⟨i, l, o, ol, n, nl, ps⟩, b, c, hab, hbc, hac => by
    cases matches_of_equals hab with
    | edge hid hout hinn hps =>
      cases matches_of_equals hbc with
      | edge hid' hout' hinn' hps' =>
        exact equals_of_matches (.edge (ElementId.equals_trans hid hid')
          (ElementId.equals_trans hout hout') (ElementId.equals_trans hinn hinn')
          (equalProperties_of_facing hP hps hps' hac))
  | .path ⟨xs⟩, b, c, hab, hbc, hac => by
    cases matches_of_equals hab with
    | path hxy =>
      cases matches_of_equals hbc with
      | path hyz => exact equalSteps_of_facing hP hxy hyz hac

theorem equalItems_of_facing (hP : Bridges P) : ∀ {xs ys zs : List GraphValue},
    equalItems xs ys = true → equalItems ys zs = true → FacingItems P xs zs →
    equalItems xs zs = true
  | [], ys, zs, hxy, hyz, _ => by
    cases ys with
    | nil => exact hyz
    | cons y ys => cases hxy
  | x :: xs, ys, zs, hxy, hyz, hxz => by
    cases ys <;> cases zs <;> simp only [equalItems, Bool.and_eq_true, Bool.false_eq_true] at *
    exact ⟨equals_of_facing hP hxy.1 hyz.1 hxz.1, equalItems_of_facing hP hxy.2 hyz.2 hxz.2⟩

theorem equalEntries_of_facing (hP : Bridges P) : ∀ {xs ys zs : List (String × GraphValue)},
    equalEntries xs ys = true → equalEntries ys zs = true → FacingEntries P xs zs →
    equalEntries xs zs = true
  | [], ys, zs, hxy, hyz, _ => by
    cases ys with
    | nil => exact hyz
    | cons y ys => cases hxy
  | (k, x) :: xs, ys, zs, hxy, hyz, hxz => by
    cases ys <;> cases zs <;>
      simp only [equalEntries, Bool.and_eq_true, beq_iff_eq, Bool.false_eq_true] at *
    exact ⟨⟨hxy.1.1.trans hyz.1.1, equals_of_facing hP hxy.1.2 hyz.1.2 hxz.1⟩,
      equalEntries_of_facing hP hxy.2 hyz.2 hxz.2⟩

theorem equalSteps_of_facing (hP : Bridges P) : ∀ {xs ys zs : List (PathStep GraphValue)},
    equalSteps xs ys = true → equalSteps ys zs = true → FacingSteps P xs zs →
    equalSteps xs zs = true
  | [], ys, zs, hxy, hyz, _ => by
    cases ys with
    | nil => exact hyz
    | cons y ys => cases hxy
  | ⟨x, l⟩ :: xs, ys, zs, hxy, hyz, hxz => by
    cases ys <;> cases zs <;>
      simp only [equalSteps, Bool.and_eq_true, beq_iff_eq, Bool.false_eq_true] at *
    exact ⟨⟨equals_of_facing hP hxy.1.1 hyz.1.1 hxz.1, hxy.1.2.trans hyz.1.2⟩,
      equalSteps_of_facing hP hxy.2 hyz.2 hxz.2⟩

theorem equalProperties_of_facing (hP : Bridges P) :
    ∀ {xs ys zs : List (String × List (PropertyValue GraphValue))},
    equalProperties xs ys = true → equalProperties ys zs = true → FacingProperties P xs zs →
    equalProperties xs zs = true
  | [], ys, zs, hxy, hyz, _ => by
    cases ys with
    | nil => exact hyz
    | cons y ys => cases hxy
  | (k, x) :: xs, ys, zs, hxy, hyz, hxz => by
    cases ys <;> cases zs <;>
      simp only [equalProperties, Bool.and_eq_true, beq_iff_eq, Bool.false_eq_true] at *
    exact ⟨⟨hxy.1.1.trans hyz.1.1, equalPropertyValues_of_facing hP hxy.1.2 hyz.1.2 hxz.1⟩,
      equalProperties_of_facing hP hxy.2 hyz.2 hxz.2⟩

theorem equalPropertyValues_of_facing (hP : Bridges P) :
    ∀ {xs ys zs : List (PropertyValue GraphValue)},
    equalPropertyValues xs ys = true → equalPropertyValues ys zs = true →
    FacingPropertyValues P xs zs → equalPropertyValues xs zs = true
  | [], ys, zs, hxy, hyz, _ => by
    cases ys with
    | nil => exact hyz
    | cons y ys => cases hxy
  | ⟨i, x, ps⟩ :: xs, ys, zs, hxy, hyz, hxz => by
    cases ys <;> cases zs <;>
      simp only [equalPropertyValues, Bool.and_eq_true, Bool.false_eq_true] at *
    obtain ⟨⟨⟨hid, hvalue⟩, hps⟩, hrest⟩ := hxy
    obtain ⟨⟨⟨hid', hvalue'⟩, hps'⟩, hrest'⟩ := hyz
    exact ⟨⟨⟨ElementId.equalOptions_trans hid hid', equals_of_facing hP hvalue hvalue' hxz.1⟩,
      equalEntries_of_facing hP hps hps' hxz.2.1⟩,
      equalPropertyValues_of_facing hP hrest hrest' hxz.2.2⟩

end

end Facing

/-- Two values that equal a third one are equal if and only if the whole numbers that face each
other in them are the same. They are if one of each two is small. -/
theorem equals_trans_iff {a b c : GraphValue} (hab : a.equals b = true) (hbc : b.equals c = true) :
    (a.equals c = true ↔ Facing Scalar.SameInteger a c) ∧
      (Facing Scalar.OneExact a c → a.equals c = true) := by
  refine ⟨⟨facing_of_equals fun _ _ => Scalar.sameInteger_of_equals,
    equals_of_facing (fun _ _ _ => Scalar.equals_of_sameInteger) hab hbc⟩, ?_⟩
  refine equals_of_facing (fun x y z hxy hyz hexact => ?_) hab hbc
  exact Scalar.equals_of_sameInteger hxy hyz (Scalar.sameInteger_of_oneExact hxy hyz hexact)

/-- In a list with a whole number and a zero, of whichever kind each of them is. -/
theorem equals_trans_iff_five :
    let five := scalar (.integer 5)
    let a := list [five, scalar (.double ⟨9223372036854775808⟩)]
    let b := list [scalar (.double ⟨4617315517961601024⟩), scalar (.integer 0)]
    let c := list [five, scalar (.double ⟨0⟩)]
    a.equals b = true ∧ b.equals c = true ∧ Facing Scalar.OneExact a c ∧ a.equals c = true := by
  intro five a b c
  have hab : a.equals b = true := by decide
  have hbc : b.equals c = true := by decide
  have hexact : Facing Scalar.OneExact a c :=
    ⟨Or.inl (by decide), trivial, trivial⟩
  exact ⟨hab, hbc, hexact, (equals_trans_iff hab hbc).2 hexact⟩

/-- The trees `2 ^ 53`, the same as a double, and `2 ^ 53 + 1` decode to values of which the second
equals both others, and these are not equal: the last one is rounded down to the double. -/
theorem equals_not_trans :
    ∃ (i j k : Json) (a b c : GraphValue),
      ofJson? i = .ok a ∧ ofJson? j = .ok b ∧ ofJson? k = .ok c ∧
        a.equals b = true ∧ b.equals c = true ∧ a.equals c = false := by
  refine ⟨.number (.ofInt64 9007199254740992), .number (.double ⟨4845873199050653696⟩ (by decide)),
    .number (.ofInt64 9007199254740993), scalar (.integer 9007199254740992),
    scalar (.double ⟨4845873199050653696⟩), scalar (.integer 9007199254740993), rfl, rfl, rfl,
    ?_, ?_, ?_⟩ <;> decide

end GraphValue

end PagedTraversal
