import PagedTraversal.Json.Basic

/-!
# PagedTraversal.Proofs.Json.Equality

Equality of JSON trees is an equivalence, and for trees with their members in order it is equality
of what the trees hold, whatever the order of the members.

* `Json.equals_self`, `Json.equals_comm`, `Json.equals_trans`: the laws; numbers in a tree are finite.
* `Json.find?_of_equalMembers`: in equal objects every name finds equal members.
* `Json.sameValue_iff_equals`: equality told by looking the members up.
-/

namespace PagedTraversal

theorem Double.equals_trans {a b c : Double} (hab : a.equals b = true) (hbc : b.equals c = true) :
    a.equals c = true := by
  simp only [Double.equals, Bool.and_eq_true, Bool.or_eq_true, beq_iff_eq] at hab hbc ⊢
  obtain ⟨⟨ha, -⟩, rfl | ⟨hza, hzb⟩⟩ := hab
  · exact hbc
  · obtain ⟨⟨-, hc⟩, rfl | ⟨-, hzc⟩⟩ := hbc
    · exact ⟨⟨ha, hc⟩, .inr ⟨hza, hzb⟩⟩
    · exact ⟨⟨ha, hc⟩, .inr ⟨hza, hzc⟩⟩

theorem Number.equals_trans {a b c : Number} (hab : a.equals b = true) (hbc : b.equals c = true) :
    a.equals c = true := by
  cases a <;> cases b <;> cases c <;> simp only [Number.equals, beq_iff_eq, Bool.false_eq_true] at *
  · exact hab.trans hbc
  · exact Double.equals_trans hab hbc

namespace Json

/-! ## Laws -/

mutual

theorem equals_self : ∀ j : Json, j.equals j = true
  | .null => rfl
  | .bool b => by simp [equals]
  | .number n => n.equals_self
  | .string s => by simp [equals]
  | .array js => equalItems_self js
  | .object ms => equalMembers_self ms

theorem equalItems_self : ∀ js : List Json, equalItems js js = true
  | [] => rfl
  | j :: rest => by simp [equalItems, equals_self j, equalItems_self rest]

theorem equalMembers_self : ∀ ms : List (String × Json), equalMembers ms ms = true
  | [] => rfl
  | (_, j) :: rest => by simp [equalMembers, equals_self j, equalMembers_self rest]

end

mutual

theorem equals_comm : ∀ j k : Json, j.equals k = k.equals j
  | .null, k => by cases k <;> rfl
  | .bool a, k => by cases k <;> simp [equals, BEq.comm]
  | .number a, k => by cases k <;> simp [equals, Number.equals_comm]
  | .string a, k => by cases k <;> simp [equals, BEq.comm]
  | .array js, k => by
    cases k with
    | array ks => exact equalItems_comm js ks
    | _ => rfl
  | .object ms, k => by
    cases k with
    | object ns => exact equalMembers_comm ms ns
    | _ => rfl

theorem equalItems_comm : ∀ js ks : List Json, equalItems js ks = equalItems ks js
  | [], ks => by cases ks <;> rfl
  | j :: js, ks => by
    cases ks with
    | nil => rfl
    | cons k ks => simp [equalItems, equals_comm j k, equalItems_comm js ks]

theorem equalMembers_comm : ∀ ms ns : List (String × Json), equalMembers ms ns = equalMembers ns ms
  | [], ns => by cases ns <;> rfl
  | (name, j) :: ms, ns => by
    cases ns with
    | nil => rfl
    | cons n ns =>
      simp [equalMembers, equals_comm j n.2, equalMembers_comm ms ns, BEq.comm (a := name)]

end

mutual

theorem equals_trans : ∀ {i j k : Json}, i.equals j = true → j.equals k = true → i.equals k = true
  | .null, j, k, hij, hjk => by cases j <;> first | exact hjk | cases hij
  | .bool a, j, k, hij, hjk => by
    cases j <;> simp only [equals, beq_iff_eq, Bool.false_eq_true] at hij
    subst hij
    exact hjk
  | .number a, j, k, hij, hjk => by
    cases j <;> cases k <;> simp only [equals, Bool.false_eq_true] at *
    exact Number.equals_trans hij hjk
  | .string a, j, k, hij, hjk => by
    cases j <;> simp only [equals, beq_iff_eq, Bool.false_eq_true] at hij
    subst hij
    exact hjk
  | .array is, j, k, hij, hjk => by
    cases j <;> cases k <;> simp only [equals, Bool.false_eq_true] at *
    exact equalItems_trans hij hjk
  | .object ls, j, k, hij, hjk => by
    cases j <;> cases k <;> simp only [equals, Bool.false_eq_true] at *
    exact equalMembers_trans hij hjk

theorem equalItems_trans : ∀ {is js ks : List Json},
    equalItems is js = true → equalItems js ks = true → equalItems is ks = true
  | [], js, ks, hij, hjk => by cases js <;> first | exact hjk | cases hij
  | i :: is, js, ks, hij, hjk => by
    cases js <;> cases ks <;> simp only [equalItems, Bool.and_eq_true, Bool.false_eq_true] at *
    exact ⟨equals_trans hij.1 hjk.1, equalItems_trans hij.2 hjk.2⟩

theorem equalMembers_trans : ∀ {ls ms ns : List (String × Json)},
    equalMembers ls ms = true → equalMembers ms ns = true → equalMembers ls ns = true
  | [], ms, ns, hlm, hmn => by cases ms <;> first | exact hmn | cases hlm
  | (l, i) :: ls, ms, ns, hlm, hmn => by
    cases ms <;> cases ns <;>
      simp only [equalMembers, Bool.and_eq_true, Bool.false_eq_true, beq_iff_eq] at *
    obtain ⟨⟨hname, hij⟩, hrest⟩ := hlm
    obtain ⟨⟨hname', hjk⟩, hrest'⟩ := hmn
    exact ⟨⟨hname.trans hname', equals_trans hij hjk⟩, equalMembers_trans hrest hrest'⟩

end

/-- How two trees can be equal. -/
inductive Matches : Json → Json → Prop where
  | null : Matches .null .null
  | bool (b : Bool) : Matches (.bool b) (.bool b)
  | number {m n : Number} (h : m.equals n = true) : Matches (.number m) (.number n)
  | string (s : String) : Matches (.string s) (.string s)
  | array {js ks : List Json} (h : equalItems js ks = true) : Matches (.array js) (.array ks)
  | object {ms ns : Members Json} (h : equalMembers ms ns = true) : Matches (.object ms) (.object ns)

theorem matches_of_equals {j k : Json} (h : j.equals k = true) : Matches j k := by
  cases j <;> cases k <;> simp only [equals, Bool.false_eq_true, beq_iff_eq] at h
  · exact .null
  · exact h ▸ .bool _
  · exact .number h
  · exact h ▸ .string _
  · exact .array h
  · exact .object h

theorem equals_of_matches {j k : Json} (h : Matches j k) : j.equals k = true := by
  cases h with
  | null => rfl
  | bool b => simp [equals]
  | number h => exact h
  | string s => simp [equals]
  | array h => exact h
  | object h => exact h

theorem length_of_equalItems {js ks : List Json} (h : equalItems js ks = true) :
    js.length = ks.length := by
  induction js generalizing ks with
  | nil =>
    cases ks with
    | nil => rfl
    | cons k ks => cases h
  | cons j js ih =>
    cases ks with
    | nil => cases h
    | cons k ks =>
      simp only [equalItems, Bool.and_eq_true] at h
      simp [ih h.2]

/-! ## Looking members up -/

/-- A name finds nothing in either of two equal objects, or matching trees in both. -/
theorem find?_of_equalMembers {ms ns : Members Json} (h : equalMembers ms ns = true)
    (name : String) :
    (Members.find? name ms = none ∧ Members.find? name ns = none) ∨
      ∃ j k, Members.find? name ms = some j ∧ Members.find? name ns = some k ∧ Matches j k := by
  induction ms generalizing ns with
  | nil =>
    cases ns with
    | nil => exact .inl ⟨rfl, rfl⟩
    | cons n ns => cases h
  | cons m ms ih =>
    cases ns with
    | nil => cases h
    | cons n ns =>
      simp only [equalMembers, Bool.and_eq_true, beq_iff_eq] at h
      obtain ⟨⟨hname, hvalue⟩, hrest⟩ := h
      by_cases hm : m.1 = name
      · have hn : n.1 = name := hname ▸ hm
        simp only [Members.find?, hm, hn, if_true]
        exact .inr ⟨m.2, n.2, rfl, rfl, matches_of_equals hvalue⟩
      · have hn : ¬ n.1 = name := hname ▸ hm
        simp only [Members.find?, hm, hn, if_false]
        exact ih hrest

theorem names_of_equalMembers {ms ns : Members Json} (h : equalMembers ms ns = true) :
    ms.map Prod.fst = ns.map Prod.fst := by
  induction ms generalizing ns with
  | nil =>
    cases ns with
    | nil => rfl
    | cons n ns => cases h
  | cons m ms ih =>
    cases ns with
    | nil => cases h
    | cons n ns =>
      simp only [equalMembers, Bool.and_eq_true, beq_iff_eq] at h
      simp [h.1.1, ih h.2]

mutual

/-- Equality whatever the order of members: two objects have the same names, and each name finds
equal values in both. -/
def SameValue : Json → Json → Prop
  | .null, .null => True
  | .bool a, .bool b => a = b
  | .number a, .number b => a.equals b = true
  | .string a, .string b => a = b
  | .array a, .array b => SameItems a b
  | .object a, .object b =>
    (∀ name, name ∈ a.map Prod.fst ↔ name ∈ b.map Prod.fst) ∧ SameMembers a b
  | _, _ => False
termination_by structural j => j

def SameItems : List Json → List Json → Prop
  | [], [] => True
  | a :: as, b :: bs => SameValue a b ∧ SameItems as bs
  | _, _ => False
termination_by structural js => js

/-- Each member of the one object finds an equal one in the other. -/
def SameMembers : Members Json → Members Json → Prop
  | [], _ => True
  | (name, a) :: rest, bs =>
    (∃ b, Members.find? name bs = some b ∧ SameValue a b) ∧ SameMembers rest bs
termination_by structural ms => ms

end

theorem sameMembers_iff {ms ns : Members Json} :
    SameMembers ms ns ↔ ∀ m ∈ ms, ∃ k, Members.find? m.1 ns = some k ∧ SameValue m.2 k := by
  induction ms with
  | nil => simp [SameMembers]
  | cons m rest ih => simp [SameMembers, ih]

/-- A member under another name does not matter. -/
theorem sameMembers_cons_right {ms ns : Members Json} {n : String × Json}
    (h : ∀ m ∈ ms, n.1 ≠ m.1) : SameMembers ms (n :: ns) ↔ SameMembers ms ns := by
  rw [sameMembers_iff, sameMembers_iff]
  refine forall₂_congr fun m hm => ?_
  have hfind : Members.find? m.1 (n :: ns) = Members.find? m.1 ns := by
    simp [Members.find?, h m hm]
  rw [hfind]

mutual

theorem sameValue_iff_equals : ∀ {j k : Json}, j.Sorted → k.Sorted →
    (j.SameValue k ↔ j.equals k = true)
  | .null, k, _, _ => by cases k <;> simp [SameValue, equals]
  | .bool a, k, _, _ => by cases k <;> simp [SameValue, equals]
  | .number a, k, _, _ => by cases k <;> simp [SameValue, equals]
  | .string a, k, _, _ => by cases k <;> simp [SameValue, equals]
  | .array js, k, hj, hk => by
    cases k with
    | array ks => exact sameItems_iff_equalItems hj hk
    | _ => simp [SameValue, equals]
  | .object ms, k, hj, hk => by
    cases k with
    | object ns =>
      rw [Sorted] at hj hk
      have hmembers := fun hnames => sameMembers_iff_equalMembers hj.1 hj.2 hk.2 hnames
      constructor
      · rintro ⟨hnames, hsame⟩
        exact (hmembers (Members.names_eq hj.1 hk.1 hnames)).1 hsame
      · intro (hequal : equalMembers ms ns = true)
        have hnames := names_of_equalMembers hequal
        exact ⟨fun name => by rw [hnames], (hmembers hnames).2 hequal⟩
    | _ => simp [SameValue, equals]

theorem sameItems_iff_equalItems : ∀ {js ks : List Json}, SortedItems js → SortedItems ks →
    (SameItems js ks ↔ equalItems js ks = true)
  | [], ks, _, _ => by cases ks <;> simp [SameItems, equalItems]
  | j :: js, ks, hj, hk => by
    cases ks with
    | nil => simp [SameItems, equalItems]
    | cons k ks =>
      rw [SameItems, equalItems, Bool.and_eq_true, sameValue_iff_equals hj.1 hk.1,
        sameItems_iff_equalItems hj.2 hk.2]

theorem sameMembers_iff_equalMembers : ∀ {ms ns : List (String × Json)}, Members.Sorted ms →
    SortedMembers ms → SortedMembers ns → ms.map Prod.fst = ns.map Prod.fst →
    (SameMembers ms ns ↔ equalMembers ms ns = true)
  | [], ns, _, _, _, hnames => by
    have hns : ns = [] := by simpa using hnames.symm
    simp [hns, SameMembers, equalMembers]
  | (name, j) :: ms, ns, hsorted, hms, hns, hnames => by
    cases ns with
    | nil => cases hnames
    | cons n ns =>
      obtain ⟨hname, hrest⟩ := List.cons.inj hnames
      have hname : name = n.1 := hname
      obtain ⟨hfirst, hlater⟩ := List.pairwise_cons.1 hsorted
      have hne : ∀ m ∈ ms, n.1 ≠ m.1 := fun m hm e =>
        String.lt_irrefl _ (e ▸ hname ▸ hfirst m hm)
      have hfind : Members.find? name (n :: ns) = some n.2 := by simp [Members.find?, hname]
      rw [SameMembers, hfind, sameMembers_cons_right hne,
        sameMembers_iff_equalMembers hlater hms.2 hns.2 hrest, equalMembers, Bool.and_eq_true,
        Bool.and_eq_true, beq_iff_eq, ← sameValue_iff_equals hms.1 hns.1]
      simp [hname]

end

end Json

end PagedTraversal
