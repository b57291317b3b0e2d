/-!
# PagedTraversal.Members

Members: the named parts of an object, as a list of pairs kept in the order of the names. Names are
ordered by code point, which is also the byte order of their UTF-8 forms. Main statements:
inserting keeps the order, and a look-up after it finds the new member and leaves the others.
-/

namespace PagedTraversal

/-- The named parts of an object. -/
abbrev Members (α : Type) := List (String × α)

namespace Members

variable {α β : Type}

/-- The names are strictly increasing, so none occurs twice. -/
def Sorted (ms : Members α) : Prop := ms.Pairwise fun a b => a.1 < b.1

/-- Puts a member at the place of its name. A member of that name gives way to the new one. -/
def insert (name : String) (value : α) : Members α → Members α
  | [] => [(name, value)]
  | m :: rest =>
    if name < m.1 then (name, value) :: m :: rest
    else if name = m.1 then (name, value) :: rest
    else m :: insert name value rest

/-- Inserts the pairs one after another, so of equal names the last pair counts. -/
def ofPairs (pairs : List (String × α)) : Members α :=
  pairs.foldl (fun ms p => insert p.1 p.2 ms) []

/-- The value of the first member with the name. -/
def find? (name : String) : Members α → Option α
  | [] => none
  | m :: rest => if m.1 = name then some m.2 else find? name rest

theorem sorted_iff {ms : Members α} : Sorted ms ↔ (ms.map Prod.fst).Pairwise (· < ·) :=
  List.pairwise_map.symm

theorem find?_insert_self (name : String) (value : α) (ms : Members α) :
    find? name (insert name value ms) = some value := by
  induction ms with
  | nil => simp [insert, find?]
  | cons m rest ih =>
    by_cases hlt : name < m.1
    · simp [insert, hlt, find?]
    · by_cases heq : name = m.1
      · simp [insert, heq, find?]
      · have hne : ¬ m.1 = name := fun e => heq e.symm
        simp [insert, hlt, heq, find?, hne, ih]

theorem find?_insert_of_ne {name other : String} (h : other ≠ name) (value : α) (ms : Members α) :
    find? other (insert name value ms) = find? other ms := by
  have hne : ¬ name = other := fun e => h e.symm
  induction ms with
  | nil => simp [insert, find?, hne]
  | cons m rest ih =>
    by_cases hlt : name < m.1
    · simp [insert, hlt, find?, hne]
    · by_cases heq : name = m.1
      · subst heq
        simp [insert, find?, hne]
      · simp [insert, hlt, heq, find?, ih]

/-- What an insertion leaves behind is the new member or was there before. -/
theorem eq_or_mem_of_mem_insert {name : String} {value : α} {ms : Members α} {m : String × α}
    (h : m ∈ insert name value ms) : m = (name, value) ∨ m ∈ ms := by
  induction ms with
  | nil => exact Or.inl (List.mem_singleton.1 h)
  | cons n rest ih =>
    simp only [insert] at h
    split at h
    · exact List.mem_cons.1 h
    · split at h
      · exact (List.mem_cons.1 h).imp id (List.mem_cons_of_mem _)
      · rcases List.mem_cons.1 h with e | e
        · exact Or.inr (by rw [e]; exact List.mem_cons_self)
        · exact (ih e).imp id (List.mem_cons_of_mem _)

theorem sorted_insert (name : String) (value : α) {ms : Members α} (h : Sorted ms) :
    Sorted (insert name value ms) := by
  induction ms with
  | nil => simp [insert, Sorted]
  | cons m rest ih =>
    have hrest := List.pairwise_cons.1 h
    simp only [insert]
    split
    · next hlt =>
      refine List.pairwise_cons.2 ⟨fun b hb => ?_, h⟩
      rcases List.mem_cons.1 hb with e | e
      · rw [e]; exact hlt
      · exact String.lt_trans hlt (hrest.1 b e)
    · split
      · next heq =>
        exact List.pairwise_cons.2 ⟨fun b hb => by rw [heq]; exact hrest.1 b hb, hrest.2⟩
      · next hlt heq =>
        refine List.pairwise_cons.2 ⟨fun b hb => ?_, ih hrest.2⟩
        rcases eq_or_mem_of_mem_insert hb with e | e
        · rw [e]
          refine Decidable.byContradiction fun hnot => heq ?_
          exact String.le_antisymm (String.not_lt.1 hnot) (String.not_lt.1 hlt)
        · exact hrest.1 b e

/-- In order, each member is the one that its name finds. -/
theorem find?_of_mem {ms : Members α} (h : Sorted ms) {m : String × α} (hm : m ∈ ms) :
    find? m.1 ms = some m.2 := by
  induction ms with
  | nil => cases hm
  | cons n rest ih =>
    obtain ⟨hbefore, hrest⟩ := List.pairwise_cons.1 h
    rcases List.mem_cons.1 hm with rfl | hm
    · simp [find?]
    · have hne : ¬ n.1 = m.1 := by
        intro e
        exact String.lt_irrefl _ (e ▸ hbefore m hm)
      simp [find?, hne, ih hrest hm]

/-- In order, the same names make the same list. -/
theorem names_eq {ms : Members α} {ns : Members β} (hms : Sorted ms) (hns : Sorted ns)
    (h : ∀ name, name ∈ ms.map Prod.fst ↔ name ∈ ns.map Prod.fst) :
    ms.map Prod.fst = ns.map Prod.fst := by
  have hms := sorted_iff.1 hms
  have hns := sorted_iff.1 hns
  have hnodup : ∀ {names : List String}, names.Pairwise (· < ·) → names.Nodup := by
    intro names hnames
    refine List.Pairwise.imp ?_ hnames
    rintro a b hlt rfl
    exact String.lt_irrefl _ hlt
  have hperm := (List.perm_ext_iff_of_nodup (hnodup hms) (hnodup hns)).2 h
  exact hperm.eq_of_pairwise (fun a b _ _ hab hba => absurd hba (String.lt_asymm hab)) hms hns

theorem mem_of_mem_ofPairs {pairs : List (String × α)} {m : String × α}
    (h : m ∈ ofPairs pairs) : m ∈ pairs := by
  have hfold : ∀ (ps : List (String × α)) (ms : Members α),
      m ∈ ps.foldl (fun ms p => insert p.1 p.2 ms) ms → m ∈ ps ∨ m ∈ ms := by
    intro ps
    induction ps with
    | nil => intro ms hm; exact Or.inr hm
    | cons p ps ih =>
      intro ms hm
      rcases ih _ hm with e | e
      · exact Or.inl (List.mem_cons_of_mem _ e)
      · rcases eq_or_mem_of_mem_insert e with e | e
        · exact Or.inl (by rw [e]; exact List.mem_cons_self)
        · exact Or.inr e
  exact (hfold pairs [] h).resolve_right List.not_mem_nil

theorem insert_of_forall_lt {name : String} (value : α) {ms : Members α}
    (h : ∀ m ∈ ms, m.1 < name) : insert name value ms = ms ++ [(name, value)] := by
  induction ms with
  | nil => rfl
  | cons m rest ih =>
    have hlt := h m List.mem_cons_self
    have hnot : ¬ name < m.1 := String.lt_asymm hlt
    have hne : ¬ name = m.1 := by
      rintro rfl
      exact hnot hlt
    have hrest := ih fun x hx => h x (List.mem_cons_of_mem _ hx)
    simp [insert, hnot, hne, hrest]

/-- Pairs that are in order already stay as they are. -/
theorem ofPairs_of_sorted {ms : Members α} (h : Sorted ms) : ofPairs ms = ms := by
  have hfold : ∀ (ps front : List (String × α)), Sorted (front ++ ps) →
      ps.foldl (fun ms p => insert p.1 p.2 ms) front = front ++ ps := by
    intro ps
    induction ps with
    | nil => intro front _; simp
    | cons p rest ih =>
      intro front hsorted
      have hlt : ∀ m ∈ front, m.1 < p.1 := fun m hm =>
        (List.pairwise_append.1 hsorted).2.2 m hm p List.mem_cons_self
      rw [List.foldl_cons, insert_of_forall_lt p.2 hlt, ih]
      · simp
      · simpa using hsorted
  exact hfold ms [] h

theorem sorted_ofPairs (pairs : List (String × α)) : Sorted (ofPairs pairs) := by
  have h : ∀ (ps : List (String × α)) (ms : Members α), Sorted ms →
      Sorted (ps.foldl (fun ms p => insert p.1 p.2 ms) ms) := by
    intro ps
    induction ps with
    | nil => intro ms h; exact h
    | cons p ps ih => intro ms h; exact ih _ (sorted_insert p.1 p.2 h)
  exact h pairs [] List.Pairwise.nil

end Members

/-- A set of labels, kept as a strictly increasing list. -/
abbrev LabelSet := List String

namespace LabelSet

/-- Puts a label at its place; one that is there already stays alone. -/
def insert (label : String) : LabelSet → LabelSet
  | [] => [label]
  | l :: rest =>
    if label < l then label :: l :: rest
    else if label = l then l :: rest
    else l :: insert label rest

/-- The set of the labels of a list: order and repetitions are forgotten. -/
def ofList (labels : List String) : LabelSet := labels.foldl (fun set l => insert l set) []

theorem mem_insert {label x : String} {set : LabelSet} :
    x ∈ insert label set ↔ x = label ∨ x ∈ set := by
  induction set with
  | nil => simp [insert]
  | cons l rest ih =>
    simp only [insert]
    split
    · simp
    · split
      · next h => subst h; simp
      · simp only [List.mem_cons, ih]
        constructor
        · rintro (h | h | h) <;> simp [h]
        · rintro (h | h | h) <;> simp [h]

theorem mem_ofList {labels : List String} {x : String} : x ∈ ofList labels ↔ x ∈ labels := by
  have h : ∀ (ls : List String) (set : LabelSet),
      x ∈ ls.foldl (fun set l => insert l set) set ↔ x ∈ ls ∨ x ∈ set := by
    intro ls
    induction ls with
    | nil => intro set; simp
    | cons l ls ih =>
      intro set
      rw [List.foldl_cons, ih, mem_insert, List.mem_cons]
      constructor
      · rintro (h | h | h) <;> simp [h]
      · rintro ((h | h) | h) <;> simp [h]
  rw [ofList, h]
  simp

/-- The labels are strictly increasing, so none occurs twice. -/
def Sorted (set : LabelSet) : Prop := set.Pairwise (· < ·)

theorem sorted_insert (label : String) {set : LabelSet} (h : Sorted set) :
    Sorted (insert label set) := by
  induction set with
  | nil => simp [insert, Sorted]
  | cons l rest ih =>
    obtain ⟨hfirst, hrest⟩ := List.pairwise_cons.1 h
    simp only [insert]
    split
    · next hlt =>
      refine List.pairwise_cons.2 ⟨fun x hx => ?_, h⟩
      rcases List.mem_cons.1 hx with rfl | hx
      · exact hlt
      · exact String.lt_trans hlt (hfirst x hx)
    · split
      · exact h
      · next hlt hne =>
        refine List.pairwise_cons.2 ⟨fun x hx => ?_, ih hrest⟩
        rcases mem_insert.1 hx with rfl | hx
        · refine Decidable.byContradiction fun hnot => hne ?_
          exact String.le_antisymm (String.not_lt.1 hnot) (String.not_lt.1 hlt)
        · exact hfirst x hx

theorem sorted_ofList (labels : List String) : Sorted (ofList labels) := by
  have hfold : ∀ (ls : List String) (set : LabelSet), Sorted set →
      Sorted (ls.foldl (fun set l => insert l set) set) := by
    intro ls
    induction ls with
    | nil => exact fun _ h => h
    | cons l ls ih => exact fun set h => ih _ (sorted_insert l h)
  exact hfold labels [] List.Pairwise.nil

theorem insert_of_forall_lt {label : String} {set : LabelSet} (h : ∀ l ∈ set, l < label) :
    insert label set = set ++ [label] := by
  induction set with
  | nil => rfl
  | cons l rest ih =>
    have hl := h l List.mem_cons_self
    have hnot : ¬ label < l := String.lt_asymm hl
    have hne : ¬ label = l := by
      rintro rfl
      exact hnot hl
    have hrest := ih fun x hx => h x (List.mem_cons_of_mem _ hx)
    simp [insert, hnot, hne, hrest]

theorem ofList_of_sorted {set : LabelSet} (h : Sorted set) : ofList set = set := by
  have hfold : ∀ (labels : List String) (front : LabelSet), Sorted (front ++ labels) →
      labels.foldl (fun set l => insert l set) front = front ++ labels := by
    intro labels
    induction labels with
    | nil => intro front _; simp
    | cons l rest ih =>
      intro front hsorted
      have hlt : ∀ x ∈ front, x < l := by
        intro x hx
        exact (List.pairwise_append.1 hsorted).2.2 x hx l List.mem_cons_self
      rw [List.foldl_cons, insert_of_forall_lt hlt, ih]
      · simp
      · simpa using hsorted
  exact hfold set [] h

end LabelSet

end PagedTraversal
