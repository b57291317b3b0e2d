import PagedTraversal.Proofs.Paging.Delivery

/-!
# PagedTraversal.Proofs.Paging.Served

Backends whose pages are a function of the token, however often they fail. The pages applied in any
world are then an initial piece of one chain, so that worlds over different such backends can be
compared.

* `Backend.exists_pagesAfter_eq`: a backend that serves every page at last brings the whole chain.
* `World.takenRows_eq_of_length`: as many rows taken are the same rows.
-/

namespace PagedTraversal

namespace Backend

/-- Every page that is brought is the one of its token. -/
def Serves (b : Backend) (serve : Option PageToken → Page) : Prop :=
  ∀ n token p, b.answer n token = .page p → p = serve token

/-- Moreover, whoever keeps asking for a page gets it after finitely many failures. -/
structure ServesAtLast (b : Backend) (serve : Option PageToken → Page) : Prop where
  serves : b.Serves serve
  atLast : ∀ n token, ∃ m, n ≤ m ∧ b.answer m token = .page (serve token)

/-- The backend without the failures. -/
def serving (b : Backend) (serve : Option PageToken → Page) : Backend :=
  { b with answer := fun _ token => .page (serve token) }

theorem servesAtLast_serving (b : Backend) (serve : Option PageToken → Page) :
    (b.serving serve).ServesAtLast serve := by
  refine ⟨?_, fun n token => ⟨n, Nat.le_refl n, rfl⟩⟩
  intro n token p hp
  cases hp
  rfl

end Backend

namespace Chain

/-- The chain that a backend serves behind the first pages, as far as the `j`-th page of it. -/
def served (serve : Option PageToken → Page) (start : List Page) : Nat → List Page
  | 0 => start
  | j + 1 => served serve start j ++ [serve (token (served serve start j))]

variable (serve : Option PageToken → Page) (start : List Page)

theorem prefix_served {i j : Nat} (h : i ≤ j) : served serve start i <+: served serve start j := by
  induction h with
  | refl => exact List.prefix_rfl
  | step _ ih => exact ih.trans (List.prefix_append _ _)

theorem served_comparable (i j : Nat) :
    served serve start i <+: served serve start j ∨
      served serve start j <+: served serve start i := by
  rcases Nat.le_total i j with h | h
  · exact .inl (prefix_served serve start h)
  · exact .inr (prefix_served serve start h)

/-- Pages that others follow, none but the last of them without a token, have not ended. -/
theorem ended_of_inner {pages rest : List Page} {next : Page}
    (hinner : ∀ p ∈ (pages ++ next :: rest).dropLast, p.isLast = false) : ended pages = false := by
  rcases List.eq_nil_or_concat pages with rfl | ⟨front, last, rfl⟩
  · rfl
  · rw [List.concat_eq_append, ended_concat]
    refine hinner last ?_
    rw [List.dropLast_append_of_ne_nil (List.cons_ne_nil next rest)]
    simp

end Chain

namespace Backend

variable {b : Backend} {serve : Option PageToken → Page}

theorem Serves.pagesAfter_eq (hb : b.Serves serve) (start : List Page) (k : Nat) :
    ∃ j, b.pagesAfter start k = Chain.served serve start j := by
  induction k with
  | zero => exact ⟨0, rfl⟩
  | succ k ih =>
    obtain ⟨j, hj⟩ := ih
    rw [pagesAfter, hj]
    cases hreply : b.answer k (Chain.token (Chain.served serve start j)) with
    | page p =>
      rw [hb _ _ _ hreply]
      exact ⟨j + 1, rfl⟩
    | failure e => exact ⟨j, List.append_nil _⟩
    | crash => exact ⟨j, List.append_nil _⟩

theorem exists_pagesAfter_eq (hb : b.ServesAtLast serve) (start : List Page) (j : Nat) :
    ∃ k, b.pagesAfter start k = Chain.served serve start j := by
  induction j with
  | zero => exact ⟨0, rfl⟩
  | succ j ih =>
    obtain ⟨k, hk⟩ := ih
    obtain ⟨m, hm, hserved⟩ := hb.atLast k (Chain.token (Chain.served serve start j))
    -- by induction on the calls that are left before the one that is served
    obtain ⟨d, rfl⟩ := Nat.exists_eq_add_of_le hm
    clear hm
    induction d generalizing k with
    | zero =>
      rw [Nat.add_zero] at hserved
      refine ⟨k + 1, ?_⟩
      rw [pagesAfter, hk, hserved]
      rfl
    | succ d ihd =>
      have hnext : ∀ reply, b.answer k (Chain.token (Chain.served serve start j)) = reply →
          ∃ k', b.pagesAfter start k' = Chain.served serve start (j + 1) := by
        intro reply hreply
        have hlater : k + (d + 1) = k + 1 + d := by omega
        cases reply with
        | page p =>
          refine ⟨k + 1, ?_⟩
          rw [pagesAfter, hk, hreply, hb.serves _ _ _ hreply]
          rfl
        | failure e =>
          refine ihd (k + 1) ?_ (hlater ▸ hserved)
          rw [pagesAfter, hk, hreply]
          exact List.append_nil _
        | crash =>
          refine ihd (k + 1) ?_ (hlater ▸ hserved)
          rw [pagesAfter, hk, hreply]
          exact List.append_nil _
      exact hnext _ rfl

end Backend

namespace World

variable {b b' : Backend} {serve : Option PageToken → Page} {start : List Page} {k k' : Nat}
  {w w' : World}

theorem OnChain.applied_eq (hw : OnChain b start k w) (hb : b.Serves serve) :
    ∃ j, w.applied = Chain.served serve start j := by
  rw [hw.applied]
  exact hb.pagesAfter_eq start k

theorem Accounts.prefix_takenRows (hw : w.Accounts) : w.takenRows <+: w.appliedRows :=
  ⟨w.source.progress.buffer, hw.rows.symm⟩

theorem appliedRows_mono (h : w.applied <+: w'.applied) : w.appliedRows <+: w'.appliedRows := by
  obtain ⟨later, hlater⟩ := h
  refine ⟨later.flatMap Page.rows, ?_⟩
  rw [appliedRows, appliedRows, ← hlater, List.flatMap_append]

theorem takenRows_eq_of_length (hw : OnChain b start k w) (hw' : OnChain b' start k' w')
    (hb : b.Serves serve) (hb' : b'.Serves serve) (ha : w.Accounts) (ha' : w'.Accounts)
    (hlength : w.takenRows.length = w'.takenRows.length) : w.takenRows = w'.takenRows := by
  obtain ⟨j, hj⟩ := hw.applied_eq hb
  obtain ⟨j', hj'⟩ := hw'.applied_eq hb'
  rcases Chain.served_comparable serve start j j' with h | h
  · rw [← hj, ← hj'] at h
    have htaken := ha.prefix_takenRows.trans (appliedRows_mono h)
    exact (List.prefix_of_prefix_length_le htaken ha'.prefix_takenRows
      (Nat.le_of_eq hlength)).eq_of_length hlength
  · rw [← hj, ← hj'] at h
    have htaken := ha'.prefix_takenRows.trans (appliedRows_mono h)
    exact ((List.prefix_of_prefix_length_le htaken ha.prefix_takenRows
      (Nat.le_of_eq hlength.symm)).eq_of_length hlength.symm).symm

/-- A world in which all pages are there is ahead of every other. -/
theorem OnChain.prefix_of_complete (hw : OnChain b start k w) (hw' : OnChain b' start k' w')
    (hb : b.Serves serve) (hb' : b'.Serves serve) (hc : w'.source.progress.complete = true) :
    w.applied <+: w'.applied := by
  obtain ⟨j, hj⟩ := hw.applied_eq hb
  obtain ⟨j', hj'⟩ := hw'.applied_eq hb'
  rcases Chain.served_comparable serve start j j' with h | h
  · rw [hj, hj']
    exact h
  · rw [← hj, ← hj'] at h
    obtain ⟨later, hlater⟩ := h
    -- the last page of the shorter chain would be an inner page of the longer one
    rw [hw'.complete] at hc
    cases later with
    | nil =>
      rw [List.append_nil] at hlater
      exact hlater ▸ List.prefix_rfl
    | cons next rest =>
      have hinner := hw.inner
      rw [← hlater] at hinner
      rw [Chain.ended_of_inner hinner] at hc
      cases hc

/-- While all that the first `K` calls bring has not been taken, a dry buffer means that one of
these calls has still to be answered. -/
theorem OnChain.lt_of_rows (hw : OnChain b start k w) (ha : w.Accounts) {K : Nat}
    (hdry : w.source.progress.buffer = [])
    (hshort : w.takenRows.length < ((b.pagesAfter start K).flatMap Page.rows).length) : k < K := by
  have hall : w.appliedRows = w.takenRows := by
    rw [ha.rows, hdry, List.append_nil]
  refine Nat.lt_of_not_le fun hle => ?_
  obtain ⟨later, hlater⟩ := b.prefix_pagesAfter start hle
  have hrows : w.appliedRows =
      (b.pagesAfter start K).flatMap Page.rows ++ later.flatMap Page.rows := by
    rw [appliedRows, hw.applied, ← hlater, List.flatMap_append]
  rw [← hall, hrows, List.length_append] at hshort
  omega

/-- The same holds while pages are left, if the first `K` calls bring the last one. -/
theorem OnChain.lt_of_ended (hw : OnChain b start k w) {K : Nat}
    (hended : Chain.ended (b.pagesAfter start K) = true)
    (hc : w.source.progress.complete = false) : k < K := by
  refine Nat.lt_of_not_le fun hle => ?_
  rcases Nat.lt_or_eq_of_le hle with hlt | rfl
  · have hsize : K < w.source.calls.size := by
      rcases hw.answered with ⟨e, -⟩ | ⟨e, -⟩ <;> omega
    have hopen := hw.unended K hsize
    rw [hended] at hopen
    cases hopen
  · rw [hw.complete, hw.applied, hended] at hc
    cases hc

end World

end PagedTraversal
