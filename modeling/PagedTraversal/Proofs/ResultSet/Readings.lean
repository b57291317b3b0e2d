import PagedTraversal.Proofs.Paging.LifeCycle

/-!
# PagedTraversal.Proofs.ResultSet.Readings

The state of a result set is put together from two readings of the source: how many rows are
buffered, and then, if there are none, whether all pages are there. Each reading is one step, and
other parties may act between the two. A last page that arrives there is missing from the first
reading and ends the second one, so that the result set is reported as exhausted in front of the
rows of that page.

* `World.stateAcross`: the state that is reported when others act between the readings.
* `World.exhausted_across_readings`: what is left when a result set is reported as exhausted.
* `World.exhausted_before_last_row`: a result set that is reported as exhausted too early.
-/

namespace PagedTraversal

namespace World

/-- The state that is reported when the given moves are made between the two readings. -/
def stateAcross (b : Backend) (w : World) (between : List Move) : ResultSet.State :=
  .ofReadings w.source.available (w.run b between).source.progress.complete

example (b : Backend) (w : World) : w.stateAcross b [] = ResultSet.state w.source := rfl

/-- No row is buffered, and calls for the next result that are made from now on bring none, as long
as nobody else takes rows. -/
def AtEnd (b : Backend) (w : World) : Prop :=
  w.source.progress.buffer = [] ∧ ∀ rs v, Successive b w rs v → ∀ r ∈ rs, r = .ok (.one none)

theorem stateAcross_eq_exhausted_iff {b : Backend} {w : World} {between : List Move} :
    w.stateAcross b between = .exhausted ↔
      w.source.progress.buffer = [] ∧ (w.run b between).source.progress.complete = true := by
  rw [stateAcross, ResultSet.State.ofReadings_eq_exhausted_iff, Source.available,
    List.length_eq_zero_iff]

variable {b : Backend} {start : List Page} {k : Nat} {w : World}

/-- Once all pages are there, the end is an empty buffer. -/
theorem OnChain.atEnd_iff (hw : OnChain b start k w) (haccounts : w.Accounts)
    (hc : w.source.progress.complete = true) : AtEnd b w ↔ w.source.progress.buffer = [] := by
  refine ⟨And.left, fun hdry => ⟨hdry, fun rs v hsuccessive r hr => ?_⟩⟩
  obtain ⟨i, hi⟩ := List.getElem?_of_mem hr
  rw [(hsuccessive.eq_nextOf hw haccounts hc).2.2 i r hi, hdry, List.drop_nil]
  rfl

/-- While nobody takes rows, those that arrive go behind those that are buffered. -/
theorem Accounts.buffer_of_untaken (hw : w.Accounts) {ms : List Move}
    (htakings : (w.run b ms).takings = w.takings) :
    (w.run b ms).source.progress.buffer =
      w.source.progress.buffer ++ w.arrivedSince (w.run b ms) := by
  have hnone : w.takenSince (w.run b ms) = [] := by
    simp [takenSince, htakings]
  rw [hw.since, hnone, List.nil_append]

/-- A result set is reported as exhausted when the first reading finds no row and the second one all
pages. What is buffered then has arrived between the readings, and calls for the next result bring
it. So the report is right if and only if no row has arrived there, as it is when all pages were
there at the first reading. -/
theorem exhausted_across_readings (b : Backend) (first : Option Page) (ms between : List Move) :
    let w := (World.start first).run b ms
    let v := w.run b between
    v.takings = w.takings → w.stateAcross b between = .exhausted →
      v.source.progress.complete = true ∧ v.source.progress.buffer = w.arrivedSince v ∧
      (∀ rs u, Successive b v rs u → ∀ i r, rs[i]? = some r →
        r = ResultSet.nextOf ((w.arrivedSince v).drop i)) ∧
      (AtEnd b v ↔ w.arrivedSince v = []) ∧
      (w.source.progress.complete = true → AtEnd b v) := by
  intro w v htakings hstate
  obtain ⟨k, hw⟩ : ∃ k, OnChain b first.toList k w := onChain_run b first ms
  obtain ⟨k', hv⟩ : ∃ k', OnChain b first.toList k' v := hw.run between
  have haccounts : w.Accounts := accounts_run b first ms
  have haccounts' : v.Accounts := haccounts.run between
  obtain ⟨hdry, hc⟩ := stateAcross_eq_exhausted_iff.1 hstate
  have hbuffer : v.source.progress.buffer = w.arrivedSince v := by
    rw [haccounts.buffer_of_untaken htakings, hdry, List.nil_append]
  have hend : AtEnd b v ↔ w.arrivedSince v = [] := by
    rw [hv.atEnd_iff haccounts' hc, hbuffer]
  refine ⟨hc, hbuffer, fun rs u hsuccessive i r hi => ?_, hend, fun hbefore => ?_⟩
  · rw [← hbuffer]
    exact (hsuccessive.eq_nextOf hv haccounts' hc).2.2 i r hi
  · exact hend.2 (hw.arrivedSince_of_complete hbefore between)

/-- The only page there is has one row. -/
def onePage : Backend := .script [.page ⟨[numbered 1], none, .empty⟩]

/-- The page is on its way, and nothing has come yet. -/
def pageAwaited : World := (World.start none).run onePage [.request true, .beginCall 0]

theorem exhausted_across_readings_onePage :
    let v := pageAwaited.run onePage [.endCall 0]
    pageAwaited.stateAcross onePage [.endCall 0] = .exhausted ∧
      v.source.progress.buffer = [numbered 1] ∧ ¬ AtEnd onePage v := by
  intro v
  obtain ⟨-, hbuffer, -, hend, -⟩ :=
    exhausted_across_readings onePage none [.request true, .beginCall 0] [.endCall 0] rfl rfl
  refine ⟨rfl, hbuffer, fun hatEnd => ?_⟩
  have hnone : [numbered 1] = [] := hend.1 hatEnd
  cases hnone

/-- A fetch brings the last page between the readings. The result set is reported as exhausted, its
only row is buffered, and the next call brings it. -/
theorem exhausted_before_last_row :
    let v := pageAwaited.run onePage [.endCall 0]
    v.takings = pageAwaited.takings ∧
      pageAwaited.stateAcross onePage [.endCall 0] = .exhausted ∧
      v.source.progress.buffer = [numbered 1] ∧
      ∃ u, Successive onePage v [.ok (.one (some (.scalar (.integer 1))))] u := by
  intro v
  have hfinished : (v.call onePage .one true).parties[v.parties.length]? =
      some (.finished .one (.ok (.one (some (numbered 1))))) := rfl
  exact ⟨rfl, rfl, rfl, _, .one .start hfinished⟩

end World

end PagedTraversal
