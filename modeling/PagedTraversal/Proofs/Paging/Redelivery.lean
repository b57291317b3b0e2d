import Mathlib.Data.List.Basic
import PagedTraversal.Proofs.Paging.Delivery

/-!
# PagedTraversal.Proofs.Paging.Redelivery

What is delivered after a call has failed. Later calls get the buffered rows and those of later
pages, in order and each once. The rows that a failed call for all rows had drained before are not
among them.

* `World.Redelivers`: from here on, what is taken begins with the given rows.
* `World.redelivers_iff`: the only such rows are those in the buffer.
-/

namespace PagedTraversal

namespace World

def takenSince (w₀ w : World) : List Row := (w.takings.drop w₀.takings.length).map Prod.snd

def arrivedSince (w₀ w : World) : List Row :=
  (w.applied.drop w₀.applied.length).flatMap Page.rows

/-- Whether a call is one for all rows that has failed or was dropped. -/
def broken (w : World) (n : Nat) : Bool := w.parties[n]?.any Party.isBrokenAll

/-- The rows taken between two worlds by calls that hand them to nobody. -/
def lostSince (w₀ w : World) : List Row :=
  ((w.takings.drop w₀.takings.length).filter fun t => w.broken t.1).map Prod.snd

/-- Whatever is done next: once nothing is buffered, exactly the given rows have been taken and then
those of the pages applied in the meantime. -/
def Redelivers (b : Backend) (w : World) (rows : List Row) : Prop :=
  ∀ ms, (w.run b ms).source.progress.buffer = [] →
    w.takenSince (w.run b ms) = rows ++ w.arrivedSince (w.run b ms)

/-! ## Runs only add -/

theorem move_grows (b : Backend) (w : World) (m : Move) :
    w.applied <+: (w.move b m).applied ∧ w.takings <+: (w.move b m).takings := by
  cases m with
  | step n hasRuntime =>
    show w.applied <+: (w.stepCall n hasRuntime).applied ∧
      w.takings <+: (w.stepCall n hasRuntime).takings
    rcases w.stepCall_cases n hasRuntime with e | ⟨c, -, e⟩ <;> rw [e]
    · exact ⟨List.prefix_rfl, List.prefix_rfl⟩
    · exact ⟨List.prefix_rfl, List.prefix_append _ _⟩
  | drop n =>
    show w.applied <+: (w.dropCall n).applied ∧ w.takings <+: (w.dropCall n).takings
    rcases w.dropCall_cases n with e | ⟨c, -, e⟩ <;> rw [e] <;>
      exact ⟨List.prefix_rfl, List.prefix_rfl⟩
  | deliver n =>
    obtain ⟨events, -, e⟩ := w.deliver_eq n
    show w.applied <+: (w.deliver n).applied ∧ w.takings <+: (w.deliver n).takings
    rw [e]
    exact ⟨List.prefix_rfl, List.prefix_rfl⟩
  | endCall h =>
    show w.applied <+: (w.endCall b h).applied ∧ w.takings <+: (w.endCall b h).takings
    rcases w.endCall_cases b h with e | ⟨page, token, n, seen, -, e⟩ <;> rw [e]
    · exact ⟨List.prefix_rfl, List.prefix_rfl⟩
    · exact ⟨List.prefix_append _ _, List.prefix_rfl⟩
  | _ => exact ⟨List.prefix_rfl, List.prefix_rfl⟩

theorem run_grows (b : Backend) (w : World) (ms : List Move) :
    w.applied <+: (w.run b ms).applied ∧ w.takings <+: (w.run b ms).takings := by
  refine run_keeps (P := fun v => w.applied <+: v.applied ∧ w.takings <+: v.takings) ?_
    ⟨List.prefix_rfl, List.prefix_rfl⟩ ms
  intro v m ⟨happlied, htakings⟩
  obtain ⟨h₁, h₂⟩ := v.move_grows b m
  exact ⟨happlied.trans h₁, htakings.trans h₂⟩

/-- What was buffered and what has arrived since is what was taken since and what is buffered. -/
theorem Accounts.since {b : Backend} {w : World} (hw : w.Accounts) (ms : List Move) :
    w.source.progress.buffer ++ w.arrivedSince (w.run b ms) =
      w.takenSince (w.run b ms) ++ (w.run b ms).source.progress.buffer := by
  obtain ⟨⟨pages, hpages⟩, ⟨takings, htakings⟩⟩ := run_grows b w ms
  have hrows := (hw.run (b := b) ms).rows
  have harrived : w.arrivedSince (w.run b ms) = pages.flatMap Page.rows := by
    rw [arrivedSince, ← hpages, List.drop_left]
  have htaken : w.takenSince (w.run b ms) = takings.map Prod.snd := by
    rw [takenSince, ← htakings, List.drop_left]
  rw [appliedRows, takenRows, ← hpages, ← htakings, List.flatMap_append, List.map_append] at hrows
  have hbefore : w.applied.flatMap Page.rows = w.takings.map Prod.snd ++ w.source.progress.buffer :=
    hw.rows
  rw [hbefore, List.append_assoc, List.append_assoc] at hrows
  rw [harrived, htaken]
  exact List.append_cancel_left hrows

/-! ## What is redelivered -/

/-- A call for all rows begins by draining the buffer. -/
theorem run_drain (b : Backend) (w : World) :
    let v := w.run b [.ask .all, .step w.parties.length true]
    v.source.progress.buffer = [] ∧ v.applied = w.applied := by
  have hcall : (w.move b (.ask .all)).parties[w.parties.length]? = some (.running .all) := by
    simp [move, Errand.call]
  show ((w.move b (.ask .all)).stepCall w.parties.length true).source.progress.buffer = [] ∧
    ((w.move b (.ask .all)).stepCall w.parties.length true).applied = w.applied
  have hsource : (w.move b (.ask .all)).source = w.source := rfl
  simp only [stepCall, hcall, Call.step, Call.all, Call.look, Source.drain, hsource]
  cases w.source.progress.complete <;> exact ⟨rfl, rfl⟩

theorem redelivers_iff {b : Backend} {w : World} (hw : w.Accounts) (rows : List Row) :
    Redelivers b w rows ↔ rows = w.source.progress.buffer := by
  constructor
  · intro hrows
    obtain ⟨hdry, happlied⟩ := w.run_drain b
    have hall := hw.since (b := b) [.ask .all, .step w.parties.length true]
    have hnone : w.arrivedSince (w.run b [.ask .all, .step w.parties.length true]) = [] := by
      simp [arrivedSince, happlied]
    have := hrows _ hdry
    rw [hdry, hnone, List.append_nil, List.append_nil] at hall
    rw [hnone, List.append_nil] at this
    rw [hall, this]
  · rintro rfl ms hdry
    rw [hw.since (b := b) ms, hdry, List.append_nil]

/-- The rows that a failed call has drained are lost: later calls get what is buffered, and get the
rows that went to nobody exactly if there are no other such rows. -/
theorem redelivers_after_failed_all_iff (b : Backend) (first : Option Page) (ms₀ ms : List Move)
    (c : Call) (e : FetchError) :
    let w₀ := (start first).run b ms₀
    let w := (w₀.move b (.ask .all)).run b ms
    w.parties[w₀.parties.length]? = some (.finished c (.error e)) →
      w₀.source.progress.buffer ++ w₀.arrivedSince w =
        w₀.takenSince w ++ w.source.progress.buffer ∧
      w.takenBy w₀.parties.length = c.held ∧
      List.Sublist c.held (w₀.lostSince w) ∧
      Redelivers b w w.source.progress.buffer ∧
      (Redelivers b w (w₀.lostSince w ++ w.source.progress.buffer) ↔ w₀.lostSince w = []) := by
  intro w₀ w hp
  have hw₀ : w₀.Accounts := accounts_run b first ms₀
  have hw : w.Accounts := (hw₀.move (.ask .all)).run ms
  have htaken : w.takenBy w₀.parties.length = c.held := hw.parties _ _ hp
  refine ⟨hw₀.since (.ask .all :: ms), htaken, ?_, (redelivers_iff hw _).2 rfl, ?_⟩
  · cases hheld : c.held with
    | nil => exact List.nil_sublist _
    | cons row rest =>
      have hbroken : w.broken w₀.parties.length = true := by
        obtain ⟨goal, phase⟩ := c
        cases goal with
        | all drained => simp [broken, hp, Party.isBrokenAll]
        | _ => cases hheld
      -- before the call was made it had taken nothing
      have hsince : w.takenBy w₀.parties.length =
          ((w.takings.drop w₀.takings.length).filter fun t => t.1 == w₀.parties.length).map
            Prod.snd := by
        obtain ⟨takings, htakings⟩ := (run_grows b w₀ (.ask .all :: ms)).2
        have hnone : w₀.takenBy w₀.parties.length = [] := takenBy_of_unknown hw₀ (Nat.le_refl _)
        have htakings : w₀.takings ++ takings = w.takings := htakings
        rw [takenBy, ← htakings, List.filter_append, List.map_append, List.drop_left]
        rw [takenBy] at hnone
        rw [hnone, List.nil_append]
      rw [← hheld, ← htaken, hsince]
      refine List.Sublist.map _ (List.monotone_filter_right _ ?_)
      intro t ht
      rw [beq_iff_eq] at ht
      rw [ht]
      exact hbroken
  · rw [redelivers_iff hw, List.append_left_eq_self]

/-! ## A retry after one failed fetch -/

def numbered (n : UInt64) : Row := ⟨.number (.ofUInt64 n)⟩

/-- The first fetch fails, and the second brings the last row. -/
def failsOnce : Backend :=
  .script [.failure (.transport "boom"), .page ⟨[numbered 2], none, .empty⟩]

/-- One row has come with the start, and there is a page behind it. -/
def oneThere : Option Page := some ⟨[numbered 1], some ⟨[0]⟩, .empty⟩

/-- A call for all rows drains the buffer and waits for the next page, and its fetch is answered. -/
def drainThenFetch (n : Nat) (h : Handle) : List Move :=
  [.step n true, .step n true, .beginCall h, .endCall h, .step n true]

theorem redelivers_after_failed_all_once :
    let w := ((start oneThere).move failsOnce (.ask .all)).run failsOnce (drainThenFetch 0 0)
    w.parties[0]? = some (.finished ⟨.all #[numbered 1], .wait 0⟩ (.error (.transport "boom"))) ∧
    (Redelivers failsOnce w ((start oneThere).lostSince w ++ w.source.progress.buffer) ↔
      (start oneThere).lostSince w = []) :=
  ⟨rfl, (redelivers_after_failed_all_iff failsOnce oneThere [] (drainThenFetch 0 0) _ _ rfl).2.2.2.2⟩

/-- The row that came with the start is neither buffered nor handed out after the failure, and a
retry returns the other row alone. -/
theorem failed_all_loses_row :
    let w := ((start oneThere).move failsOnce (.ask .all)).run failsOnce (drainThenFetch 0 0)
    let v := (w.move failsOnce (.ask .all)).run failsOnce
      (drainThenFetch 1 1 ++ [.step 1 true])
    (start oneThere).source.progress.buffer = [numbered 1] ∧
    w.parties[0]? = some (.finished ⟨.all #[numbered 1], .wait 0⟩ (.error (.transport "boom"))) ∧
    w.source.progress.buffer = [] ∧
    v.parties[1]? = some (.finished ⟨.all #[], .look⟩ (.ok (.all [numbered 2]))) ∧
    ¬ Redelivers failsOnce w [numbered 1] := by
  refine ⟨rfl, rfl, rfl, rfl, ?_⟩
  intro hrows
  have : ([] : List Row) = [numbered 1] := hrows [] rfl
  cases this

end World

end PagedTraversal
