import PagedTraversal.Proofs.Paging.Dryness
import PagedTraversal.Proofs.Paging.Solo

/-!
# PagedTraversal.Proofs.Paging.Peeking

Calls for the next row, and calls that ask whether any row is left, by a consumer that has the source
to itself. Both skip empty pages, up to the same reply, and each tells of it what it asks for. To ask
takes no row, and a call for rows does not notice that it was asked before. But a failed fetch is told
once: if it is told to a call that asks, a later call for rows does not fail in its turn.

* `World.ComesTo`: what a call comes back with, and after how many calls for pages.
* `World.peeking_unnoticed`: both calls in every state without a fetch in flight, and what asking
  leaves.
* `World.row_after_failed_peek`: a call that would have failed brings a row.
-/

namespace PagedTraversal

open ResultSet (Turn)
open ResultSet.Consumption (Fair)

namespace World

/-- Made with nobody else at the source, the call comes back with `r` and with nothing else, in
whatever order its turns come and those of the task in the slot, and it does come back if both get
theirs. So many calls for pages have been made then, and no fetch is in flight. -/
structure ComesTo (b : Backend) (w : World) (e : Errand) (r : Except FetchError Answer)
    (calls : Nat) : Prop where
  only : ∀ (turns : Nat → Turn) (i : Nat) (c : Call) (r' : Except FetchError Answer),
    let v := (w.move b (.ask e)).solo b w.parties.length turns i
    v.parties[w.parties.length]? = some (.finished c r') →
      r' = r ∧ v.source.calls.size = w.source.calls.size + calls ∧ v.source.inFlight = none
  sometime : ∀ turns : Nat → Turn, Fair turns → ∃ i c,
    ((w.move b (.ask e)).solo b w.parties.length turns i).parties[w.parties.length]? =
      some (.finished c r)

/-- A call for the next row, and one that asks whether no row is left. With rows in the buffer, and
at the end, they make no call for a page; otherwise they go on to the first reply that is not an
empty page with a page behind it. -/
structure SkipsEmptyPages (b : Backend) (w : World) : Prop where
  found : ∀ row rest, w.source.progress.buffer = row :: rest →
    ComesTo b w .one (.ok (.one (some row))) 0 ∧ ComesTo b w .exhausted (.ok (.exhausted false)) 0
  finished : w.source.progress.buffer = [] → w.source.progress.complete = true →
    ComesTo b w .one (.ok (.one none)) 0 ∧ ComesTo b w .exhausted (.ok (.exhausted true)) 0
  dry : ∀ j reply, w.source.Dry →
    b.FirstStop w.source.calls.size w.source.progress.next j reply →
    ComesTo b w .one reply.one j ∧ ComesTo b w .exhausted reply.exhausted j

/-- What it comes to that calls have asked, any number of times, whether no row is left.
`keeps`: no row is taken, and those that have arrived are buffered. `then_row`: after the answer that
a row is left, the next row is there. `settled`: what calls for rows come back with does not depend on
the turns. `unnoticed`: without a failure, calls for rows come to what they would have come to at
once. `told`: with failures, to what they would have come to if as many calls for rows had been made
instead, which would have failed with those failures. -/
structure OnlyLooks (b : Backend) (w : World) : Prop where
  keeps : ∀ k as v, Performs b w (List.replicate k .exhausted) as v →
    v.takings = w.takings ∧
      v.source.progress.buffer = w.source.progress.buffer ++ w.arrivedSince v
  then_row : ∀ k as v,
    Performs b w (List.replicate k .exhausted) (as ++ [.ok (.exhausted false)]) v →
      ∃ row rest, v.source.progress.buffer = row :: rest ∧
        ComesTo b v .one (.ok (.one (some row))) 0
  settled : ∀ es rs rs' u u', (∀ e ∈ es, e.consumes = true) → Performs b w es rs u →
    Performs b w es rs' u' → rs' = rs
  unnoticed : ∀ k as v es rs, Performs b w (List.replicate k .exhausted) as v → failures as = [] →
    (∀ e ∈ es, e.consumes = true) →
      ((∃ u, Performs b v es rs u) ↔ ∃ u, Performs b w es rs u)
  told : ∀ k as v e es rs, Performs b w (List.replicate k .exhausted) as v → e.consumes = true →
    (∀ e ∈ es, e.consumes = true) →
      ((∃ u, Performs b v es rs u) ↔ ∃ u, Performs b w
        (List.replicate (failures as).length e ++ es) (failures as ++ rs) u)

variable {b : Backend} {w v u : World} {e : Errand} {es : List Errand} {n j k : Nat}
  {r : Except FetchError Answer} {rs as : List (Except FetchError Answer)}

/-! ## What a call comes back with -/

theorem Ready.comesTo (hw : w.Ready) (he : e.consumes = true) {q : Progress}
    (hcourse : b.Course .look e.call.goal w.source.progress w.source.calls.size r q
      (w.source.calls.size + j)) : ComesTo b w e r j := by
  refine ⟨?_, ?_⟩
  · intro turns i c r' v hfinished
    obtain ⟨hv, hcourse'⟩ := hw.of_finished he rfl hfinished
    obtain ⟨rfl, -, hcalls⟩ := hcourse.unique hcourse'
    exact ⟨rfl, hcalls, hv.2⟩
  · intro turns hfair
    obtain ⟨i, c, result, hfinished⟩ := (hw.heads b he).finishes hcourse hfair
    obtain ⟨-, hcourse'⟩ := hw.of_finished he rfl hfinished
    obtain ⟨rfl, -, -⟩ := hcourse.unique hcourse'
    exact ⟨i, c, hfinished⟩

theorem Ready.comesTo_answer (hw : w.Ready) (he : e.consumes = true) {a : Answer} {q : Progress}
    (hglance : e.call.goal.glance w.source.progress = (.inl a, q)) : ComesTo b w e (.ok a) 0 :=
  hw.comesTo he (.answer hglance)

theorem Ready.skipsEmptyPages (hw : w.Ready) : SkipsEmptyPages b w where
  found row rest hb :=
    ⟨hw.comesTo_answer rfl (Goal.glance_found hb).1, hw.comesTo_answer rfl (Goal.glance_found hb).2⟩
  finished hb hc := ⟨hw.comesTo_answer rfl (Goal.glance_finished hb hc).1,
    hw.comesTo_answer rfl (Goal.glance_finished hb hc).2⟩
  dry j reply hdry hstop := by
    obtain ⟨⟨q, hone⟩, q', hexhausted⟩ := hstop.course hdry.1 hdry.2 rfl
    exact ⟨hw.comesTo rfl hone, hw.comesTo rfl hexhausted⟩

/-! ## What asking leaves -/

/-- The call asks whether any row is left, or is over. -/
def Peeks (w : World) (n : Nat) : Prop :=
  ∃ p, w.parties[n]? = some p ∧ ∀ c, p = .running c → c.goal = .exhausted

theorem Peeks.stepCall (h : w.Peeks n) :
    (w.stepCall n true).Peeks n ∧ (w.stepCall n true).takings = w.takings := by
  obtain ⟨p, hp, hgoal⟩ := h
  cases p with
  | running c =>
    have hc := hgoal c rfl
    obtain ⟨hstep, hparty, -⟩ := stepCall_of_running hp true
    have htakes : c.takes w.source = [] := by
      obtain ⟨goal, phase⟩ := c
      cases hc
      cases phase <;> rfl
    refine ⟨⟨_, hparty, ?_⟩, by rw [hstep, htakes]; simp⟩
    intro c' hc'
    cases hadvance : (c.step true w.source).1 with
    | more next =>
      rw [hadvance] at hc'
      cases hc'
      have hkind := Call.step_kind hadvance
      rw [hc] at hkind
      cases hgoal' : c'.goal <;> rw [hgoal'] at hkind <;> cases hkind
    | waiting h =>
      rw [hadvance] at hc'
      cases hc'
      exact hc
    | done result =>
      rw [hadvance] at hc'
      cases hc'
  | finished c result =>
    have hsame : w.stepCall n true = w := by simp [World.stepCall, hp]
    rw [hsame]
    exact ⟨⟨_, hp, hgoal⟩, rfl⟩
  | dropped c =>
    have hsame : w.stepCall n true = w := by simp [World.stepCall, hp]
    rw [hsame]
    exact ⟨⟨_, hp, hgoal⟩, rfl⟩

theorem Peeks.solo (h : w.Peeks n) (turns : Nat → Turn) (i : Nat) :
    (w.solo b n turns i).Peeks n ∧ (w.solo b n turns i).takings = w.takings := by
  induction i with
  | zero => exact ⟨h, rfl⟩
  | succ i ih =>
    obtain ⟨hpeeks, htakings⟩ := ih
    rw [World.solo, ← htakings]
    cases turns i with
    | consumer => exact hpeeks.stepCall
    | background =>
      obtain ⟨hparties, hsame, -⟩ := (w.solo b n turns i).tend_calls b
      obtain ⟨p, hp, hgoal⟩ := hpeeks
      refine ⟨⟨p, ?_, hgoal⟩, hsame⟩
      show ((w.solo b n turns i).tend b).parties[n]? = _
      rw [hparties]
      exact hp

theorem Performs.takings (h : Performs b w (List.replicate k .exhausted) as v) :
    v.takings = w.takings := by
  induction k generalizing w as with
  | zero =>
    cases h
    rfl
  | succ k ih =>
    cases h with
    | @cons _ v₁ _ _ _ _ _ turns i _ hv _ hrest =>
      have hpeeks : (w.move b (.ask .exhausted)).Peeks w.parties.length := by
        refine ⟨_, List.getElem?_concat_length, fun c hc => ?_⟩
        cases hc
        rfl
      rw [ih hrest, ← hv]
      exact (hpeeks.solo turns i).2

theorem Performs.eq_run (h : Performs b w es rs u) : ∃ ms, u = w.run b ms := by
  induction h with
  | nil => exact ⟨[], rfl⟩
  | @cons w v u e es r rs turns i c hv _ _ ih =>
    obtain ⟨ms, hms⟩ := solo_eq_run b w.parties.length turns (w.move b (.ask e)) i
    obtain ⟨ms', rfl⟩ := ih
    refine ⟨.ask e :: ms ++ ms', ?_⟩
    rw [← hv, hms]
    simp [run]

theorem Ready.onlyLooks (hw : w.Ready) (haccounts : w.Accounts) : OnlyLooks b w := by
  have hpeeks : ∀ {k as v}, Performs b w (List.replicate k .exhausted) as v →
      v.Ready ∧ b.Runs w.source.progress w.source.calls.size (List.replicate k .exhausted) as
        v.source.progress v.source.calls.size :=
    fun h => h.runs hw (Errand.consumes_of_replicate rfl _)
  have htold : ∀ k as v e es rs, Performs b w (List.replicate k .exhausted) as v →
      e.consumes = true → (∀ e ∈ es, e.consumes = true) →
        ((∃ u, Performs b v es rs u) ↔ ∃ u, Performs b w
          (List.replicate (failures as).length e ++ es) (failures as ++ rs) u) := by
    intro k as v e es rs h he hes
    obtain ⟨hv, hruns⟩ := hpeeks h
    rw [performs_iff_runs hv hes, performs_iff_runs hw (Errand.consumes_of_append he hes _)]
    exact Backend.runs_after_exhausted hruns he hes
  refine ⟨?_, ?_, ?_, ?_, htold⟩
  · intro k as v h
    obtain ⟨ms, rfl⟩ := h.eq_run
    exact ⟨h.takings, haccounts.buffer_of_untaken h.takings⟩
  · intro k as v h
    obtain ⟨hv, hruns⟩ := hpeeks h
    obtain ⟨row, rest, hb⟩ := hruns.row_left
    exact ⟨row, rest, hb, hv.comesTo_answer rfl (Goal.glance_found hb).1⟩
  · intro es rs rs' u u' hes h h'
    exact ((h.runs hw hes).2.unique (h'.runs hw hes).2).1
  · intro k as v es rs h hnone hes
    simpa [hnone] using htold k as v .one es rs h rfl hes

/-- With nobody else at a source that has no fetch in flight, a call for the next row and one that
asks whether no row is left skip the empty pages up to the same reply. Asking takes no row and goes
unnoticed, apart from the failures that it tells. -/
theorem peeking_unnoticed (b : Backend) (first : Option Page) (ms : List Move) :
    let w := (start first).run b ms
    w.source.inFlight = none → SkipsEmptyPages b w ∧ OnlyLooks b w := by
  intro w hslot
  have hw : w.Ready := ⟨oneFetch_run b first ms, hslot⟩
  exact ⟨hw.skipsEmptyPages, hw.onlyLooks (accounts_run b first ms)⟩

/-- Behind the first page are two empty ones, and then one with a row. -/
def twoEmptyPages : Backend :=
  .script [.page ⟨[], some ⟨[1]⟩, .empty⟩, .page ⟨[], some ⟨[2]⟩, .empty⟩,
    .page ⟨[numbered 2], none, .empty⟩]

theorem peeking_unnoticed_empty_pages :
    let w := (start oneThere).run twoEmptyPages [.ask .one, .step 0 true]
    w.source.inFlight = none ∧ w.source.Dry ∧
      ComesTo twoEmptyPages w .one (.ok (.one (some (numbered 2)))) 3 ∧
      ComesTo twoEmptyPages w .exhausted (.ok (.exhausted false)) 3 := by
  intro w
  obtain ⟨hskips, -⟩ := peeking_unnoticed twoEmptyPages oneThere [.ask .one, .step 0 true] rfl
  have hstop : twoEmptyPages.FirstStop 0 (some ⟨[0]⟩) 3 (.page ⟨[numbered 2], none, .empty⟩) :=
    .later rfl rfl (.later rfl rfl (.here rfl))
  exact ⟨rfl, ⟨rfl, rfl⟩, hskips.dry 3 _ ⟨rfl, rfl⟩ hstop⟩

/-- The first fetch fails. A call for the next row made at once comes back with the failure; made
after a call that has asked whether any row is left and was told of the failure, it brings a row. -/
theorem row_after_failed_peek :
    let w := start none
    (∃ u, Performs failsOnce w [.one] [.error (.transport "boom")] u) ∧
    (∃ u, Performs failsOnce w [.exhausted, .one]
      [.error (.transport "boom"), .ok (.one (some (numbered 2)))] u) ∧
    ¬ ∀ k as v e r, Performs failsOnce w (List.replicate k .exhausted) as v → e.consumes = true →
      ((∃ u, Performs failsOnce v [e] [r] u) ↔ ∃ u, Performs failsOnce w [e] [r] u) := by
  intro w
  have hw : w.Ready := ⟨oneFetch_start none, rfl⟩
  have hfails : failsOnce.Course .look .one w.source.progress 0 (.error (.transport "boom"))
      w.source.progress 1 := .needs rfl (.fails rfl)
  have hpeeks : failsOnce.Course .look .exhausted w.source.progress 0
      (.error (.transport "boom")) w.source.progress 1 := .needs rfl (.fails rfl)
  have hfinds : failsOnce.Course .look .one w.source.progress 1 (.ok (.one (some (numbered 2))))
      _ 2 := .needs rfl (.page rfl (.answer rfl))
  have hone : ∃ u, Performs failsOnce w [.one] [.error (.transport "boom")] u :=
    (performs_iff_runs hw (by simp [Errand.consumes])).2 ⟨_, _, .cons hfails .nil⟩
  have htwo : ∃ u, Performs failsOnce w [.exhausted, .one]
      [.error (.transport "boom"), .ok (.one (some (numbered 2)))] u :=
    (performs_iff_runs hw (by simp [Errand.consumes])).2 ⟨_, _, .cons hpeeks (.cons hfinds .nil)⟩
  refine ⟨hone, htwo, fun hunchanged => ?_⟩
  obtain ⟨u, h⟩ := htwo
  cases h with
  | @cons _ v _ _ _ _ _ turns i c hv hfinished hrest =>
    have hasked : Performs failsOnce w [.exhausted] [.error (.transport "boom")] v :=
      .cons hv hfinished .nil
    obtain ⟨hready, -⟩ := hasked.runs hw (by simp [Errand.consumes])
    obtain ⟨u', hagain⟩ := (hunchanged 1 _ v .one _ hasked rfl).2 hone
    have hes : ∀ e ∈ [Errand.one], e.consumes = true := by simp [Errand.consumes]
    have hsame := ((hrest.runs hready hes).2.unique (hagain.runs hready hes).2).1
    cases hsame

end World

end PagedTraversal
