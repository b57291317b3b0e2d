import PagedTraversal.Proofs.Paging.Failure

/-!
# PagedTraversal.Proofs.Paging.LifeCycle

The life of a source moves forward only. Once a page without a token has been applied, no fetch
occupies the slot, so that none can make a call or bring a page: all that is left is to hand out
the buffer.

* `World.OnChain.move_of_complete`: what a move leaves alone once all pages are there.
* `World.Successive`: what calls for the next result bring, one after another.
* `World.only_forward`: the life of a source in every reachable world.
-/

namespace PagedTraversal

namespace ResultSet

/-- What a call for the next result comes back with when the given rows are all that is left. -/
def nextOf : List Row → Except ResultError Delivery
  | [] => .ok (.one none)
  | row :: _ =>
    match row.decode with
    | .ok v => .ok (.one (some v))
    | .error e => .error (.decode e)

theorem deliver_head (rows : List Row) (s : Source) :
    (deliver (.ok (.one rows.head?)) s).1 = nextOf rows := by
  cases rows with
  | nil => rfl
  | cons row rest =>
    simp only [List.head?_cons, deliver, decodeRow, nextOf]
    cases row.decode <;> rfl

theorem nextOf_eq_none_iff {rows : List Row} : nextOf rows = .ok (.one none) ↔ rows = [] := by
  cases rows with
  | nil => simp [nextOf]
  | cons row rest =>
    simp only [nextOf]
    cases row.decode <;> simp

theorem State.ofReadings_eq_exhausted_iff {available : Nat} {complete : Bool} :
    ofReadings available complete = .exhausted ↔ available = 0 ∧ complete = true := by
  simp only [ofReadings]
  cases available <;> cases complete <;> simp

theorem state_eq_exhausted_iff {s : Source} :
    state s = .exhausted ↔ s.progress.buffer = [] ∧ s.progress.complete = true := by
  rw [state, State.ofReadings_eq_exhausted_iff, Source.available, List.length_eq_zero_iff]

end ResultSet

namespace Call

variable {s : Source} (hasRuntime : Bool)

/-- When all pages are there, a call that looks into the buffer comes back at once. -/
theorem one_of_complete (hc : s.progress.complete = true) :
    (Call.one.step hasRuntime s).1 = .done (.ok (.one s.progress.buffer.head?)) := by
  simp only [one, step, look, Source.takeRow]
  cases s.progress.buffer with
  | nil => simp [Source.whenEmpty, hc]
  | cons row rest => rfl

theorem all_of_complete (hc : s.progress.complete = true) :
    (Call.all.step hasRuntime s).1 = .done (.ok (.all s.progress.buffer)) := by
  simp [all, step, look, Source.drain, hc]

theorem exhausted_of_complete (hc : s.progress.complete = true) :
    (Call.exhausted.step hasRuntime s).1 =
      .done (.ok (.exhausted s.progress.buffer.isEmpty)) := by
  simp only [exhausted, step, look, Source.peek]
  cases s.progress.buffer with
  | nil => simp [Source.whenEmpty, hc]
  | cons row rest => rfl

end Call

namespace World

variable {b : Backend} {start : List Page} {k : Nat} {w : World}

namespace OnChain

/-- A fetch that could make its call or be answered would occupy the slot, which it does only while
pages are left. -/
theorem move_of_complete (hw : OnChain b start k w) (hc : w.source.progress.complete = true)
    (m : Move) :
    (w.move b m).source.progress.complete = true ∧ (w.move b m).applied = w.applied ∧
      (w.move b m).source.calls = w.source.calls := by
  have hfree : ∀ {h : Handle} {f : Fetch}, w.source.fetches[h]? = some f → ¬ f.occupies = true := by
    intro h f hf ho
    have hopen := (hw.oneFetch.current h f hf ho).2.2
    rw [hc] at hopen
    cases hopen
  rcases w.move_cases b m with ⟨hact, happlied⟩ | ⟨h, e⟩ | ⟨h, e⟩
  · have hsame := Source.SameChain.of_act hact
    exact ⟨hsame.complete.trans hc, happlied, hsame.calls⟩
  · rw [e]
    rcases w.source.beginCall_cases h with e | ⟨page, token, seen, hf, -⟩
    · rw [e]
      exact ⟨hc, rfl, rfl⟩
    · exact (hfree hf rfl).elim
  · rw [e]
    rcases w.endCall_cases b h with e | ⟨page, token, n, seen, hf, -⟩
    · rw [e]
      exact ⟨hc, rfl, rfl⟩
    · exact (hfree hf rfl).elim

theorem run_of_complete (hw : OnChain b start k w) (hc : w.source.progress.complete = true)
    (ms : List Move) :
    (∃ k', OnChain b start k' (w.run b ms)) ∧ (w.run b ms).source.progress.complete = true ∧
      (w.run b ms).applied = w.applied ∧ (w.run b ms).source.calls = w.source.calls := by
  refine run_keeps (P := fun v => (∃ k', OnChain b start k' v) ∧
    v.source.progress.complete = true ∧ v.applied = w.applied ∧
      v.source.calls = w.source.calls) ?_ ⟨⟨k, hw⟩, hc, rfl, rfl⟩ ms
  rintro v m ⟨⟨k', hv⟩, hcomplete, happlied, hcalls⟩
  obtain ⟨hcomplete', happlied', hcalls'⟩ := hv.move_of_complete hcomplete m
  exact ⟨hv.move m, hcomplete', happlied'.trans happlied, hcalls'.trans hcalls⟩

theorem arrivedSince_of_complete (hw : OnChain b start k w)
    (hc : w.source.progress.complete = true) (ms : List Move) :
    w.arrivedSince (w.run b ms) = [] := by
  obtain ⟨-, -, happlied, -⟩ := hw.run_of_complete hc ms
  simp [arrivedSince, happlied]

/-- Nothing arrives any more, so what is taken comes from the front of the buffer. -/
theorem buffer_of_complete (hw : OnChain b start k w) (haccounts : w.Accounts)
    (hc : w.source.progress.complete = true) (ms : List Move) :
    w.source.progress.buffer = w.takenSince (w.run b ms) ++ (w.run b ms).source.progress.buffer := by
  have hsince := haccounts.since (b := b) ms
  rw [hw.arrivedSince_of_complete hc ms, List.append_nil] at hsince
  exact hsince

end OnChain

/-! ## Calls that come back at once -/

/-- The world after a call is made and has done its first step. -/
def call (b : Backend) (w : World) (e : Errand) (hasRuntime : Bool) : World :=
  (w.move b (.ask e)).move b (.step w.parties.length hasRuntime)

/-- A call that is made now comes back in its first step, and with the given delivery. -/
def ComesBack (b : Backend) (w : World) (e : Errand)
    (r : Except ResultError ResultSet.Delivery) : Prop :=
  ∀ hasRuntime, ∃ result,
    (w.call b e hasRuntime).parties[w.parties.length]? = some (.finished e.call result) ∧
      ∀ s, (ResultSet.deliver result s).1 = r

theorem call_eq (b : Backend) (w : World) (e : Errand) (hasRuntime : Bool) :
    (w.call b e hasRuntime).source = (e.call.step hasRuntime w.source).2 ∧
      (w.call b e hasRuntime).parties[w.parties.length]? =
        some ((e.call.step hasRuntime w.source).1.party e.call) := by
  have hc : (w.move b (.ask e)).parties[w.parties.length]? = some (.running e.call) := by
    simp [move]
  obtain ⟨hstep, hparty, -⟩ := stepCall_of_running hc hasRuntime
  exact ⟨congrArg World.source hstep, hparty⟩

theorem comesBack_of_done {e : Errand} {result : Except FetchError Answer}
    {r : Except ResultError ResultSet.Delivery}
    (hdone : ∀ hasRuntime, (e.call.step hasRuntime w.source).1 = .done result)
    (hdeliver : ∀ s, (ResultSet.deliver result s).1 = r) : w.ComesBack b e r := by
  intro hasRuntime
  refine ⟨result, ?_, hdeliver⟩
  rw [(w.call_eq b e hasRuntime).2, hdone]
  rfl

/-- What calls for the next result bring that are made one after another from `w` on, up to the
world `v`. Between them anything may happen but that somebody else takes a row. -/
inductive Successive (b : Backend) (w : World) :
    List (Except ResultError ResultSet.Delivery) → World → Prop where
  | start : Successive b w [] w
  | meanwhile {rs : List (Except ResultError ResultSet.Delivery)} {v : World} (ms : List Move) :
      Successive b w rs v → (v.run b ms).takings = v.takings → Successive b w rs (v.run b ms)
  | one {rs : List (Except ResultError ResultSet.Delivery)} {v : World} {hasRuntime : Bool}
      {result : Except FetchError Answer} :
      Successive b w rs v →
      (v.call b .one hasRuntime).parties[v.parties.length]? = some (.finished .one result) →
      Successive b w (rs ++ [(ResultSet.deliver result (v.call b .one hasRuntime).source).1])
        (v.call b .one hasRuntime)

/-- The `i`-th of them brings the `i`-th of the rows that were buffered at first, and none once
there are no more. -/
theorem Successive.eq_nextOf (hw : OnChain b start k w) (haccounts : w.Accounts)
    (hc : w.source.progress.complete = true) {rs : List (Except ResultError ResultSet.Delivery)}
    {v : World} (h : Successive b w rs v) :
    (∃ ms, v = w.run b ms) ∧
      v.source.progress.buffer = w.source.progress.buffer.drop rs.length ∧
      ∀ i r, rs[i]? = some r → r = ResultSet.nextOf (w.source.progress.buffer.drop i) := by
  induction h with
  | start => exact ⟨⟨[], rfl⟩, rfl, by simp⟩
  | @meanwhile rs v ms _ htakings ih =>
    obtain ⟨⟨before, rfl⟩, hbuffer, hrs⟩ := ih
    refine ⟨⟨before ++ ms, (w.run_append b before ms).symm⟩, ?_, hrs⟩
    obtain ⟨⟨k', hv⟩, hcomplete, -⟩ := hw.run_of_complete hc before
    have hkept := hv.buffer_of_complete (haccounts.run before) hcomplete ms
    have hnone : (w.run b before).takenSince ((w.run b before).run b ms) = [] := by
      simp [takenSince, htakings]
    rw [hnone, List.nil_append] at hkept
    rw [← hkept]
    exact hbuffer
  | @one rs v hasRuntime result _ hresult ih =>
    obtain ⟨⟨before, rfl⟩, hbuffer, hrs⟩ := ih
    obtain ⟨-, hcomplete, -⟩ := hw.run_of_complete hc before
    obtain ⟨hsource, hparty⟩ := (w.run b before).call_eq b .one hasRuntime
    refine ⟨⟨before ++ [.ask .one, .step (w.run b before).parties.length hasRuntime],
      by simp [World.run, World.call, List.foldl_append]⟩, ?_, ?_⟩
    · -- the call takes the first row, if there is one
      have hfront := Call.step_buffer .one hasRuntime (w.run b before).source
      have htakes : Call.one.takes (w.run b before).source =
          (w.run b before).source.progress.buffer.take 1 := rfl
      rw [htakes] at hfront
      have hrest : (Call.one.step hasRuntime (w.run b before).source).2.progress.buffer =
          (w.run b before).source.progress.buffer.drop 1 :=
        List.append_cancel_left (hfront.symm.trans (List.take_append_drop 1 _).symm)
      rw [hsource, show Errand.call .one = Call.one from rfl, hrest, hbuffer, List.drop_drop,
        List.length_append, List.length_singleton]
    · intro i r hi
      rw [List.getElem?_append] at hi
      split at hi
      · exact hrs i r hi
      · next hlt =>
        obtain rfl : i = rs.length := by
          have := (List.getElem?_eq_some_iff.1 hi).1
          rw [List.length_singleton] at this
          omega
        rw [hresult, show Errand.call .one = Call.one from rfl,
          Call.one_of_complete hasRuntime hcomplete] at hparty
        cases hparty
        rw [Nat.sub_self] at hi
        cases hi
        rw [ResultSet.deliver_head, hbuffer]

/-! ## The life of a source -/

/-- What holds of the life of the source from a world on.
`complete`, `idle`, `asks`: the last page stays the last, no fetch is in flight behind it, and no
call is made. `rows`: what is taken after it comes from the front of the buffer. `one`,
`successive`: each call for the next result comes back at once, and of those made one after another
as many bring a row as were buffered, each with the outcome of its row, and the later ones bring
none. `exhausted`: an exhausted result set stays so, and whatever is asked of it is answered at
once, a request by a fetch that has returned already. -/
structure OnlyForward (b : Backend) (w : World) : Prop where
  complete : w.source.progress.complete = true →
    ∀ ms, (w.run b ms).source.progress.complete = true
  idle : w.source.progress.complete = true → w.source.inFlight = none
  asks : w.source.progress.complete = true → ∀ ms, (w.run b ms).source.calls = w.source.calls
  rows : w.source.progress.complete = true → ∀ ms,
    w.source.progress.buffer = w.takenSince (w.run b ms) ++ (w.run b ms).source.progress.buffer
  one : w.source.progress.complete = true →
    w.ComesBack b .one (ResultSet.nextOf w.source.progress.buffer)
  successive : w.source.progress.complete = true → ∀ rs v, Successive b w rs v →
    ∀ i r, rs[i]? = some r → r = ResultSet.nextOf (w.source.progress.buffer.drop i) ∧
      (r = .ok (.one none) ↔ w.source.available ≤ i)
  exhausted : ResultSet.state w.source = .exhausted → ∀ ms,
    let v := w.run b ms
    ResultSet.state v.source = .exhausted ∧ v.source.calls = w.source.calls ∧
    v.ComesBack b .one (.ok (.one none)) ∧ v.ComesBack b .all (.ok (.all [])) ∧
    v.ComesBack b .exhausted (.ok (.exhausted true)) ∧
    ∀ hasRuntime, let (h, t) := v.source.request hasRuntime
      t.outcome? h = some (.ok ()) ∧ (t.poll h).1 = some (.ok ()) ∧ t.inFlight = none

/-- A request for more than all pages is given a fetch that has returned. -/
theorem request_of_complete {s : Source} (hs : s.OneFetch) (hc : s.progress.complete = true)
    (hslot : s.inFlight = none) (hasRuntime : Bool) :
    let (h, t) := s.request hasRuntime
    t.outcome? h = some (.ok ()) ∧ (t.poll h).1 = some (.ok ()) ∧ t.inFlight = none := by
  have hrequest : s.request hasRuntime =
      (s.fetches.size, { s with fetches := s.fetches.push (s.settledFetch (.ok ())) }) := by
    simp [Source.request, hc, Source.addFetch]
  have houtcome : Source.outcome? { s with fetches := s.fetches.push (s.settledFetch (.ok ())) }
      s.fetches.size = some (.ok ()) :=
    Source.outcome?_eq_some.2 ⟨_, Source.lookup_push.2 (.inl ⟨rfl, rfl⟩), rfl⟩
  rw [hrequest]
  exact ⟨houtcome, ((hs.push_settled (.ok ())).poll_outcome _).trans houtcome, hslot⟩

theorem only_forward (b : Backend) (first : Option Page) (ms : List Move) :
    OnlyForward b ((World.start first).run b ms) := by
  obtain ⟨k, hw⟩ := onChain_run b first ms
  have haccounts := accounts_run b first ms
  refine ⟨fun hc later => (hw.run_of_complete hc later).2.1, hw.inFlight_of_complete,
    fun hc later => (hw.run_of_complete hc later).2.2.2, hw.buffer_of_complete haccounts,
    fun hc => ?_, fun hc rs v hsuccessive i r hi => ?_, fun hstate later => ?_⟩
  · exact comesBack_of_done (fun hasRuntime => Call.one_of_complete hasRuntime hc)
      (ResultSet.deliver_head _)
  · have hr := (hsuccessive.eq_nextOf hw haccounts hc).2.2 i r hi
    refine ⟨hr, ?_⟩
    rw [hr, ResultSet.nextOf_eq_none_iff, List.drop_eq_nil_iff]
    rfl
  · obtain ⟨hdry, hc⟩ := ResultSet.state_eq_exhausted_iff.1 hstate
    obtain ⟨⟨k', hv⟩, hcomplete, -, hcalls⟩ := hw.run_of_complete hc later
    have hdry' : (((World.start first).run b ms).run b later).source.progress.buffer = [] := by
      have hkept := hw.buffer_of_complete haccounts hc later
      rw [hdry] at hkept
      exact (List.append_eq_nil_iff.1 hkept.symm).2
    refine ⟨ResultSet.state_eq_exhausted_iff.2 ⟨hdry', hcomplete⟩, hcalls, ?_, ?_, ?_,
      request_of_complete hv.oneFetch hcomplete (hv.inFlight_of_complete hcomplete)⟩
    · refine comesBack_of_done (fun hasRuntime => Call.one_of_complete hasRuntime hcomplete) ?_
      rw [hdry']
      exact ResultSet.deliver_head []
    · refine comesBack_of_done (fun hasRuntime => Call.all_of_complete hasRuntime hcomplete) ?_
      rw [hdry']
      exact fun _ => rfl
    · refine comesBack_of_done
        (fun hasRuntime => Call.exhausted_of_complete hasRuntime hcomplete) ?_
      rw [hdry']
      exact fun _ => rfl

end World

end PagedTraversal
