import Mathlib.Data.List.Induction
import PagedTraversal.Proofs.Paging.Alone
import PagedTraversal.Proofs.Paging.Handles
import PagedTraversal.Proofs.ResultSet.Readings

/-!
# PagedTraversal.Proofs.Paging.Dryness

When a call for a row, or one that asks whether any is left, requests a page. It does so after it has
looked and found nothing. The look and the request are two steps, and a page that arrives between
them is not looked for: the call then requests the page behind it, waits for that one, and comes back
with its failure, although there are rows to hand out.

* `World.request_looked`: every such request follows a look that has found the source dry.
* `World.fetch_across_look`: what is buffered when the call requests a page and while it waits.
* `World.fetches_before_buffered_row`: a call that fails with a row in the buffer.
-/

namespace PagedTraversal

/-- Nothing can be handed out, and there are pages to fetch. -/
def Source.Dry (s : Source) : Prop := s.progress.buffer = [] ∧ s.progress.complete = false

/-- The call is made for a row, or to learn whether there is one. -/
def Goal.asksRow : Goal → Bool
  | one => true
  | exhausted => true
  | _ => false

namespace Call

/-- Such a call comes to its request by a look that finds nothing. -/
theorem look_of_request {c : Call} {goal : Goal} {hasRuntime : Bool} {s : Source}
    (hgoal : goal.asksRow = true) (hstep : (c.step hasRuntime s).1 = .more ⟨goal, .request⟩) :
    c = ⟨goal, .look⟩ ∧ s.Dry := by
  obtain ⟨goal', phase⟩ := c
  cases phase with
  | look =>
    cases goal' with
    | one =>
      simp only [step, look, Source.takeRow] at hstep
      cases hb : s.progress.buffer with
      | cons row rest =>
        rw [hb] at hstep
        cases hstep
      | nil =>
        cases hc : s.progress.complete <;> simp only [hb, Source.whenEmpty, hc] at hstep <;>
          cases hstep
        exact ⟨rfl, hb, hc⟩
    | all drained =>
      simp only [step, look] at hstep
      split at hstep <;> cases hstep
      cases hgoal
    | exhausted =>
      simp only [step, look, Source.peek] at hstep
      cases hb : s.progress.buffer with
      | cons row rest =>
        rw [hb] at hstep
        cases hstep
      | nil =>
        cases hc : s.progress.complete <;> simp only [hb, Source.whenEmpty, hc] at hstep <;>
          cases hstep
        exact ⟨rfl, hb, hc⟩
    | settled => cases hstep
  | compare threshold available =>
    simp only [step] at hstep
    split at hstep <;> cases hstep
  | wait h =>
    simp only [step] at hstep
    split at hstep <;> cases hstep
  | _ => cases hstep

end Call

namespace World

theorem run_concat (b : Backend) (w : World) (ms : List Move) (m : Move) :
    w.run b (ms ++ [m]) = (w.run b ms).move b m :=
  w.run_append b ms [m]

/-- A party that stands at its request has come there from a look. -/
theorem party_at_request {b : Backend} {w : World} {m : Move} {n : Nat} {goal : Goal}
    (hgoal : goal.asksRow = true)
    (hp : (w.move b m).parties[n]? = some (.running ⟨goal, .request⟩)) :
    w.parties[n]? = some (.running ⟨goal, .request⟩) ∨
      ∃ hasRuntime, m = .step n hasRuntime ∧
        w.parties[n]? = some (.running ⟨goal, .look⟩) ∧ w.source.Dry := by
  cases hbefore : w.parties[n]? with
  | some p =>
    rcases party_move b hbefore m with hsame | ⟨c, rfl, ⟨hasRuntime, hm, hstep⟩ | hdropped⟩
    · exact .inl (hsame.symm.trans hp)
    · rw [hp] at hstep
      refine .inr ⟨hasRuntime, hm, ?_⟩
      cases hadvance : (c.step hasRuntime w.source).1 with
      | more next =>
        rw [hadvance] at hstep
        cases hstep
        obtain ⟨rfl, hdry⟩ := Call.look_of_request hgoal hadvance
        exact ⟨rfl, hdry⟩
      | waiting h =>
        -- a call that waits stands at its wait
        rw [hadvance] at hstep
        cases hstep
        cases hadvance
      | done result =>
        rw [hadvance] at hstep
        cases hstep
    · rw [hp] at hdropped
      cases hdropped
  | none =>
    -- of the calls that have just been made, only the one for a page begins with its request
    obtain ⟨e, rfl, hcall⟩ := party_born hbefore hp
    have hcall : e.call = ⟨goal, .request⟩ := (Party.running.inj hcall).symm
    cases e with
    | fetch =>
      cases hcall
      cases hgoal
    | next threshold => cases threshold <;> cases hcall
    | _ => cases hcall

/-- Behind a request lies the look that led to it, and it has found the source dry. -/
theorem request_looked (b : Backend) (first : Option Page) {n : Nat} {goal : Goal}
    (hgoal : goal.asksRow = true) (ms : List Move)
    (hp : ((start first).run b ms).parties[n]? = some (.running ⟨goal, .request⟩)) :
    ∃ before hasRuntime between, ms = before ++ .step n hasRuntime :: between ∧
      ((start first).run b before).parties[n]? = some (.running ⟨goal, .look⟩) ∧
      ((start first).run b before).source.Dry := by
  induction ms using List.reverseRecOn with
  | nil =>
    have hnone : (start first).parties = [] := by cases first <;> rfl
    have hp : (start first).parties[n]? = some (.running ⟨goal, .request⟩) := hp
    rw [hnone] at hp
    cases hp
  | append_singleton ms m ih =>
    rw [run_concat] at hp
    rcases party_at_request hgoal hp with hsame | ⟨hasRuntime, rfl, hlook, hdry⟩
    · obtain ⟨before, hasRuntime, between, rfl, hlook, hdry⟩ := ih hsame
      exact ⟨before, hasRuntime, between ++ [m], by simp, hlook, hdry⟩
    · exact ⟨ms, hasRuntime, [], rfl, hlook, hdry⟩

variable {b : Backend} {front : List Page} {k n : Nat} {w : World}

/-- What a call does that has looked at the source in `w` and requests a page in `v`, as long as
nobody else takes rows.
`buffered`: what is buffered has arrived since the look. `dry`: the call starts or joins a fetch of a
dry source exactly if no row has arrived. `waits`, `fails`: as long as the fetch runs the call waits
for it, and comes back with its failure, and all rows that have arrived are still buffered. -/
structure FetchesBlindly (b : Backend) (w v : World) (n : Nat) (goal : Goal) : Prop where
  buffered : v.source.progress.buffer = w.arrivedSince v
  dry : ∀ hasRuntime, (v.source.servingCall hasRuntime).isSome = true →
    (v.source.Dry ↔ w.arrivedSince v = [])
  waits : ∀ hasRuntime later hasRuntime',
    let h := (v.source.request hasRuntime).1
    let u := (v.stepCall n hasRuntime).run b later
    u.takings = v.takings → u.Awaits n ⟨goal, .wait h⟩ h → u.source.Running h →
      u.stepCall n hasRuntime' = u ∧ u.source.progress.buffer = w.arrivedSince u
  fails : ∀ hasRuntime later hasRuntime' e,
    let h := (v.source.request hasRuntime).1
    let u := (v.stepCall n hasRuntime).run b later
    u.takings = v.takings → u.Awaits n ⟨goal, .wait h⟩ h → u.source.outcome? h = some (.error e) →
      (u.stepCall n hasRuntime').parties[n]? = some (.finished ⟨goal, .wait h⟩ (.error e)) ∧
        (u.stepCall n hasRuntime').source.progress.buffer = w.arrivedSince u

/-- While nobody takes rows from a dry source, what has arrived is what is buffered. -/
theorem Accounts.buffer_of_dry (hw : w.Accounts) (hdry : w.source.Dry) {ms : List Move}
    (htakings : (w.run b ms).takings = w.takings) :
    (w.run b ms).source.progress.buffer = w.arrivedSince (w.run b ms) := by
  rw [hw.buffer_of_untaken htakings, hdry.1, List.nil_append]

theorem fetchesBlindly (hw : OnChain b front k w) (haccounts : w.Accounts) (hdry : w.source.Dry)
    (between : List Move) (n : Nat) (goal : Goal)
    (htakings : (w.run b between).takings = w.takings) :
    FetchesBlindly b w (w.run b between) n goal := by
  have hbuffered := haccounts.buffer_of_dry hdry htakings
  -- what is buffered while the call waits has arrived since the look, too
  have hlater : ∀ hasRuntime later,
      let u := ((w.run b between).stepCall n hasRuntime).run b later
      u.takings = (w.run b between).takings →
        u.source.OneFetch ∧ u.source.progress.buffer = w.arrivedSince u := by
    intro hasRuntime later u hsame
    have hu : u = w.run b (between ++ .step n hasRuntime :: later) := by
      simp [u, run, move]
    obtain ⟨k', hchain⟩ := hw.run (between ++ .step n hasRuntime :: later)
    rw [hu] at hsame ⊢
    exact ⟨hchain.oneFetch, haccounts.buffer_of_dry hdry (hsame.trans htakings)⟩
  refine ⟨hbuffered, ?_, ?_, ?_⟩
  · intro hasRuntime hserved
    rw [← hbuffered]
    refine ⟨And.left, fun hempty => ⟨hempty, ?_⟩⟩
    cases hc : (w.run b between).source.progress.complete with
    | false => rfl
    | true => simp [Source.servingCall, hc] at hserved
  · intro hasRuntime later hasRuntime' h u hsame hawaits hrunning
    obtain ⟨hone, hbuffer⟩ := hlater hasRuntime later hsame
    have hpoll : u.source.poll h = (none, u.source) := hone.poll_of_running hrunning
    have hstep : Call.step hasRuntime' ⟨goal, .wait h⟩ u.source = (.waiting h, u.source) := by
      simp only [Call.step, hpoll]
    exact ⟨stepCall_of_waiting hawaits.1 hstep rfl, hbuffer⟩
  · intro hasRuntime later hasRuntime' e h u hsame hawaits houtcome
    obtain ⟨hone, hbuffer⟩ := hlater hasRuntime later hsame
    refine ⟨step_of_awaits hone hawaits houtcome hasRuntime', ?_⟩
    rw [(stepCall_of_running hawaits.1 hasRuntime').1, Call.step_source_of_wait rfl,
      Source.progress_poll]
    exact hbuffer

/-- A call for a row, or one that asks whether there is any, requests a page after a look that has
found the source dry. If other parties act in between, what has arrived since the look is buffered
when it requests and while it waits. So it fetches from a dry source only, as it ought to, if and
only if no row has arrived between its look and its request. -/
theorem fetch_across_look (b : Backend) (first : Option Page) (ms : List Move) (n : Nat)
    (goal : Goal) :
    let v := (start first).run b ms
    goal.asksRow = true → v.parties[n]? = some (.running ⟨goal, .request⟩) →
      ∃ before hasRuntime between, ms = before ++ .step n hasRuntime :: between ∧
        let w := (start first).run b before
        w.parties[n]? = some (.running ⟨goal, .look⟩) ∧ w.source.Dry ∧
          (v.takings = w.takings → FetchesBlindly b w v n goal) := by
  intro v hgoal hp
  obtain ⟨before, hasRuntime, between, rfl, hlook, hdry⟩ := request_looked b first hgoal ms hp
  refine ⟨before, hasRuntime, between, rfl, hlook, hdry, fun htakings => ?_⟩
  obtain ⟨k, hw⟩ := onChain_run b first before
  have hv : v = ((start first).run b before).run b (.step n hasRuntime :: between) := by
    simp [v, run]
  rw [hv] at htakings ⊢
  exact fetchesBlindly hw (accounts_run b first before) hdry _ n goal htakings

/-- The first page has one row, and the fetch of the second one fails. -/
def rowThenFailure : Backend :=
  .script [.page ⟨[numbered 1], some ⟨[0]⟩, .empty⟩, .failure (.transport "boom")]

/-- A page is on its way while a call looks for a row; it arrives before the call requests one. -/
def pageBehindLook : List Move := [.request true, .beginCall 0, .ask .one, .step 0 true, .endCall 0]

theorem fetch_across_look_row :
    let v := (start none).run rowThenFailure pageBehindLook
    Goal.one.asksRow = true ∧ v.parties[0]? = some (.running ⟨.one, .request⟩) ∧
      ∃ before hasRuntime between, pageBehindLook = before ++ .step 0 hasRuntime :: between ∧
        let w := (start none).run rowThenFailure before
        w.parties[0]? = some (.running ⟨.one, .look⟩) ∧ w.source.Dry ∧
          FetchesBlindly rowThenFailure w v 0 .one := by
  intro v
  obtain ⟨before, hasRuntime, between, hmoves, hlook, hdry, hblindly⟩ :=
    fetch_across_look rowThenFailure none pageBehindLook 0 .one rfl rfl
  refine ⟨rfl, rfl, before, hasRuntime, between, hmoves, hlook, hdry, hblindly ?_⟩
  have hgrows : ((start none).run rowThenFailure before).takings <+:
      ((start none).run rowThenFailure pageBehindLook).takings := by
    have := (run_grows rowThenFailure ((start none).run rowThenFailure before)
      (.step 0 hasRuntime :: between)).2
    rw [hmoves]
    simpa [run] using this
  exact (List.prefix_nil.1 hgrows).symm

/-- The call for a row finds none, requests the page behind the one that has just arrived, waits for
it, and comes back with its failure; the row that was there before the request is still buffered. In
the second run the fetch that the call waits on has failed, another one has brought a row, and the
call comes back with the failure all the same. -/
theorem fetches_before_buffered_row :
    let v := (start none).run rowThenFailure pageBehindLook
    let u := v.run rowThenFailure [.step 0 true, .beginCall 1, .endCall 1, .step 0 true]
    let v' := (start none).run failsOnce [.ask .one, .step 0 true, .step 0 true, .beginCall 0,
      .endCall 0, .request true, .beginCall 1, .endCall 1]
    v.parties = [.running ⟨.one, .request⟩] ∧ v.source.progress.buffer = [numbered 1] ∧
      v.source.servingCall true = some 1 ∧ ¬ v.source.Dry ∧
      u.parties = [.finished ⟨.one, .wait 1⟩ (.error (.transport "boom"))] ∧
      u.source.progress.buffer = [numbered 1] ∧ u.takings = [] ∧
    v'.source.progress.buffer = [numbered 2] ∧
      (v'.stepCall 0 true).parties = [.finished ⟨.one, .wait 0⟩ (.error (.transport "boom"))] ∧
      (v'.stepCall 0 true).source.progress.buffer = [numbered 2] := by
  refine ⟨rfl, rfl, rfl, ?_, rfl, rfl, rfl, rfl, rfl, rfl⟩
  rintro ⟨hempty, -⟩
  cases hempty

end World

end PagedTraversal
