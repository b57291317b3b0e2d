import PagedTraversal.Proofs.Paging.Alone
import PagedTraversal.Proofs.Paging.Course
import PagedTraversal.Proofs.ResultSet.Agreement

/-!
# PagedTraversal.Proofs.Paging.Solo

Calls with nobody else at the source. A call and the task in the slot take turns, in whatever order,
until the call is over; then the next call is made. What comes of it does not depend on the turns: a
call comes back along its course, and if both get their turns it does come back.

* `World.At`: where the call can stand; `World.At.turn`: what a turn comes to there.
* `World.Heads.finished`, `World.Heads.finishes`: a call that is over has run its course, and one
  that has a course before it is over some time.
* `World.Performs`, `World.performs_iff_runs`: one call after another.
-/

namespace PagedTraversal

open ResultSet (Turn)

/-- A call stands before a look, before its next page, or at its end. -/
inductive Place where
  | look (goal : Goal)
  | fetch (goal : Goal)
  | over (result : Except FetchError Answer)

/-- What is left of the course of a call at a place. -/
def Backend.Leads (b : Backend) : Place → Progress → Nat → Except FetchError Answer → Progress →
    Nat → Prop
  | .look goal, p, k, r, q, m => b.Course .look goal p k r q m
  | .fetch goal, p, k, r, q, m => b.Course .fetch goal p k r q m
  | .over result, p, k, r, q, m => r = result ∧ q = p ∧ m = k

theorem Source.poll_leaves (s : Source) (h : Handle) :
    (s.poll h).2.progress = s.progress ∧ (s.poll h).2.calls = s.calls := by
  have hact : s.Act true (s.poll h).2 := .poll h
  exact ⟨s.progress_poll h, (SameChain.of_act hact).calls⟩

namespace World

/-- A turn of the `n`-th call, or of the task in the slot. -/
def soloTurn (b : Backend) (n : Nat) (w : World) : Turn → World
  | .consumer => w.stepCall n true
  | .background => w.tend b

/-- The `n`-th call and the task in the slot take turns, and nobody else does anything. -/
def solo (b : Backend) (n : Nat) (turns : Nat → Turn) (w : World) : Nat → World
  | 0 => w
  | i + 1 => (w.solo b n turns i).soloTurn b n (turns i)

/-- Where a call stands that is alone with the task in the slot: at its place, with its progress and
with so many calls for pages made. A call for a page that is open has still to be answered. -/
inductive At (w : World) (n : Nat) : Place → Progress → Nat → Prop where
  | looks {goal : Goal} : w.parties[n]? = some (.running ⟨goal, .look⟩) →
      w.source.inFlight = none → At w n (.look goal) w.source.progress w.source.calls.size
  | requests {goal : Goal} : w.parties[n]? = some (.running ⟨goal, .request⟩) →
      w.source.inFlight = none → w.source.progress.complete = false →
      At w n (.fetch goal) w.source.progress w.source.calls.size
  | queued {goal : Goal} {h : Handle} {page : Nat} :
      w.parties[n]? = some (.running ⟨goal, .wait h⟩) → w.source.inFlight = some h →
      w.source.fetches[h]? = some ⟨page, w.source.progress.next, .queued, none⟩ →
      At w n (.fetch goal) w.source.progress w.source.calls.size
  | calling {goal : Goal} {h : Handle} {page k : Nat} :
      w.parties[n]? = some (.running ⟨goal, .wait h⟩) → w.source.inFlight = some h →
      w.source.fetches[h]? = some ⟨page, w.source.progress.next, .calling k, none⟩ →
      w.source.calls.size = k + 1 → At w n (.fetch goal) w.source.progress k
  | arrived {goal : Goal} {h : Handle} : w.parties[n]? = some (.running ⟨goal, .wait h⟩) →
      w.source.inFlight = none → w.source.outcome? h = some (.ok ()) →
      At w n (.look goal) w.source.progress w.source.calls.size
  | failed {goal : Goal} {h : Handle} {e : FetchError} :
      w.parties[n]? = some (.running ⟨goal, .wait h⟩) →
      w.source.inFlight = none ∨ w.source.inFlight = some h ∧ w.source.Unnoticed h →
      w.source.outcome? h = some (.error e) →
      At w n (.over (.error e)) w.source.progress w.source.calls.size
  | done {c : Call} {result : Except FetchError Answer} :
      w.parties[n]? = some (.finished c result) → w.source.inFlight = none →
      At w n (.over result) w.source.progress w.source.calls.size

/-- No fewer than the turns that bring a call to its end, when `m` calls for pages have been made by
then. -/
def left (n m : Nat) (w : World) : Nat :=
  6 * (m - w.source.calls.size) +
    match w.parties[n]? with
    | some (.running c) => c.lag w.source
    | _ => 0

theorem left_of_running {w : World} {n : Nat} {c : Call} (hc : w.parties[n]? = some (.running c))
    (m : Nat) : w.left n m = 6 * (m - w.source.calls.size) + c.lag w.source := by
  simp [left, hc]

theorem left_of_finished {w : World} {n : Nat} {c : Call} {result : Except FetchError Answer}
    (hc : w.parties[n]? = some (.finished c result)) (m : Nat) :
    w.left n m = 6 * (m - w.source.calls.size) := by
  simp [left, hc]

/-- In `v` the call stands where it comes to the same end as from its place in `w`, and nearer to
that end. -/
def GoesOn (b : Backend) (w v : World) (n : Nat) (place : Place) (p : Progress) (k : Nat) : Prop :=
  ∃ place' p' k', v.At n place' p' k' ∧ ∀ r q m,
    (b.Leads place p k r q m ↔ b.Leads place' p' k' r q m) ∧
      (b.Leads place p k r q m → v.left n m < w.left n m)

variable {b : Backend} {w : World} {n k m : Nat} {place : Place} {p q : Progress} {goal : Goal}
  {h : Handle} {r : Except FetchError Answer}

/-! ## The turns of the call -/

/-- What a turn of the call leaves. -/
theorem stepCall_leaves {c : Call} (hc : w.parties[n]? = some (.running c)) {advance : Advance}
    {s : Source} (hstep : c.step true w.source = (advance, s)) :
    (w.stepCall n true).parties[n]? = some (advance.party c) ∧ (w.stepCall n true).source = s := by
  obtain ⟨e, hparty, -⟩ := stepCall_of_running hc true
  rw [hstep] at hparty
  refine ⟨hparty, ?_⟩
  rw [e, hstep]

theorem goesOn_of_look (b : Backend) (hc : w.parties[n]? = some (.running ⟨goal, .look⟩))
    (hslot : w.source.inFlight = none) :
    GoesOn b w (w.stepCall n true) n (.look goal) w.source.progress w.source.calls.size := by
  have hleft := left_of_running hc
  have hlook : Call.step true ⟨goal, .look⟩ w.source = _ := Call.look_eq ⟨goal, .look⟩ w.source
  cases hglance : goal.glance w.source.progress with
  | mk outcome p' =>
    simp only [hglance] at hlook
    obtain ⟨hparty, hsource⟩ := stepCall_leaves hc hlook
    cases outcome with
    | inl answer =>
      have hdone := At.done hparty (by rw [hsource]; exact hslot)
      refine ⟨_, _, _, hdone, fun r q m => ⟨?_, fun _ => ?_⟩⟩
      · rw [hsource]
        exact Backend.course_look_of_answer hglance
      · rw [left_of_finished hparty, hleft, hsource]
        simp [Call.lag]
    | inr goal' =>
      have hrequests := At.requests hparty (by rw [hsource]; exact hslot)
        (by rw [hsource]; exact Goal.complete_of_glance hglance)
      refine ⟨_, _, _, hrequests, fun r q m => ⟨?_, fun _ => ?_⟩⟩
      · rw [hsource]
        exact Backend.course_look_of_needs hglance
      · rw [left_of_running hparty, hleft, hsource]
        simp [Call.lag]

theorem goesOn_of_request (b : Backend) (hc : w.parties[n]? = some (.running ⟨goal, .request⟩))
    (hslot : w.source.inFlight = none) (hcomplete : w.source.progress.complete = false) :
    GoesOn b w (w.stepCall n true) n (.fetch goal) w.source.progress w.source.calls.size := by
  have hstep : Call.step true ⟨goal, .request⟩ w.source =
      (.more ⟨goal, .wait w.source.fetches.size⟩, { w.source with
        fetches := w.source.fetches.push
          ⟨w.source.progress.pages, w.source.progress.next, .queued, none⟩
        inFlight := some w.source.fetches.size }.log (.fetchStarted w.source.progress.pages)) := by
    simp [Call.step, Call.goTo, Source.request, hcomplete, hslot, Source.addFetch]
  obtain ⟨hparty, hsource⟩ := stepCall_leaves hc hstep
  have hf : (w.stepCall n true).source.fetches[w.source.fetches.size]? = some
      ⟨w.source.progress.pages, (w.stepCall n true).source.progress.next, .queued, none⟩ := by
    rw [hsource]
    simp [Source.log]
  have hqueued := At.queued hparty (by rw [hsource]; rfl) hf
  refine ⟨_, _, _, hqueued, fun r q m => ⟨by rw [hsource]; exact Iff.rfl, fun _ => ?_⟩⟩
  rw [left_of_running hparty, left_of_running hc, hsource]
  simp [Call.lag, Source.log]

theorem goesOn_of_arrived (b : Backend) (hone : w.source.OneFetch)
    (hc : w.parties[n]? = some (.running ⟨goal, .wait h⟩)) (hslot : w.source.inFlight = none)
    (houtcome : w.source.outcome? h = some (.ok ())) :
    GoesOn b w (w.stepCall n true) n (.look goal) w.source.progress w.source.calls.size := by
  have hstep : Call.step true ⟨goal, .wait h⟩ w.source =
      (.more ⟨goal, .look⟩, (w.source.poll h).2) := by
    refine Prod.ext ?_ (Call.step_source_of_wait rfl true w.source)
    rw [Call.step_of_wait rfl, hone.poll_outcome, houtcome]
    rfl
  obtain ⟨hparty, hsource⟩ := stepCall_leaves hc hstep
  obtain ⟨hprogress, hcalls⟩ := w.source.poll_leaves h
  have hlooks := At.looks hparty (by rw [hsource]; exact Source.inFlight_poll_of_empty hslot h)
  rw [hsource, hprogress, hcalls] at hlooks
  refine ⟨_, _, _, hlooks, fun r q m => ⟨Iff.rfl, fun _ => ?_⟩⟩
  rw [left_of_running hparty, left_of_running hc, hsource, hcalls,
    Call.lag_of_outcome rfl houtcome]
  simp [Call.lag]

theorem goesOn_of_failed (b : Backend) {e : FetchError} (hone : w.source.OneFetch)
    (hc : w.parties[n]? = some (.running ⟨goal, .wait h⟩))
    (hslot : w.source.inFlight = none ∨ w.source.inFlight = some h ∧ w.source.Unnoticed h)
    (houtcome : w.source.outcome? h = some (.error e)) :
    GoesOn b w (w.stepCall n true) n (.over (.error e)) w.source.progress w.source.calls.size := by
  have hstep : Call.step true ⟨goal, .wait h⟩ w.source =
      (.done (.error e), (w.source.poll h).2) := by
    refine Prod.ext ?_ (Call.step_source_of_wait rfl true w.source)
    rw [Call.step_of_wait rfl, hone.poll_outcome, houtcome]
  obtain ⟨hparty, hsource⟩ := stepCall_leaves hc hstep
  obtain ⟨hprogress, hcalls⟩ := w.source.poll_leaves h
  have hempty : (w.source.poll h).2.inFlight = none := by
    rcases hslot with hslot | ⟨-, hunnoticed⟩
    · exact Source.inFlight_poll_of_empty hslot h
    · exact (Source.poll_of_unnoticed hunnoticed).2
  have hdone := At.done hparty (by rw [hsource]; exact hempty)
  rw [hsource, hprogress, hcalls] at hdone
  refine ⟨_, _, _, hdone, fun r q m => ⟨Iff.rfl, fun _ => ?_⟩⟩
  rw [left_of_finished hparty, left_of_running hc, hsource, hcalls,
    Call.lag_of_outcome rfl houtcome]
  omega

/-- While its fetch runs, the call does nothing. -/
theorem stepCall_of_fetching (hone : w.source.OneFetch)
    (hc : w.parties[n]? = some (.running ⟨goal, .wait h⟩)) (hrunning : w.source.Running h) :
    w.stepCall n true = w := by
  refine stepCall_of_waiting (h := h) hc ?_ rfl
  simp only [Call.step, hone.poll_of_running hrunning]

/-! ## The turns of the task in the slot -/

theorem goesOn_of_queued (b : Backend) {page : Nat}
    (hc : w.parties[n]? = some (.running ⟨goal, .wait h⟩)) (hslot : w.source.inFlight = some h)
    (hf : w.source.fetches[h]? = some ⟨page, w.source.progress.next, .queued, none⟩) :
    GoesOn b w (w.tend b) n (.fetch goal) w.source.progress w.source.calls.size := by
  obtain ⟨hbegin, hcalling⟩ := Source.beginCall_of_queued hf
  have htend := tend_of_queued b hslot hf
  have hparty : (w.tend b).parties[n]? = some (.running ⟨goal, .wait h⟩) := by rw [htend]; exact hc
  have hsource : (w.tend b).source = w.source.beginCall h := by rw [htend]
  have hsize : (w.source.beginCall h).calls.size = w.source.calls.size + 1 := by
    rw [hbegin]
    exact Array.size_push _
  have hprogress := w.source.progress_beginCall h
  have hf' : (w.tend b).source.fetches[h]? =
      some ⟨page, (w.tend b).source.progress.next, .calling w.source.calls.size, none⟩ := by
    rw [hsource, hprogress]
    exact hcalling
  have hcalling' := At.calling hparty (by rw [hsource, hbegin]; exact hslot) hf'
    (by rw [hsource]; exact hsize)
  rw [hsource, hprogress] at hcalling'
  refine ⟨_, _, _, hcalling', fun r q m => ⟨Iff.rfl, fun hcourse => ?_⟩⟩
  have hlt : w.source.calls.size < m := Backend.Course.calls_lt hcourse
  rw [left_of_running hparty, left_of_running hc, hsource, hsize]
  simp only [Call.lag, hf, hcalling, Option.map_some]
  omega

theorem goesOn_of_calling (b : Backend) {page : Nat}
    (hc : w.parties[n]? = some (.running ⟨goal, .wait h⟩)) (hslot : w.source.inFlight = some h)
    (hf : w.source.fetches[h]? = some ⟨page, w.source.progress.next, .calling k, none⟩)
    (hsize : w.source.calls.size = k + 1) :
    GoesOn b w (w.tend b) n (.fetch goal) w.source.progress k := by
  have htend := tend_of_calling b hslot hf
  have hparty : (w.tend b).parties[n]? = some (.running ⟨goal, .wait h⟩) := by rw [htend]; exact hc
  have hsource : (w.tend b).source = w.source.endCall h (b.answer k w.source.progress.next) := by
    rw [htend]
  obtain ⟨hmodify, hcalls⟩ := Source.endCall_leaves hf (b.answer k w.source.progress.next)
  rw [← hsource] at hmodify hcalls
  have hended : (w.tend b).source.fetches[h]? =
      some ⟨page, w.source.progress.next, (b.answer k w.source.progress.next).stage, none⟩ := by
    rw [hmodify]
    exact Source.lookup_modify.2 (.inl ⟨rfl, _, hf, rfl⟩)
  have houtcome : (w.tend b).source.outcome? h =
      some (b.answer k w.source.progress.next).settlement :=
    Source.outcome?_eq_some.2 ⟨_, hended, Reply.outcome_stage _ _ _ _⟩
  -- the reply leaves the call nothing but the poll to do
  have hless : ∀ m, (w.tend b).left n m < w.left n m := by
    intro m
    rw [left_of_running hparty, left_of_running hc, hcalls, Call.lag_of_outcome rfl houtcome]
    simp [Call.lag, hf]
  rw [Source.endCall_of_calling hf] at hsource
  cases hreply : b.answer k w.source.progress.next with
  | page p =>
    rw [hreply] at hsource houtcome
    have harrived := At.arrived hparty (by rw [hsource]; rfl) houtcome
    rw [hcalls, hsize] at harrived
    refine ⟨_, _, _, harrived, fun r q m => ⟨?_, fun _ => hless m⟩⟩
    rw [hsource]
    exact Backend.course_fetch_of_page hreply
  | failure e =>
    rw [hreply] at hsource houtcome
    have hfailed := At.failed hparty (.inl (by rw [hsource]; rfl)) houtcome
    rw [hcalls, hsize] at hfailed
    refine ⟨_, _, _, hfailed, fun r q m => ⟨?_, fun _ => hless m⟩⟩
    rw [hsource]
    exact Backend.course_fetch_of_fails (by rw [hreply]; rfl)
  | crash =>
    -- the dead fetch stays in the slot, and the call is the one to find it there
    rw [hreply] at hsource houtcome hended
    have hfailed := At.failed hparty (.inr ⟨by rw [hsource]; exact hslot, page, _, hended⟩) houtcome
    rw [hcalls, hsize] at hfailed
    refine ⟨_, _, _, hfailed, fun r q m => ⟨?_, fun _ => hless m⟩⟩
    rw [hsource]
    exact Backend.course_fetch_of_fails (by rw [hreply]; rfl)

/-! ## Any turn -/

/-- At each place it is either the call or the task in the slot that brings the call on, and the
other one does nothing. -/
theorem At.turn (hone : w.source.OneFetch) (h : w.At n place p k) :
    ((∃ c result, w.parties[n]? = some (.finished c result)) ∧
      ∀ t, w.soloTurn b n t = w) ∨
    (GoesOn b w (w.stepCall n true) n place p k ∧ w.tend b = w) ∨
    (w.stepCall n true = w ∧ GoesOn b w (w.tend b) n place p k) := by
  cases h with
  | looks hc hslot => exact .inr (.inl ⟨goesOn_of_look b hc hslot, tend_of_empty b hslot⟩)
  | requests hc hslot hcomplete =>
    exact .inr (.inl ⟨goesOn_of_request b hc hslot hcomplete, tend_of_empty b hslot⟩)
  | queued hc hslot hf =>
    exact .inr (.inr ⟨stepCall_of_fetching hone hc ⟨_, hf, rfl⟩, goesOn_of_queued b hc hslot hf⟩)
  | calling hc hslot hf hsize =>
    exact .inr (.inr ⟨stepCall_of_fetching hone hc ⟨_, hf, rfl⟩,
      goesOn_of_calling b hc hslot hf hsize⟩)
  | arrived hc hslot houtcome =>
    exact .inr (.inl ⟨goesOn_of_arrived b hone hc hslot houtcome, tend_of_empty b hslot⟩)
  | failed hc hslot houtcome =>
    refine .inr (.inl ⟨goesOn_of_failed b hone hc hslot houtcome, ?_⟩)
    rcases hslot with hslot | ⟨hslot, page, token, hf⟩
    · exact tend_of_empty b hslot
    · simp [tend, hslot, hf, move, endCall]
  | @done c result hc hslot =>
    refine .inl ⟨⟨c, result, hc⟩, fun t => ?_⟩
    cases t with
    | consumer => simp [soloTurn, stepCall, hc]
    | background => exact tend_of_empty b hslot

theorem At.same_or_goesOn (hone : w.source.OneFetch) (h : w.At n place p k) (t : Turn) :
    w.soloTurn b n t = w ∨ GoesOn b w (w.soloTurn b n t) n place p k := by
  rcases h.turn (b := b) hone with ⟨-, hrests⟩ | ⟨hstep, htend⟩ | ⟨hstep, htend⟩
  · exact .inl (hrests t)
  · cases t with
    | consumer => exact .inr hstep
    | background => exact .inl htend
  · cases t with
    | consumer => exact .inl hstep
    | background => exact .inr htend

/-- Before its end something brings the call on. -/
theorem At.exists_turn (hone : w.source.OneFetch) (h : w.At n place p k)
    (hrunning : ¬ ∃ c result, w.parties[n]? = some (.finished c result)) :
    ∃ t, GoesOn b w (w.soloTurn b n t) n place p k := by
  rcases h.turn (b := b) hone with ⟨hfinished, -⟩ | ⟨hstep, -⟩ | ⟨-, htend⟩
  · exact absurd hfinished hrunning
  · exact ⟨.consumer, hstep⟩
  · exact ⟨.background, htend⟩

/-! ## Any number of turns -/

/-- The turns are moves. -/
theorem soloTurn_eq_run (b : Backend) (n : Nat) (w : World) (t : Turn) :
    ∃ ms, w.soloTurn b n t = w.run b ms := by
  cases t with
  | consumer => exact ⟨[.step n true], rfl⟩
  | background =>
    rcases w.tend_eq_move b with e | ⟨m, e⟩
    · exact ⟨[], e⟩
    · exact ⟨[m], e⟩

theorem solo_eq_run (b : Backend) (n : Nat) (turns : Nat → Turn) (w : World) (i : Nat) :
    ∃ ms, w.solo b n turns i = w.run b ms := by
  induction i with
  | zero => exact ⟨[], rfl⟩
  | succ i ih =>
    obtain ⟨ms, hms⟩ := ih
    obtain ⟨ms', hms'⟩ := soloTurn_eq_run b n (w.solo b n turns i) (turns i)
    refine ⟨ms ++ ms', ?_⟩
    rw [solo, hms', hms, run_append]

theorem At.of_finished {c : Call} {result : Except FetchError Answer} (h : w.At n place p k)
    (hfinished : w.parties[n]? = some (.finished c result)) :
    place = .over result ∧ p = w.source.progress ∧ k = w.source.calls.size ∧
      w.source.inFlight = none := by
  cases h with
  | done hc hslot =>
    rw [hfinished] at hc
    cases hc
    exact ⟨rfl, rfl, rfl, hslot⟩
  | looks hc _ => rw [hfinished] at hc; cases hc
  | requests hc _ _ => rw [hfinished] at hc; cases hc
  | queued hc _ _ => rw [hfinished] at hc; cases hc
  | calling hc _ _ _ => rw [hfinished] at hc; cases hc
  | arrived hc _ _ => rw [hfinished] at hc; cases hc
  | failed hc _ _ => rw [hfinished] at hc; cases hc

/-- The `n`-th call stands where it comes to the same end as from the given place, with the given
progress and number of calls for pages. -/
def Heads (b : Backend) (w : World) (n : Nat) (place : Place) (p : Progress) (k : Nat) : Prop :=
  w.source.OneFetch ∧ ∃ place' p' k', w.At n place' p' k' ∧
    ∀ r q m, b.Leads place p k r q m ↔ b.Leads place' p' k' r q m

theorem Heads.turn (h : Heads b w n place p k) (t : Turn) :
    Heads b (w.soloTurn b n t) n place p k := by
  obtain ⟨hone, place', p', k', hat, hleads⟩ := h
  have hone' : (w.soloTurn b n t).source.OneFetch := by
    obtain ⟨ms, hms⟩ := soloTurn_eq_run b n w t
    rw [hms]
    exact source_run (fun hstep hs => hs.step hstep) hone ms
  refine ⟨hone', ?_⟩
  rcases hat.same_or_goesOn (b := b) hone t with hsame | ⟨place'', p'', k'', hat', hgoes⟩
  · rw [hsame]
    exact ⟨place', p', k', hat, hleads⟩
  · exact ⟨place'', p'', k'', hat', fun r q m => (hleads r q m).trans (hgoes r q m).1⟩

theorem Heads.solo (h : Heads b w n place p k) (turns : Nat → Turn) (i : Nat) :
    Heads b (w.solo b n turns i) n place p k := by
  induction i with
  | zero => exact h
  | succ i ih => exact ih.turn (turns i)

/-- A call that is over has come along its course. -/
theorem Heads.finished {c : Call} (h : Heads b w n place p k)
    (hfinished : w.parties[n]? = some (.finished c r)) :
    b.Leads place p k r w.source.progress w.source.calls.size ∧ w.source.inFlight = none := by
  obtain ⟨-, place', p', k', hat, hleads⟩ := h
  obtain ⟨rfl, rfl, rfl, hslot⟩ := hat.of_finished hfinished
  exact ⟨(hleads _ _ _).2 ⟨rfl, rfl, rfl⟩, hslot⟩

/-- A call with a course is over some time, if both it and the task in the slot get their turns. -/
theorem Heads.finishes (h : Heads b w n place p k) (hleads : b.Leads place p k r q m)
    {turns : Nat → Turn} (hfair : ResultSet.Consumption.Fair turns) :
    ∃ i c result, (w.solo b n turns i).parties[n]? = some (.finished c result) := by
  refine hfair.counts_down (soloTurn b n) (fun _ => rfl) (P := fun v => Heads b v n place p k)
    (Q := fun v => ∃ c result, v.parties[n]? = some (.finished c result)) (left n m) (h.solo turns)
    ?_ ?_
  · rintro v t ⟨hone, place', p', k', hat, hkept⟩ -
    have hleads' := (hkept r q m).1 hleads
    rcases hat.same_or_goesOn (b := b) hone t with hsame | ⟨_, _, _, -, hgoes⟩
    · exact .inl hsame
    · exact .inr (.inr ((hgoes r q m).2 hleads'))
  · rintro v ⟨hone, place', p', k', hat, hkept⟩ hrunning
    have hleads' := (hkept r q m).1 hleads
    obtain ⟨t, _, _, _, -, hgoes⟩ := hat.exists_turn (b := b) hone hrunning
    exact ⟨t, .inr ((hgoes r q m).2 hleads')⟩

/-! ## One call after another -/

/-- Each call is made when the one before it is over, and while it runs nobody acts but the call and
the task in the slot, whose turns may come in any order. -/
inductive Performs (b : Backend) : World → List Errand → List (Except FetchError Answer) → World →
    Prop where
  | nil {w : World} : Performs b w [] [] w
  | cons {w v u : World} {e : Errand} {es : List Errand} {r : Except FetchError Answer}
      {rs : List (Except FetchError Answer)} {turns : Nat → Turn} {i : Nat} {c : Call} :
      (w.move b (.ask e)).solo b w.parties.length turns i = v →
      v.parties[w.parties.length]? = some (.finished c r) → Performs b v es rs u →
      Performs b w (e :: es) (r :: rs) u

/-- One fetch at a time, and none at present. -/
def Ready (w : World) : Prop := w.source.OneFetch ∧ w.source.inFlight = none

variable {v u : World} {e : Errand} {es : List Errand} {rs : List (Except FetchError Answer)}

/-- A call for rows that is made when no fetch is in flight has its course before it. -/
theorem Ready.heads (hw : w.Ready) (b : Backend) (he : e.consumes = true) :
    Heads b (w.move b (.ask e)) w.parties.length (.look e.call.goal) w.source.progress
      w.source.calls.size := by
  have hc : (w.move b (.ask e)).parties[w.parties.length]? =
      some (.running ⟨e.call.goal, .look⟩) := by
    rw [← (Errand.call_of_consumes he).1]
    exact List.getElem?_concat_length
  exact ⟨hw.1, _, _, _, .looks hc hw.2, fun r q m => Iff.rfl⟩

theorem Ready.of_finished (hw : w.Ready) (he : e.consumes = true) {turns : Nat → Turn} {i : Nat}
    {c : Call} (hv : (w.move b (.ask e)).solo b w.parties.length turns i = v)
    (hfinished : v.parties[w.parties.length]? = some (.finished c r)) :
    v.Ready ∧ b.Course .look e.call.goal w.source.progress w.source.calls.size r
      v.source.progress v.source.calls.size := by
  have hheads := (hw.heads b he).solo turns i
  rw [hv] at hheads
  obtain ⟨hcourse, hslot⟩ := hheads.finished hfinished
  exact ⟨⟨hheads.1, hslot⟩, hcourse⟩

theorem Performs.runs (h : Performs b w es rs u) (hw : w.Ready)
    (hes : ∀ e ∈ es, e.consumes = true) :
    u.Ready ∧ b.Runs w.source.progress w.source.calls.size es rs u.source.progress
      u.source.calls.size := by
  induction h with
  | nil => exact ⟨hw, .nil⟩
  | cons hv hfinished _ ih =>
    obtain ⟨hv, hcourse⟩ := hw.of_finished (hes _ (.head _)) hv hfinished
    obtain ⟨hu, hruns⟩ := ih hv fun e he => hes e (.tail _ he)
    exact ⟨hu, .cons hcourse hruns⟩

theorem exists_performs (hw : w.Ready) (hes : ∀ e ∈ es, e.consumes = true)
    (h : b.Runs w.source.progress w.source.calls.size es rs q m) : ∃ u, Performs b w es rs u := by
  generalize hp : w.source.progress = p at h
  generalize hk : w.source.calls.size = k at h
  induction h generalizing w with
  | nil => exact ⟨w, .nil⟩
  | @cons p p' q k k' m e es r rs hcourse _ ih =>
    subst hp
    subst hk
    have he := hes e (.head _)
    obtain ⟨i, c, result, hfinished⟩ :=
      (hw.heads b he).finishes hcourse ResultSet.Consumption.alternating_fair
    obtain ⟨hv, hcourse'⟩ := hw.of_finished he rfl hfinished
    obtain ⟨rfl, hprogress, hcalls⟩ := hcourse.unique hcourse'
    obtain ⟨u, hperforms⟩ := ih hv (fun e he => hes e (.tail _ he)) hprogress hcalls
    exact ⟨u, .cons rfl hfinished hperforms⟩

/-- What calls come back with depends on the progress and on the number of calls for pages alone. -/
theorem performs_iff_runs (hw : w.Ready) (hes : ∀ e ∈ es, e.consumes = true) :
    (∃ u, Performs b w es rs u) ↔
      ∃ q m, b.Runs w.source.progress w.source.calls.size es rs q m := by
  constructor
  · rintro ⟨u, h⟩
    exact ⟨_, _, (h.runs hw hes).2⟩
  · rintro ⟨q, m, h⟩
    exact exists_performs hw hes h

end World

end PagedTraversal
