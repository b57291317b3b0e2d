import PagedTraversal.Proofs.Paging.Headway
import PagedTraversal.Proofs.Paging.Outcome

/-!
# PagedTraversal.Proofs.Paging.Alone

A call for the next row with no other call beside it. A fetch is in flight only while the call waits
for it, and when the call comes back, be it with an error, none is.

* `Call.Alone`: where the call can stand; `Call.alone_step`: what a step of it comes to.
* `World.tend_cases`: what the next step of the task in the slot comes to, failures included.
* `World.Horizon`: how many calls are enough for a number of rows.
-/

namespace PagedTraversal

namespace Source

variable {s : Source} {h : Handle}

theorem OneFetch.poll_of_running (hs : OneFetch s) (hrunning : s.Running h) :
    s.poll h = (none, s) := by
  obtain ⟨f, hf, hopen⟩ := hrunning
  have houtcome : (s.poll h).1 = none := by
    rw [hs.poll_outcome, outcome?, hf]
    exact hopen
  rcases s.poll_cases h with e | ⟨_, _, _, -, e⟩ | ⟨_, _, -, e⟩
  · exact Prod.ext houtcome e
  · rw [e] at houtcome
    cases houtcome
  · rw [e] at houtcome
    cases houtcome

theorem inFlight_poll_of_empty (hslot : s.inFlight = none) (h : Handle) :
    (s.poll h).2.inFlight = none := by
  rcases s.poll_cases h with e | ⟨_, _, _, -, e⟩ | ⟨_, _, -, e⟩ <;> rw [e]
  · exact hslot
  · exact hslot
  · rfl

end Source

namespace Call

/-- Where the call of a consumer stands that makes one call for the next row after another, when
nobody else makes any. -/
def Alone (c : Call) (s : Source) : Prop :=
  c.goal = .one ∧
  match c.phase with
  | .look => s.inFlight = none
  | .request => s.inFlight = none ∧ s.progress.buffer = [] ∧ s.progress.complete = false
  | .wait h => h < s.fetches.size ∧
      (s.inFlight = none ∨ s.inFlight = some h ∧ s.progress.buffer = [])
  | _ => False

/-- How far the call is from coming back or from waiting for a fetch that has not made its call. -/
def lag (c : Call) (s : Source) : Nat :=
  match c.phase with
  | .request => 3
  | .wait h =>
    match s.fetches[h]?.map Fetch.stage with
    | some .queued => 2
    | some (.calling _) => 7
    | _ => 6
  | _ => 4

theorem lag_of_outcome {c : Call} {s : Source} {h : Handle} (hphase : c.phase = .wait h)
    {r : Settlement} (hr : s.outcome? h = some r) : c.lag s = 6 := by
  obtain ⟨⟨page, token, stage, seen⟩, hf, hr⟩ := Source.outcome?_eq_some.1 hr
  cases stage with
  | queued => cases hr
  | calling n => cases hr
  | _ => simp [lag, hphase, hf]

theorem alone_wait {c : Call} {s : Source} {h : Handle} (hone : s.OneFetch) (hgoal : c.goal = .one)
    (hphase : c.phase = .wait h) (hsize : h < s.fetches.size)
    (hslot : s.inFlight = none ∨ s.inFlight = some h) :
    (c.step true s = (.waiting h, s) ∧ s.Running h) ∨
    (c.step true s = (.more ⟨.one, .look⟩, (s.poll h).2) ∧ (s.poll h).2.inFlight = none ∧
      c.lag s = 6) ∨
    ∃ e, c.step true s = (.done (.error e), (s.poll h).2) ∧ (s.poll h).2.inFlight = none ∧
      c.lag s = 6 := by
  have hfst := step_of_wait hphase true s
  have hsnd := step_source_of_wait hphase true s
  rw [hone.poll_outcome] at hfst
  -- a fetch that has ended is in the slot only if nobody has noticed its crash
  have hempty : ∀ r, s.outcome? h = some r → (s.poll h).2.inFlight = none := by
    intro r hr
    have hnot : ¬ s.Running h := by
      rintro ⟨f, hf, hopen⟩
      rw [Source.outcome?, hf, Option.bind_some, hopen] at hr
      cases hr
    rcases hslot with hslot | hslot
    · exact Source.inFlight_poll_of_empty hslot h
    · exact (Source.poll_of_unnoticed ((hone.inFlight_iff.1 hslot).resolve_left hnot)).2
  cases hr : s.outcome? h with
  | none =>
    have hf : s.fetches[h]? = some s.fetches[h] := Array.getElem?_eq_getElem hsize
    have hrunning : s.Running h := by
      refine ⟨_, hf, ?_⟩
      rw [Source.outcome?, hf] at hr
      exact hr
    rw [hr] at hfst
    rw [hone.poll_of_running hrunning] at hsnd
    exact .inl ⟨Prod.ext hfst hsnd, hrunning⟩
  | some r =>
    rw [hr] at hfst
    have hslot' := hempty r hr
    have hlag := lag_of_outcome hphase hr
    cases r with
    | ok u =>
      obtain ⟨goal, phase⟩ := c
      cases hgoal
      exact .inr (.inl ⟨Prod.ext hfst hsnd, hslot', hlag⟩)
    | error e => exact .inr (.inr ⟨e, Prod.ext hfst hsnd, hslot', hlag⟩)

/-- A step goes on to a smaller lag, waits for the fetch that the slot holds, or comes back with a
row, with the end, or with an error after which the slot is empty. -/
theorem alone_step {c : Call} {s : Source} (hone : s.OneFetch) (hc : c.Alone s) :
    (∃ c', (c.step true s).1 = .more c' ∧ c'.Alone (c.step true s).2 ∧ c.takes s = [] ∧
      c'.lag (c.step true s).2 < c.lag s) ∨
    (∃ h, c.step true s = (.waiting h, s) ∧ c.takes s = [] ∧ s.Running h) ∨
    (∃ row, (c.step true s).1 = .done (.ok (.one (some row))) ∧ c.takes s = [row] ∧
      (c.step true s).2.inFlight = none ∧ c.lag s = 4) ∨
    ((c.step true s).1 = .done (.ok (.one none)) ∧ c.takes s = [] ∧
      (c.step true s).2.progress.buffer = [] ∧ (c.step true s).2.progress.complete = true) ∨
    (∃ e, (c.step true s).1 = .done (.error e) ∧ c.takes s = [] ∧
      (c.step true s).2.inFlight = none ∧ c.lag s = 6) := by
  obtain ⟨goal, phase⟩ := c
  obtain ⟨rfl, hc⟩ := hc
  cases phase with
  | look =>
    have hslot : s.inFlight = none := hc
    simp only [step, look, takes, Source.takeRow]
    cases hb : s.progress.buffer with
    | cons row rest => exact .inr (.inr (.inl ⟨row, rfl, rfl, hslot, rfl⟩))
    | nil =>
      cases hcomplete : s.progress.complete with
      | true => exact .inr (.inr (.inr (.inl (by simp [Source.whenEmpty, hcomplete, hb]))))
      | false =>
        refine .inl ⟨⟨.one, .request⟩, by simp [Source.whenEmpty, hcomplete, goTo], ?_, rfl, ?_⟩
        · simpa [Source.whenEmpty, hcomplete, Alone, hb] using hslot
        · simp [lag]
  | request =>
    obtain ⟨hslot, hb, hcomplete⟩ := hc
    have hstep : step true ⟨.one, .request⟩ s = (.more ⟨.one, .wait s.fetches.size⟩, { s with
        fetches := s.fetches.push ⟨s.progress.pages, s.progress.next, .queued, none⟩
        inFlight := some s.fetches.size }.log (.fetchStarted s.progress.pages)) := by
      simp [step, goTo, Source.request, hcomplete, hslot, Source.addFetch]
    rw [hstep]
    refine .inl ⟨_, rfl, ⟨rfl, ?_, .inr ⟨rfl, hb⟩⟩, rfl, ?_⟩
    · simp [Source.log]
    · simp [lag, Source.log]
  | wait h =>
    obtain ⟨hsize, hslot⟩ := hc
    have hslot' : s.inFlight = none ∨ s.inFlight = some h := hslot.imp id And.left
    rcases alone_wait (c := ⟨.one, .wait h⟩) hone rfl rfl hsize hslot' with ⟨e, hrunning⟩ |
      ⟨e, hempty, hlag⟩ | ⟨err, e, hempty, hlag⟩
    · exact .inr (.inl ⟨h, e, rfl, hrunning⟩)
    · rw [e, hlag]
      exact .inl ⟨_, rfl, ⟨rfl, hempty⟩, rfl, by simp [lag]⟩
    · rw [e, hlag]
      exact .inr (.inr (.inr (.inr ⟨err, rfl, rfl, hempty, rfl⟩)))
  | _ => exact hc.elim

end Call

namespace World

variable {b : Backend} {start : List Page} {k : Nat} {w : World} {h : Handle}

/-- The next step of the task in the slot: it makes its call or is answered, or it has crashed and
does nothing. -/
theorem tend_cases (hone : w.source.OneFetch) (hslot : w.source.inFlight = some h) :
    (w.source.fetches[h]?.map Fetch.stage = some .queued ∧
      (w.tend b).source.fetches[h]?.map Fetch.stage = some (.calling w.source.calls.size) ∧
      (w.tend b).source.calls.size = w.source.calls.size + 1 ∧
      (w.tend b).source.inFlight = some h ∧
      (w.tend b).source.progress = w.source.progress) ∨
    ((∃ n, w.source.fetches[h]?.map Fetch.stage = some (.calling n)) ∧
      (∃ r, (w.tend b).source.outcome? h = some r) ∧
      (w.tend b).source.calls.size = w.source.calls.size ∧
      ((w.tend b).source.inFlight = none ∨ (w.tend b).source.inFlight = some h ∧
        (w.tend b).source.progress = w.source.progress)) ∨
    (w.source.Unnoticed h ∧ w.tend b = w) := by
  rcases hone.inFlight_iff.1 hslot with ⟨⟨page, token, stage, seen⟩, hf, hopen⟩ | hunnoticed
  · cases stage with
    | queued =>
      refine .inl ?_
      obtain ⟨hbegin, hcalling⟩ := Source.beginCall_of_queued hf
      rw [tend_of_queued b hslot hf]
      refine ⟨by simp [hf], by simp [hcalling], ?_⟩
      rw [hbegin]
      exact ⟨Array.size_push _, hslot, rfl⟩
    | calling n =>
      refine .inr (.inl ⟨⟨n, by simp [hf]⟩, ?_⟩)
      rw [tend_of_calling b hslot hf, Source.endCall_of_calling hf]
      cases b.answer n token with
      | page p => exact ⟨⟨.ok (), Source.outcome?_eq_some.2
          ⟨_, Source.lookup_modify.2 (.inl ⟨rfl, _, hf, rfl⟩), rfl⟩⟩, rfl, .inl rfl⟩
      | failure e => exact ⟨⟨.error e, Source.outcome?_eq_some.2
          ⟨_, Source.lookup_modify.2 (.inl ⟨rfl, _, hf, rfl⟩), rfl⟩⟩, rfl, .inl rfl⟩
      | crash => exact ⟨⟨.error .taskCrashed, Source.outcome?_eq_some.2
          ⟨_, Source.lookup_modify.2 (.inl ⟨rfl, _, hf, rfl⟩), rfl⟩⟩, rfl, .inr ⟨hslot, rfl⟩⟩
    | returned settlement => cases hopen
    | crashed => cases hopen
  · obtain ⟨page, token, hf⟩ := hunnoticed
    refine .inr (.inr ⟨⟨page, token, hf⟩, ?_⟩)
    simp [tend, hslot, hf, move, endCall]

theorem tend_keeps (b : Backend) {P : World → Prop} (hmove : ∀ w m, P w → P (w.move b m))
    (hw : P w) : P (w.tend b) := by
  rcases w.tend_eq_move b with e | ⟨m, e⟩ <;> rw [e]
  · exact hw
  · exact hmove w m hw

/-- While fewer than `L` rows have been taken, a dry buffer means that one of the first `K` calls
has still to be answered. -/
def Horizon (b : Backend) (start : List Page) (K L : Nat) : Prop :=
  ∀ (k : Nat) (w : World), OnChain b start k w → w.Accounts → w.takenRows.length < L →
    w.source.progress.buffer = [] → w.source.progress.complete = false → k < K

/-- While a fetch has not made its call, all calls made before have been answered. -/
theorem OnChain.size_calls_of_queued (hw : OnChain b start k w)
    (hslot : w.source.inFlight = some h)
    (hqueued : w.source.fetches[h]?.map Fetch.stage = some .queued) :
    w.source.calls.size = k ∧ w.source.progress.complete = false := by
  obtain ⟨f, hf, ho⟩ := (hw.oneFetch.slot h).1 hslot
  obtain ⟨-, -, hcomplete⟩ := hw.oneFetch.current h f hf ho
  refine ⟨?_, hcomplete⟩
  rcases hw.answered with ⟨hsize, -⟩ | ⟨-, h', f', n, hf', hn⟩
  · exact hsize
  · cases hw.oneFetch.unique hf hf' ho (Fetch.occupies_of_calling hn)
    rw [hf', Option.map_some, hn] at hqueued
    cases hqueued

/-- What a step of a call and the decoding of its answer come to. -/
theorem deliver_stepCall {n : Nat} {c : Call} (hc : w.parties[n]? = some (.running c)) :
    let v := (w.stepCall n true).deliver n
    v.takenRows = w.takenRows ++ c.takes w.source ∧ v.source.calls = w.source.calls ∧
      v.source.inFlight = (c.step true w.source).2.inFlight ∧
      v.source.progress = (c.step true w.source).2.progress := by
  intro v
  obtain ⟨hstep, -, htaken⟩ := stepCall_of_running hc true
  obtain ⟨events, -, hevents⟩ := (w.stepCall n true).deliver_eq n
  have hcalls := (Source.SameChain.of_act (c.step_act true w.source)).calls
  have hv : v = { w.stepCall n true with
      source.journal := (w.stepCall n true).source.journal ++ events } := hevents
  have hsource : (w.stepCall n true).source = (c.step true w.source).2 := by
    rw [hstep]
  rw [hv]
  refine ⟨htaken, ?_, ?_, ?_⟩
  · rw [← hcalls, ← hsource]
  · rw [← hsource]
  · rw [← hsource]

end World

end PagedTraversal
