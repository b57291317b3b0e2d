import PagedTraversal.Proofs.Paging.Outcome
import PagedTraversal.Proofs.Paging.Redelivery

/-!
# PagedTraversal.Proofs.Paging.Failure

What a failed fetch leaves behind. A fetch fails when its call is answered with an error, when a
poll finds out that its task has crashed, or at once when nothing could run it.

* `Source.OneFetch.fails_cases`: no other step fails a fetch.
* `World.FailsCleanly`: nothing but the slot has changed, those who wait on the fetch get its error,
  and the next fetch stands where it stood.
-/

namespace PagedTraversal

namespace Fetch

/-- The error that the fetch has failed with. A crash counts from when it is found out. -/
def failure? : Fetch → Option FetchError
  | ⟨_, _, .returned (.error e), _⟩ => some e
  | ⟨_, _, .crashed, some (.error e)⟩ => some e
  | _ => none

end Fetch

namespace Source

def failure? (s : Source) (h : Handle) : Option FetchError := s.fetches[h]?.bind Fetch.failure?

variable {b : Backend} {s t : Source} {h h' : Handle} {f : Fetch} {e : FetchError}

/-! ## The steps that fail a fetch -/

theorem failure?_push (hold : s.failure? h = none)
    (hnew : (s.fetches.push f)[h]?.bind Fetch.failure? = some e) :
    h = s.fetches.size ∧ f.failure? = some e := by
  obtain ⟨f', hf', he⟩ := Option.bind_eq_some_iff.1 hnew
  rcases lookup_push.1 hf' with ⟨hh, rfl⟩ | hf'
  · exact ⟨hh, he⟩
  · rw [failure?, hf', Option.bind_some, he] at hold
    cases hold

theorem failure?_modify {g : Fetch → Fetch} (hf : s.fetches[h']? = some f)
    (hold : s.failure? h = none)
    (hnew : (s.fetches.modify h' g)[h]?.bind Fetch.failure? = some e) :
    h' = h ∧ (g f).failure? = some e := by
  obtain ⟨f', hf', he⟩ := Option.bind_eq_some_iff.1 hnew
  rcases lookup_modify.1 hf' with ⟨hh, f₁, hf₁, rfl⟩ | ⟨-, hf'⟩
  · rw [hf] at hf₁
    cases hf₁
    exact ⟨hh, he⟩
  · rw [failure?, hf', Option.bind_some, he] at hold
    cases hold

theorem fails_request {hasRuntime : Bool} (hold : s.failure? h = none)
    (hnew : (s.request hasRuntime).2.failure? h = some e) :
    hasRuntime = false ∧ e = .noRuntime ∧ h = s.fetches.size ∧ s.progress.complete = false ∧
      s.inFlight = none := by
  unfold Source.request at hnew
  split at hnew
  · obtain ⟨-, he⟩ := failure?_push hold hnew
    cases he
  · next hcomplete =>
    split at hnew
    · have hjoined : s.failure? h = some e := hnew
      rw [hold] at hjoined
      cases hjoined
    · next hslot =>
      cases hasRuntime with
      | true =>
        obtain ⟨-, he⟩ := failure?_push hold hnew
        cases he
      | false =>
        obtain ⟨hh, he⟩ := failure?_push hold hnew
        cases he
        exact ⟨rfl, rfl, hh, by simpa using hcomplete, hslot⟩

theorem fails_poll (hold : s.failure? h = none)
    (hnew : (s.poll h').2.failure? h = some e) :
    h' = h ∧ e = .taskCrashed ∧ s.Unnoticed h := by
  rcases s.poll_cases h' with e' | ⟨page, token, settlement, hf, e'⟩ | ⟨page, token, hf, e'⟩
  · rw [e', hold] at hnew
    cases hnew
  · -- what has returned had failed before the poll
    rw [e'] at hnew
    obtain ⟨rfl, he⟩ := failure?_modify hf hold hnew
    rw [failure?, hf] at hold
    cases settlement with
    | ok u => cases he
    | error e => cases hold
  · rw [e'] at hnew
    obtain ⟨rfl, he⟩ := failure?_modify (s := s) hf hold hnew
    cases he
    exact ⟨rfl, rfl, page, token, hf⟩

theorem OneFetch.fails_endCall (hs : OneFetch s) {page n : Nat} {token : Option PageToken}
    {seen : Option Settlement} {reply : Reply}
    (hf : s.fetches[h']? = some ⟨page, token, .calling n, seen⟩) (hold : s.failure? h = none)
    (hnew : (s.endCall h' reply).failure? h = some e) : h' = h ∧ reply = .failure e := by
  rw [endCall_of_calling hf] at hnew
  cases reply with
  | page p =>
    obtain ⟨-, he⟩ := failure?_modify (s := s) hf hold hnew
    cases he
  | failure err =>
    obtain ⟨hh, he⟩ := failure?_modify (s := s) hf hold hnew
    cases he
    exact ⟨hh, rfl⟩
  | crash =>
    -- nobody has seen a fetch whose task runs
    obtain ⟨-, he⟩ := failure?_modify (s := s) hf hold hnew
    obtain rfl : seen = none := hs.truthful h' _ hf
    cases he

/-- A step that fails a fetch answers its call with an error, notices its crash, or hands it out
because nothing could run it. -/
theorem OneFetch.fails_cases (hs : OneFetch s) (hstep : Source.Step b s t)
    (hold : s.failure? h = none) (hnew : t.failure? h = some e) :
    (∃ page token n seen, s.fetches[h]? = some ⟨page, token, .calling n, seen⟩ ∧
      t = s.endCall h (.failure e)) ∨
    (e = .taskCrashed ∧ s.Unnoticed h ∧ t = (s.poll h).2) ∨
    (e = .noRuntime ∧ h = s.fetches.size ∧ s.progress.complete = false ∧ s.inFlight = none ∧
      t = (s.request false).2) := by
  have hsame : t.fetches ≠ s.fetches := by
    intro hfetches
    rw [failure?, hfetches] at hnew
    rw [failure?, hnew] at hold
    cases hold
  cases hstep with
  | act hact =>
    cases hact with
    | rest => exact absurd rfl hsame
    | takeRow =>
      refine absurd ?_ hsame
      unfold Source.takeRow
      split <;> rfl
    | drain => exact absurd rfl hsame
    | request =>
      obtain ⟨rfl, he, hh, hcomplete, hslot⟩ := fails_request hold hnew
      exact .inr (.inr ⟨he, hh, hcomplete, hslot, rfl⟩)
    | poll h' =>
      obtain ⟨rfl, he, hunnoticed⟩ := fails_poll hold hnew
      exact .inr (.inl ⟨he, hunnoticed, rfl⟩)
    | note _ => exact absurd rfl hsame
  | beginCall h' =>
    rcases s.beginCall_cases h' with e' | ⟨page, token, seen, hf, e'⟩
    · exact absurd (congrArg Source.fetches e') hsame
    · rw [e'] at hnew
      obtain ⟨-, he⟩ := failure?_modify (s := s) hf hold hnew
      cases he
  | @endCall h' page n token seen hf =>
    obtain ⟨rfl, hreply⟩ := hs.fails_endCall hf hold hnew
    exact .inl ⟨page, token, n, seen, hf, by rw [hreply]⟩

/-- What the step that fails a fetch leaves: the fetch, which had asked for the present page, and an
empty slot. -/
structure Failing (s t : Source) (h : Handle) (e : FetchError) : Prop where
  fetch : ∃ f, t.fetches[h]? = some f ∧ f.page = s.progress.pages ∧ f.token = s.progress.next ∧
    f.outcome? = some (.error e)
  progress : t.progress = s.progress
  slot : t.inFlight = none

theorem OneFetch.failing (hs : OneFetch s) (hstep : Source.Step b s t)
    (hold : s.failure? h = none) (hnew : t.failure? h = some e) : Failing s t h e := by
  rcases hs.fails_cases hstep hold hnew with ⟨page, token, n, seen, hf, ht⟩ |
    ⟨rfl, ⟨page, token, hf⟩, ht⟩ | ⟨rfl, rfl, hcomplete, hslot, ht⟩
  · obtain ⟨hpage, htoken, -⟩ := hs.current h _ hf rfl
    rw [endCall_of_calling hf] at ht
    subst ht
    exact ⟨⟨_, lookup_modify.2 (.inl ⟨rfl, _, hf, rfl⟩), hpage, htoken, rfl⟩, rfl, rfl⟩
  · obtain ⟨hpage, htoken, -⟩ := hs.current h _ hf rfl
    have hpoll : (s.poll h).2 = ({ s with inFlight := none }.log (.fetchAborted page)).setSeen h
        (.error .taskCrashed) := by
      simp [Source.poll, hf]
    rw [hpoll] at ht
    subst ht
    exact ⟨⟨_, lookup_modify.2 (.inl ⟨rfl, _, hf, rfl⟩), hpage, htoken, rfl⟩, rfl, rfl⟩
  · have hrequest : (s.request false).2 =
        { s with fetches := s.fetches.push (s.settledFetch (.error .noRuntime)) } := by
      simp [Source.request, hcomplete, hslot, addFetch]
    rw [hrequest] at ht
    subst ht
    exact ⟨⟨_, lookup_push.2 (.inl ⟨rfl, rfl⟩), rfl, rfl, rfl⟩, rfl, hslot⟩

/-! ## The next fetch -/

/-- The slot is empty and `n` fetches have been given out; or the fetch after them asks for the
given page. -/
def NextAt (n page : Nat) (token : Option PageToken) (s : Source) : Prop :=
  (s.fetches.size = n ∧ s.inFlight = none ∧ s.progress.pages = page ∧ s.progress.next = token) ∨
    ∃ f, s.fetches[n]? = some f ∧ f.page = page ∧ f.token = token

theorem NextAt.step {n page : Nat} {token : Option PageToken} (hnext : NextAt n page token s)
    (hs : OneFetch s) (hstep : Source.Step b s t) : NextAt n page token t := by
  rcases hnext with ⟨hsize, hslot, hpages, htoken⟩ | ⟨f, hf, hpage, htoken⟩
  · -- no fetch occupies the empty slot, so that none can make a call or be answered
    have hfree : ∀ {h : Handle} {f : Fetch}, s.fetches[h]? = some f → ¬ f.occupies = true := by
      intro h f hf
      rw [hs.not_occupies hslot hf]
      exact Bool.false_ne_true
    cases hstep with
    | @act hasRuntime _ hact =>
      cases hact with
      | rest => exact .inl ⟨hsize, hslot, hpages, htoken⟩
      | takeRow =>
        refine .inl ?_
        unfold Source.takeRow
        split <;> exact ⟨hsize, hslot, hpages, htoken⟩
      | drain => exact .inl ⟨hsize, hslot, hpages, htoken⟩
      | request =>
        rcases s.request_cases hasRuntime with ⟨settlement, -, e⟩ | ⟨h, -, hfull, e⟩ | ⟨-, -, -, e⟩
        · rw [e]
          exact .inr ⟨_, lookup_push.2 (.inl ⟨hsize.symm, rfl⟩), hpages, htoken⟩
        · rw [hslot] at hfull
          cases hfull
        · rw [e]
          exact .inr ⟨_, lookup_push.2 (.inl ⟨hsize.symm, rfl⟩), hpages, htoken⟩
      | poll h =>
        rcases s.poll_cases h with e | ⟨page, token, settlement, -, e⟩ | ⟨page, token, hf, -⟩
        · rw [e]
          exact .inl ⟨hsize, hslot, hpages, htoken⟩
        · rw [e]
          exact .inl ⟨by simp [setSeen, hsize], hslot, hpages, htoken⟩
        · exact (hfree hf rfl).elim
      | note _ => exact .inl ⟨hsize, hslot, hpages, htoken⟩
    | beginCall h =>
      rcases s.beginCall_cases h with e | ⟨page, token, seen, hf, -⟩
      · rw [e]
        exact .inl ⟨hsize, hslot, hpages, htoken⟩
      · exact (hfree hf rfl).elim
    | endCall hf => exact (hfree hf rfl).elim
  · obtain ⟨f', hf', hevolves⟩ := evolves_step hstep hf
    exact .inr ⟨f', hf', hevolves.page.trans hpage, hevolves.token.trans htoken⟩

end Source

/-! ## Those who wait -/

namespace World

variable {b : Backend} {start : List Page} {k : Nat} {w : World} {h : Handle} {e : FetchError}

def Awaits (w : World) (n : Nat) (c : Call) (h : Handle) : Prop :=
  w.parties[n]? = some (.running c) ∧ c.phase = .wait h

/-- The call that waited still does, has come back with the error, or was dropped. -/
def Hears (w : World) (n : Nat) (c : Call) (e : FetchError) : Prop :=
  w.parties[n]? = some (.running c) ∨ w.parties[n]? = some (.finished c (.error e)) ∨
    w.parties[n]? = some (.dropped c)

theorem step_of_awaits {n : Nat} {c : Call} (hone : w.source.OneFetch) (hc : w.Awaits n c h)
    (houtcome : w.source.outcome? h = some (.error e)) (hasRuntime : Bool) :
    (w.stepCall n hasRuntime).parties[n]? = some (.finished c (.error e)) := by
  rw [(stepCall_of_running hc.1 hasRuntime).2.1, Call.step_of_wait hc.2, hone.poll_outcome,
    houtcome]
  rfl

theorem hears_of_awaits {n : Nat} {c : Call} (hone : w.source.OneFetch) (hc : w.Awaits n c h)
    {m : Move} (houtcome : (w.move b m).source.outcome? h = some (.error e)) :
    (w.move b m).Hears n c e := by
  rcases party_move b hc.1 m with hsame | ⟨c', hc', ⟨hasRuntime, rfl, hstep⟩ | hdropped⟩
  · exact .inl hsame
  · cases hc'
    rw [Call.step_of_wait hc.2, hone.poll_outcome] at hstep
    cases hbefore : w.source.outcome? h with
    | none =>
      rw [hbefore] at hstep
      exact .inl hstep
    | some r =>
      have hafter := outcome?_run (b := b) hbefore [.step n hasRuntime]
      obtain rfl : r = .error e := Option.some.inj (hafter.symm.trans houtcome)
      rw [hbefore] at hstep
      exact .inr (.inl hstep)
  · cases hc'
    exact .inr (.inr hdropped)

theorem Hears.move {n : Nat} {c : Call} (hears : w.Hears n c e) (hone : w.source.OneFetch)
    (hphase : c.phase = .wait h) {m : Move}
    (houtcome : (w.move b m).source.outcome? h = some (.error e)) : (w.move b m).Hears n c e := by
  rcases hears with hc | hc | hc
  · exact hears_of_awaits hone ⟨hc, hphase⟩ houtcome
  · rcases party_move b hc m with hsame | ⟨c', hc', -⟩
    · exact .inr (.inl hsame)
    · cases hc'
  · rcases party_move b hc m with hsame | ⟨c', hc', -⟩
    · exact .inr (.inr hsame)
    · cases hc'

theorem Hears.run {n : Nat} {c : Call} (hears : w.Hears n c e) (hone : w.source.OneFetch)
    (hphase : c.phase = .wait h) (houtcome : w.source.outcome? h = some (.error e))
    (ms : List Move) : (w.run b ms).Hears n c e := by
  have hkept : (w.run b ms).Hears n c e ∧ (w.run b ms).source.OneFetch ∧
      (w.run b ms).source.outcome? h = some (.error e) := by
    refine run_keeps (P := fun v => v.Hears n c e ∧ v.source.OneFetch ∧
      v.source.outcome? h = some (.error e)) ?_ ⟨hears, hone, houtcome⟩ ms
    rintro v m ⟨hears, hone, houtcome⟩
    have houtcome' := outcome?_run (b := b) houtcome [m]
    exact ⟨hears.move hone hphase houtcome', hone.step (v.source_move b m), houtcome'⟩
  exact hkept.1

/-! ## Failures -/

/-- The move fails the fetch with the error. -/
def Fails (b : Backend) (w : World) (m : Move) (h : Handle) (e : FetchError) : Prop :=
  w.source.failure? h = none ∧ (w.move b m).source.failure? h = some e

/-- A fetch can fail by an error of the backend, by a crash that is noticed, and for want of
anything that could run it. -/
theorem ways_to_fail (b : Backend) (w : World) :
    (∀ (h : Handle) page token n seen e,
      w.source.fetches[h]? = some ⟨page, token, .calling n, seen⟩ →
      b.answer n token = .failure e → Fails b w (.endCall h) h e) ∧
    (∀ h, w.source.Unnoticed h → Fails b w (.poll h) h .taskCrashed) ∧
    (w.source.progress.complete = false → w.source.inFlight = none →
      Fails b w (.request false) w.source.fetches.size .noRuntime) := by
  refine ⟨?_, ?_, ?_⟩
  · intro h page token n seen e hf hreply
    refine ⟨by simp [Source.failure?, hf, Fetch.failure?], ?_⟩
    show (w.endCall b h).source.failure? h = some e
    simp [endCall, hf, hreply, Source.failure?, Source.endCall, Source.setStage, Source.log,
      Array.getElem?_modify, Fetch.failure?]
  · rintro h ⟨page, token, hf⟩
    refine ⟨by simp [Source.failure?, hf, Fetch.failure?], ?_⟩
    show (w.source.poll h).2.failure? h = _
    simp [Source.poll, hf, Source.failure?, Source.setSeen, Source.log, Array.getElem?_modify,
      Fetch.failure?]
  · intro hcomplete hslot
    refine ⟨by simp [Source.failure?], ?_⟩
    show (w.source.request false).2.failure? _ = _
    simp [Source.request, hcomplete, hslot, Source.addFetch, Source.failure?, Source.settledFetch,
      Fetch.failure?]

/-- What holds when the move from `w` to `v` has failed the fetch `h`.
`progress`, `slot`: nothing but the slot has changed, and that is empty. `polled`, `waiting`,
`heard`: every poll gives the error, and a call that waits on the fetch comes back with it and with
nothing else. `next`, `asks`: the next fetch given out and the next call made ask for the same page
under the same index. -/
structure FailsCleanly (b : Backend) (w v : World) (h : Handle) (e : FetchError) : Prop where
  progress : v.source.progress = w.source.progress
  slot : v.source.inFlight = none
  polled : ∀ ms, ((v.run b ms).source.poll h).1 = some (.error e)
  waiting : ∀ n c, w.Awaits n c h → ∀ ms, (v.run b ms).Hears n c e
  heard : ∀ ms n c hasRuntime, (v.run b ms).Awaits n c h →
    ((v.run b ms).stepCall n hasRuntime).parties[n]? = some (.finished c (.error e))
  next : ∀ ms f f', v.source.fetches[h]? = some f →
    (v.run b ms).source.fetches[v.source.fetches.size]? = some f' →
    f'.page = f.page ∧ f'.token = f.token
  asks : ∀ ms f token, v.source.fetches[h]? = some f →
    (v.run b ms).source.calls[v.source.calls.size]? = some token → token = f.token

theorem OnChain.run (hw : OnChain b start k w) (ms : List Move) :
    ∃ k', OnChain b start k' (w.run b ms) :=
  run_keeps (P := fun w => ∃ k, OnChain b start k w) (fun _ m ⟨_, hw⟩ => hw.move m) ⟨k, hw⟩ ms

theorem failsCleanly (hw : OnChain b start k w) {m : Move} (hfails : Fails b w m h e) :
    FailsCleanly b w (w.move b m) h e := by
  have hfailing := hw.oneFetch.failing (w.source_move b m) hfails.1 hfails.2
  obtain ⟨k', hv⟩ := hw.move m
  obtain ⟨f, hf, hpage, htoken, hf_outcome⟩ := hfailing.fetch
  have houtcome : (w.move b m).source.outcome? h = some (.error e) :=
    Source.outcome?_eq_some.2 ⟨f, hf, hf_outcome⟩
  have hpages : f.page = (w.move b m).source.progress.pages := by
    rw [hfailing.progress]
    exact hpage
  have hnext : f.token = (w.move b m).source.progress.next := by
    rw [hfailing.progress]
    exact htoken
  refine ⟨hfailing.progress, hfailing.slot, ?_, ?_, ?_, ?_, ?_⟩
  · intro ms
    obtain ⟨k'', hu⟩ := hv.run ms
    rw [hu.oneFetch.poll_outcome]
    exact outcome?_run houtcome ms
  · intro n c hc ms
    have hears := hears_of_awaits hw.oneFetch hc houtcome
    exact hears.run hv.oneFetch hc.2 houtcome ms
  · intro ms n c hasRuntime hc
    obtain ⟨k'', hu⟩ := hv.run ms
    exact step_of_awaits hu.oneFetch hc (outcome?_run houtcome ms) hasRuntime
  · intro ms f₁ f' hf₁ hf'
    rw [hf] at hf₁
    cases hf₁
    have hkept : Source.OneFetch ((w.move b m).run b ms).source ∧
        Source.NextAt (w.move b m).source.fetches.size f.page f.token
          ((w.move b m).run b ms).source := by
      refine source_run (P := fun s => s.OneFetch ∧ s.NextAt _ f.page f.token) ?_
        ⟨hv.oneFetch, .inl ⟨rfl, hfailing.slot, hpages.symm, hnext.symm⟩⟩ ms
      rintro s t hstep ⟨hs, hnextAt⟩
      exact ⟨hs.step hstep, hnextAt.step hs hstep⟩
    rcases hkept.2 with ⟨hsize, -⟩ | ⟨f₂, hf₂, hpage₂, htoken₂⟩
    · rw [Array.getElem?_eq_none (by omega)] at hf'
      cases hf'
    · rw [hf'] at hf₂
      cases hf₂
      exact ⟨hpage₂, htoken₂⟩
  · intro ms f₁ token hf₁ hcall
    rw [hf] at hf₁
    cases hf₁
    obtain ⟨k'', hu⟩ := hv.run ms
    rw [hu.asked _ token hcall, hv.size_calls hfailing.slot, ← hv.applied, ← hv.next, hnext]

/-- Between the start of a fetch and its failure no page comes, so that the place in the chain is
the one at the start, and the buffer lacks only what consumers have taken meanwhile. -/
theorem unchanged_since_start {w₀ : World} (hw₀ : OnChain b start k w₀) (haccounts : w₀.Accounts)
    (hstarted : w₀.source.inFlight = some h) (ms : List Move) {m : Move}
    (hfails : Fails b (w₀.run b ms) m h e) :
    let v := (w₀.run b ms).move b m
    v.applied = w₀.applied ∧ v.source.progress.next = w₀.source.progress.next ∧
    v.source.progress.complete = w₀.source.progress.complete ∧
    v.source.progress.pages = w₀.source.progress.pages ∧
    v.source.progress.infos = w₀.source.progress.infos ∧
    w₀.source.progress.buffer = w₀.takenSince v ++ v.source.progress.buffer := by
  intro v
  obtain ⟨k', hw⟩ := hw₀.run ms
  obtain ⟨k'', hv⟩ := hw.move m
  have hfailing := hw.oneFetch.failing ((w₀.run b ms).source_move b m) hfails.1 hfails.2
  have hrun : w₀.run b (ms ++ [m]) = v := w₀.run_append b ms [m]
  obtain ⟨f₀, hf₀, ho⟩ := (hw₀.oneFetch.slot h).1 hstarted
  obtain ⟨hpage₀, -, -⟩ := hw₀.oneFetch.current h f₀ hf₀ ho
  obtain ⟨f, hf, hpage, -, -⟩ := hfailing.fetch
  obtain ⟨f', hf', hevolves⟩ := evolves_run (b := b) hf₀ (ms ++ [m])
  rw [hrun] at hf'
  obtain rfl : f' = f := Option.some.inj (hf'.symm.trans hf)
  have hpages : v.source.progress.pages = w₀.source.progress.pages := by
    rw [hfailing.progress, ← hpage, hevolves.page, hpage₀]
  have happlied : w₀.applied = v.applied := by
    have hgrows := (run_grows b w₀ (ms ++ [m])).1
    rw [hrun] at hgrows
    refine hgrows.eq_of_length ?_
    rw [← hw₀.pages, ← hv.pages, hpages]
  have hsince := haccounts.since (b := b) (ms ++ [m])
  rw [hrun] at hsince
  have hnone : w₀.arrivedSince v = [] := by
    simp [arrivedSince, happlied]
  rw [hnone, List.append_nil] at hsince
  refine ⟨happlied.symm, ?_, ?_, hpages, ?_, hsince⟩
  · rw [hv.next, hw₀.next, happlied]
  · rw [hv.complete, hw₀.complete, happlied]
  · rw [← Array.toList_inj, hv.infos, hw₀.infos, happlied]

end World

end PagedTraversal
