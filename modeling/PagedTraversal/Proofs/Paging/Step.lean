import PagedTraversal.Paging.Backend
import PagedTraversal.ResultSet

/-!
# PagedTraversal.Proofs.Paging.Step

The atomic steps of a source, as a relation. Whatever a party does moves the source by one of them,
so a property that each of them keeps holds whatever the parties do and in whatever order.

* `Call.step_act`, `ResultSet.deliver_source`: what a call does is made of these steps.
* `Source.request_cases`, `Source.beginCall_cases`, `Source.endCall_of_calling`,
  `Source.poll_cases`: all that the steps which touch a fetch can do.
-/

namespace PagedTraversal

/-- Events that tell of a fetch, apart from those that tell of rows and of the consumer. -/
def Event.ofFetch : Event → Bool
  | rowDecoded _ => false
  | prefetchRequested _ _ => false
  | _ => true

/-- An atomic step of a consumer: of one of its calls, or on a handle that it has. -/
inductive Source.Act (hasRuntime : Bool) (s : Source) : Source → Prop where
  | rest : Act hasRuntime s s
  | takeRow : Act hasRuntime s s.takeRow.2
  | drain : Act hasRuntime s s.drain.2.2
  | request : Act hasRuntime s (s.request hasRuntime).2
  | poll (h : Handle) : Act hasRuntime s (s.poll h).2
  | note {events : Array Event} : (∀ e ∈ events, e.ofFetch = false) →
      Act hasRuntime s { s with journal := s.journal ++ events }

/-- An atomic step of a consumer or of the task of a fetch. The reply that ends a call is the
backend's. -/
inductive Source.Step (b : Backend) (s : Source) : Source → Prop where
  | act {hasRuntime : Bool} {t : Source} : s.Act hasRuntime t → Step b s t
  | beginCall (h : Handle) : Step b s (s.beginCall h)
  | endCall {h : Handle} {page n : Nat} {token : Option PageToken} {seen : Option Settlement} :
      s.fetches[h]? = some ⟨page, token, .calling n, seen⟩ →
      Step b s (s.endCall h (b.answer n token))

namespace ResultSet

theorem decodeRow_source (row : Row) (s : Source) :
    ∃ events : Array Event, (∀ e ∈ events, e.ofFetch = false) ∧
      (decodeRow row s).2 = { s with journal := s.journal ++ events } := by
  unfold decodeRow
  cases row.decode with
  | ok v => exact ⟨#[.rowDecoded v.kind], by simp [Event.ofFetch], by simp [Source.log]⟩
  | error e => exact ⟨#[], by simp, by simp⟩

theorem decodeRows_source (rows : List Row) (s : Source) :
    ∃ events : Array Event, (∀ e ∈ events, e.ofFetch = false) ∧
      (decodeRows s rows).2 = { s with journal := s.journal ++ events } := by
  induction rows generalizing s with
  | nil => exact ⟨#[], by simp, by simp [decodeRows]⟩
  | cons row rest ih =>
    obtain ⟨first, hfirst, hsource⟩ := decodeRow_source row s
    obtain ⟨later, hlater, hrest⟩ := ih (decodeRow row s).2
    refine ⟨first ++ later, ?_, ?_⟩
    · intro e he
      rcases Array.mem_append.1 he with he | he
      · exact hfirst e he
      · exact hlater e he
    · rw [decodeRows, hrest, hsource]
      simp [Array.append_assoc]

/-- Decoding an answer only adds to the journal, and nothing about a fetch. -/
theorem deliver_source (answer : Except FetchError Answer) (s : Source) :
    ∃ events : Array Event, (∀ e ∈ events, e.ofFetch = false) ∧
      (deliver answer s).2 = { s with journal := s.journal ++ events } := by
  match answer with
  | .error _ => exact ⟨#[], by simp, by simp [deliver]⟩
  | .ok (.one none) => exact ⟨#[], by simp, by simp [deliver]⟩
  | .ok (.one (some row)) =>
    obtain ⟨events, hevents, hsource⟩ := decodeRow_source row s
    refine ⟨events, hevents, ?_⟩
    rw [← hsource, deliver]
    split <;> simp_all
  | .ok (.all rows) => exact decodeRows_source rows s
  | .ok (.exhausted _) => exact ⟨#[], by simp, by simp [deliver]⟩
  | .ok .settled => exact ⟨#[], by simp, by simp [deliver]⟩

end ResultSet

/-! ## What a step of a call does -/

namespace Call

theorem step_act (c : Call) (hasRuntime : Bool) (s : Source) :
    s.Act hasRuntime (c.step hasRuntime s).2 := by
  obtain ⟨goal, phase⟩ := c
  cases phase with
  | measure threshold => exact .rest
  | compare threshold available =>
    simp only [step]
    split
    · have hnote : ∀ e ∈ #[Event.prefetchRequested available threshold], e.ofFetch = false := by
        simp [Event.ofFetch]
      have h : s.Act hasRuntime _ := .note hnote
      simpa [Source.log] using h
    · exact .rest
  | prefetch => exact .request
  | look =>
    cases goal with
    | one =>
      have h : s.Act hasRuntime _ := .takeRow
      simp only [step, look]
      split <;> simp_all
    | all drained =>
      have h : s.Act hasRuntime _ := .drain
      simp only [step, look]
      split <;> simp_all
    | exhausted =>
      simp only [step, look]
      split <;> exact .rest
    | settled => exact .rest
  | request => exact .request
  | wait h =>
    have hpoll : s.Act hasRuntime _ := .poll h
    simp only [step]
    split <;> simp_all

end Call

/-! ## The steps that touch a fetch -/

namespace Source

theorem lookup_push {fetches : Array Fetch} {f f' : Fetch} {h : Handle} :
    (fetches.push f)[h]? = some f' ↔ (h = fetches.size ∧ f = f') ∨ fetches[h]? = some f' := by
  rw [Array.getElem?_push]
  by_cases e : h = fetches.size
  · subst e
    simp
  · simp [e]

theorem lookup_modify {fetches : Array Fetch} {g : Fetch → Fetch} {f' : Fetch} {h h' : Handle} :
    (fetches.modify h g)[h']? = some f' ↔
      (h = h' ∧ ∃ f, fetches[h]? = some f ∧ g f = f') ∨ (h ≠ h' ∧ fetches[h']? = some f') := by
  rw [Array.getElem?_modify]
  by_cases e : h = h'
  · subst e
    simp [Option.map_eq_some_iff]
  · simp [e]

/-- A request joins the fetch in flight, starts one, or gives out a fetch that has returned. With a
runtime it does the last only when all pages are there. -/
theorem request_cases (hasRuntime : Bool) (s : Source) :
    (∃ settlement, (hasRuntime = true → s.progress.complete = true ∧ settlement = .ok ()) ∧
      s.request hasRuntime =
        (s.fetches.size, { s with fetches := s.fetches.push (s.settledFetch settlement) })) ∨
    (∃ h, s.progress.complete = false ∧ s.inFlight = some h ∧
      s.request hasRuntime = (h, s.log (.fetchJoined s.progress.pages))) ∨
    (s.progress.complete = false ∧ s.inFlight = none ∧ hasRuntime = true ∧
      s.request hasRuntime = (s.fetches.size, { s with
        fetches := s.fetches.push ⟨s.progress.pages, s.progress.next, .queued, none⟩
        inFlight := some s.fetches.size }.log (.fetchStarted s.progress.pages))) := by
  unfold request
  split
  · next hc => exact .inl ⟨.ok (), fun _ => ⟨hc, rfl⟩, rfl⟩
  · next hc =>
    split
    · next h hslot => exact .inr (.inl ⟨h, by simpa using hc, hslot, rfl⟩)
    · next hslot =>
      split
      · next hr => exact .inr (.inr ⟨by simpa using hc, hslot, hr, rfl⟩)
      · next hr => exact .inl ⟨.error .noRuntime, fun h => absurd h hr, rfl⟩

theorem beginCall_cases (h : Handle) (s : Source) :
    s.beginCall h = s ∨ ∃ page token seen, s.fetches[h]? = some ⟨page, token, .queued, seen⟩ ∧
      s.beginCall h =
        { s with calls := s.calls.push token }.setStage h (.calling s.calls.size) := by
  unfold beginCall
  split
  · next page token seen hf => exact .inr ⟨page, token, seen, hf, rfl⟩
  · exact .inl rfl

theorem beginCall_of_queued {s : Source} {h : Handle} {page : Nat} {token : Option PageToken}
    {seen : Option Settlement} (hf : s.fetches[h]? = some ⟨page, token, .queued, seen⟩) :
    s.beginCall h = { s with calls := s.calls.push token }.setStage h (.calling s.calls.size) ∧
      (s.beginCall h).fetches[h]? = some ⟨page, token, .calling s.calls.size, seen⟩ := by
  have e : s.beginCall h =
      { s with calls := s.calls.push token }.setStage h (.calling s.calls.size) := by
    simp only [beginCall, hf]
  refine ⟨e, ?_⟩
  rw [e]
  exact lookup_modify.2 (.inl ⟨rfl, _, hf, rfl⟩)

/-- How the fetch that has made its call ends, reply by reply. -/
theorem endCall_of_calling {h : Handle} {s : Source} {page n : Nat} {token : Option PageToken}
    {seen : Option Settlement} (hf : s.fetches[h]? = some ⟨page, token, .calling n, seen⟩)
    (reply : Reply) :
    s.endCall h reply =
      match reply with
      | .page p => ({ s with inFlight := none, progress := s.progress.apply p }.log
          (.fetchCompleted page p.rows.length p.isLast p.info.host)).setStage h (.returned (.ok ()))
      | .failure e => ({ s with inFlight := none }.log (.fetchFailed page e)).setStage h
          (.returned (.error e))
      | .crash => s.setStage h .crashed := by
  cases reply <;> simp only [endCall, hf]

/-- A poll changes something only when it is the first to find out that the fetch has ended. -/
theorem poll_cases (h : Handle) (s : Source) :
    (s.poll h).2 = s ∨
    (∃ page token settlement, s.fetches[h]? = some ⟨page, token, .returned settlement, none⟩ ∧
      s.poll h = (some settlement, s.setSeen h settlement)) ∨
    (∃ page token, s.fetches[h]? = some ⟨page, token, .crashed, none⟩ ∧
      s.poll h = (some (.error .taskCrashed),
        ({ s with inFlight := none }.log (.fetchAborted page)).setSeen h (.error .taskCrashed))) := by
  unfold poll
  split
  · exact .inl rfl
  · exact .inl rfl
  · next page token stage hf =>
    split
    · exact .inr (.inl ⟨_, _, _, hf, rfl⟩)
    · exact .inr (.inr ⟨_, _, hf, rfl⟩)
    · exact .inl rfl

end Source

end PagedTraversal
