import PagedTraversal.Proofs.Paging.Outcome
import PagedTraversal.Proofs.Paging.Redelivery

/-!
# PagedTraversal.Proofs.Paging.InFlight

What the slot says about the tasks of the fetches. A task that returns empties the slot. A crash
goes unnoticed until a handle is polled, and meanwhile the dead fetch is held to be in flight: a
request joins it and starts nothing.

* `World.slot_follows_tasks`: when the slot is filled, and what a request makes of it.
* `World.prefetched_crash_fills_slot`: a prefetch drops its handle, so nobody notices the crash of
  its fetch.
-/

namespace PagedTraversal

namespace Source

variable {b : Backend} {s t : Source} {h : Handle}

/-- Only a crash that nobody has noticed sets the slot apart from the tasks that run. -/
theorem OneFetch.isSome_inFlight_iff (hs : OneFetch s) :
    (s.inFlight.isSome = true ↔ ∃ h, s.Running h) ↔ ∀ h, ¬ s.Unnoticed h := by
  rw [Option.isSome_iff_exists]
  constructor
  · intro hslot h hunnoticed
    have hfilled := hs.inFlight_iff.2 (.inr hunnoticed)
    obtain ⟨h', hrunning⟩ := hslot.1 ⟨h, hfilled⟩
    have hfilled' := hs.inFlight_iff.2 (.inl hrunning)
    rw [hfilled] at hfilled'
    cases hfilled'
    exact not_running_of_unnoticed hunnoticed hrunning
  · intro hnone
    constructor
    · rintro ⟨h, hfilled⟩
      exact ⟨h, (hs.inFlight_iff.1 hfilled).resolve_right (hnone h)⟩
    · rintro ⟨h, hrunning⟩
      exact ⟨h, hs.inFlight_iff.2 (.inl hrunning)⟩

/-- With pages left and a runtime, a request starts a fetch unless one runs or has crashed
unnoticed. -/
theorem OneFetch.request_of_incomplete (hs : OneFetch s) (hcomplete : s.progress.complete = false) :
    (∃ h, (s.Running h ∨ s.Unnoticed h) ∧
      s.request true = (h, s.log (.fetchJoined s.progress.pages))) ∨
    ((∀ h, ¬ s.Running h ∧ ¬ s.Unnoticed h) ∧ (s.request true).1 = s.fetches.size ∧
      (s.request true).2.inFlight = some s.fetches.size ∧
      (s.request true).2.fetches =
        s.fetches.push ⟨s.progress.pages, s.progress.next, .queued, none⟩) := by
  rcases s.request_cases true with ⟨settlement, hr, -⟩ | ⟨h, -, hslot, e⟩ | ⟨-, hslot, -, e⟩
  · rw [(hr rfl).1] at hcomplete
    cases hcomplete
  · exact .inl ⟨h, hs.inFlight_iff.1 hslot, e⟩
  · have hfree : ∀ h, ¬ (s.Running h ∨ s.Unnoticed h) := by
      intro h hoccupied
      rw [hs.inFlight_iff.2 hoccupied] at hslot
      cases hslot
    rw [e]
    exact .inr ⟨fun h => not_or.1 (hfree h), rfl, rfl, rfl⟩

/-- While nobody notices the crash, no call is made: the fetch that would make it is not started. -/
theorem Unnoticed.step (hs : s.Unnoticed h) (hone : OneFetch s) (hstep : Source.Step b s t) :
    t.Unnoticed h ∧ t.calls = s.calls ∨ t.seen? h = some (.error .taskCrashed) := by
  obtain ⟨page, token, hf⟩ := hs
  obtain ⟨⟨page', token', stage, seen⟩, hf', hevolves⟩ := evolves_step hstep hf
  cases hevolves.ended rfl
  cases seen with
  | some r =>
    rcases (hone.step hstep).truthful h _ hf' with e | e <;> cases e
    exact .inr (by rw [seen?, hf']; rfl)
  | none =>
    refine .inl ⟨⟨page', token', hf'⟩, ?_⟩
    cases hstep with
    | act hact => exact (SameChain.of_act hact).calls
    | beginCall h' =>
      rcases s.beginCall_cases h' with e | ⟨page, token, seen, hqueued, e⟩
      · rw [e]
      · cases hone.unique hf hqueued rfl rfl
        rw [hf] at hqueued
        cases hqueued
    | @endCall h' page n token seen hcalling =>
      rw [endCall_of_calling hcalling]
      cases b.answer n token <;> rfl

end Source

namespace World

/-- A crash stays unnoticed, and the slot filled, until a poll finds it out. -/
theorem unnoticed_run {b : Backend} {w : World} {h : Handle} (hone : w.source.OneFetch)
    (hw : w.source.Unnoticed h) (ms : List Move) :
    (w.run b ms).source.Unnoticed h ∧ (w.run b ms).source.inFlight = some h ∧
        (w.run b ms).source.calls = w.source.calls ∨
      (w.run b ms).source.seen? h = some (.error .taskCrashed) := by
  have hkept : (w.run b ms).source.OneFetch ∧
      ((w.run b ms).source.Unnoticed h ∧ (w.run b ms).source.calls = w.source.calls ∨
        (w.run b ms).source.seen? h = some (.error .taskCrashed)) := by
    refine source_run (P := fun s => s.OneFetch ∧ (s.Unnoticed h ∧ s.calls = w.source.calls ∨
      s.seen? h = some (.error .taskCrashed))) ?_ ⟨hone, .inl ⟨hw, rfl⟩⟩ ms
    rintro s t hstep ⟨hs, ⟨hunnoticed, hcalls⟩ | hseen⟩
    · refine ⟨hs.step hstep, ?_⟩
      rcases hunnoticed.step hs hstep with ⟨hunnoticed', hcalls'⟩ | hseen
      · exact .inl ⟨hunnoticed', hcalls'.trans hcalls⟩
      · exact .inr hseen
    · obtain ⟨f, hf, hseen⟩ := Option.bind_eq_some_iff.1 hseen
      obtain ⟨f', hf', hevolves⟩ := Source.evolves_step hstep hf
      exact ⟨hs.step hstep, .inr (Option.bind_eq_some_iff.2 ⟨f', hf', hevolves.seen _ hseen⟩)⟩
  rcases hkept with ⟨hone, ⟨hunnoticed, hcalls⟩ | hseen⟩
  · exact .inl ⟨hunnoticed, hone.inFlight_iff.2 (.inr hunnoticed), hcalls⟩
  · exact .inr hseen

/-- The slot holds the fetch whose task runs, or one whose crash nobody has noticed; only the latter
sets it apart from the tasks. A request starts a fetch exactly when there is neither. An unnoticed
crash fills the slot, and keeps calls from being made, until a poll of that fetch empties it. -/
theorem slot_follows_tasks (b : Backend) (first : Option Page) (ms : List Move) :
    let w := (start first).run b ms
    let s := w.source
    (∀ h, s.inFlight = some h ↔ s.Running h ∨ s.Unnoticed h) ∧
    ((s.inFlight.isSome = true ↔ ∃ h, s.Running h) ↔ ∀ h, ¬ s.Unnoticed h) ∧
    (s.progress.complete = false →
      (∃ h, (s.Running h ∨ s.Unnoticed h) ∧
        s.request true = (h, s.log (.fetchJoined s.progress.pages))) ∨
      ((∀ h, ¬ s.Running h ∧ ¬ s.Unnoticed h) ∧ (s.request true).1 = s.fetches.size ∧
        (s.request true).2.inFlight = some s.fetches.size ∧
        (s.request true).2.fetches =
          s.fetches.push ⟨s.progress.pages, s.progress.next, .queued, none⟩)) ∧
    (∀ h, s.Unnoticed h →
      (s.poll h).1 = some (.error .taskCrashed) ∧ (s.poll h).2.inFlight = none ∧
      ∀ later, let t := (w.run b later).source
        t.Unnoticed h ∧ t.inFlight = some h ∧ t.calls = s.calls ∨
          t.seen? h = some (.error .taskCrashed)) := by
  intro w s
  have hone : s.OneFetch := oneFetch_run b first ms
  refine ⟨fun h => hone.inFlight_iff, hone.isSome_inFlight_iff, hone.request_of_incomplete, ?_⟩
  intro h hunnoticed
  obtain ⟨hpoll, hslot⟩ := Source.poll_of_unnoticed hunnoticed
  exact ⟨hpoll, hslot, unnoticed_run hone hunnoticed⟩

/-- The first fetch crashes, and the second would bring the last row. -/
def crashesOnce : Backend := .script [.crash, .page ⟨[numbered 2], none, .empty⟩]

/-- A call prefetches the next page and gets the row that is there; then the fetch crashes. -/
def prefetchThenCrash : List Move :=
  [.ask (.next (some 5)), .step 0 true, .step 0 true, .step 0 true, .step 0 true, .beginCall 0,
    .endCall 0]

/-- The prefetching call is over, no task runs, and pages are left; still the slot is filled, and a
request is handed the dead fetch. -/
theorem prefetched_crash_fills_slot :
    let w := (start oneThere).run crashesOnce prefetchThenCrash
    w.parties = [.finished ⟨.one, .look⟩ (.ok (.one (some (numbered 1))))] ∧
    (∀ h, ¬ w.source.Running h) ∧ w.source.progress.complete = false ∧
    w.source.inFlight.isSome = true ∧
    ¬ (w.source.inFlight.isSome = true ↔ ∃ h, w.source.Running h) ∧
    (w.source.request true).1 = 0 ∧ (w.source.request true).2.fetches = w.source.fetches := by
  intro w
  have hidle : ∀ h, ¬ w.source.Running h := by
    rintro h ⟨f, hf, hopen⟩
    match h with
    | 0 =>
      cases hf
      cases hopen
    | h + 1 => cases hf
  refine ⟨rfl, hidle, rfl, rfl, ?_, rfl, rfl⟩
  intro hslot
  obtain ⟨h, hrunning⟩ := hslot.1 rfl
  exact hidle h hrunning

end World

end PagedTraversal
