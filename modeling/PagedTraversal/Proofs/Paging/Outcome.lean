import PagedTraversal.Proofs.Paging.Slot

/-!
# PagedTraversal.Proofs.Paging.Outcome

How fetches end. Once the task of a fetch has ended, its outcome stays, and every poll of a handle
on it gives that outcome.

* `Fetch.Evolves`: what can become of a fetch; `Source.evolves_step`: every atomic step agrees.
* `Source.OneFetch.poll_outcome`: a poll gives the outcome.
* `Source.OneFetch.inFlight_iff`: the slot holds the fetch whose task has not ended, or one whose
  crash nobody has noticed.
-/

namespace PagedTraversal

namespace Fetch

/-- How the task has ended, and nothing before that. -/
def outcome? : Fetch → Option Settlement
  | ⟨_, _, .returned settlement, _⟩ => some settlement
  | ⟨_, _, .crashed, _⟩ => some (.error .taskCrashed)
  | _ => none

/-- A fetch keeps its page index and token, and what has been found out or has ended stays so. -/
structure Evolves (f f' : Fetch) : Prop where
  page : f'.page = f.page
  token : f'.token = f.token
  ended : f.outcome?.isSome = true → f'.stage = f.stage
  seen : ∀ r, f.seen = some r → f'.seen = some r

namespace Evolves

variable {f f' f'' : Fetch}

theorem refl (f : Fetch) : f.Evolves f := ⟨rfl, rfl, fun _ => rfl, fun _ h => h⟩

theorem of_stage (hopen : f.outcome? = none) (stage : Stage) :
    f.Evolves { f with stage := stage } := by
  refine ⟨rfl, rfl, fun hended => ?_, fun _ hr => hr⟩
  rw [hopen] at hended
  cases hended

theorem of_seen (hseen : f.seen = none) (r : Settlement) :
    f.Evolves { f with seen := some r } := by
  refine ⟨rfl, rfl, fun _ => rfl, fun r' hr => ?_⟩
  rw [hseen] at hr
  cases hr

theorem outcome (h : f.Evolves f') {r : Settlement} (hr : f.outcome? = some r) :
    f'.outcome? = some r := by
  have hstage := h.ended (by rw [hr]; rfl)
  obtain ⟨page, token, stage, seen⟩ := f
  obtain ⟨page', token', stage', seen'⟩ := f'
  cases hstage
  cases stage with
  | returned settlement => exact hr
  | crashed => exact hr
  | _ => cases hr

theorem trans (h : f.Evolves f') (h' : f'.Evolves f'') : f.Evolves f'' where
  page := h'.page.trans h.page
  token := h'.token.trans h.token
  ended := by
    intro hended
    obtain ⟨r, hr⟩ := Option.isSome_iff_exists.1 hended
    have hended' : f'.outcome?.isSome = true := by
      rw [h.outcome hr]
      rfl
    exact (h'.ended hended').trans (h.ended hended)
  seen r hr := h'.seen r (h.seen r hr)

end Evolves

end Fetch

namespace Source

/-- The outcome of the fetch behind a handle. -/
def outcome? (s : Source) (h : Handle) : Option Settlement := s.fetches[h]?.bind Fetch.outcome?

theorem outcome?_eq_some {s : Source} {h : Handle} {r : Settlement} :
    s.outcome? h = some r ↔ ∃ f, s.fetches[h]? = some f ∧ f.outcome? = some r :=
  Option.bind_eq_some_iff

theorem OneFetch.poll_outcome {s : Source} (hs : OneFetch s) (h : Handle) :
    (s.poll h).1 = s.outcome? h := by
  unfold Source.poll outcome?
  cases hf : s.fetches[h]? with
  | none => rfl
  | some f =>
    obtain ⟨page, token, stage, seen⟩ := f
    have htruthful := hs.truthful h _ hf
    cases seen with
    | none => cases stage <;> rfl
    | some r =>
      cases stage with
      | queued => cases htruthful
      | calling n => cases htruthful
      | returned settlement =>
        rcases htruthful with e | e <;> cases e
        rfl
      | crashed =>
        rcases htruthful with e | e <;> cases e
        rfl

/-! ## What occupies the slot -/

/-- The task of the fetch has been started and has not ended. -/
def Running (s : Source) (h : Handle) : Prop := ∃ f, s.fetches[h]? = some f ∧ f.outcome? = none

/-- The task of the fetch has crashed, and no poll has found that out. -/
def Unnoticed (s : Source) (h : Handle) : Prop :=
  ∃ page token, s.fetches[h]? = some ⟨page, token, .crashed, none⟩

variable {s : Source} {h : Handle}

theorem not_running_of_unnoticed (hs : s.Unnoticed h) : ¬ s.Running h := by
  obtain ⟨page, token, hf⟩ := hs
  rintro ⟨f, hf', hopen⟩
  rw [hf] at hf'
  cases hf'
  cases hopen

theorem OneFetch.inFlight_iff (hs : OneFetch s) :
    s.inFlight = some h ↔ s.Running h ∨ s.Unnoticed h := by
  rw [hs.slot]
  constructor
  · rintro ⟨⟨page, token, stage, seen⟩, hf, hoccupies⟩
    cases stage with
    | queued => exact .inl ⟨_, hf, rfl⟩
    | calling n => exact .inl ⟨_, hf, rfl⟩
    | returned settlement => cases hoccupies
    | crashed =>
      cases seen with
      | none => exact .inr ⟨page, token, hf⟩
      | some r => cases hoccupies
  · rintro (⟨⟨page, token, stage, seen⟩, hf, hopen⟩ | ⟨page, token, hf⟩)
    · refine ⟨_, hf, ?_⟩
      cases stage with
      | queued => rfl
      | calling n => rfl
      | _ => cases hopen
    · exact ⟨_, hf, rfl⟩

theorem poll_of_unnoticed (hs : s.Unnoticed h) :
    (s.poll h).1 = some (.error .taskCrashed) ∧ (s.poll h).2.inFlight = none := by
  obtain ⟨page, token, hf⟩ := hs
  simp [poll, hf, setSeen, log]

/-! ## The atomic steps -/

theorem evolves_modify {s : Source} {h h' : Handle} {f f' : Fetch} {g : Fetch → Fetch}
    (hf : s.fetches[h]? = some f) (hg : f.Evolves (g f)) (hf' : s.fetches[h']? = some f') :
    ∃ f'', (s.fetches.modify h g)[h']? = some f'' ∧ f'.Evolves f'' := by
  by_cases e : h = h'
  · subst e
    rw [hf] at hf'
    cases hf'
    exact ⟨g f, lookup_modify.2 (.inl ⟨rfl, f, hf, rfl⟩), hg⟩
  · exact ⟨f', lookup_modify.2 (.inr ⟨e, hf'⟩), .refl f'⟩

theorem evolves_act {s t : Source} {hasRuntime : Bool} (hact : s.Act hasRuntime t) {h : Handle}
    {f : Fetch} (hf : s.fetches[h]? = some f) : ∃ f', t.fetches[h]? = some f' ∧ f.Evolves f' := by
  cases hact with
  | rest => exact ⟨f, hf, .refl f⟩
  | takeRow =>
    refine ⟨f, ?_, .refl f⟩
    unfold takeRow
    split <;> exact hf
  | drain => exact ⟨f, hf, .refl f⟩
  | request =>
    refine ⟨f, ?_, .refl f⟩
    rcases s.request_cases hasRuntime with
      ⟨settlement, -, e⟩ | ⟨h', -, -, e⟩ | ⟨-, -, -, e⟩ <;> rw [e]
    · exact lookup_push.2 (.inr hf)
    · exact hf
    · exact lookup_push.2 (.inr hf)
  | poll h' =>
    rcases s.poll_cases h' with
      e | ⟨page, token, settlement, hf', e⟩ | ⟨page, token, hf', e⟩ <;> rw [e]
    · exact ⟨f, hf, .refl f⟩
    · exact evolves_modify hf' (.of_seen rfl _) hf
    · exact evolves_modify hf' (.of_seen rfl _) hf
  | note _ => exact ⟨f, hf, .refl f⟩

theorem evolves_step {b : Backend} {s t : Source} (hstep : Source.Step b s t) {h : Handle}
    {f : Fetch} (hf : s.fetches[h]? = some f) : ∃ f', t.fetches[h]? = some f' ∧ f.Evolves f' := by
  cases hstep with
  | act hact => exact evolves_act hact hf
  | beginCall h' =>
    rcases s.beginCall_cases h' with e | ⟨page, token, seen, hf', e⟩ <;> rw [e]
    · exact ⟨f, hf, .refl f⟩
    · exact evolves_modify hf' (.of_stage rfl _) hf
  | @endCall h' page n token seen hf' =>
    rw [endCall_of_calling hf']
    cases b.answer n token with
    | page p => exact evolves_modify hf' (.of_stage rfl _) hf
    | failure e => exact evolves_modify hf' (.of_stage rfl _) hf
    | crash => exact evolves_modify hf' (.of_stage rfl _) hf

end Source

namespace Call

theorem step_of_wait {c : Call} {h : Handle} (hphase : c.phase = .wait h) (hasRuntime : Bool)
    (s : Source) :
    (c.step hasRuntime s).1 =
      match (s.poll h).1 with
      | none => .waiting h
      | some (.ok ()) => c.goTo .look
      | some (.error e) => .done (.error e) := by
  simp only [step, hphase]
  split <;> next e => rw [e]

theorem step_source_of_wait {c : Call} {h : Handle} (hphase : c.phase = .wait h)
    (hasRuntime : Bool) (s : Source) : (c.step hasRuntime s).2 = (s.poll h).2 := by
  simp only [step, hphase]
  split <;> next e => rw [e]

end Call

namespace World

theorem evolves_run {b : Backend} {w : World} {h : Handle} {f : Fetch}
    (hf : w.source.fetches[h]? = some f) (ms : List Move) :
    ∃ f', (w.run b ms).source.fetches[h]? = some f' ∧ f.Evolves f' := by
  refine source_run (P := fun s => ∃ f', s.fetches[h]? = some f' ∧ f.Evolves f') ?_
    ⟨f, hf, .refl f⟩ ms
  rintro s t hstep ⟨f', hf', hevolves⟩
  obtain ⟨f'', hf'', hevolves'⟩ := Source.evolves_step hstep hf'
  exact ⟨f'', hf'', hevolves.trans hevolves'⟩

/-- The outcome of a fetch is final. -/
theorem outcome?_run {b : Backend} {w : World} {h : Handle} {r : Settlement}
    (hr : w.source.outcome? h = some r) (ms : List Move) :
    (w.run b ms).source.outcome? h = some r := by
  obtain ⟨f, hf, hr⟩ := Source.outcome?_eq_some.1 hr
  obtain ⟨f', hf', hevolves⟩ := evolves_run (b := b) hf ms
  exact Source.outcome?_eq_some.2 ⟨f', hf', hevolves.outcome hr⟩

end World

end PagedTraversal
