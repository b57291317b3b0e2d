import PagedTraversal.Proofs.ResultSet.Streaming
import PagedTraversal.Session

/-!
# PagedTraversal.Proofs.Pager.SoleCaller

A scheduler that serves one caller from outside and runs no tasks, while no fetch fails. Between two
steps of a call its queue holds the fetch in the slot and nothing else, so that letting it run is two
steps of that fetch's task: the fetch makes its call and is answered.

* `Scheduler.Serves`: a scheduler at the source of a world.
* `Scheduler.Serves.run`: what letting it run comes to.
* `Scheduler.Serves.pursueFor`: a call for a row comes back, and the fuel lasts until then.
-/

namespace PagedTraversal

namespace Source

/-- A fetch in flight has not begun its call, and it was the last one to be started. -/
def Untended (s : Source) : Prop :=
  ∀ h, s.inFlight = some h → h + 1 = s.fetches.size ∧
    ∃ page token seen, s.fetches[h]? = some ⟨page, token, .queued, seen⟩

/-- What has to be in the queue. -/
def jobs (s : Source) : List Job := s.inFlight.toList.map Job.fetch

variable {s t : Source}

theorem Untended.act (hs : s.Untended) (hone : s.OneFetch) (hhealthy : s.Healthy)
    (hact : s.Act true t) : t.Untended ∧ (s.jobs = [] ∨ s.jobs = t.jobs) := by
  cases hact with
  | rest => exact ⟨hs, .inr rfl⟩
  | takeRow =>
    unfold takeRow
    split <;> exact ⟨hs, .inr rfl⟩
  | drain => exact ⟨hs, .inr rfl⟩
  | request =>
    rcases s.request_cases true with ⟨settlement, hok, e⟩ | ⟨h, -, -, e⟩ | ⟨-, hslot, -, e⟩ <;> rw [e]
    · have hslot := hone.inFlight_of_complete (hok rfl).1
      refine ⟨fun h hfilled => ?_, .inr rfl⟩
      have hfilled : s.inFlight = some h := hfilled
      rw [hslot] at hfilled
      cases hfilled
    · exact ⟨hs, .inr rfl⟩
    · refine ⟨fun h hfilled => ?_, .inl (by simp [jobs, hslot])⟩
      cases hfilled
      exact ⟨by simp [log], _, _, _, lookup_push.2 (.inl ⟨rfl, rfl⟩)⟩
  | poll h' =>
    rcases s.poll_cases h' with e | ⟨page, token, settlement, hf', e⟩ | ⟨page, token, hf', -⟩
    · rw [e]
      exact ⟨hs, .inr rfl⟩
    · rw [e]
      refine ⟨fun h hfilled => ?_, .inr rfl⟩
      obtain ⟨hlast, page, token, seen, hf⟩ := hs h hfilled
      refine ⟨by simpa [setSeen] using hlast, page, token, seen, lookup_modify.2 (.inr ⟨?_, hf⟩)⟩
      rintro rfl
      rw [hf] at hf'
      cases hf'
    · rcases hhealthy h' _ hf' with e | ⟨n, e⟩ | e <;> cases e
  | note _ => exact ⟨hs, .inr rfl⟩

/-- When the last fetch has begun its call, nothing goes to the queue. -/
theorem enlist_of_begun (queue : List Job)
    (hbegun : ∀ f, t.fetches[t.fetches.size - 1]? = some f → f.stage ≠ .queued) :
    Scheduler.enlist t queue = queue := by
  simp only [Scheduler.enlist]
  split
  · next page token seen hf => exact absurd rfl (hbegun _ hf)
  · rfl

theorem Untended.enlist (ht : t.Untended) (hone : t.OneFetch) {queue : List Job}
    (hqueue : queue = [] ∨ queue = t.jobs) : Scheduler.enlist t queue = t.jobs := by
  cases hslot : t.inFlight with
  | none =>
    have hjobs : t.jobs = [] := by simp [jobs, hslot]
    rw [hjobs, or_self] at hqueue
    rw [hjobs, hqueue]
    refine enlist_of_begun [] fun f hf e => ?_
    have hfree := hone.not_occupies hslot hf
    obtain ⟨page, token, stage, seen⟩ := f
    cases e
    cases hfree
  | some h =>
    obtain ⟨hlast, page, token, seen, hf⟩ := ht h hslot
    have hjobs : t.jobs = [.fetch h] := by simp [jobs, hslot]
    obtain rfl : h = t.fetches.size - 1 := Nat.eq_sub_of_add_eq hlast
    rw [hjobs] at hqueue ⊢
    unfold Scheduler.enlist
    simp only [hf]
    rcases hqueue with rfl | rfl <;> simp

end Source

theorem WaitingRoom.tasks_enter (r : WaitingRoom) (hr : r.tasks = []) :
    (r.enter .caller).2.tasks = [] := by
  obtain ⟨seats, vacated⟩ := r
  simp only [tasks, List.filterMap_eq_nil_iff] at hr
  cases vacated with
  | nil =>
    simp only [enter, tasks, List.filterMap_append, List.filterMap_eq_nil_iff.2 hr]
    rfl
  | cons seat rest =>
    simp only [enter, tasks, List.filterMap_eq_nil_iff]
    intro w hw
    rcases List.mem_or_eq_of_mem_set hw with hw | rfl
    · exact hr w hw
    · rfl

namespace Scheduler

/-- Nobody but the caller waits on a fetch, and nothing stands in front of the backend. -/
structure Plain (b : Backend) (s : Scheduler) : Prop where
  backend : s.backend = b
  hasRuntime : s.hasRuntime = true
  gate : s.gate = none
  tasks : s.tasks = #[]
  rooms : ∀ r ∈ s.rooms, r.2.tasks = []

structure Serves (b : Backend) (t : Source) (s : Scheduler) : Prop where
  plain : s.Plain b
  source : s.source = t
  queue : s.queue = t.jobs
  untended : t.Untended

variable {b : Backend} {t : Source} {s : Scheduler}

theorem act_eq {α : Type} (s : Scheduler) (step : Source → α × Source) :
    s.act step = ((step s.source).1, { s with
      source := (step s.source).2, queue := enlist (step s.source).2 s.queue }) := rfl

theorem Plain.room (hs : s.Plain b) (h : Handle) :
    ((s.rooms.lookup h).getD .empty).tasks = [] := by
  cases hroom : s.rooms.lookup h with
  | none => rfl
  | some room =>
    obtain ⟨before, after, e, -⟩ := List.lookup_eq_some_iff.1 hroom
    exact hs.rooms (h, room) (by simp [e])

theorem Plain.update (hs : s.Plain b) (t : Source) (queue : List Job) :
    Plain b { s with source := t, queue := queue } :=
  ⟨hs.backend, hs.hasRuntime, hs.gate, hs.tasks, hs.rooms⟩

theorem Plain.wake (hs : s.Plain b) (h : Handle) :
    (s.wake h).Plain b ∧ (s.wake h).source = s.source ∧ (s.wake h).queue = s.queue := by
  refine ⟨⟨hs.backend, hs.hasRuntime, hs.gate, hs.tasks, fun r hr => ?_⟩, rfl, ?_⟩
  · exact hs.rooms r (List.mem_filter.1 hr).1
  · simp [Scheduler.wake, enqueue, hs.room h]

theorem Plain.enter (hs : s.Plain b) (h : Handle) : (s.enter h .caller).2.Plain b := by
  refine ⟨hs.backend, hs.hasRuntime, hs.gate, hs.tasks, fun r hr => ?_⟩
  rcases List.mem_cons.1 hr with rfl | hr
  · exact WaitingRoom.tasks_enter _ (hs.room h)
  · exact hs.rooms r (List.mem_filter.1 hr).1

theorem Serves.enter (hs : s.Serves b t) (h : Handle) : (s.enter h .caller).2.Serves b t :=
  ⟨hs.plain.enter h, hs.source, hs.queue, hs.untended⟩

theorem Serves.act (hs : s.Serves b t) (hone : t.OneFetch) (hhealthy : t.Healthy) {α : Type}
    (step : Source → α × Source) (hact : t.Act true (step t).2) :
    (s.act step).1 = (step t).1 ∧ (s.act step).2.Serves b (step t).2 := by
  obtain ⟨huntended, hjobs⟩ := hs.untended.act hone hhealthy hact
  refine ⟨by rw [act_eq, hs.source], hs.plain.update _ _, by rw [act_eq, hs.source], ?_, huntended⟩
  rw [act_eq, hs.source, hs.queue]
  exact huntended.enlist (hone.act hact) hjobs

/-! ## Letting the fetch in the slot run -/

theorem runFor_of_rest (fuel : Nat) (hqueue : s.queue = []) : s.runFor fuel = s := by
  cases fuel with
  | zero => rfl
  | succ fuel => simp [runFor, hqueue]

/-- A job that leaves nothing in the queue is all that runs. -/
theorem run_eq_step {job : Job} (hqueue : s.queue = [job]) (hrest : s.step.queue = []) :
    s.run = s.step := by
  obtain ⟨bound, hbound⟩ : ∃ bound, s.stepBound = bound + 1 :=
    Nat.exists_eq_add_one.2 (by simp [stepBound, hqueue])
  rw [run, hbound, runFor, hqueue, List.isEmpty_cons, if_neg Bool.false_ne_true,
    runFor_of_rest bound hrest]

theorem change_of_begun (s : Scheduler) (step : Source → Source)
    (hbegun : ∀ f, (step s.source).fetches[(step s.source).fetches.size - 1]? = some f →
      f.stage ≠ .queued) :
    s.change step = { s with source := step s.source } := by
  rw [change, act_eq, Source.enlist_of_begun _ hbegun]

/-- The task of the fetch that was started last makes its call and has it answered, and nothing goes
to the queue. -/
theorem Plain.callBackend (hs : s.Plain b) (hsource : s.source = t) {h : Handle}
    (hlast : h + 1 = t.fetches.size) {page : Nat} {token : Option PageToken}
    {seen : Option Settlement} (hf : t.fetches[h]? = some ⟨page, token, .queued, seen⟩) {p : Page}
    (hp : b.answer t.calls.size token = .page p) :
    (s.callBackend h).Plain b ∧ (s.callBackend h).queue = s.queue ∧
      (s.callBackend h).source = (t.beginCall h).endCall h (.page p) := by
  subst hsource
  obtain ⟨hcalls, hcalling⟩ := Source.beginCall_of_queued hf
  have hreturned : ((s.source.beginCall h).endCall h (.page p)).fetches[h]? =
      some ⟨page, token, .returned (.ok ()), seen⟩ := by
    rw [Source.endCall_of_calling hcalling]
    exact Source.lookup_modify.2 (.inl ⟨rfl, _, hcalling, rfl⟩)
  have hsize : (s.source.beginCall h).fetches.size - 1 = h ∧
      ((s.source.beginCall h).endCall h (.page p)).fetches.size - 1 = h := by
    rw [Source.endCall_of_calling hcalling, hcalls]
    simp [Source.setStage, Source.log, ← hlast]
  have hbegin : s.change (·.beginCall h) = { s with source := s.source.beginCall h } := by
    refine s.change_of_begun _ ?_
    simp [hsize.1, hcalling]
  have hserve : s.callBackend h =
      (({ s with source := s.source.beginCall h } : Scheduler).change
        (·.endCall h (.page p))).wake h := by
    simp only [Scheduler.callBackend, hbegin, hs.gate, serve, hcalling, hs.backend, hp]
  have hend : ({ s with source := s.source.beginCall h } : Scheduler).change
      (·.endCall h (.page p)) =
      { s with source := (s.source.beginCall h).endCall h (.page p) } := by
    refine change_of_begun _ _ ?_
    simp [hsize.2, hreturned]
  obtain ⟨hwake, hsource, hqueue⟩ :=
    (hs.update ((s.source.beginCall h).endCall h (.page p)) s.queue).wake h
  rw [hserve, hend]
  exact ⟨hwake, hqueue, hsource⟩

end Scheduler

/-- Two steps of the task of a fetch that has not begun its call bring its page. -/
theorem World.Unfailing.tend_twice {b : Backend} {front : List Page} {N : Nat} {w : World}
    (hends : b.ChainEnds front N) (hw : World.Unfailing b front w) {h : Handle}
    (hslot : w.source.inFlight = some h) {page : Nat} {token : Option PageToken}
    {seen : Option Settlement} (hf : w.source.fetches[h]? = some ⟨page, token, .queued, seen⟩) :
    ∃ p, b.answer w.source.calls.size token = .page p ∧
      ((w.tend b).tend b).source = (w.source.beginCall h).endCall h (.page p) ∧
      ((w.tend b).tend b).source.inFlight = none ∧
      ((w.tend b).tend b).source.calls.size = w.source.calls.size + 1 := by
  obtain ⟨hcalls, hcalling⟩ := Source.beginCall_of_queued hf
  have hbegin := World.tend_of_queued b hslot hf
  have hslot' : (w.tend b).source.inFlight = some h := by
    rw [hbegin, hcalls]
    exact hslot
  replace hcalling : (w.tend b).source.fetches[h]? =
      some ⟨page, token, .calling w.source.calls.size, seen⟩ := by
    rw [hbegin]
    exact hcalling
  obtain ⟨k, hchain⟩ := (hw.tend hends).chain
  obtain ⟨p, hp⟩ := hchain.answer_page hends hcalling
  have hend : ((w.tend b).tend b).source = (w.tend b).source.endCall h (.page p) := by
    rw [World.tend_of_calling b hslot' hcalling, hp]
  refine ⟨p, hp, ?_, ?_, ?_⟩
  · rw [hend, hbegin]
  · rw [hend, Source.endCall_of_calling hcalling]
    rfl
  · rw [hend, Source.endCall_of_calling hcalling, hbegin, hcalls]
    exact Array.size_push token

namespace Scheduler

variable {b : Backend} {front : List Page} {N : Nat} {s : Scheduler}

/-- At rest no fetch is in flight: if one was, it has made its call and brought its page. -/
theorem Serves.run {w : World} (hends : b.ChainEnds front N) (hw : World.Unfailing b front w)
    (hs : s.Serves b w.source) :
    s.run.Serves b ((w.tend b).tend b).source ∧ ((w.tend b).tend b).source.inFlight = none ∧
      (w.source.inFlight ≠ none →
        ((w.tend b).tend b).source.calls.size = w.source.calls.size + 1) := by
  cases hslot : w.source.inFlight with
  | none =>
    have hqueue : s.queue = [] := by simp [hs.queue, Source.jobs, hslot]
    rw [Scheduler.run, runFor_of_rest _ hqueue, World.tend_of_empty b hslot,
      World.tend_of_empty b hslot]
    exact ⟨hs, hslot, fun h => absurd rfl h⟩
  | some h =>
    obtain ⟨hlast, page, token, seen, hf⟩ := hs.untended h hslot
    obtain ⟨p, hp, hsource, hempty, hcalls⟩ := hw.tend_twice hends hslot hf
    have hqueue : s.queue = [.fetch h] := by simp [hs.queue, Source.jobs, hslot]
    have hstep : s.step = ({ s with queue := [] } : Scheduler).callBackend h := by
      simp only [step, hqueue]
    obtain ⟨hplain, hrest, hsource'⟩ :=
      (hs.plain.update s.source []).callBackend hs.source hlast hf hp
    have hrun := (run_eq_step hqueue (hstep ▸ hrest)).trans hstep
    refine ⟨⟨hrun ▸ hplain, ?_, ?_, ?_⟩, hempty, fun _ => hcalls⟩
    · rw [hrun, hsource', hsource]
    · rw [hrun, hrest, Source.jobs, hempty]
      rfl
    · intro h' hfilled
      rw [hempty] at hfilled
      cases hfilled

/-! ## Pursuing a call -/

open ResultSet

section Steps

variable {fuel : Nat} {atRest : Bool} {p : Pending} (hruntime : s.hasRuntime = true)
include hruntime

theorem pursueFor_more {c : Call} (hmore : (s.act (p.call.step true)).1 = .more c) :
    pursueFor (fuel + 1) atRest p s =
      pursueFor fuel false ⟨c, none⟩ (s.act (p.call.step true)).2 := by
  rw [pursueFor, hruntime]
  generalize s.act (p.call.step true) = r at hmore ⊢
  obtain ⟨advance, s'⟩ := r
  cases hmore
  rfl

theorem pursueFor_done {result : Except FetchError Answer}
    (hdone : (s.act (p.call.step true)).1 = .done result) :
    pursueFor (fuel + 1) atRest p s = (.done result, (s.act (p.call.step true)).2) := by
  rw [pursueFor, hruntime]
  generalize s.act (p.call.step true) = r at hdone ⊢
  obtain ⟨advance, s'⟩ := r
  cases hdone
  rfl

/-- A call that waits takes a seat if it has none, and lets the background run. -/
theorem pursueFor_waiting (fuel : Nat) {h : Handle}
    (hwaits : (s.act (p.call.step true)).1 = .waiting h) :
    ∃ p' s', p'.call = p.call ∧ (s' = (s.act (p.call.step true)).2 ∨
        s' = ((s.act (p.call.step true)).2.enter h .caller).2) ∧
      pursueFor (fuel + 1) false p s = pursueFor fuel true p' s'.run := by
  rw [pursueFor, hruntime]
  generalize s.act (p.call.step true) = r at hwaits ⊢
  obtain ⟨advance, s'⟩ := r
  cases hwaits
  obtain ⟨call, seat⟩ := p
  cases seat with
  | some seat => exact ⟨_, s', rfl, .inl rfl, rfl⟩
  | none => exact ⟨⟨call, some (h, (s'.enter h .caller).1)⟩, _, rfl, .inr rfl, rfl⟩

end Steps

/-- A call that is pursued, which is the one that the consumer has made. -/
structure Pursues (b : Backend) (front : List Page) (way : Way) (n : Nat) (c : Consumption)
    (call : Call) (s : Scheduler) : Prop where
  serves : s.Serves b c.world.source
  sound : c.Sound b front
  status : c.status = .asking way n
  party : c.world.parties[n]? = some (.running call)

variable {way : Way} {n : Nat} {c : Consumption} {call : Call}

theorem Pursues.act (hp : s.Pursues b front way n c call) :
    (s.act (call.step true)).1 = (call.step true c.world.source).1 ∧
      (s.act (call.step true)).2.Serves b (call.step true c.world.source).2 := by
  obtain ⟨k, hchain⟩ := hp.sound.unfailing.chain
  exact hp.serves.act hchain.oneFetch hp.sound.unfailing.healthy (call.step true)
    (call.step_act true c.world.source)

theorem Pursues.goOn (hends : b.ChainEnds front N) (hp : s.Pursues b front way n c call)
    {next : Call} (hmore : (call.step true c.world.source).1 = .more next) :
    (s.act (call.step true)).2.Pursues b front way n
      { c with world := c.world.stepCall n true } next := by
  obtain ⟨hstep, hparty, -⟩ := World.stepCall_of_running hp.party true
  have hsource : (c.world.stepCall n true).source = (call.step true c.world.source).2 := by
    rw [hstep]
  have hturn := (hp.sound.turn Consumption.streaming hends .consumer).1
  rw [Consumption.turn, Consumption.consume_of_not_done _ hp.status hp.party (by simp [hmore])]
    at hturn
  rw [hmore] at hparty
  exact ⟨hsource ▸ hp.act.2, hturn, hp.status, hparty⟩

/-- The call stays where it is while the background runs. -/
theorem Pursues.run (hends : b.ChainEnds front N) (hp : s.Pursues b front way n c call) :
    s.run.Pursues b front way n { c with world := (c.world.tend b).tend b } call := by
  obtain ⟨hserves, -⟩ := hp.serves.run hends hp.sound.unfailing
  have honce := (hp.sound.turn Consumption.streaming hends .background).1
  refine ⟨hserves, (honce.turn Consumption.streaming hends .background).1, hp.status, ?_⟩
  show ((c.world.tend b).tend b).parties[n]? = _
  rw [(World.tend_calls b _).1, (World.tend_calls b _).1]
  exact hp.party

/-- A call for a row comes back. Every step of it leaves it a lower rank, and every wait ends with one
of the `N` calls for a page and gives the call three steps more at most. -/
theorem Pursues.pursueFor (hends : b.ChainEnds front N) (hway : way.kind = .one) {fuel : Nat}
    {atRest : Bool} {p : Pending} (hp : s.Pursues b front way n c p.call)
    (hrest : atRest = true → c.world.source.inFlight = none)
    (hfuel : p.call.rank c.world.source + 4 * (N - c.world.source.calls.size) ≤ fuel) :
    ∃ (c' : Consumption) (call : Call) (result : Except FetchError Answer) (t : Scheduler),
      t.Pursues b front way n c' call ∧ c'.cursors = c.cursors ∧ c'.outcomes = c.outcomes ∧
      (call.step true c'.world.source).1 = .done result ∧
      pursueFor fuel atRest p s = (.done result, (t.act (call.step true)).2) := by
  induction fuel generalizing atRest p c s with
  | zero =>
    have := p.call.rank_pos c.world.source
    omega
  | succ fuel ih =>
    obtain ⟨k, hchain⟩ := hp.sound.unfailing.chain
    obtain ⟨hkind, hwait⟩ : p.call.goal.kind = way.kind ∧ p.call.WaitsOn c.world.source := by
      have hstanding := hp.sound.standing
      rw [Consumption.Standing, hp.status] at hstanding
      obtain ⟨call, hcall, hkind, hwait, -⟩ := hstanding
      rw [hp.party] at hcall
      cases hcall
      exact ⟨hkind, hwait⟩
    have hcalls := (Source.SameChain.of_act (p.call.step_act true c.world.source)).calls
    have hact := hp.act.1
    have hruntime := hp.serves.plain.hasRuntime
    rcases Call.step_cases hchain.oneFetch hp.sound.unfailing.healthy (.inl (hkind.trans hway)) hwait
      with ⟨next, hmore, hrank, -⟩ | ⟨h, hwaits, -, hslot⟩ | ⟨row, -, -, -, hdone⟩ |
        ⟨-, -, ⟨-, hdone⟩ | ⟨rows, hall, -⟩⟩
    · -- the call goes on
      have hsource : (c.world.stepCall n true).source = (p.call.step true c.world.source).2 := by
        rw [(World.stepCall_of_running hp.party true).1]
      rw [pursueFor_more hruntime (hact.trans hmore)]
      refine ih (p := ⟨next, none⟩) (c := { c with world := c.world.stepCall n true })
        (hp.goOn hends hmore) (fun h => absurd h Bool.false_ne_true) ?_
      show next.rank (c.world.stepCall n true).source +
        4 * (N - (c.world.stepCall n true).source.calls.size) ≤ fuel
      rw [hsource, hcalls]
      omega
    · -- it waits: a fetch is in flight, so the background is not at rest and brings the page
      obtain rfl : atRest = false := by
        cases atRest with
        | false => rfl
        | true =>
          rw [hrest rfl] at hslot
          cases hslot
      obtain ⟨p', s', hcall, hentered, hrun⟩ :=
        pursueFor_waiting hruntime fuel (hact.trans (congrArg Prod.fst hwaits))
      have hp' : s'.Pursues b front way n c p'.call := by
        have hserves := hp.act.2
        rw [hwaits] at hserves
        rw [hcall]
        rcases hentered with rfl | rfl
        · exact ⟨hserves, hp.sound, hp.status, hp.party⟩
        · exact ⟨hserves.enter h, hp.sound, hp.status, hp.party⟩
      have hp'' := hp'.run hends
      obtain ⟨-, hempty, hsize⟩ := hp'.serves.run hends hp.sound.unfailing
      have hsize := hsize (by simp [hslot])
      obtain ⟨k', hchain'⟩ := hp''.sound.unfailing.chain
      have hle : ((c.world.tend b).tend b).source.calls.size ≤ N := hchain'.calls_le hends
      have hrank := p.call.rank_le c.world.source ((c.world.tend b).tend b).source
      rw [hrun]
      refine ih (c := { c with world := (c.world.tend b).tend b }) hp'' (fun _ => hempty) ?_
      show p'.call.rank ((c.world.tend b).tend b).source +
        4 * (N - ((c.world.tend b).tend b).source.calls.size) ≤ fuel
      rw [hcall]
      omega
    · exact ⟨c, p.call, _, s, hp, rfl, rfl, hdone, pursueFor_done hruntime (hact.trans hdone)⟩
    · exact ⟨c, p.call, _, s, hp, rfl, rfl, hdone, pursueFor_done hruntime (hact.trans hdone)⟩
    · rw [hkind, hway] at hall
      cases hall

end Scheduler

end PagedTraversal
