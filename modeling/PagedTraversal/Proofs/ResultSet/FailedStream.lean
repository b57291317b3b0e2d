import PagedTraversal.Proofs.ResultSet.Streaming

/-!
# PagedTraversal.Proofs.ResultSet.FailedStream

What a stream that requests pages ahead makes of a failed fetch. It ends with the failure, after the
rows that were buffered, if its call waits for the fetch with nothing buffered, or if the fetch
crashes behind its back. A fetch that is answered with an error behind its back is forgotten, and
the stream asks for the same page again. A call that waits for a fetch gets the failure before the
rows that are buffered, and the stream ends without them.

* `Consumption.Doomed`: the failure is all that is to come, after the rows that are left.
* `Consumption.Unasked`: the failure is forgotten, and the page has not been asked for again.
* `Consumption.failure_ends_stream_iff`: the stream ends with the failure, and makes no further call,
  exactly in the first two cases.
-/

namespace PagedTraversal

/-- What a fetch fails with that is answered so. -/
def Reply.failure? : Reply → Option FetchError
  | page _ => none
  | failure e => some e
  | crash => some .taskCrashed

namespace Source

theorem KeepsSlot.unnoticed {s t : Source} {h : Handle}
    (hone : s.OneFetch) (hkeeps : s.KeepsSlot t) (hunnoticed : s.Unnoticed h) :
    t.Unnoticed h ∧ t.inFlight = some h := by
  have hslot := hone.inFlight_iff.2 (.inr hunnoticed)
  rcases hkeeps with ⟨hslot', hfetches⟩ | ⟨hempty, -⟩
  · obtain ⟨page, token, hf⟩ := hunnoticed
    refine ⟨⟨page, token, ?_⟩, hslot'.trans hslot⟩
    rw [hfetches (by simp [hslot])]
    exact hf
  · rw [hslot] at hempty
    cases hempty

theorem KeepsSlot.queued {s t : Source} (hkeeps : s.KeepsSlot t)
    (hqueued : s.slotStage = some .queued) : t.slotStage = some .queued := by
  rcases hkeeps with ⟨hslot, hfetches⟩ | ⟨-, hqueued'⟩
  · obtain ⟨h, hfilled, -⟩ := Option.bind_eq_some_iff.1 hqueued
    rw [slotStage, hslot, hfetches (by simp [hfilled])]
    exact hqueued
  · exact hqueued'

end Source

namespace ResultSet

namespace Consumption

variable {b : Backend} {front : List Page} {s t : Consumption}

/-- The call of the fetch `h` asks for what `token` points to, and is to be answered without a
page. -/
def Failing (b : Backend) (s : Consumption) (h : Handle) (token : Option PageToken) (reply : Reply)
    (e : FetchError) : Prop :=
  ∃ page n seen, s.world.source.fetches[h]? = some ⟨page, token, .calling n, seen⟩ ∧
    b.answer n token = reply ∧ reply.failure? = some e

/-- The call of the stream waits for the fetch `h`. -/
def WaitsFor (s : Consumption) (h : Handle) : Prop := ∃ c, s.Calls c ∧ c.phase = .wait h

/-- How far the stream is from its end when no page arrives: a row that is taken brings the consumer
back from a look to its next call. -/
def distance (s : Consumption) : Nat :=
  5 * s.world.source.progress.buffer.length +
    match s.status with
    | .idle => if s.finished then 1 else 8
    | .asking _ n =>
      match s.world.parties[n]? with
      | some (.running c) => c.lead
      | _ => 0
    | .ended => 0

theorem distance_of_calls {c : Call} (h : s.Calls c) :
    s.distance = 5 * s.world.source.progress.buffer.length + c.lead := by
  obtain ⟨n, hstatus, hc⟩ := h
  simp [distance, hstatus, hc]

theorem distance_of_idle (h : s.status = .idle) :
    s.distance = 5 * s.world.source.progress.buffer.length + if s.finished then 1 else 8 := by
  simp [distance, h]

/-- Unless a page has arrived, a stride comes nearer to the end, or the call waits for a fetch that
runs. -/
theorem Stride.nearer (hstride : Stride s t)
    (hnone : ∀ c h, s.Calls c → c.phase = .wait h → s.world.source.outcome? h ≠ some (.ok ())) :
    (∃ c h, s.Calls c ∧ c.phase = .wait h ∧ s.world.source.Running h ∧ t = s) ∨
      (s.status = .ended ∧ t = s) ∨ t.distance < s.distance := by
  cases hstride with
  | ask c hidle hopen hcalls hsole hlead hphase hsource hcursor houtcomes =>
    rw [distance_of_idle hidle, distance_of_calls hcalls, hsource, hopen]
    refine .inr (.inr ?_)
    simp only [Bool.false_eq_true, if_false]
    omega
  | close hidle hfinished hsame =>
    refine .inr (.inr ?_)
    rw [distance_of_idle hidle, hsame, hfinished]
    exact Nat.lt_succ_self _
  | goOn c c' hcalls hcalls' hsole hlead hphase hwait hbuffer hslot hcursor houtcomes =>
    rw [distance_of_calls hcalls, distance_of_calls hcalls', hbuffer]
    exact .inr (.inr (Nat.add_lt_add_left hlead _))
  | wait c h hcalls hphase hrunning hsame => exact .inl ⟨c, h, hcalls, hphase, hrunning, hsame⟩
  | lookAgain c c' h hcalls hphase houtcome => exact absurd houtcome (hnone c h hcalls hphase)
  | fail c h e hcalls hphase houtcome hidle hbuffer hslot hfinished houtcomes =>
    rw [distance_of_calls hcalls, distance_of_idle hidle, hbuffer, hfinished, Call.lead, hphase]
    exact .inr (.inr (Nat.add_lt_add_left (by simp) _))
  | row c row hcalls hphase hidle hbuffer hslot hcursor houtcomes =>
    rw [distance_of_calls hcalls, distance_of_idle hidle, hbuffer, Call.lead, hphase]
    refine .inr (.inr ?_)
    simp only [List.length_cons]
    split <;> omega
  | finish c hcalls hphase hcomplete hended hbuffer hslot hfinished =>
    refine .inr (.inr ?_)
    rw [distance_of_calls hcalls, ← hbuffer, Call.lead, hphase, distance, hended]
    exact Nat.add_lt_add_left (by simp) _
  | rest hended hsame => exact .inr (.inl ⟨hended, hsame⟩)

/-! ## A failure that is heard -/

/-- What is left of a stream when a fetch has failed and the failure is to be heard: it gets the rows
that are buffered, then the failure, and then nothing. Once it waits for the fetch, it gets none of
the rows that are buffered by then. -/
inductive Doomed (e : FetchError) (final : List (Except ResultError GraphValue)) (left : List Row)
    (s : Consumption) : Prop where
  | unheard (h : Handle) (hopen : s.finished = false) (hunnoticed : s.world.source.Unnoticed h)
      (hcrash : e = .taskCrashed) (hcalls : ∀ c h, s.Calls c → c.phase ≠ .wait h)
      (hleft : left = [])
      (hfinal : final = s.outcomes ++ s.world.source.progress.buffer.map Row.outcome ++
        [.error (.fetch e)])
  | heard (c : Call) (h : Handle) (hcalls : s.Calls c) (hphase : c.phase = .wait h)
      (houtcome : s.world.source.outcome? h = some (.error e))
      (hslot : s.world.source.inFlight = none ∨ s.world.source.Unnoticed h)
      (hleft : left = s.world.source.progress.buffer)
      (hfinal : final = s.outcomes ++ [.error (.fetch e)])
  | told (hfinished : s.finished = true) (hleft : left = s.world.source.progress.buffer)
      (hfinal : final = s.outcomes)

variable {e : FetchError} {final : List (Except ResultError GraphValue)} {left : List Row}

theorem Doomed.tend_eq (hs : s.Streaming b front) (hd : s.Doomed e final left) :
    s.turn b streaming .background = s := by
  obtain ⟨k, hchain⟩ := hs.chain
  have hslot : s.world.source.inFlight = none ∨ ∃ h, s.world.source.Unnoticed h := by
    cases hd with
    | unheard h _ hunnoticed => exact .inr ⟨h, hunnoticed⟩
    | heard c h _ _ _ hslot => exact hslot.imp id fun hunnoticed => ⟨h, hunnoticed⟩
    | told hfinished => exact .inl (hs.closed hfinished).2
  rcases hslot with hslot | ⟨h, hunnoticed⟩
  · rw [turn, World.tend_of_empty b hslot]
  · have hslot := hchain.oneFetch.inFlight_iff.2 (.inr hunnoticed)
    obtain ⟨page, token, hf⟩ := hunnoticed
    have hsame : s.world.tend b = s.world := by
      simp [World.tend, hslot, hf, World.move, World.endCall]
    rw [turn, hsame]

/-- A call that waits is about to hear of the failure. -/
theorem Doomed.outcome (hs : s.Streaming b front) (hd : s.Doomed e final left) {c : Call}
    {h : Handle} (hcalls : s.Calls c) (hphase : c.phase = .wait h) :
    s.world.source.outcome? h = some (.error e) := by
  cases hd with
  | unheard h' _ _ _ hnone => exact absurd hphase (hnone c h hcalls)
  | heard c' h' hcalls' hphase' houtcome =>
    rw [hcalls.unique hcalls', hphase'] at hphase
    cases hphase
    exact houtcome
  | told hfinished =>
    rw [hs.open_of_calls hcalls] at hfinished
    cases hfinished

/-- Behind the back of the stream a crash waits to be noticed. -/
theorem Doomed.consume_unheard {h : Handle} (hs : s.Streaming b front) (hopen : s.finished = false)
    (hunnoticed : s.world.source.Unnoticed h) (hcalls : ∀ c h, s.Calls c → c.phase ≠ .wait h) :
    (s.consume b streaming).Doomed .taskCrashed (s.outcomes ++
      s.world.source.progress.buffer.map Row.outcome ++ [.error (.fetch .taskCrashed)]) [] := by
  obtain ⟨k, hchain⟩ := hs.chain
  have hslot := hchain.oneFetch.inFlight_iff.2 (.inr hunnoticed)
  cases hs.stride with
  | ask c hidle _ hcalls' hsole hlead hphase hsource hcursor houtcomes =>
    refine .unheard h (hcursor.trans hopen) (hsource ▸ hunnoticed) rfl ?_ rfl ?_
    · intro c' h' hc'
      rw [hc'.unique hcalls']
      exact hphase h'
    · rw [houtcomes, hsource]
  | close hidle hfinished hsame =>
    rw [hopen] at hfinished
    cases hfinished
  | goOn c c' hc hc' hsole hlead hphase hwait hbuffer hkeeps hcursor houtcomes =>
    obtain ⟨hunnoticed', hslot'⟩ := hkeeps.unnoticed hchain.oneFetch hunnoticed
    by_cases hwaits : ∃ h', c'.phase = .wait h'
    · -- the call joins the crashed fetch, having found the buffer dry
      obtain ⟨h', hphase'⟩ := hwaits
      obtain ⟨hrequest, hjoined | hcomplete⟩ := hwait h' hphase'
      · rw [hslot'] at hjoined
        cases hjoined
        have hdry : s.world.source.progress.buffer = [] := by
          have hplace := (hs.sole hc).2
          rw [hrequest] at hplace
          exact hplace (by simp [hslot])
        have houtcome : (s.consume b streaming).world.source.outcome? h =
            some (.error .taskCrashed) := by
          obtain ⟨page, token, hf⟩ := hunnoticed'
          exact Source.outcome?_eq_some.2 ⟨_, hf, rfl⟩
        refine .heard c' h hc' hphase' houtcome (.inr hunnoticed') (by rw [hbuffer, hdry]) ?_
        rw [houtcomes, hdry, List.map_nil, List.append_nil]
      · rw [hchain.inFlight_of_complete hcomplete] at hslot
        cases hslot
    · refine .unheard h (hcursor.trans hopen) hunnoticed' rfl ?_ rfl ?_
      · intro c'' h' hc'' hphase'
        rw [hc''.unique hc'] at hphase'
        exact hwaits ⟨h', hphase'⟩
      · rw [houtcomes, hbuffer]
  | wait c h' hc hphase => exact absurd hphase (hcalls c h' hc)
  | lookAgain c c' h' hc hphase => exact absurd hphase (hcalls c h' hc)
  | fail c h' e hc hphase => exact absurd hphase (hcalls c h' hc)
  | row c row hc hphase hidle hbuffer hkeeps hcursor houtcomes =>
    obtain ⟨hunnoticed', -⟩ := hkeeps.unnoticed hchain.oneFetch hunnoticed
    refine .unheard h (hcursor.trans hopen) hunnoticed' rfl ?_ rfl ?_
    · intro c' h' hc'
      exact absurd hidle hc'.not_idle
    · rw [houtcomes, hbuffer]
      simp
  | finish c hc hphase hcomplete =>
    rw [hchain.inFlight_of_complete hcomplete] at hslot
    cases hslot
  | rest hended hsame =>
    rw [hs.finished_of_ended hended] at hopen
    cases hopen

/-- The call of the stream waits for the fetch that has failed. -/
theorem Doomed.consume_heard {c : Call} {h : Handle} (hs : s.Streaming b front) (hcalls : s.Calls c)
    (hphase : c.phase = .wait h) (houtcome : s.world.source.outcome? h = some (.error e)) :
    (s.consume b streaming).Doomed e (s.outcomes ++ [.error (.fetch e)])
      s.world.source.progress.buffer := by
  -- any call of the stream is the one that waits
  have hwaits : ∀ {c' : Call}, s.Calls c' → c'.phase = .wait h := fun hc' => by
    rw [hc'.unique hcalls]
    exact hphase
  cases hs.stride with
  | ask c' hidle => exact absurd hidle hcalls.not_idle
  | close hidle => exact absurd hidle hcalls.not_idle
  | goOn c' c'' hc' _ _ _ hnot => exact absurd (hwaits hc') (hnot h)
  | wait c' h' hc' hphase' hrunning =>
    rw [hwaits hc'] at hphase'
    cases hphase'
    obtain ⟨f, hf, hnone⟩ := hrunning
    rw [Source.outcome?, hf, Option.bind_some, hnone] at houtcome
    cases houtcome
  | lookAgain c' c'' h' hc' hphase' hok =>
    rw [hwaits hc'] at hphase'
    cases hphase'
    rw [houtcome] at hok
    cases hok
  | fail c' h' e' hc' hphase' herror hidle hbuffer hslot hfinished houtcomes =>
    rw [hwaits hc'] at hphase'
    cases hphase'
    rw [houtcome] at herror
    cases herror
    exact .told hfinished hbuffer.symm houtcomes.symm
  | row c' row hc' hlook =>
    rw [hwaits hc'] at hlook
    cases hlook
  | finish c' hc' hlook =>
    rw [hwaits hc'] at hlook
    cases hlook
  | rest hended => exact absurd hended hcalls.not_ended

theorem Doomed.consume_told (hs : s.Streaming b front) (hfinished : s.finished = true) :
    (s.consume b streaming).Doomed e s.outcomes s.world.source.progress.buffer := by
  have hnone : ∀ {c : Call}, ¬ s.Calls c := fun hc => by
    rw [hs.open_of_calls hc] at hfinished
    cases hfinished
  cases hs.stride with
  | ask c hidle hopen =>
    rw [hopen] at hfinished
    cases hfinished
  | close hidle _ hsame =>
    rw [hsame]
    exact .told hfinished rfl rfl
  | goOn c c' hc => exact (hnone hc).elim
  | wait c h hc => exact (hnone hc).elim
  | lookAgain c c' h hc => exact (hnone hc).elim
  | fail c h e hc => exact (hnone hc).elim
  | row c row hc => exact (hnone hc).elim
  | finish c hc => exact (hnone hc).elim
  | rest hended hsame =>
    rw [hsame]
    exact .told hfinished rfl rfl

theorem Doomed.turn (hs : s.Streaming b front) (hd : s.Doomed e final left) (turn : Turn) :
    (s.turn b streaming turn).Doomed e final left ∧
      (s.turn b streaming turn).world.source.calls = s.world.source.calls := by
  cases turn with
  | background =>
    rw [hd.tend_eq hs]
    exact ⟨hd, rfl⟩
  | consumer =>
    refine ⟨?_, (calls_consume b streaming s).1⟩
    cases hd with
    | unheard h hopen hunnoticed hcrash hcalls hleft hfinal =>
      rw [hcrash, hleft, hfinal]
      exact hcrash ▸ consume_unheard hs hopen hunnoticed hcalls
    | heard c h hcalls hphase houtcome _ hleft hfinal =>
      rw [hleft, hfinal]
      exact consume_heard hs hcalls hphase houtcome
    | told hfinished hleft hfinal =>
      rw [hleft, hfinal]
      exact consume_told hs hfinished

/-! ## A failure that is forgotten -/

/-- A fetch that asked for what `token` points to has failed behind the back of the stream, and the
page has not been asked for again. -/
structure Unasked (calls : Array (Option PageToken)) (token : Option PageToken) (s : Consumption) :
    Prop where
  opened : s.finished = false
  calls : s.world.source.calls = calls
  next : s.world.source.progress.next = token
  complete : s.world.source.progress.complete = false
  slot : s.world.source.inFlight = none ∧ (∀ c h, s.Calls c → c.phase ≠ .wait h) ∨
    s.world.source.slotStage = some .queued

/-- The page has been asked for again, and the stream has yielded no failure. -/
def Asked (calls : Array (Option PageToken)) (token : Option PageToken) (s : Consumption) : Prop :=
  s.finished = false ∧ s.world.source.calls = calls.push token

variable {calls : Array (Option PageToken)} {token : Option PageToken}

/-- No call waits for a fetch that has ended. -/
theorem Unasked.outcome (hs : s.Streaming b front) (hu : s.Unasked calls token) {c : Call}
    {h : Handle} (hcalls : s.Calls c) (hphase : c.phase = .wait h) :
    s.world.source.outcome? h = none := by
  rcases hu.slot with ⟨-, hnone⟩ | hqueued
  · exact absurd hphase (hnone c h hcalls)
  · obtain ⟨h', hslot, hf⟩ := Option.bind_eq_some_iff.1 hqueued
    obtain ⟨f, hf, hstage⟩ := Option.map_eq_some_iff.1 hf
    have hplace := (hs.sole hcalls).2
    rw [hphase] at hplace
    have hwaits : s.world.source.inFlight = some h :=
      hplace.2.resolve_left (by simp [hslot])
    rw [hslot] at hwaits
    cases hwaits
    obtain ⟨page, token, stage, seen⟩ := f
    cases hstage
    rw [Source.outcome?, hf]
    rfl

theorem Unasked.consume (hs : s.Streaming b front) (hu : s.Unasked calls token) :
    (s.consume b streaming).Unasked calls token := by
  obtain ⟨hcalls, hnext, hcomplete⟩ := calls_consume b streaming s
  rw [hu.calls] at hcalls
  rw [hu.next] at hnext
  rw [hu.complete] at hcomplete
  cases hs.stride with
  | ask c hidle hopen hcalls' hsole hlead hphase hsource hcursor houtcomes =>
    refine ⟨hcursor.trans hopen, hcalls, hnext, hcomplete, ?_⟩
    rw [hsource]
    refine hu.slot.imp (fun hslot => ⟨hslot.1, fun c' h hc' => ?_⟩) id
    rw [hc'.unique hcalls']
    exact hphase h
  | close hidle hfinished =>
    rw [hu.opened] at hfinished
    cases hfinished
  | goOn c c' hc hc' hsole hlead hphase hwait hbuffer hkeeps hcursor houtcomes =>
    refine ⟨hcursor.trans hu.opened, hcalls, hnext, hcomplete, ?_⟩
    rcases hu.slot with ⟨hempty, -⟩ | hqueued
    · refine hkeeps.imp (fun hslot => ?_) And.right
      -- a call that waits has been given the fetch in the slot
      refine ⟨hslot.1.trans hempty, fun c'' h hc'' hphase' => ?_⟩
      rw [hc''.unique hc'] at hphase'
      rcases (hwait h hphase').2 with hjoined | hall
      · rw [hslot.1, hempty] at hjoined
        cases hjoined
      · rw [hu.complete] at hall
        cases hall
    · exact .inr (hkeeps.queued hqueued)
  | wait c h hc hphase hrunning hsame =>
    rw [hsame]
    exact hu
  | lookAgain c c' h hc hphase hok =>
    rw [hu.outcome hs hc hphase] at hok
    cases hok
  | fail c h e hc hphase herror =>
    rw [hu.outcome hs hc hphase] at herror
    cases herror
  | row c row hc hphase hidle hbuffer hkeeps hcursor houtcomes =>
    refine ⟨hcursor.trans hu.opened, hcalls, hnext, hcomplete, ?_⟩
    rcases hu.slot with ⟨hempty, -⟩ | hqueued
    · exact hkeeps.imp (fun hslot => ⟨hslot.1.trans hempty,
        fun c' h hc' => absurd hidle hc'.not_idle⟩) And.right
    · exact .inr (hkeeps.queued hqueued)
  | finish c hc hphase hall =>
    rw [hu.complete] at hall
    cases hall
  | rest hended hsame =>
    rw [hsame]
    exact hu

/-- The task of the new fetch makes its call, and asks for the same page. -/
theorem Unasked.tend (hs : s.Streaming b front) (hu : s.Unasked calls token) :
    s.world.source.slotStage = some .queued ∧ (s.turn b streaming .background).Asked calls token ∨
      s.world.source.inFlight = none ∧ s.turn b streaming .background = s := by
  obtain ⟨k, hchain⟩ := hs.chain
  rcases hu.slot with ⟨hempty, -⟩ | hqueued
  · exact .inr ⟨hempty, by rw [turn, World.tend_of_empty b hempty]⟩
  · refine .inl ⟨hqueued, hu.opened, ?_⟩
    obtain ⟨h, hslot, hf⟩ := Option.bind_eq_some_iff.1 hqueued
    obtain ⟨⟨page, token', stage, seen⟩, hf, hstage⟩ := Option.map_eq_some_iff.1 hf
    cases hstage
    obtain ⟨-, htoken, -⟩ := hchain.oneFetch.current h _ hf rfl
    have hpush : (s.world.tend b).source.calls = s.world.source.calls.push token' := by
      rw [World.tend_of_queued b hslot hf, (Source.beginCall_of_queued hf).1]
      rfl
    have htoken' : token' = token := htoken.trans hu.next
    rw [turn, hpush, hu.calls, htoken']

theorem Unasked.turn (hs : s.Streaming b front) (hu : s.Unasked calls token) (turn : Turn) :
    (s.turn b streaming turn).Asked calls token ∨
      (s.turn b streaming turn).Unasked calls token ∧
        (s.turn b streaming turn = s ∨ (s.turn b streaming turn).distance < s.distance) := by
  cases turn with
  | background =>
    rcases hu.tend hs with ⟨-, hasked⟩ | ⟨-, hsame⟩
    · exact .inl hasked
    · rw [hsame]
      exact .inr ⟨hu, .inl rfl⟩
  | consumer =>
    refine .inr ⟨hu.consume hs, ?_⟩
    rcases hs.stride.nearer fun c h hcalls hphase => by simp [hu.outcome hs hcalls hphase] with
      ⟨c, h, -, -, -, hsame⟩ | ⟨-, hsame⟩ | hless
    · exact .inl hsame
    · exact .inl hsame
    · exact .inr hless

/-- Until the page is asked for again, the consumer comes nearer to that or waits for the task that
is to ask for it. -/
theorem Unasked.exists_turn (hs : s.Streaming b front) (hu : s.Unasked calls token) :
    ∃ turn, (s.turn b streaming turn).Asked calls token ∨
      (s.turn b streaming turn).distance < s.distance := by
  rcases hu.slot with ⟨-, hnone⟩ | hqueued
  · refine ⟨.consumer, .inr ?_⟩
    rcases hs.stride.nearer fun c h hcalls hphase => absurd hphase (hnone c h hcalls) with
      ⟨c, h, hcalls, hphase, -⟩ | ⟨hended, -⟩ | hless
    · exact absurd hphase (hnone c h hcalls)
    · have hfinished := hs.finished_of_ended hended
      rw [hu.opened] at hfinished
      cases hfinished
    · exact hless
  · refine ⟨.background, .inl ?_⟩
    rcases hu.tend hs with ⟨-, hasked⟩ | ⟨hempty, -⟩
    · exact hasked
    · simp [Source.slotStage, hempty] at hqueued

/-! ## The turn in which the fetch fails -/

section Fails

variable {h : Handle} {reply : Reply}

theorem WaitsFor.of_slot (hs : s.Streaming b front) (hslot : s.world.source.inFlight = some h)
    {c : Call} {h' : Handle} (hcalls : s.Calls c) (hphase : c.phase = .wait h') : s.WaitsFor h := by
  have hplace := (hs.sole hcalls).2
  rw [hphase] at hplace
  have hwaits := hplace.2.resolve_left (by simp [hslot])
  rw [hslot] at hwaits
  cases hwaits
  exact ⟨c, hcalls, hphase⟩

/-- What the failure leaves of the source: a crash keeps the slot, and any other failure empties
it. -/
theorem Failing.tend (hs : s.Streaming b front) (hf : s.Failing b h token reply e) :
    s.world.source.inFlight = some h ∧ s.world.source.progress.next = token ∧
      s.world.source.progress.complete = false ∧
      (s.world.tend b).source.calls = s.world.source.calls ∧
      (s.world.tend b).source.progress = s.world.source.progress ∧
      (s.world.tend b).source.outcome? h = some (.error e) ∧
      ((reply = .crash ∧ e = .taskCrashed ∧ (s.world.tend b).source.Unnoticed h) ∨
        reply ≠ .crash ∧ (s.world.tend b).source.inFlight = none) := by
  obtain ⟨k, hchain⟩ := hs.chain
  obtain ⟨page, n, seen, hf, hanswer, hfailure⟩ := hf
  have hslot := (hchain.oneFetch.slot h).2 ⟨_, hf, rfl⟩
  obtain ⟨-, hnext, hcomplete⟩ := hchain.oneFetch.current h _ hf rfl
  obtain rfl : seen = none := hchain.oneFetch.truthful h _ hf
  have htend : (s.world.tend b).source = s.world.source.endCall h reply := by
    simp [World.tend, hslot, hf, World.move, World.endCall, hanswer]
  have hlook : ∀ stage : Stage, (s.world.source.setStage h stage).fetches[h]? =
      some ⟨page, token, stage, none⟩ :=
    fun stage => Source.lookup_modify.2 (.inl ⟨rfl, _, hf, rfl⟩)
  refine ⟨hslot, hnext.symm, hcomplete, ?_⟩
  rw [htend, Source.endCall_of_calling hf]
  cases reply with
  | page p => cases hfailure
  | failure e' =>
    cases hfailure
    exact ⟨rfl, rfl, Source.outcome?_eq_some.2 ⟨_, hlook _, rfl⟩, .inr ⟨by simp, rfl⟩⟩
  | crash =>
    cases hfailure
    exact ⟨rfl, rfl, Source.outcome?_eq_some.2 ⟨_, hlook _, rfl⟩,
      .inl ⟨rfl, rfl, page, token, hlook _⟩⟩

theorem Failing.opened (hs : s.Streaming b front) (hf : s.Failing b h token reply e) :
    s.finished = false := by
  cases hfinished : s.finished with
  | false => rfl
  | true =>
    have hslot := (hf.tend hs).1
    rw [(hs.closed hfinished).2] at hslot
    cases hslot

/-- The task in the slot does nothing to the call of the stream. -/
theorem calls_tend {c : Call} : (s.turn b streaming .background).Calls c ↔ s.Calls c := by
  obtain ⟨hparties, -, -⟩ := s.world.tend_calls b
  simp only [Calls, turn, hparties]

theorem Failing.doomed_of_waits (hs : s.Streaming b front) (hf : s.Failing b h token reply e)
    (hwaits : s.WaitsFor h) :
    (s.turn b streaming .background).Doomed e (s.outcomes ++ [.error (.fetch e)])
      s.world.source.progress.buffer := by
  obtain ⟨-, -, -, -, hprogress, houtcome, hslot⟩ := hf.tend hs
  obtain ⟨c, hcalls, hphase⟩ := hwaits
  refine .heard c h (calls_tend.2 hcalls) hphase houtcome ?_ ?_ rfl
  · rcases hslot with ⟨-, -, hunnoticed⟩ | ⟨-, hempty⟩
    · exact .inr hunnoticed
    · exact .inl hempty
  · rw [turn, hprogress]

theorem Failing.doomed_of_crash (hs : s.Streaming b front) (hf : s.Failing b h token .crash e)
    (hwaits : ¬ s.WaitsFor h) :
    (s.turn b streaming .background).Doomed e
      (s.outcomes ++ s.world.source.progress.buffer.map Row.outcome ++ [.error (.fetch e)]) [] := by
  obtain ⟨hfilled, -, -, -, hprogress, -, hslot⟩ := hf.tend hs
  have hopen : (s.turn b streaming .background).finished = false := (hf.opened hs :)
  rcases hslot with ⟨-, hcrash, hunnoticed⟩ | ⟨hnot, -⟩
  · refine .unheard h hopen hunnoticed hcrash (fun c h' hcalls hphase => ?_) rfl ?_
    · exact hwaits (.of_slot hs hfilled (calls_tend.1 hcalls) hphase)
    · simp only [turn, hprogress]
  · exact absurd rfl hnot

theorem Failing.unasked (hs : s.Streaming b front) (hf : s.Failing b h token reply e)
    (hreply : reply ≠ .crash) (hwaits : ¬ s.WaitsFor h) :
    (s.turn b streaming .background).Unasked s.world.source.calls token := by
  obtain ⟨hfilled, hnext, hcomplete, hcalls, hprogress, -, hslot⟩ := hf.tend hs
  have hopen : (s.turn b streaming .background).finished = false := (hf.opened hs :)
  have hempty := (hslot.resolve_left fun hcrash => hreply hcrash.1).2
  refine ⟨hopen, hcalls, ?_, ?_, .inl ⟨hempty, fun c h' hc hphase => ?_⟩⟩
  · rw [turn, hprogress, hnext]
  · rw [turn, hprogress, hcomplete]
  · exact hwaits (.of_slot hs hfilled (calls_tend.1 hc) hphase)

end Fails

/-! ## All turns -/

theorem after_add (b : Backend) (plan : Nat → Way) (turns : Nat → Turn) (s : Consumption)
    (n k : Nat) : s.after b plan turns (n + k) =
      (s.after b plan turns n).after b plan (fun i => turns (n + i)) k := by
  induction k with
  | zero => rfl
  | succ k ih => rw [← Nat.add_assoc, after, ih, after]

variable {turns : Nat → Turn}

theorem Fair.shift (hfair : Fair turns) (n : Nat) : Fair fun i => turns (n + i) := by
  intro t k
  obtain ⟨m, hm, ht⟩ := hfair t (n + k)
  refine ⟨m - n, by omega, ?_⟩
  show turns (n + (m - n)) = t
  rw [Nat.add_sub_cancel' (by omega)]
  exact ht

theorem Doomed.after (hs : s.Streaming b front) (hd : s.Doomed e final left) (n : Nat) :
    (s.after b streaming turns n).Doomed e final left ∧
      (s.after b streaming turns n).world.source.calls = s.world.source.calls := by
  induction n with
  | zero => exact ⟨hd, rfl⟩
  | succ n ih =>
    obtain ⟨hd', hcalls⟩ := ih.1.turn (hs.after turns n) (turns n)
    exact ⟨hd', hcalls.trans ih.2⟩

/-- At the end the stream has yielded the failure, and what it has not taken stays. -/
theorem Doomed.of_ended (hs : s.Streaming b front) (hd : s.Doomed e final left)
    (hended : s.status = .ended) : s.outcomes = final ∧ s.world.source.progress.buffer = left := by
  cases hd with
  | unheard h hopen =>
    rw [hs.finished_of_ended hended] at hopen
    cases hopen
  | heard c h hcalls => exact absurd hended hcalls.not_ended
  | told hfinished hleft hfinal => exact ⟨hfinal.symm, hleft.symm⟩

theorem Doomed.exists_ended (hs : s.Streaming b front) (hd : s.Doomed e final left)
    (hfair : Fair turns) : ∃ n, (s.after b streaming turns n).status = .ended := by
  refine hfair.exists_done (P := fun s => s.Streaming b front ∧ s.Doomed e final left)
    (Q := fun s => s.status = .ended) distance (fun n => ⟨hs.after turns n, (hd.after hs n).1⟩)
    ?_ ?_
  · rintro s t ⟨hs, hd⟩ -
    cases t with
    | background => exact .inl (hd.tend_eq hs)
    | consumer =>
      rcases hs.stride.nearer fun c h hcalls hphase => by simp [hd.outcome hs hcalls hphase] with
        ⟨c, h, -, -, -, hsame⟩ | ⟨-, hsame⟩ | hless
      · exact .inl hsame
      · exact .inl hsame
      · exact .inr (.inr hless)
  · rintro s ⟨hs, hd⟩ hnot
    refine ⟨.consumer, .inr ?_⟩
    rcases hs.stride.nearer fun c h hcalls hphase => by simp [hd.outcome hs hcalls hphase] with
      ⟨c, h, hcalls, hphase, ⟨f, hf, hnone⟩, -⟩ | ⟨hended, -⟩ | hless
    · have houtcome := hd.outcome hs hcalls hphase
      rw [Source.outcome?, hf, Option.bind_some, hnone] at houtcome
      cases houtcome
    · exact absurd hended hnot
    · exact hless

theorem Unasked.exists_asked (hs : s.Streaming b front) (hu : s.Unasked calls token)
    (hfair : Fair turns) : ∃ n, (s.after b streaming turns n).Asked calls token := by
  by_contra hnone
  have hkept : ∀ n, (s.after b streaming turns n).Streaming b front ∧
      (s.after b streaming turns n).Unasked calls token := by
    intro n
    refine ⟨hs.after turns n, ?_⟩
    induction n with
    | zero => exact hu
    | succ n ih =>
      rcases ih.turn (hs.after turns n) (turns n) with hasked | ⟨hu', -⟩
      · exact absurd ⟨n + 1, hasked⟩ hnone
      · exact hu'
  refine hnone (hfair.exists_done (P := fun s => s.Streaming b front ∧ s.Unasked calls token)
    (Q := Asked calls token) distance hkept ?_ ?_)
  · rintro s t ⟨hs, hu⟩ -
    rcases hu.turn hs t with hasked | ⟨-, hsame | hless⟩
    · exact .inr (.inl hasked)
    · exact .inl hsame
    · exact .inr (.inr hless)
  · rintro s ⟨hs, hu⟩ -
    exact hu.exists_turn hs

/-- After the turn `n` no call is made; the stream hands out what is buffered, then the failure, and
ends. -/
def EndsWithFailure (s : Nat → Consumption) (n : Nat) (e : FetchError) : Prop :=
  (∀ m, n < m → (s m).world.source.calls = (s n).world.source.calls) ∧
  ∃ m, n < m ∧ (s m).status = .ended ∧ (s m).outcomes = (s n).outcomes ++
    (s n).world.source.progress.buffer.map Row.outcome ++ [.error (.fetch e)]

variable {h : Handle} {reply : Reply}

theorem Failing.ends (hs : s.Streaming b front) (hf : s.Failing b h token reply e) {n : Nat}
    (hturn : turns n = .background) {final : List (Except ResultError GraphValue)}
    {left : List Row} {s₀ : Consumption} (hn : s₀.after b streaming turns n = s)
    (hd : (s.turn b streaming .background).Doomed e final left) (hfair : Fair turns) :
    (∀ m, n < m → (s₀.after b streaming turns m).world.source.calls = s.world.source.calls) ∧
    (∃ m, n < m ∧ (s₀.after b streaming turns m).status = .ended) ∧
    ∀ m, n < m → (s₀.after b streaming turns m).status = .ended →
      (s₀.after b streaming turns m).outcomes = final ∧
        (s₀.after b streaming turns m).world.source.progress.buffer = left := by
  have hfailed : s₀.after b streaming turns (n + 1) = s.turn b streaming .background := by
    rw [Consumption.after, hn, hturn]
  have hstreaming := hs.turn .background
  have hcalls : (s.turn b streaming .background).world.source.calls = s.world.source.calls :=
    (hf.tend hs).2.2.2.1
  -- from the failure on, the turns are those that are left
  have hlater : ∀ k, s₀.after b streaming turns (n + 1 + k) =
      (s.turn b streaming .background).after b streaming (fun i => turns (n + 1 + i)) k := by
    intro k
    rw [after_add, hfailed]
  have hsince : ∀ m, n < m → ∃ k, m = n + 1 + k := fun m hm => ⟨m - (n + 1), by omega⟩
  refine ⟨fun m hm => ?_, ?_, fun m hm hended => ?_⟩
  · obtain ⟨k, rfl⟩ := hsince m hm
    rw [hlater]
    exact (hd.after hstreaming k).2.trans hcalls
  · obtain ⟨k, hended⟩ := hd.exists_ended hstreaming (hfair.shift (n + 1))
    refine ⟨n + 1 + k, by omega, ?_⟩
    rw [hlater]
    exact hended
  · obtain ⟨k, rfl⟩ := hsince m hm
    rw [hlater] at hended ⊢
    exact (hd.after hstreaming k).1.of_ended (hstreaming.after _ k) hended

/-- When a fetch fails, the stream ends with the failure after the rows that are buffered, and makes
no further call, if its call waits for the fetch with nothing buffered or does not wait and the task
has crashed, and not otherwise. A call that waits with rows buffered ends the stream before them, and
they stay where they are. And when an error comes while no call waits for the fetch, the stream asks
for the same page again without having yielded a failure. -/
theorem failure_ends_stream_iff (b : Backend) (thresholds : Nat → Option Nat) (first : Option Page)
    (turns : Nat → Turn) (n : Nat) (h : Handle) (token : Option PageToken) (reply : Reply)
    (e : FetchError) (hfair : Fair turns) (hturn : turns n = .background)
    (hfailing : ((start thresholds first).after b streaming turns n).Failing b h token reply e) :
    let s := (start thresholds first).after b streaming turns
    let buffer := (s n).world.source.progress.buffer
    (EndsWithFailure s n e ↔
      ((s n).WaitsFor h → buffer = []) ∧ (¬ (s n).WaitsFor h → reply = .crash)) ∧
    ((s n).WaitsFor h → ∃ m, n < m ∧ (s m).status = .ended ∧
      (s m).world.source.calls = (s n).world.source.calls ∧
      (s m).outcomes = (s n).outcomes ++ [.error (.fetch e)] ∧
      (s m).world.source.progress.buffer = buffer) ∧
    (¬ (s n).WaitsFor h → reply ≠ .crash → ∃ m, n < m ∧
      (s m).world.source.calls = (s n).world.source.calls.push token ∧
      ∀ outcome ∈ (s m).outcomes, isFetchFailure outcome = false) := by
  intro s buffer
  have hs : (s n).Streaming b first.toList := (Streaming.start b thresholds first).after turns n
  have hretry : ¬ (s n).WaitsFor h → reply ≠ .crash → ∃ m, n < m ∧
      (s m).world.source.calls = (s n).world.source.calls.push token ∧
      ∀ outcome ∈ (s m).outcomes, isFetchFailure outcome = false := by
    intro hwaits hreply
    have hfailed : s (n + 1) = (s n).turn b streaming .background := by
      show (s n).turn b streaming (turns n) = _
      rw [hturn]
    have hstreaming := hs.turn .background
    obtain ⟨k, hopen, hcalls⟩ := (hfailing.unasked hs hreply hwaits).exists_asked hstreaming
      (hfair.shift (n + 1))
    rw [← hfailed, ← after_add] at hopen hcalls
    have hthen : (s (n + 1 + k)).Streaming b first.toList :=
      (Streaming.start b thresholds first).after turns _
    exact ⟨n + 1 + k, by omega, hcalls, (hthen.going hopen).2⟩
  have hheard : (s n).WaitsFor h → _ := fun hwaits =>
    hfailing.ends hs hturn rfl (hfailing.doomed_of_waits hs hwaits) hfair
  refine ⟨⟨fun hends => ⟨fun hwaits => ?_, fun hwaits => ?_⟩, fun hcond => ?_⟩, fun hwaits => ?_, hretry⟩
  · -- the end is that of a stream that has heard the failure
    obtain ⟨-, m, hm, hended, houtcomes⟩ := hends
    have hfinal := ((hheard hwaits).2.2 m hm hended).1
    rw [houtcomes, List.append_assoc] at hfinal
    have hlength := congrArg List.length (List.append_cancel_left hfinal)
    simpa using hlength
  · by_contra hreply
    obtain ⟨m, hm, hcalls, -⟩ := hretry hwaits hreply
    have hsize := congrArg Array.size ((hends.1 m hm).symm.trans hcalls)
    rw [Array.size_push] at hsize
    exact Nat.succ_ne_self _ hsize.symm
  · by_cases hwaits : (s n).WaitsFor h
    · obtain ⟨hcalls, ⟨m, hm, hended⟩, hfinal⟩ := hheard hwaits
      refine ⟨hcalls, m, hm, hended, ?_⟩
      have hdry : (s n).world.source.progress.buffer = [] := hcond.1 hwaits
      rw [hdry, List.map_nil, List.append_nil]
      exact (hfinal m hm hended).1
    · obtain rfl := hcond.2 hwaits
      obtain ⟨hcalls, ⟨m, hm, hended⟩, hfinal⟩ :=
        hfailing.ends hs hturn rfl (hfailing.doomed_of_crash hs hwaits) hfair
      exact ⟨hcalls, m, hm, hended, (hfinal m hm hended).1⟩
  · obtain ⟨hcalls, ⟨m, hm, hended⟩, hfinal⟩ := hheard hwaits
    obtain ⟨houtcomes, hleft⟩ := hfinal m hm hended
    exact ⟨m, hm, hended, hcalls m hm, houtcomes, hleft⟩

/-- The first call fails, and the second brings the last page. -/
def failsOnce : Backend :=
  .script [.failure (.transport "boom"), .page ⟨[⟨.string "third"⟩], none, .empty⟩]

/-- Two rows, and more to come. -/
def twoOfThree : Page := ⟨[⟨.string "first"⟩, ⟨.string "second"⟩], some ⟨[0]⟩, .empty⟩

/-- The fetch that was requested ahead fails while the second row is buffered. -/
theorem failsOnce_failing :
    ((start (fun _ => some 5) (some twoOfThree)).after failsOnce streaming alternating 9).Failing
      failsOnce 0 (some ⟨[0]⟩) (.failure (.transport "boom")) (.transport "boom") :=
  ⟨1, 0, none, rfl, rfl, rfl⟩

/-- The stream asks again for the page that it could not get. -/
theorem failure_ends_stream_iff_failsOnce :
    let s := (start (fun _ => some 5) (some twoOfThree)).after failsOnce streaming alternating
    Fair alternating ∧ alternating 9 = .background ∧
    (s 9).Failing failsOnce 0 (some ⟨[0]⟩) (.failure (.transport "boom")) (.transport "boom") ∧
    ¬ EndsWithFailure s 9 (.transport "boom") ∧
    ∃ m, 9 < m ∧ (s m).world.source.calls = #[some ⟨[0]⟩, some ⟨[0]⟩] ∧
      ∀ outcome ∈ (s m).outcomes, isFetchFailure outcome = false := by
  intro s
  have hwaits : ¬ (s 9).WaitsFor 0 := fun ⟨c, hcalls, _⟩ => hcalls.not_idle rfl
  obtain ⟨hiff, -, hretry⟩ := failure_ends_stream_iff failsOnce (fun _ => some 5) (some twoOfThree)
    alternating 9 0 (some ⟨[0]⟩) (.failure (.transport "boom")) (.transport "boom")
    alternating_fair rfl failsOnce_failing
  refine ⟨alternating_fair, rfl, failsOnce_failing, fun hends => ?_, hretry hwaits (by simp)⟩
  cases (hiff.1 hends).2 hwaits

/-- Not every failure of a fetch that was requested ahead ends the stream: here it makes a second
call, gets all three rows and ends without having yielded the failure. -/
theorem failure_goes_unnoticed :
    (¬ ∀ (b : Backend) (threshold : Nat) (first : Option Page) (turns : Nat → Turn) (n : Nat)
      (h : Handle) (token : Option PageToken) (reply : Reply) (e : FetchError),
      Fair turns → turns n = .background →
      ((start (fun _ => some threshold) first).after b streaming turns n).Failing b h token reply e →
      EndsWithFailure ((start (fun _ => some threshold) first).after b streaming turns) n e) ∧
    let s := (start (fun _ => some 5) (some twoOfThree)).after failsOnce streaming alternating
    (s 9).Failing failsOnce 0 (some ⟨[0]⟩) (.failure (.transport "boom")) (.transport "boom") ∧
    (s 9).world.source.calls = #[some ⟨[0]⟩] ∧
    (s 60).status = .ended ∧ (s 60).world.source.calls = #[some ⟨[0]⟩, some ⟨[0]⟩] ∧
    (s 60).outcomes = [.ok (.scalar (.string "first")), .ok (.scalar (.string "second")),
      .ok (.scalar (.string "third"))] := by
  refine ⟨fun hall => ?_, failsOnce_failing, rfl, rfl, rfl, rfl⟩
  have hends := hall failsOnce 5 (some twoOfThree) alternating 9 0 (some ⟨[0]⟩)
    (.failure (.transport "boom")) (.transport "boom") alternating_fair rfl failsOnce_failing
  have hcalls := congrArg Array.size (hends.1 60 (by decide))
  cases hcalls

end Consumption

end ResultSet

end PagedTraversal
