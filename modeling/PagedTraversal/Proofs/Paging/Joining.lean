import PagedTraversal.Proofs.Paging.Peeking
import PagedTraversal.Proofs.ResultSet.FailedStream

/-!
# PagedTraversal.Proofs.Paging.Joining

A call for a row, or one that asks for it, that is made while a fetch may be in flight. It looks, and
joins that fetch if it finds nothing; or it still waits for a fetch that has ended while another one
was started. In a few turns it has either come back or stands where it would stand with the source to
itself, and from there on it runs its course.

* `Call.Underway`, `Call.underway_step`: where the call can stand, and all that a step of it can come
  to.
* `World.Made.settles`: it comes back or to a place of its course.
* `World.Made.comes_back`: unless there are empty pages without end, it comes back.
-/

namespace PagedTraversal

open ResultSet (Turn)
open ResultSet.Consumption (Fair)

namespace Call

/-- The call is for a row or asks for it, and stands before a look, before its request, or on the
wait for a fetch. -/
def Underway (c : Call) (s : Source) : Prop :=
  c.goal.asksRow = true ∧
  match c.phase with
  | .look => True
  | .request => True
  | .wait h => h < s.fetches.size
  | _ => False

/-- All that a step of such a call can come to. It goes on without changing the progress, waits,
answers by what it sees, or fails as the fetch did. -/
inductive UnderwayStep (c : Call) (s : Source) : Advance → Source → Prop where
  | goesOn {c' : Call} {t : Source} (hgoal : c'.goal = c.goal) (hunderway : c'.Underway t)
      (hneeds : c.phase = .look → s.Dry) (hprogress : t.progress = s.progress) :
      UnderwayStep c s (.more c') t
  | waits {h : Handle} (hphase : c.phase = .wait h) (houtcome : s.outcome? h = none) :
      UnderwayStep c s (.waiting h) s
  | answers {a : Answer} {p : Progress} (hphase : c.phase = .look)
      (hglance : c.goal.glance s.progress = (.inl a, p)) :
      UnderwayStep c s (.done (.ok a)) { s with progress := p }
  | fails {h : Handle} {e : FetchError} {t : Source} (hphase : c.phase = .wait h)
      (houtcome : s.outcome? h = some (.error e)) (hprogress : t.progress = s.progress) :
      UnderwayStep c s (.done (.error e)) t

/-- A look that needs a page leaves the progress and the goal as they are. -/
theorem glance_of_needs {goal goal' : Goal} (hgoal : goal.asksRow = true) {p p' : Progress}
    (h : goal.glance p = (.inr goal', p')) :
    goal' = goal ∧ p' = p ∧ p.buffer = [] ∧ p.complete = false := by
  cases goal with
  | one =>
    cases hb : p.buffer with
    | cons row rest => rw [(Goal.glance_found hb).1] at h; cases h
    | nil =>
      cases hc : p.complete with
      | true => rw [(Goal.glance_finished hb hc).1] at h; cases h
      | false =>
        rw [Goal.glance_of_dry rfl hb hc] at h
        cases h
        exact ⟨rfl, rfl, rfl, rfl⟩
  | exhausted =>
    rcases Goal.glance_exhausted p with ⟨row, rest, -, e⟩ | ⟨-, -, e⟩ | ⟨hb, hc, e⟩ <;>
      rw [e] at h <;> cases h
    exact ⟨rfl, rfl, hb, hc⟩
  | _ => cases hgoal

variable {c : Call} {s : Source}

theorem underway_step (hone : s.OneFetch) (hc : c.Underway s) (hasRuntime : Bool) :
    c.UnderwayStep s (c.step hasRuntime s).1 (c.step hasRuntime s).2 := by
  obtain ⟨goal, phase⟩ := c
  obtain ⟨hgoal, hplace⟩ := hc
  cases phase with
  | look =>
    rw [step, look_eq]
    cases hglance : goal.glance s.progress with
    | mk outcome p =>
      cases outcome with
      | inl a => exact .answers rfl hglance
      | inr goal' =>
        obtain ⟨rfl, rfl, hdry⟩ := glance_of_needs hgoal hglance
        exact .goesOn rfl ⟨hgoal, trivial⟩ (fun _ => hdry) rfl
  | request =>
    refine .goesOn rfl ⟨hgoal, ?_⟩ (fun hlook => by cases hlook) (s.progress_request hasRuntime)
    show (s.request hasRuntime).1 < (s.request hasRuntime).2.fetches.size
    rcases s.request_cases hasRuntime with ⟨_, -, e⟩ | ⟨h, -, hslot, e⟩ | ⟨-, -, -, e⟩ <;> rw [e]
    · simp
    · obtain ⟨f, hf, -⟩ := (hone.slot h).1 hslot
      exact (Array.getElem?_eq_some_iff.1 hf).1
    · simp [Source.log]
  | wait h =>
    have hfst := step_of_wait (c := ⟨goal, .wait h⟩) rfl hasRuntime s
    have hsnd := step_source_of_wait (c := ⟨goal, .wait h⟩) rfl hasRuntime s
    rw [hone.poll_outcome] at hfst
    have hprogress := s.progress_poll h
    cases hr : s.outcome? h with
    | none =>
      have hf : s.fetches[h]? = some s.fetches[h] := Array.getElem?_eq_getElem hplace
      have hrunning : s.Running h := by
        refine ⟨_, hf, ?_⟩
        rw [Source.outcome?, hf] at hr
        exact hr
      rw [hr] at hfst
      rw [hone.poll_of_running hrunning] at hsnd
      rw [hfst, hsnd]
      exact .waits rfl hr
    | some r =>
      rw [hr] at hfst
      cases r with
      | ok u =>
        rw [hfst, hsnd]
        exact .goesOn rfl ⟨hgoal, trivial⟩ (fun hlook => by cases hlook) hprogress
      | error e =>
        rw [hfst, hsnd]
        exact .fails rfl hr hprogress
  | _ => exact hplace.elim

end Call

namespace World

/-- The `n`-th call is underway. -/
def Stands (w : World) (n : Nat) : Prop :=
  ∃ c, w.parties[n]? = some (.running c) ∧ c.Underway w.source

/-- The `n`-th call is over. -/
def Over (w : World) (n : Nat) : Prop := ∃ c result, w.parties[n]? = some (.finished c result)

variable {b : Backend} {w : World} {n : Nat}

/-! ## The steps of the task in the slot -/

/-- The steps that are left of the fetch in the slot. -/
def slotLag (w : World) : Nat :=
  match w.source.slotStage with
  | none => 0
  | some .queued => 3
  | some (.calling _) => 2
  | some _ => 1

theorem slotLag_le (w : World) : w.slotLag ≤ 3 := by
  unfold slotLag
  split <;> omega

theorem slotLag_tend (b : Backend) (hone : w.source.OneFetch) :
    w.tend b = w ∨ (w.tend b).slotLag < w.slotLag := by
  cases hslot : w.source.inFlight with
  | none => exact .inl (tend_of_empty b hslot)
  | some h =>
    have hstage : ∀ {v : World} {stage : Stage}, v.source.inFlight = some h →
        v.source.fetches[h]?.map Fetch.stage = some stage → v.source.slotStage = some stage := by
      intro v stage hv hstage
      rw [Source.slotStage, hv, Option.bind_some, hstage]
    rcases tend_cases (b := b) hone hslot with ⟨hqueued, hcalling, -, hslot', -⟩ |
      ⟨⟨n, hcalling⟩, ⟨r, hr⟩, -, hempty | ⟨hslot', -⟩⟩ | ⟨-, hsame⟩
    · refine .inr ?_
      rw [slotLag, slotLag, hstage hslot hqueued, hstage hslot' hcalling]
      exact Nat.lt_succ_self 2
    · refine .inr ?_
      rw [slotLag, slotLag, hstage hslot hcalling, Source.slotStage, hempty]
      exact Nat.zero_lt_two
    · refine .inr ?_
      obtain ⟨⟨page, token, stage, seen⟩, hf, hr⟩ := Source.outcome?_eq_some.1 hr
      have hlag : (w.tend b).slotLag = 1 := by
        rw [slotLag, hstage hslot' (congrArg (Option.map Fetch.stage) hf)]
        cases stage with
        | queued => cases hr
        | calling n => cases hr
        | _ => rfl
      rw [hlag, slotLag, hstage hslot hcalling]
      exact Nat.lt_succ_self 1
    · exact .inl hsame

/-! ## The places of the course -/

/-- The call is over, or stands where it would stand with the source to itself. -/
def Settled (w : World) (n : Nat) : Prop := w.Over n ∨ ∃ place p k, w.At n place p k

/-- A fetch that is not in the slot has ended. -/
theorem exists_outcome {s : Source} (hone : s.OneFetch) {h : Handle} (hsize : h < s.fetches.size)
    (hslot : s.inFlight ≠ some h) : ∃ r, s.outcome? h = some r := by
  have hf : s.fetches[h]? = some s.fetches[h] := Array.getElem?_eq_getElem hsize
  cases hr : s.outcome? h with
  | some r => exact ⟨r, rfl⟩
  | none =>
    refine absurd (hone.inFlight_iff.2 (.inl ⟨_, hf, ?_⟩)) hslot
    rw [Source.outcome?, hf] at hr
    exact hr

/-- A call that waits for the fetch in the slot, or that has to hear of its own while none is
there. -/
theorem settled_of_wait (hone : w.source.OneFetch) {goal : Goal} {h : Handle}
    (hc : w.parties[n]? = some (.running ⟨goal, .wait h⟩)) (hsize : h < w.source.fetches.size)
    (hslot : w.source.inFlight = none ∨ w.source.inFlight = some h) : w.Settled n := by
  refine .inr ?_
  rcases hslot with hslot | hslot
  · obtain ⟨r, hr⟩ := exists_outcome hone hsize (by simp [hslot])
    cases r with
    | ok u => exact ⟨_, _, _, .arrived hc hslot hr⟩
    | error e => exact ⟨_, _, _, .failed hc (.inl hslot) hr⟩
  · obtain ⟨⟨page, token, stage, seen⟩, hf, ho⟩ := (hone.slot h).1 hslot
    have htruthful := hone.truthful h _ hf
    obtain ⟨-, rfl, -⟩ := hone.current h _ hf ho
    cases stage with
    | queued =>
      obtain rfl : seen = none := htruthful
      exact ⟨_, _, _, .queued hc hslot hf⟩
    | calling k =>
      obtain rfl : seen = none := htruthful
      exact ⟨_, _, _, .calling hc hslot hf (hone.openCall h _ k hf rfl).1.symm⟩
    | returned settlement => cases ho
    | crashed =>
      obtain rfl : seen = none := Option.isNone_iff_eq_none.1 ho
      exact ⟨_, _, _, .failed hc (.inr ⟨hslot, page, _, hf⟩)
        (Source.outcome?_eq_some.2 ⟨_, hf, rfl⟩)⟩

/-- How many steps the call is from such a place. -/
def stepLag (n : Nat) (w : World) : Nat :=
  match w.parties[n]? with
  | some (.running ⟨_, .wait _⟩) => 3
  | some (.running ⟨_, .look⟩) => 2
  | some (.running ⟨_, .request⟩) => 1
  | _ => 0

/-- A step of the call counts for more than all the steps of a fetch that it may start. -/
def joinLag (n : Nat) (w : World) : Nat := 4 * w.stepLag n + w.slotLag

theorem stepLag_of_running {c : Call} (hc : w.parties[n]? = some (.running c)) :
    w.stepLag n = match c.phase with
      | .wait _ => 3
      | .look => 2
      | .request => 1
      | _ => 0 := by
  obtain ⟨goal, phase⟩ := c
  rw [stepLag, hc]
  cases phase <;> rfl

/-- A step of the call brings it to its end, to a place of its course or nearer to one, unless it
stands at such a place. -/
theorem Stands.stepCall (hone : w.source.OneFetch) (hw : w.Stands n) (hnot : ¬ w.Settled n) :
    (w.stepCall n true).Settled n ∨
      (w.stepCall n true).Stands n ∧ (w.stepCall n true).joinLag n < w.joinLag n := by
  obtain ⟨⟨goal, phase⟩, hc, hgoal, hplace⟩ := hw
  obtain ⟨e, hparty, -⟩ := stepCall_of_running hc true
  have hslotLag := (w.stepCall n true).slotLag_le
  cases phase with
  | look =>
    have hlook := Call.look_eq ⟨goal, .look⟩ w.source
    rw [Call.step, hlook] at hparty
    cases hglance : goal.glance w.source.progress with
    | mk outcome p =>
      rw [hglance] at hparty
      cases outcome with
      | inl a => exact .inl (.inl ⟨_, _, hparty⟩)
      | inr goal' =>
        obtain ⟨rfl, -, -, -⟩ := Call.glance_of_needs hgoal hglance
        refine .inr ⟨⟨_, hparty, hgoal, trivial⟩, ?_⟩
        rw [joinLag, joinLag, stepLag_of_running hparty, stepLag_of_running hc]
        show 4 * 1 + _ < 4 * 2 + _
        omega
  | request =>
    have hsource : (w.stepCall n true).source = (w.source.request true).2 := by
      rw [e]
      rfl
    have hone' : (w.source.request true).2.OneFetch := hone.act .request
    have hsize := (w.source.request_returned hone).1
    have hslot := hone.request_slot.2
    rw [← hsource] at hone' hsize hslot
    exact .inl (settled_of_wait hone' hparty hsize (hslot.symm.imp And.left id))
  | wait h =>
    have hslot : w.source.inFlight ≠ some h := fun hslot =>
      hnot (settled_of_wait hone hc hplace (.inr hslot))
    obtain ⟨r, hr⟩ := exists_outcome hone hplace hslot
    rw [Call.step_of_wait rfl, hone.poll_outcome, hr] at hparty
    cases r with
    | ok u =>
      refine .inr ⟨⟨_, hparty, hgoal, trivial⟩, ?_⟩
      rw [joinLag, joinLag, stepLag_of_running hparty, stepLag_of_running hc]
      show 4 * 2 + _ < 4 * 3 + _
      omega
    | error e => exact .inl (.inl ⟨_, _, hparty⟩)
  | _ => exact hplace.elim

theorem stands_tend (b : Backend) (hw : w.Stands n) : (w.tend b).Stands n := by
  obtain ⟨c, hc, hgoal, hplace⟩ := hw
  obtain ⟨hparties, -, hsize⟩ := w.tend_calls b
  refine ⟨c, by rw [hparties]; exact hc, hgoal, ?_⟩
  revert hplace
  cases c.phase <;> simp [hsize]

theorem over_tend (b : Backend) (hw : w.Over n) : (w.tend b).Over n := by
  obtain ⟨c, result, hc⟩ := hw
  exact ⟨c, result, by rw [(w.tend_calls b).1]; exact hc⟩

theorem joinLag_tend (b : Backend) (hone : w.source.OneFetch) :
    w.tend b = w ∨ (w.tend b).joinLag n < w.joinLag n := by
  refine (slotLag_tend b hone).imp_right fun hlt => ?_
  have hsame : (w.tend b).stepLag n = w.stepLag n := by rw [stepLag, stepLag, (w.tend_calls b).1]
  rw [joinLag, joinLag, hsame]
  omega

/-- The call is underway or over. -/
def Made (w : World) (n : Nat) : Prop := w.source.OneFetch ∧ (w.Over n ∨ w.Stands n)

theorem Stands.made_stepCall (hone : w.source.OneFetch) (hw : w.Stands n) :
    (w.stepCall n true).Over n ∨ (w.stepCall n true).Stands n := by
  obtain ⟨c, hc, hunderway⟩ := hw
  obtain ⟨e, hparty, -⟩ := stepCall_of_running hc true
  have hsource : (w.stepCall n true).source = (c.step true w.source).2 := by rw [e]
  have hstep := Call.underway_step hone hunderway true
  rw [← hsource] at hstep
  cases hadvance : (c.step true w.source).1 with
  | done result =>
    rw [hadvance] at hparty
    exact .inl ⟨c, result, hparty⟩
  | more c' =>
    rw [hadvance] at hparty hstep
    cases hstep with
    | goesOn _ hunderway' => exact .inr ⟨c', hparty, hunderway'⟩
  | waiting h =>
    rw [hadvance] at hparty hstep
    have hsame : (w.stepCall n true).source = w.source := by
      generalize (w.stepCall n true).source = t at hstep
      cases hstep
      rfl
    exact .inr ⟨c, hparty, by rw [hsame]; exact hunderway⟩

theorem Made.soloTurn (b : Backend) (hw : w.Made n) (t : Turn) : (w.soloTurn b n t).Made n := by
  obtain ⟨hone, hw⟩ := hw
  refine ⟨?_, ?_⟩
  · obtain ⟨ms, hms⟩ := soloTurn_eq_run b n w t
    rw [hms]
    exact source_run (fun hstep hs => hs.step hstep) hone ms
  · cases t with
    | background => exact hw.imp (over_tend b) (stands_tend b)
    | consumer =>
      rcases hw with ⟨c, result, hc⟩ | hstands
      · refine .inl ⟨c, result, ?_⟩
        show (w.stepCall n true).parties[n]? = _
        simp [World.stepCall, hc]
      · exact hstands.made_stepCall hone

theorem Made.solo (hw : w.Made n) (turns : Nat → Turn) (i : Nat) : (w.solo b n turns i).Made n := by
  induction i with
  | zero => exact hw
  | succ i ih => exact ih.soloTurn b (turns i)

variable {turns : Nat → Turn}

/-- Both getting their turns, the call comes to its end or to a place of its course. -/
theorem Made.settles (hw : w.Made n) (hfair : Fair turns) :
    ∃ i, (w.solo b n turns i).Settled n := by
  have hstep : ∀ v : World, v.Made n → ¬ v.Settled n →
      (v.stepCall n true).Settled n ∨ (v.stepCall n true).joinLag n < v.joinLag n := by
    rintro v ⟨hone, hover | hstands⟩ hnot
    · exact absurd (.inl hover) hnot
    · exact (hstands.stepCall hone hnot).imp_right And.right
  refine hfair.counts_down (World.soloTurn b n) (fun _ => rfl) (P := fun v => v.Made n)
    (Q := fun v => v.Settled n) (joinLag n) (hw.solo turns) ?_ ?_
  · intro v t hv hnot
    cases t with
    | consumer => exact .inr (hstep v hv hnot)
    | background => exact (joinLag_tend b hv.1).imp_right .inr
  · intro v hv hnot
    exact ⟨.consumer, hstep v hv hnot⟩

end World

/-! ## The course -/

/-- From each call for a page on that is made while pages are left, some reply is not an empty page
with a page behind it. -/
def Backend.EmptyPagesEnd (b : Backend) (front : List Page) : Prop :=
  ∀ n, Chain.ended (b.pagesAfter front n) = false →
    ∃ j reply, b.FirstStop n (Chain.token (b.pagesAfter front n)) j reply

namespace Backend

/-- How far the pages have come with the given number of answered calls. -/
structure HasCome (b : Backend) (front : List Page) (p : Progress) (n : Nat) : Prop where
  next : p.next = Chain.token (b.pagesAfter front n)
  complete : p.complete = Chain.ended (b.pagesAfter front n)

variable {b : Backend} {front : List Page} {goal : Goal} {p : Progress} {n : Nat}

theorem HasCome.apply (hp : b.HasCome front p n) {page : Page}
    (hreply : b.answer n p.next = .page page) : b.HasCome front (p.apply page) (n + 1) := by
  have hpages : b.pagesAfter front (n + 1) = b.pagesAfter front n ++ [page] := by
    rw [pagesAfter, ← hp.next, hreply]
    rfl
  constructor
  · rw [hpages, Chain.token_concat]
    rfl
  · rw [hpages, Chain.ended_concat]
    rfl

theorem EmptyPagesEnd.look (hb : b.EmptyPagesEnd front) (hgoal : goal.asksRow = true)
    (hp : b.HasCome front p n) : ∃ r q m, b.Course .look goal p n r q m := by
  cases hglance : goal.glance p with
  | mk outcome p' =>
    cases outcome with
    | inl a => exact ⟨_, _, _, .answer hglance⟩
    | inr goal' =>
      obtain ⟨rfl, rfl, hbuffer, hcomplete⟩ := Call.glance_of_needs hgoal hglance
      obtain ⟨j, reply, hstop⟩ := hb n (hp.complete.symm.trans hcomplete)
      obtain ⟨⟨q, hone⟩, q', hexhausted⟩ := hstop.course hbuffer hcomplete hp.next
      cases goal' with
      | one => exact ⟨_, _, _, hone⟩
      | exhausted => exact ⟨_, _, _, hexhausted⟩
      | _ => cases hgoal

theorem EmptyPagesEnd.fetch (hb : b.EmptyPagesEnd front) (hgoal : goal.asksRow = true)
    (hp : b.HasCome front p n) : ∃ r q m, b.Course .fetch goal p n r q m := by
  cases hreply : b.answer n p.next with
  | page page =>
    obtain ⟨r, q, m, hcourse⟩ := hb.look hgoal (hp.apply hreply)
    exact ⟨r, q, m, .page hreply hcourse⟩
  | failure e =>
    have hfails : (b.answer n p.next).settlement = .error e := by rw [hreply]; rfl
    exact ⟨_, _, _, .fails hfails⟩
  | crash =>
    have hfails : (b.answer n p.next).settlement = .error .taskCrashed := by rw [hreply]; rfl
    exact ⟨_, _, _, .fails hfails⟩

end Backend

namespace World

variable {b : Backend} {front : List Page} {w : World} {n k m : Nat} {turns : Nat → Turn}

theorem solo_add (b : Backend) (n : Nat) (turns : Nat → Turn) (w : World) (i j : Nat) :
    w.solo b n turns (i + j) = (w.solo b n turns i).solo b n (fun k => turns (i + k)) j := by
  induction j with
  | zero => rfl
  | succ j ih => rw [← Nat.add_assoc, solo, ih, solo]

theorem OnChain.hasCome (hw : OnChain b front k w) : b.HasCome front w.source.progress k :=
  ⟨by rw [hw.next, hw.applied], by rw [hw.complete, hw.applied]⟩

/-- A place of a call that is underway has a course before it. -/
theorem At.leads (hb : b.EmptyPagesEnd front) (hchain : OnChain b front k w) {place : Place}
    {p : Progress} (hat : w.At n place p m) (hw : w.Over n ∨ w.Stands n) :
    ∃ r q m', b.Leads place p m r q m' := by
  have hasks : ∀ {goal : Goal} {phase : Phase},
      w.parties[n]? = some (.running ⟨goal, phase⟩) → goal.asksRow = true := by
    intro goal phase hc
    rcases hw with ⟨c, result, hc'⟩ | ⟨c, hc', hgoal, -⟩ <;> rw [hc] at hc' <;> cases hc'
    exact hgoal
  have hcome := hchain.hasCome
  cases hat with
  | looks hc hslot =>
    rw [hchain.size_calls hslot]
    exact hb.look (hasks hc) hcome
  | requests hc hslot _ =>
    rw [hchain.size_calls hslot]
    exact hb.fetch (hasks hc) hcome
  | queued hc hslot hf =>
    rw [(hchain.size_calls_of_queued hslot (congrArg (Option.map Fetch.stage) hf)).1]
    exact hb.fetch (hasks hc) hcome
  | calling hc _ hf _ =>
    obtain ⟨rfl, -, -⟩ := hchain.answer hf
    exact hb.fetch (hasks hc) hcome
  | arrived hc hslot _ =>
    rw [hchain.size_calls hslot]
    exact hb.look (hasks hc) hcome
  | failed _ _ _ => exact ⟨_, _, _, rfl, rfl, rfl⟩
  | done _ _ => exact ⟨_, _, _, rfl, rfl, rfl⟩

/-- With both it and the task in the slot getting their turns, the call comes back, whatever is in
flight when it is made. -/
theorem Made.comes_back (hb : b.EmptyPagesEnd front) (hchain : OnChain b front k w)
    (hw : w.Made n) (hfair : Fair turns) : ∃ i, (w.solo b n turns i).Over n := by
  obtain ⟨i, hover | ⟨place, p, m, hat⟩⟩ := hw.settles (b := b) hfair
  · exact ⟨i, hover⟩
  · have hmade := hw.solo (b := b) turns i
    obtain ⟨ms, hms⟩ := solo_eq_run b n turns w i
    obtain ⟨k', hchain'⟩ := hchain.run ms
    rw [← hms] at hchain'
    obtain ⟨r, q, m', hleads⟩ := hat.leads hb hchain' hmade.2
    have hheads : Heads b (w.solo b n turns i) n place p m :=
      ⟨hmade.1, place, p, m, hat, fun r q m => Iff.rfl⟩
    obtain ⟨j, c, result, hfinished⟩ := hheads.finishes hleads (hfair.shift i)
    rw [← solo_add] at hfinished
    exact ⟨i + j, c, result, hfinished⟩

end World

end PagedTraversal
