import PagedTraversal.Proofs.Paging.Failure
import PagedTraversal.Proofs.ResultSet.Retry

/-!
# PagedTraversal.Proofs.ResultSet.Streaming

A consumer that goes over one stream, which may request pages ahead, with fetches that may fail.

* `Call.Sole`: where the only call at a source can stand; `Call.sole_step`: what a step of it comes
  to.
* `Consumption.Stride`: all that a turn of the consumer can come to; `Consumption.Streaming.stride`:
  every turn of it is one of these.
* `Consumption.Streaming.after`: what stands between two turns.
-/

namespace PagedTraversal

namespace Source

/-- A step that ends no fetch: whatever is in flight stays as it is, or a fetch is put into the empty
slot. -/
def KeepsSlot (s t : Source) : Prop :=
  (t.inFlight = s.inFlight ∧ (s.inFlight ≠ none → t.fetches = s.fetches)) ∨
  (s.inFlight = none ∧ t.slotStage = some .queued)

theorem KeepsSlot.refl (s : Source) : s.KeepsSlot s := .inl ⟨rfl, fun _ => rfl⟩

/-- With a runtime a request gives out the fetch in the slot, unless all pages are there. -/
theorem OneFetch.request_slot {s : Source} (hs : OneFetch s) :
    s.KeepsSlot (s.request true).2 ∧
      ((s.request true).2.inFlight = some (s.request true).1 ∨
        (s.request true).2.inFlight = none ∧ s.progress.complete = true) := by
  rcases s.request_cases true with ⟨settlement, hok, e⟩ | ⟨h, -, hslot, e⟩ | ⟨-, hslot, -, e⟩ <;> rw [e]
  · have hcomplete := (hok rfl).1
    have hslot := hs.inFlight_of_complete hcomplete
    exact ⟨.inl ⟨rfl, fun h => absurd hslot h⟩, .inr ⟨hslot, hcomplete⟩⟩
  · exact ⟨.inl ⟨rfl, fun _ => rfl⟩, .inl hslot⟩
  · exact ⟨.inr ⟨hslot, by simp [slotStage, log]⟩, .inl rfl⟩

end Source

namespace Call

/-- Where the call of the only consumer of a source can stand. A fetch in flight is the one that the
call waits for. While the call is about to request a page it has found the buffer dry, and only the
end of a fetch can have changed that. -/
def Sole (c : Call) (s : Source) : Prop :=
  c.goal = .one ∧
  match c.phase with
  | .request => s.inFlight ≠ none → s.progress.buffer = []
  | .wait h => h < s.fetches.size ∧ (s.inFlight = none ∨ s.inFlight = some h)
  | _ => True

/-- How far the call is from coming back or from waiting, when no page arrives. -/
def lead (c : Call) : Nat :=
  match c.phase with
  | .measure _ => 7
  | .compare _ _ => 6
  | .prefetch => 5
  | .look => 4
  | .request => 3
  | .wait _ => 2

/-- A wait comes to an end with its fetch, and leaves the slot empty. -/
theorem sole_wait {c : Call} {s : Source} {h : Handle} (hone : s.OneFetch) (hc : c.Sole s)
    (hphase : c.phase = .wait h) :
    (c.step true s = (.waiting h, s) ∧ s.Running h) ∨
    (s.outcome? h = some (.ok ()) ∧ (c.step true s).1 = .more ⟨.one, .look⟩ ∧
      (c.step true s).2.inFlight = none) ∨
    ∃ e, s.outcome? h = some (.error e) ∧ (c.step true s).1 = .done (.error e) ∧
      (c.step true s).2.inFlight = none := by
  obtain ⟨hgoal, hplace⟩ := hc
  rw [hphase] at hplace
  have hfst := step_of_wait hphase true s
  rw [hone.poll_outcome] at hfst
  rcases alone_wait hone hgoal hphase hplace.1 hplace.2 with hwaits | ⟨e, hslot, -⟩ | ⟨err, e, hslot, -⟩
  · exact .inl hwaits
  · refine .inr (.inl ⟨?_, by rw [e], by rw [e]; exact hslot⟩)
    rw [e] at hfst
    split at hfst <;> first | assumption | cases hfst
  · refine .inr (.inr ⟨err, ?_, by rw [e], by rw [e]; exact hslot⟩)
    rw [e] at hfst
    split at hfst
    · cases hfst
    · cases hfst
    · next err' hr =>
      cases hfst
      exact hr

/-- A step goes on without hearing of a fetch, waits for one or hears of its end, or comes back with
the first row or with the end of the rows. -/
theorem sole_step {c : Call} {s : Source} (hone : s.OneFetch) (hc : c.Sole s) :
    (∃ c', (c.step true s).1 = .more c' ∧ c'.Sole (c.step true s).2 ∧ c'.lead < c.lead ∧
      (c.step true s).2.progress.buffer = s.progress.buffer ∧ s.KeepsSlot (c.step true s).2 ∧
      (∀ h, c.phase ≠ .wait h) ∧ ∀ h, c'.phase = .wait h → c.phase = .request ∧
        ((c.step true s).2.inFlight = some h ∨ s.progress.complete = true)) ∨
    (∃ h, c.phase = .wait h) ∨
    (∃ row, c.phase = .look ∧ (c.step true s).1 = .done (.ok (.one (some row))) ∧
      s.progress.buffer = row :: (c.step true s).2.progress.buffer ∧
      s.KeepsSlot (c.step true s).2) ∨
    (c.phase = .look ∧ (c.step true s).1 = .done (.ok (.one none)) ∧
      s.progress.complete = true ∧ (c.step true s).2 = s) := by
  obtain ⟨goal, phase⟩ := c
  obtain ⟨rfl, hplace⟩ := hc
  have hsame := Source.KeepsSlot.refl s
  cases phase with
  | measure threshold =>
    exact .inl ⟨_, rfl, ⟨rfl, trivial⟩, by simp [lead], rfl, hsame, by simp, by simp⟩
  | compare threshold available =>
    refine .inl ?_
    simp only [step]
    split
    · exact ⟨_, rfl, ⟨rfl, trivial⟩, by simp [lead], rfl, .inl ⟨rfl, fun _ => rfl⟩, by simp, by simp⟩
    · exact ⟨_, rfl, ⟨rfl, trivial⟩, by simp [lead], rfl, hsame, by simp, by simp⟩
  | prefetch =>
    exact .inl ⟨_, rfl, ⟨rfl, trivial⟩, by simp [lead], by simp [step, Source.progress_request],
      hone.request_slot.1, by simp, by simp⟩
  | look =>
    simp only [step, look, Source.takeRow]
    cases hb : s.progress.buffer with
    | cons row rest => exact .inr (.inr (.inl ⟨row, trivial, rfl, rfl, .inl ⟨rfl, fun _ => rfl⟩⟩))
    | nil =>
      cases hcomplete : s.progress.complete with
      | true => exact .inr (.inr (.inr (by simp [Source.whenEmpty, hcomplete])))
      | false =>
        refine .inl ⟨⟨.one, .request⟩, by simp [Source.whenEmpty, hcomplete, goTo], ?_⟩
        simpa [Source.whenEmpty, hcomplete, Sole, lead, hb] using hsame
  | request =>
    obtain ⟨hsize, -⟩ := s.request_returned hone
    obtain ⟨hkeeps, hslot⟩ := hone.request_slot
    refine .inl ⟨⟨.one, .wait (s.request true).1⟩, rfl, ⟨rfl, hsize, ?_⟩, by simp [lead],
      by simp [step, Source.progress_request], hkeeps, by simp, ?_⟩
    · exact hslot.symm.imp And.left id
    · intro h e
      cases e
      exact ⟨rfl, hslot.imp id And.right⟩
  | wait h => exact .inr (.inl ⟨h, rfl⟩)

end Call

namespace ResultSet

namespace Consumption

variable {b : Backend} {front : List Page} {s t : Consumption}

/-- One call of the first cursor after another. -/
def streaming : Nat → Way := fun _ => .next 0

/-- The stream has yielded the end or a failed fetch. -/
def finished (s : Consumption) : Bool := (s.cursors 0).finished

/-- The call that the stream has made and not received. -/
def Calls (s : Consumption) (c : Call) : Prop :=
  ∃ n, s.status = .asking (.next 0) n ∧ s.world.parties[n]? = some (.running c)

theorem Calls.unique {c c' : Call} (h : s.Calls c) (h' : s.Calls c') : c = c' := by
  obtain ⟨n, hstatus, hc⟩ := h
  obtain ⟨m, hstatus', hc'⟩ := h'
  rw [hstatus] at hstatus'
  cases hstatus'
  rw [hc] at hc'
  cases hc'
  rfl

theorem Calls.not_idle {c : Call} (h : s.Calls c) : s.status ≠ .idle := by
  obtain ⟨n, hstatus, -⟩ := h
  simp [hstatus]

theorem Calls.not_ended {c : Call} (h : s.Calls c) : s.status ≠ .ended := by
  obtain ⟨n, hstatus, -⟩ := h
  simp [hstatus]

/-! ## Turns as moves -/

theorem world_receive (s : Consumption) (way : Way) (r : Except ResultError Delivery) :
    (s.receive way r).world = s.world := by
  unfold receive
  split
  · rfl
  · rfl
  · dsimp only
    split <;> rfl
  · rfl
  · rfl

/-- What a turn does to the world is a list of moves. -/
theorem exists_moves (b : Backend) (plan : Nat → Way) (s : Consumption) (t : Turn) :
    ∃ ms, (s.turn b plan t).world = s.world.run b ms := by
  cases t with
  | background =>
    rcases s.world.tend_eq_move b with e | ⟨m, e⟩
    · exact ⟨[], e⟩
    · exact ⟨[m], e⟩
  | consumer =>
    rw [turn, consume]
    split
    · unfold ask
      split
      · exact ⟨[.ask .one], rfl⟩
      · exact ⟨[.ask .all], rfl⟩
      · next i _ =>
        cases hfinished : (s.cursors i).finished with
        | false => exact ⟨[.ask (.next (s.cursors i).threshold)], by simp [Cursor.nextCall?, hfinished]; rfl⟩
        | true => exact ⟨[], by simp [Cursor.nextCall?, hfinished]; rfl⟩
    · next way n _ =>
      dsimp only
      split
      · exact ⟨[.step n true, .deliver n], world_receive _ _ _⟩
      · exact ⟨[.step n true], rfl⟩
    · exact ⟨[], rfl⟩

/-- A step of a call makes no call for a page. -/
theorem calls_stepCall (w : World) (n : Nat) :
    (w.stepCall n true).source.calls = w.source.calls ∧
      (w.stepCall n true).source.progress.next = w.source.progress.next ∧
      (w.stepCall n true).source.progress.complete = w.source.progress.complete := by
  rcases w.stepCall_cases n true with e | ⟨c, -, e⟩ <;> rw [e]
  · exact ⟨rfl, rfl, rfl⟩
  · have hsame := Source.SameChain.of_act (c.step_act true w.source)
    exact ⟨hsame.calls, hsame.next, hsame.complete⟩

/-- A turn of the consumer makes no call for a page, and brings none. -/
theorem calls_consume (b : Backend) (plan : Nat → Way) (s : Consumption) :
    (s.consume b plan).world.source.calls = s.world.source.calls ∧
      (s.consume b plan).world.source.progress.next = s.world.source.progress.next ∧
      (s.consume b plan).world.source.progress.complete = s.world.source.progress.complete := by
  rw [consume]
  split
  · unfold ask
    split
    · exact ⟨rfl, rfl, rfl⟩
    · exact ⟨rfl, rfl, rfl⟩
    · split <;> exact ⟨rfl, rfl, rfl⟩
  · next way n _ =>
    dsimp only
    split
    · obtain ⟨events, -, hdeliver⟩ := (s.world.stepCall n true).deliver_eq n
      rw [world_receive]
      show ((s.world.stepCall n true).deliver n).source.calls = _ ∧
        ((s.world.stepCall n true).deliver n).source.progress.next = _ ∧
        ((s.world.stepCall n true).deliver n).source.progress.complete = _
      rw [hdeliver]
      exact calls_stepCall s.world n
    · exact calls_stepCall s.world n
  · exact ⟨rfl, rfl, rfl⟩

/-! ## The consumer's turns -/

/-- What a turn of the consumer comes to. -/
inductive Stride (s t : Consumption) : Prop where
  | ask (c : Call) (hidle : s.status = .idle) (hopen : s.finished = false) (hcalls : t.Calls c)
      (hsole : c.Sole t.world.source) (hlead : c.lead ≤ 7) (hphase : ∀ h, c.phase ≠ .wait h)
      (hsource : t.world.source = s.world.source) (hcursor : t.finished = s.finished)
      (houtcomes : t.outcomes = s.outcomes)
  | close (hidle : s.status = .idle) (hfinished : s.finished = true)
      (hsame : t = { s with status := .ended })
  | goOn (c c' : Call) (hcalls : s.Calls c) (hcalls' : t.Calls c')
      (hsole : c'.Sole t.world.source) (hlead : c'.lead < c.lead)
      (hphase : ∀ h, c.phase ≠ .wait h)
      (hwait : ∀ h, c'.phase = .wait h → c.phase = .request ∧
        (t.world.source.inFlight = some h ∨ s.world.source.progress.complete = true))
      (hbuffer : t.world.source.progress.buffer = s.world.source.progress.buffer)
      (hslot : s.world.source.KeepsSlot t.world.source) (hcursor : t.finished = s.finished)
      (houtcomes : t.outcomes = s.outcomes)
  | wait (c : Call) (h : Handle) (hcalls : s.Calls c) (hphase : c.phase = .wait h)
      (hrunning : s.world.source.Running h) (hsame : t = s)
  | lookAgain (c c' : Call) (h : Handle) (hcalls : s.Calls c) (hphase : c.phase = .wait h)
      (houtcome : s.world.source.outcome? h = some (.ok ())) (hcalls' : t.Calls c')
      (hsole : c'.Sole t.world.source) (hcursor : t.finished = s.finished)
      (houtcomes : t.outcomes = s.outcomes)
  | fail (c : Call) (h : Handle) (e : FetchError) (hcalls : s.Calls c) (hphase : c.phase = .wait h)
      (houtcome : s.world.source.outcome? h = some (.error e)) (hidle : t.status = .idle)
      (hbuffer : t.world.source.progress.buffer = s.world.source.progress.buffer)
      (hslot : t.world.source.inFlight = none) (hfinished : t.finished = true)
      (houtcomes : t.outcomes = s.outcomes ++ [.error (.fetch e)])
  | row (c : Call) (row : Row) (hcalls : s.Calls c) (hphase : c.phase = .look)
      (hidle : t.status = .idle)
      (hbuffer : s.world.source.progress.buffer = row :: t.world.source.progress.buffer)
      (hslot : s.world.source.KeepsSlot t.world.source) (hcursor : t.finished = s.finished)
      (houtcomes : t.outcomes = s.outcomes ++ [row.outcome])
  | finish (c : Call) (hcalls : s.Calls c) (hphase : c.phase = .look)
      (hcomplete : s.world.source.progress.complete = true) (hended : t.status = .ended)
      (hbuffer : t.world.source.progress.buffer = s.world.source.progress.buffer)
      (hslot : t.world.source.inFlight = s.world.source.inFlight) (hfinished : t.finished = true)
  | rest (hended : s.status = .ended) (hsame : t = s)

/-- What stands between two turns. Until it has yielded the end or a failed fetch, the stream has
yielded no failure; and after that it makes no call, and no fetch is in flight. -/
structure Streaming (b : Backend) (front : List Page) (s : Consumption) : Prop where
  chain : ∃ k, World.OnChain b front k s.world
  going : s.finished = false → (s.status = .idle ∨ ∃ c, s.Calls c ∧ c.Sole s.world.source) ∧
    ∀ outcome ∈ s.outcomes, isFetchFailure outcome = false
  closed : s.finished = true → (s.status = .idle ∨ s.status = .ended) ∧
    s.world.source.inFlight = none

theorem stride_ask (hidle : s.status = .idle) (hopen : s.finished = false) :
    Stride s (s.consume b streaming) := by
  have hask : s.ask streaming = s.begin (.next 0) (.next (s.cursors 0).threshold) := by
    have hopen' : (s.cursors 0).finished = false := hopen
    simp [ask, streaming, Cursor.nextCall?, hopen']
  rw [consume_of_idle streaming hidle, hask]
  have hcalls : (s.begin (.next 0) (.next (s.cursors 0).threshold)).Calls
      (.next (s.cursors 0).threshold) := ⟨_, rfl, by simp [begin]⟩
  cases hthreshold : (s.cursors 0).threshold with
  | none =>
    rw [hthreshold] at hcalls
    exact .ask _ hidle hopen hcalls ⟨rfl, trivial⟩ (by simp [Call.next, Call.one, Call.lead])
      (by simp [Call.next, Call.one]) rfl rfl rfl
  | some threshold =>
    rw [hthreshold] at hcalls
    exact .ask _ hidle hopen hcalls ⟨rfl, trivial⟩ (by simp [Call.next, Call.lead])
      (by simp [Call.next]) rfl rfl rfl

theorem stride_step {c : Call} (hone : s.world.source.OneFetch) (hcalls : s.Calls c)
    (hsole : c.Sole s.world.source) : Stride s (s.consume b streaming) := by
  obtain ⟨n, hstatus, hc⟩ := hcalls
  obtain ⟨hstep, hparty, -⟩ := World.stepCall_of_running hc true
  obtain ⟨events, -, hdeliver⟩ := (s.world.stepCall n true).deliver_eq n
  have hsource : (s.world.stepCall n true).source = (c.step true s.world.source).2 := by rw [hstep]
  rcases Call.sole_step hone hsole with
    ⟨c', hmore, hsole', hlead, hbuffer, hslot, hphase, hwait⟩ | ⟨h, hphase⟩ |
    ⟨row, hphase, hdone, hbuffer, hslot⟩ | ⟨hphase, hdone, hcomplete, hsame⟩
  · rw [consume_of_not_done streaming hstatus hc (by simp [hmore])]
    rw [hmore] at hparty
    rw [← hsource] at hsole' hbuffer hslot hwait
    exact .goOn c c' ⟨n, hstatus, hc⟩ ⟨n, hstatus, hparty⟩ hsole' hlead hphase hwait hbuffer hslot
      rfl rfl
  · rcases Call.sole_wait hone hsole hphase with ⟨hwaits, hrunning⟩ | ⟨hr, hmore, hslot⟩ |
      ⟨e, hr, hdone, hslot⟩
    · rw [consume_of_not_done streaming hstatus hc (by simp [hwaits]),
        World.stepCall_of_waiting hc hwaits (by simp [Call.takes, hphase])]
      exact .wait c h ⟨n, hstatus, hc⟩ hphase hrunning rfl
    · rw [consume_of_not_done streaming hstatus hc (by simp [hmore])]
      rw [hmore] at hparty
      exact .lookAgain c _ h ⟨n, hstatus, hc⟩ hphase hr ⟨n, hstatus, hparty⟩ ⟨rfl, trivial⟩ rfl rfl
    · have hbuffer : (c.step true s.world.source).2.progress = s.world.source.progress := by
        rw [Call.step_source_of_wait hphase]
        exact Source.progress_poll h s.world.source
      rw [consume_of_done streaming hstatus hc hdone, hdeliver, hstep]
      exact .fail c h e ⟨n, hstatus, hc⟩ hphase hr rfl (congrArg Progress.buffer hbuffer) hslot
        (by simp [finished, receive, deliver, Cursor.advance, take, ResultError.isFetch])
        (by simp [receive, deliver, Cursor.advance, take])
  · rw [consume_of_done streaming hstatus hc hdone, receive_found _ rfl, hdeliver, hstep]
    exact .row c row ⟨n, hstatus, hc⟩ hphase rfl hbuffer hslot rfl rfl
  · rw [consume_of_done streaming hstatus hc hdone, hdeliver, hstep, hsame]
    exact .finish c ⟨n, hstatus, hc⟩ hphase hcomplete rfl rfl rfl
      (by simp [finished, receive, deliver, Cursor.advance])

/-- Every turn of the consumer is a stride. -/
theorem Streaming.stride (hs : s.Streaming b front) : Stride s (s.consume b streaming) := by
  obtain ⟨k, hchain⟩ := hs.chain
  cases hfinished : s.finished with
  | true =>
    obtain ⟨hidle | hended, -⟩ := hs.closed hfinished
    · have hclose : s.consume b streaming = { s with status := .ended } := by
        have hfinished' : (s.cursors 0).finished = true := hfinished
        rw [consume_of_idle streaming hidle]
        simp [ask, streaming, Cursor.nextCall?, hfinished']
      exact .close hidle hfinished hclose
    · exact .rest hended (by simp [consume, hended])
  | false =>
    obtain ⟨hidle | ⟨c, hcalls, hsole⟩, -⟩ := hs.going hfinished
    · exact stride_ask hidle hfinished
    · exact stride_step hchain.oneFetch hcalls hsole

/-! ## All turns -/

/-- The task in the slot takes nothing from the place where the call stands. -/
theorem sole_tend (b : Backend) {w : World} (hone : w.source.OneFetch) {c : Call}
    (hsole : c.Sole w.source) : c.Sole (w.tend b).source := by
  obtain ⟨hgoal, hplace⟩ := hsole
  have hsize := (w.tend_calls b).2.2
  -- the slot keeps its fetch, with no page applied, or is empty
  have hslot : (w.tend b).source.inFlight = none ∨
      (w.tend b).source.inFlight = w.source.inFlight ∧
        (w.tend b).source.progress = w.source.progress := by
    cases hslot : w.source.inFlight with
    | none => exact .inl (by rw [World.tend_of_empty b hslot, hslot])
    | some h =>
      rcases World.tend_cases (b := b) hone hslot with ⟨-, -, -, hslot', hprogress⟩ |
        ⟨-, -, -, hslot'⟩ | ⟨-, hsame⟩
      · exact .inr ⟨hslot', hprogress⟩
      · exact hslot'
      · rw [hsame]
        exact .inr ⟨hslot, rfl⟩
  refine ⟨hgoal, ?_⟩
  cases hphase : c.phase with
  | request =>
    rw [hphase] at hplace
    intro hfilled
    rcases hslot with hempty | ⟨hslot, hprogress⟩
    · exact absurd hempty hfilled
    · rw [hprogress]
      exact hplace (hslot ▸ hfilled)
  | wait h =>
    rw [hphase] at hplace
    refine ⟨hsize ▸ hplace.1, ?_⟩
    rcases hslot with hempty | ⟨hslot, -⟩
    · exact .inl hempty
    · rw [hslot]
      exact hplace.2
  | _ => trivial

section Keeping

variable (hchain : ∃ k, World.OnChain b front k t.world)
include hchain

theorem Streaming.of_going (hopen : t.finished = false)
    (hplace : t.status = .idle ∨ ∃ c, t.Calls c ∧ c.Sole t.world.source)
    (hclean : ∀ outcome ∈ t.outcomes, isFetchFailure outcome = false) : t.Streaming b front := by
  refine ⟨hchain, fun _ => ⟨hplace, hclean⟩, fun hfinished => ?_⟩
  rw [hopen] at hfinished
  cases hfinished

theorem Streaming.of_closed (hfinished : t.finished = true)
    (hstatus : t.status = .idle ∨ t.status = .ended) (hslot : t.world.source.inFlight = none) :
    t.Streaming b front := by
  refine ⟨hchain, fun hopen => ?_, fun _ => ⟨hstatus, hslot⟩⟩
  rw [hfinished] at hopen
  cases hopen

end Keeping

theorem Streaming.open_of_calls (hs : s.Streaming b front) {c : Call} (hcalls : s.Calls c) :
    s.finished = false := by
  cases hfinished : s.finished with
  | false => rfl
  | true =>
    obtain ⟨hidle | hended, -⟩ := hs.closed hfinished
    · exact absurd hidle hcalls.not_idle
    · exact absurd hended hcalls.not_ended

theorem Streaming.sole (hs : s.Streaming b front) {c : Call} (hcalls : s.Calls c) :
    c.Sole s.world.source := by
  obtain ⟨hidle | ⟨c', hcalls', hsole⟩, -⟩ := hs.going (hs.open_of_calls hcalls)
  · exact absurd hidle hcalls.not_idle
  · rw [hcalls.unique hcalls']
    exact hsole

theorem Streaming.finished_of_ended (hs : s.Streaming b front) (hended : s.status = .ended) :
    s.finished = true := by
  cases hfinished : s.finished with
  | true => rfl
  | false =>
    obtain ⟨hidle | ⟨c, hcalls, -⟩, -⟩ := hs.going hfinished
    · rw [hended] at hidle
      cases hidle
    · exact absurd hended hcalls.not_ended

theorem Streaming.chain_turn (hs : s.Streaming b front) (turn : Turn) :
    ∃ k, World.OnChain b front k (s.turn b streaming turn).world := by
  obtain ⟨k, hchain⟩ := hs.chain
  obtain ⟨ms, hms⟩ := s.exists_moves b streaming turn
  rw [hms]
  exact hchain.run ms

theorem Streaming.tend (hs : s.Streaming b front) :
    (s.turn b streaming .background).Streaming b front := by
  obtain ⟨k, hchain⟩ := hs.chain
  refine ⟨hs.chain_turn .background, fun hopen => ?_, fun hfinished => ?_⟩
  · obtain ⟨hidle | ⟨c, ⟨n, hstatus, hc⟩, hsole⟩, hclean⟩ := hs.going hopen
    · exact ⟨.inl hidle, hclean⟩
    · refine ⟨.inr ⟨c, ⟨n, hstatus, ?_⟩, sole_tend b hchain.oneFetch hsole⟩, hclean⟩
      rw [turn, (s.world.tend_calls b).1]
      exact hc
  · obtain ⟨hstatus, hslot⟩ := hs.closed hfinished
    rw [turn, World.tend_of_empty b hslot]
    exact ⟨hstatus, hslot⟩

theorem Streaming.consume (hs : s.Streaming b front) :
    (s.consume b streaming).Streaming b front := by
  obtain ⟨k, hchain⟩ := hs.chain
  have hchain' := hs.chain_turn .consumer
  rw [turn] at hchain'
  have hclean {c : Call} (hcalls : s.Calls c) := (hs.going (hs.open_of_calls hcalls)).2
  -- while the stream goes on, a stride says where its call stands and what it has yielded
  cases hs.stride with
  | ask c hidle hopen hcalls hsole hlead hphase hsource hcursor houtcomes =>
    refine .of_going hchain' (hcursor.trans hopen) (.inr ⟨c, hcalls, hsole⟩) ?_
    rw [houtcomes]
    exact (hs.going hopen).2
  | close hidle hfinished hsame =>
    rw [hsame] at hchain' ⊢
    exact .of_closed hchain' hfinished (.inr rfl) (hs.closed hfinished).2
  | goOn c c' hcalls hcalls' hsole hlead hphase hwait hbuffer hslot hcursor houtcomes =>
    refine .of_going hchain' (hcursor.trans (hs.open_of_calls hcalls)) (.inr ⟨c', hcalls', hsole⟩) ?_
    rw [houtcomes]
    exact hclean hcalls
  | wait c h hcalls hphase hrunning hsame =>
    rw [hsame]
    exact hs
  | lookAgain c c' h hcalls hphase houtcome hcalls' hsole hcursor houtcomes =>
    refine .of_going hchain' (hcursor.trans (hs.open_of_calls hcalls)) (.inr ⟨c', hcalls', hsole⟩) ?_
    rw [houtcomes]
    exact hclean hcalls
  | fail c h e hcalls hphase houtcome hidle hbuffer hslot hfinished houtcomes =>
    exact .of_closed hchain' hfinished (.inl hidle) hslot
  | row c row hcalls hphase hidle hbuffer hslot hcursor houtcomes =>
    refine .of_going hchain' (hcursor.trans (hs.open_of_calls hcalls)) (.inl hidle) ?_
    rw [houtcomes]
    intro outcome houtcome
    rcases List.mem_append.1 houtcome with h | h
    · exact hclean hcalls outcome h
    · rw [List.mem_singleton.1 h]
      exact not_isFetchFailure_outcome row
  | finish c hcalls hphase hcomplete hended hbuffer hslot hfinished =>
    exact .of_closed hchain' hfinished (.inr hended)
      (hslot.trans (hchain.inFlight_of_complete hcomplete))
  | rest hended hsame =>
    rw [hsame]
    exact hs

theorem Streaming.turn (hs : s.Streaming b front) (t : Turn) :
    (s.turn b streaming t).Streaming b front := by
  cases t with
  | background => exact hs.tend
  | consumer => exact hs.consume

theorem Streaming.start (b : Backend) (thresholds : Nat → Option Nat) (first : Option Page) :
    (Consumption.start thresholds first).Streaming b first.toList :=
  .of_going ⟨0, World.onChain_start b first⟩ rfl (.inl rfl) fun _ h => by cases h

theorem Streaming.after (hs : s.Streaming b front) (turns : Nat → Turn) (n : Nat) :
    (s.after b streaming turns n).Streaming b front := by
  induction n with
  | zero => exact hs
  | succ n ih => exact ih.turn (turns n)

end Consumption

end ResultSet

end PagedTraversal
