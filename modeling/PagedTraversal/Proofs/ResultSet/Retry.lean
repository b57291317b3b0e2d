import PagedTraversal.Proofs.Paging.Alone
import PagedTraversal.Proofs.ResultSet.Agreement

/-!
# PagedTraversal.Proofs.ResultSet.Retry

A consumer that asks for the next result again after each error. It makes all the calls there are,
so that each failure costs it one call and nothing else.

* `Consumption.Retrying`: what stands between two turns; `Retrying.turn`: every turn keeps it.
* `Consumption.Retrying.exists_reached`: under fair turns it comes as far as the answered calls
  bring rows.
-/

namespace PagedTraversal

namespace ResultSet

/-- A fetch has failed, as opposed to a row that does not decode. -/
def isFetchFailure : Except ResultError GraphValue → Bool
  | .error e => e.isFetch
  | .ok _ => false

namespace Consumption

/-- One call for the next result after another. -/
def oneByOne : Nat → Way := fun _ => .one

/-- What the consumer has got for rows, in order. -/
def received (s : Consumption) : List (Except ResultError GraphValue) :=
  s.outcomes.filter fun outcome => !isFetchFailure outcome

/-- No fetch is in flight, or the only call waits for it. At the end all pages are there and nothing
is buffered. -/
def Patient (s : Consumption) : Prop :=
  match s.status with
  | .idle => s.world.source.inFlight = none
  | .asking way n => way = .one ∧
      ∃ c, s.world.parties[n]? = some (.running c) ∧ c.Alone s.world.source
  | .ended => s.world.source.progress.buffer = [] ∧ s.world.source.progress.complete = true

structure Retrying (b : Backend) (front : List Page) (s : Consumption) : Prop where
  chain : ∃ k, World.OnChain b front k s.world
  accounts : s.world.Accounts
  ledger : s.received = s.world.takenRows.map Row.outcome
  patient : s.Patient

/-- What is left to do until `L` rows have been taken, when `K` calls bring them. -/
def remaining (K L : Nat) (s : Consumption) : Nat :=
  6 * (K - s.world.source.calls.size) + 2 * (L - s.world.takenRows.length) +
    match s.status with
    | .idle => 5
    | .asking _ n =>
      match s.world.parties[n]? with
      | some (.running c) => c.lag s.world.source
      | _ => 0
    | .ended => 0

def Reached (L : Nat) (s : Consumption) : Prop :=
  s.status = .ended ∨ L ≤ s.world.takenRows.length

/-- From `s` to `t` something was done. -/
def Nearer (K L : Nat) (s t : Consumption) : Prop :=
  t.Reached L ∨ t.remaining K L < s.remaining K L

variable {b : Backend} {front : List Page} {s t : Consumption}

theorem not_isFetchFailure_outcome (row : Row) : isFetchFailure row.outcome = false := by
  unfold Row.outcome
  cases row.decode <;> rfl

theorem received_take_row (s : Consumption) (row : Row) :
    (s.take row.outcome).received = s.received ++ [row.outcome] := by
  simp [received, take, not_isFetchFailure_outcome]

theorem received_take_fetch (s : Consumption) (e : FetchError) :
    (s.take (.error (.fetch e))).received = s.received := by
  simp [received, take, isFetchFailure, ResultError.isFetch]

theorem remaining_of_idle (hstatus : s.status = .idle) (K L : Nat) :
    s.remaining K L = 6 * (K - s.world.source.calls.size) +
      2 * (L - s.world.takenRows.length) + 5 := by
  simp [remaining, hstatus]

theorem remaining_of_running {way : Way} {n : Nat} {c : Call} (hstatus : s.status = .asking way n)
    (hc : s.world.parties[n]? = some (.running c)) (K L : Nat) :
    s.remaining K L = 6 * (K - s.world.source.calls.size) +
      2 * (L - s.world.takenRows.length) + c.lag s.world.source := by
  simp [remaining, hstatus, hc]

/-! ## The consumer's turns -/

theorem Retrying.ask (hs : s.Retrying b front) (hstatus : s.status = .idle) :
    (s.ask oneByOne).Retrying b front ∧ (s.ask oneByOne).world.takenRows = s.world.takenRows ∧
      ∀ K L, (s.ask oneByOne).remaining K L < s.remaining K L := by
  obtain ⟨k, hchain⟩ := hs.chain
  have hslot := hs.patient
  rw [Patient, hstatus] at hslot
  have hrunning : (s.ask oneByOne).world.parties[s.world.parties.length]? =
      some (.running .one) := by
    simp [Consumption.ask, oneByOne, begin]
  refine ⟨⟨hchain.move (.ask .one), hs.accounts.move (b := b) (.ask .one), hs.ledger, ?_⟩, rfl, ?_⟩
  · exact ⟨rfl, .one, hrunning, rfl, hslot⟩
  · intro K L
    have hasking : (s.ask oneByOne).status = .asking .one s.world.parties.length := rfl
    have hafter := remaining_of_running hasking hrunning K L
    rw [hafter, remaining_of_idle hstatus]
    exact Nat.add_lt_add_left (by simp [Call.lag, Call.one]) _

theorem Retrying.comeBack (hs : s.Retrying b front) {n : Nat} {c : Call}
    (hc : s.world.parties[n]? = some (.running c))
    (hworld : t.world = (s.world.stepCall n true).deliver n)
    (hreceived : t.received = s.received ++ (c.takes s.world.source).map Row.outcome)
    (hpatient : t.Patient) :
    t.Retrying b front ∧ t.world.takenRows = s.world.takenRows ++ c.takes s.world.source := by
  obtain ⟨k, hchain⟩ := hs.chain
  obtain ⟨k', hstepped⟩ := hchain.move (.step n true)
  have htaken := (World.deliver_stepCall hc).1
  rw [← hworld] at htaken
  refine ⟨⟨?_, ?_, ?_, hpatient⟩, htaken⟩
  · rw [hworld]
    exact hstepped.move (.deliver n)
  · rw [hworld]
    exact (hs.accounts.move (b := b) (.step n true)).move (b := b) (.deliver n)
  · rw [hreceived, hs.ledger, htaken, List.map_append]

/-- The call has come back with a row or an error, and the next one can be made. -/
theorem Retrying.comeBack_idle (hs : s.Retrying b front) {way : Way} {n : Nat} {c : Call}
    (hstatus : s.status = .asking way n) (hc : s.world.parties[n]? = some (.running c))
    (hworld : t.world = (s.world.stepCall n true).deliver n) (hidle : t.status = .idle)
    (hreceived : t.received = s.received ++ (c.takes s.world.source).map Row.outcome)
    (hempty : (c.step true s.world.source).2.inFlight = none)
    (hone : (c.takes s.world.source).length ≤ 1)
    (hlag : 5 < c.lag s.world.source + 2 * (c.takes s.world.source).length) :
    t.Retrying b front ∧ t.world.takenRows.length ≤ s.world.takenRows.length + 1 ∧
      ∀ K L, Nearer K L s t := by
  obtain ⟨-, hcalls, hslot, -⟩ := World.deliver_stepCall hc
  have hpatient : t.Patient := by
    rw [Patient, hidle, hworld]
    exact hslot.trans hempty
  obtain ⟨hretrying, htaken⟩ := hs.comeBack hc hworld hreceived hpatient
  have hlength : t.world.takenRows.length =
      s.world.takenRows.length + (c.takes s.world.source).length := by
    rw [htaken, List.length_append]
  refine ⟨hretrying, by omega, fun K L => ?_⟩
  by_cases hL : L ≤ s.world.takenRows.length
  · exact .inl (.inr (by omega))
  · refine .inr ?_
    rw [remaining_of_idle hidle, remaining_of_running hstatus hc, hlength, hworld, hcalls]
    omega

theorem Retrying.comeBack_ended (hs : s.Retrying b front) {n : Nat} {c : Call}
    (hc : s.world.parties[n]? = some (.running c))
    (hworld : t.world = (s.world.stepCall n true).deliver n) (hended : t.status = .ended)
    (hreceived : t.received = s.received) (htakes : c.takes s.world.source = [])
    (hdry : (c.step true s.world.source).2.progress.buffer = [])
    (hcomplete : (c.step true s.world.source).2.progress.complete = true) :
    t.Retrying b front ∧ t.world.takenRows.length ≤ s.world.takenRows.length + 1 ∧
      ∀ K L, Nearer K L s t := by
  obtain ⟨-, -, -, hprogress⟩ := World.deliver_stepCall hc
  have hpatient : t.Patient := by
    rw [Patient, hended, hworld, hprogress]
    exact ⟨hdry, hcomplete⟩
  obtain ⟨hretrying, htaken⟩ := hs.comeBack hc hworld (by simp [hreceived, htakes]) hpatient
  refine ⟨hretrying, ?_, fun K L => .inl (.inl hended)⟩
  rw [htaken, htakes, List.append_nil]
  omega

theorem Retrying.goOn (hs : s.Retrying b front) {n : Nat} {c c' : Call}
    (hstatus : s.status = .asking .one n) (hc : s.world.parties[n]? = some (.running c))
    (hmore : (c.step true s.world.source).1 = .more c')
    (halone : c'.Alone (c.step true s.world.source).2) (htakes : c.takes s.world.source = [])
    (hlag : c'.lag (c.step true s.world.source).2 < c.lag s.world.source) :
    (s.consume b oneByOne).Retrying b front ∧
      (s.consume b oneByOne).world.takenRows = s.world.takenRows ∧
      ∀ K L, (s.consume b oneByOne).remaining K L < s.remaining K L := by
  obtain ⟨k, hchain⟩ := hs.chain
  obtain ⟨hstep, hparty, htaken⟩ := World.stepCall_of_running hc true
  have hsource : (s.world.stepCall n true).source = (c.step true s.world.source).2 := by
    rw [hstep]
  have hcalls := (Source.SameChain.of_act (c.step_act true s.world.source)).calls
  rw [hmore] at hparty
  rw [htakes, List.append_nil] at htaken
  rw [consume_of_not_done oneByOne hstatus hc (by simp [hmore])]
  refine ⟨⟨hchain.move (.step n true), hs.accounts.move (b := b) (.step n true), ?_, ?_⟩,
    htaken, ?_⟩
  · rw [htaken]
    exact hs.ledger
  · rw [Patient, hstatus]
    exact ⟨rfl, c', hparty, hsource ▸ halone⟩
  · intro K L
    rw [remaining_of_running (s := { s with world := s.world.stepCall n true }) hstatus hparty,
      remaining_of_running hstatus hc, htaken, hsource, hcalls]
    omega

/-- A step of the only call does something, unless the call waits for a fetch that runs. -/
theorem Retrying.step (hs : s.Retrying b front) {way : Way} {n : Nat}
    (hstatus : s.status = .asking way n) :
    (s.consume b oneByOne).Retrying b front ∧
      (s.consume b oneByOne).world.takenRows.length ≤ s.world.takenRows.length + 1 ∧
      (s.consume b oneByOne = s ∧ (∃ h, s.world.source.Running h) ∨
        ∀ K L, Nearer K L s (s.consume b oneByOne)) := by
  obtain ⟨k, hchain⟩ := hs.chain
  have hpatient := hs.patient
  rw [Patient, hstatus] at hpatient
  obtain ⟨rfl, c, hc, halone⟩ := hpatient
  rcases Call.alone_step hchain.oneFetch halone with ⟨c', hmore, halone', htakes, hlag⟩ |
    ⟨h, hwaiting, htakes, hrunning⟩ | ⟨row, hdone, htakes, hempty, hlag⟩ |
    ⟨hdone, htakes, hdry, hcomplete⟩ | ⟨e, hdone, htakes, hempty, hlag⟩
  · obtain ⟨hretrying, htaken, hless⟩ := hs.goOn hstatus hc hmore halone' htakes hlag
    refine ⟨hretrying, ?_, .inr fun K L => .inr (hless K L)⟩
    rw [htaken]
    omega
  · rw [consume_of_not_done oneByOne hstatus hc (by simp [hwaiting]),
      World.stepCall_of_waiting hc hwaiting htakes]
    exact ⟨hs, Nat.le_succ _, .inl ⟨rfl, h, hrunning⟩⟩
  · rw [consume_of_done oneByOne hstatus hc hdone, receive_found _ rfl]
    obtain ⟨hretrying, htaken, hnearer⟩ := hs.comeBack_idle hstatus hc
      (t := take { s with world := (s.world.stepCall n true).deliver n } row.outcome) rfl rfl
      (by rw [received_take_row, htakes]; rfl) hempty (by simp [htakes]) (by simp [htakes, hlag])
    exact ⟨hretrying, htaken, .inr hnearer⟩
  · obtain ⟨cursors, hreceive⟩ := receive_ended
      { s with world := (s.world.stepCall n true).deliver n } (rfl : Way.one.kind = .one)
      (s.world.stepCall n true).source
    rw [consume_of_done oneByOne hstatus hc hdone, hreceive]
    obtain ⟨hretrying, htaken, hnearer⟩ := hs.comeBack_ended hc
      (t := ⟨(s.world.stepCall n true).deliver n, cursors, .ended, s.outcomes⟩) rfl rfl rfl htakes
      hdry hcomplete
    exact ⟨hretrying, htaken, .inr hnearer⟩
  · have hreceive : receive { s with world := (s.world.stepCall n true).deliver n } .one
        (deliver (.error e) (s.world.stepCall n true).source).1 =
        take { s with world := (s.world.stepCall n true).deliver n } (.error (.fetch e)) := rfl
    rw [consume_of_done oneByOne hstatus hc hdone, hreceive]
    obtain ⟨hretrying, htaken, hnearer⟩ := hs.comeBack_idle hstatus hc
      (t := take { s with world := (s.world.stepCall n true).deliver n } (.error (.fetch e)))
      rfl rfl (by rw [received_take_fetch, htakes]; simp [received]) hempty (by simp [htakes])
      (by simp [htakes, hlag])
    exact ⟨hretrying, htaken, .inr hnearer⟩

/-! ## The turns of the task in the slot -/

/-- A fetch is in flight only while the call waits for it, with nothing buffered. -/
theorem Retrying.of_inFlight (hs : s.Retrying b front) {h : Handle}
    (hslot : s.world.source.inFlight = some h) :
    ∃ n c, s.status = .asking .one n ∧ s.world.parties[n]? = some (.running c) ∧
      c.goal = .one ∧ c.phase = .wait h ∧ h < s.world.source.fetches.size ∧
      s.world.source.progress.buffer = [] := by
  obtain ⟨k, hchain⟩ := hs.chain
  have hpatient := hs.patient
  cases hstatus : s.status with
  | idle =>
    rw [Patient, hstatus, hslot] at hpatient
    cases hpatient
  | ended =>
    rw [Patient, hstatus] at hpatient
    rw [hchain.inFlight_of_complete hpatient.2] at hslot
    cases hslot
  | asking way n =>
    rw [Patient, hstatus] at hpatient
    obtain ⟨rfl, ⟨goal, phase⟩, hc, hgoal, halone⟩ := hpatient
    cases phase with
    | look =>
      have hempty : s.world.source.inFlight = none := halone
      rw [hslot] at hempty
      cases hempty
    | request =>
      have hempty := halone.1
      rw [hslot] at hempty
      cases hempty
    | wait h' =>
      obtain ⟨hsize, hempty | ⟨hslot', hdry⟩⟩ := halone
      · rw [hslot] at hempty
        cases hempty
      · rw [hslot] at hslot'
        cases hslot'
        exact ⟨n, _, rfl, hc, hgoal, rfl, hsize, hdry⟩
    | _ => exact halone.elim

/-- The retrying goes on when a turn of the task leaves the slot empty, or filled by the same fetch
with no page of it applied. -/
theorem Retrying.of_slot (hs : s.Retrying b front) {h : Handle}
    (hslot : s.world.source.inFlight = some h)
    (hslot' : (s.world.tend b).source.inFlight = none ∨
      (s.world.tend b).source.inFlight = some h ∧
        (s.world.tend b).source.progress = s.world.source.progress) :
    (s.turn b oneByOne .background).Retrying b front := by
  obtain ⟨n, c, hstatus, hc, hgoal, hphase, hwait, hdry⟩ := hs.of_inFlight hslot
  obtain ⟨hparties, htakings, hsize⟩ := s.world.tend_calls b
  refine ⟨?_, ?_, ?_, ?_⟩
  · exact World.tend_keeps b (P := fun w => ∃ k, World.OnChain b front k w)
      (fun _ m hw => hw.elim fun _ hw => hw.move m) hs.chain
  · exact World.tend_keeps b (fun _ m hw => hw.move (b := b) m) hs.accounts
  · show s.received = (s.world.tend b).takenRows.map Row.outcome
    rw [World.takenRows, htakings]
    exact hs.ledger
  · show Patient { s with world := s.world.tend b }
    rw [Patient, hstatus]
    refine ⟨rfl, c, ?_, hgoal, ?_⟩
    · rw [hparties]
      exact hc
    · rw [hphase]
      refine ⟨hsize ▸ hwait, hslot'.imp id fun hsame => ⟨hsame.1, ?_⟩⟩
      rw [hsame.2]
      exact hdry

/-- What is left changes with the lag of the call that waits, and with the calls made. -/
theorem Retrying.remaining_tend (hs : s.Retrying b front) {h : Handle}
    (hslot : s.world.source.inFlight = some h) :
    ∃ c : Call, c.phase = .wait h ∧
      ∀ K L, s.remaining K L = 6 * (K - s.world.source.calls.size) +
          2 * (L - s.world.takenRows.length) + c.lag s.world.source ∧
        (s.turn b oneByOne .background).remaining K L =
          6 * (K - (s.world.tend b).source.calls.size) +
            2 * (L - s.world.takenRows.length) + c.lag (s.world.tend b).source := by
  obtain ⟨n, c, hstatus, hc, -, hphase, -⟩ := hs.of_inFlight hslot
  obtain ⟨hparties, htakings, -⟩ := s.world.tend_calls b
  have hc' : (s.world.tend b).parties[n]? = some (.running c) := by
    rw [hparties]
    exact hc
  refine ⟨c, hphase, fun K L => ⟨remaining_of_running hstatus hc K L, ?_⟩⟩
  have hafter := remaining_of_running (s := s.turn b oneByOne .background) hstatus hc' K L
  simp only [Consumption.turn, World.takenRows, htakings] at hafter
  exact hafter

theorem Retrying.tend (hs : s.Retrying b front) :
    (s.turn b oneByOne .background).Retrying b front ∧
      (s.turn b oneByOne .background).world.takenRows = s.world.takenRows ∧
      (s.turn b oneByOne .background = s ∧ (∀ h, ¬ s.world.source.Running h) ∨
        ∀ K L, World.Horizon b front K L →
          Nearer K L s (s.turn b oneByOne .background)) := by
  obtain ⟨k, hchain⟩ := hs.chain
  have htaken : (s.world.tend b).takenRows = s.world.takenRows := by
    rw [World.takenRows, (s.world.tend_calls b).2.1]
    rfl
  cases hslot : s.world.source.inFlight with
  | none =>
    have hsame : s.turn b oneByOne .background = s := by
      rw [Consumption.turn, World.tend_of_empty b hslot]
    rw [hsame]
    refine ⟨hs, rfl, .inl ⟨rfl, fun h hrunning => ?_⟩⟩
    rw [hchain.oneFetch.inFlight_iff.2 (.inl hrunning)] at hslot
    cases hslot
  | some h =>
    obtain ⟨c, hphase, hremaining⟩ := hs.remaining_tend hslot
    rcases World.tend_cases (b := b) hchain.oneFetch hslot with
      ⟨hqueued, hcalling, hcalls, hslot', hprogress⟩ | ⟨⟨m, hcalling⟩, ⟨r, hr⟩, hcalls, hslot'⟩ |
      ⟨hunnoticed, hsame⟩
    · -- the call is made
      obtain ⟨-, -, -, -, -, -, -, hdry⟩ := hs.of_inFlight hslot
      obtain ⟨hanswered, hcomplete⟩ := hchain.size_calls_of_queued hslot hqueued
      refine ⟨hs.of_slot hslot (.inr ⟨hslot', hprogress⟩), htaken, .inr fun K L hhorizon => ?_⟩
      by_cases hL : L ≤ s.world.takenRows.length
      · exact .inl (.inr (htaken ▸ hL))
      · have hlt : k < K := hhorizon k s.world hchain hs.accounts (by omega) hdry hcomplete
        have hlag : c.lag s.world.source = 2 := by
          simp [Call.lag, hphase, hqueued]
        have hlag' : c.lag (s.world.tend b).source = 7 := by
          simp [Call.lag, hphase, hcalling]
        refine .inr ?_
        rw [(hremaining K L).1, (hremaining K L).2, hlag, hlag', hcalls]
        omega
    · -- the call is answered
      refine ⟨hs.of_slot hslot hslot', htaken, .inr fun K L _ => .inr ?_⟩
      have hlag : c.lag s.world.source = 7 := by
        simp [Call.lag, hphase, hcalling]
      have hlag' : c.lag (s.world.tend b).source = 6 := Call.lag_of_outcome hphase hr
      rw [(hremaining K L).1, (hremaining K L).2, hlag, hlag', hcalls]
      omega
    · have hsame' : s.turn b oneByOne .background = s := by
        rw [Consumption.turn, hsame]
      rw [hsame']
      refine ⟨hs, rfl, .inl ⟨rfl, fun h' hrunning => ?_⟩⟩
      have hslot' := hchain.oneFetch.inFlight_iff.2 (.inl hrunning)
      rw [hslot] at hslot'
      cases hslot'
      exact Source.not_running_of_unnoticed hunnoticed hrunning

/-! ## All turns -/

theorem Retrying.turn (hs : s.Retrying b front) (t : Turn) :
    (s.turn b oneByOne t).Retrying b front ∧
      (s.turn b oneByOne t).world.takenRows.length ≤ s.world.takenRows.length + 1 ∧
      ∀ K L, World.Horizon b front K L →
        s.turn b oneByOne t = s ∨ Nearer K L s (s.turn b oneByOne t) := by
  cases t with
  | background =>
    obtain ⟨hretrying, htaken, hnearer⟩ := hs.tend
    refine ⟨hretrying, ?_, fun K L hhorizon => ?_⟩
    · rw [htaken]
      omega
    · rcases hnearer with ⟨hsame, -⟩ | hnearer
      · exact .inl hsame
      · exact .inr (hnearer K L hhorizon)
  | consumer =>
    rw [Consumption.turn]
    cases hstatus : s.status with
    | idle =>
      rw [consume_of_idle oneByOne hstatus]
      obtain ⟨hretrying, htaken, hless⟩ := hs.ask hstatus
      refine ⟨hretrying, ?_, fun K L _ => .inr (.inr (hless K L))⟩
      rw [htaken]
      omega
    | asking way n =>
      obtain ⟨hretrying, htaken, hnearer⟩ := hs.step hstatus
      refine ⟨hretrying, htaken, fun K L _ => ?_⟩
      rcases hnearer with ⟨hsame, -⟩ | hnearer
      · exact .inl hsame
      · exact .inr (hnearer K L)
    | ended =>
      have hsame : s.consume b oneByOne = s := by
        simp [consume, hstatus]
      rw [hsame]
      exact ⟨hs, Nat.le_succ _, fun _ _ _ => .inl rfl⟩

/-- Before the end, the consumer or the task in the slot has something to do. -/
theorem Retrying.exists_turn {K L : Nat} (hs : s.Retrying b front)
    (hhorizon : World.Horizon b front K L) (hnot : ¬ s.Reached L) :
    ∃ t, Nearer K L s (s.turn b oneByOne t) := by
  cases hstatus : s.status with
  | idle =>
    refine ⟨.consumer, .inr ?_⟩
    rw [Consumption.turn, consume_of_idle oneByOne hstatus]
    exact (hs.ask hstatus).2.2 K L
  | asking way n =>
    rcases (hs.step hstatus).2.2 with ⟨-, h, hrunning⟩ | hnearer
    · refine ⟨.background, ?_⟩
      rcases hs.tend.2.2 with ⟨-, hnone⟩ | hnearer
      · exact absurd hrunning (hnone h)
      · exact hnearer K L hhorizon
    · exact ⟨.consumer, hnearer K L⟩
  | ended => exact absurd (.inl hstatus) hnot

variable {turns : Nat → Turn}

theorem Retrying.start (b : Backend) (thresholds : Nat → Option Nat) (first : Option Page) :
    (Consumption.start thresholds first).Retrying b first.toList := by
  refine ⟨⟨0, World.onChain_start b first⟩, .start first, ?_, ?_⟩
  · cases first <;> rfl
  · cases first <;> rfl

theorem Retrying.after (hs : s.Retrying b front) (turns : Nat → Turn) (n : Nat) :
    (s.after b oneByOne turns n).Retrying b front := by
  induction n with
  | zero => exact hs
  | succ n ih => exact (ih.turn (turns n)).1

theorem Retrying.exists_reached {K L : Nat} (hs : s.Retrying b front)
    (hhorizon : World.Horizon b front K L) (hfair : Fair turns) :
    ∃ n, (s.after b oneByOne turns n).Reached L := by
  refine hfair.exists_done (P := Retrying b front) (Q := Reached L) (remaining K L)
    (hs.after turns) ?_ ?_
  · intro s t hs _
    exact (hs.turn t).2.2 K L hhorizon
  · intro s hs hnot
    exact hs.exists_turn hhorizon hnot

/-- One turn takes one row at most, so no number of rows is skipped. -/
theorem Retrying.exists_length_eq {L n : Nat} (hs : s.Retrying b front)
    (hnone : s.world.takenRows = [])
    (hL : L ≤ (s.after b oneByOne turns n).world.takenRows.length) :
    ∃ m, (s.after b oneByOne turns m).world.takenRows.length = L := by
  induction n with
  | zero =>
    refine ⟨0, ?_⟩
    rw [Consumption.after, hnone] at hL ⊢
    exact (Nat.le_zero.1 hL).symm
  | succ n ih =>
    by_cases hbefore : L ≤ (s.after b oneByOne turns n).world.takenRows.length
    · exact ih hbefore
    · have hstep := ((hs.after turns n).turn (turns n)).2.1
      refine ⟨n + 1, ?_⟩
      rw [Consumption.after] at hL ⊢
      omega

end Consumption

end ResultSet

end PagedTraversal
