import PagedTraversal.Pager.Report
import PagedTraversal.Proofs.Pager.SoleCaller
import PagedTraversal.Proofs.ResultSet.Agreement

/-!
# PagedTraversal.Proofs.Pager.Consuming

The pager's loop over its stream, next to a consumer that takes the same results turn by turn.

* `Session.Mirrors`: a session whose only stream stands where the consumer does.
* `Session.Mirrors.streamNext`: the next item of the stream is what the consumer gets next.
* `Pager.consume_of_mirrors`: the loop counts what the consumer gets up to the end.
-/

namespace PagedTraversal

open ResultSet

namespace Item

/-- What the consumer gets with an item. -/
def outcomes : Item → List (Except ResultError GraphValue)
  | value v => [.ok v]
  | error e => [.error e]
  | ended => []

def status : Item → Status
  | ended => .ended
  | _ => .idle

end Item

theorem ResultSet.Consumption.receive_next (c : Consumption) (i : Nat)
    (r : Except ResultError Delivery) :
    c.receive (.next i) r =
      { c with
        cursors := fun j => if j = i then ((c.cursors i).advance r).2 else c.cursors j
        status := ((c.cursors i).advance r).1.status
        outcomes := c.outcomes ++ ((c.cursors i).advance r).1.outcomes } := by
  simp only [Consumption.receive]
  cases ((c.cursors i).advance r).1 <;> simp [Consumption.take, Item.status, Item.outcomes]

/-- The delivery of a call that has come back is what the consumer receives. -/
theorem Scheduler.Pursues.deliver {b : Backend} {front : List Page} {N i n : Nat} {c : Consumption}
    {call : Call} {t : Scheduler} {result : Except FetchError Answer} (hends : b.ChainEnds front N)
    (ht : t.Pursues b front (.next i) n c call)
    (hdone : (call.step true c.world.source).1 = .done result) :
    let u := (t.act (call.step true)).2.deliver result
    let item := (c.cursors i).advance u.1
    ∃ c' : Consumption, c'.Sound b front ∧ u.2.Serves b c'.world.source ∧
      c'.cursors i = item.2 ∧ c'.status = item.1.status ∧
      c'.outcomes = c.outcomes ++ item.1.outcomes := by
  intro u item
  obtain ⟨hstep, hfinished, -⟩ := World.stepCall_of_running ht.party true
  have hsource : (c.world.stepCall n true).source = (call.step true c.world.source).2 := by
    rw [hstep]
  have hworld : ((c.world.stepCall n true).deliver n).source =
      (ResultSet.deliver result (call.step true c.world.source).2).2 := by
    rw [hdone] at hfinished
    rw [World.deliver, hfinished, ← hsource]
    rfl
  obtain ⟨k, hchain⟩ := ht.sound.unfailing.chain
  have hact := call.step_act true c.world.source
  obtain ⟨events, hevents, hnote⟩ := ResultSet.deliver_source result
    (call.step true c.world.source).2
  obtain ⟨hdelivery, hserves⟩ := ht.act.2.act (hchain.oneFetch.act hact)
    (ht.sound.unfailing.healthy.act hact) (ResultSet.deliver result) (hnote ▸ .note hevents)
  have hturn := (ht.sound.turn Consumption.streaming hends .consumer).1
  rw [Consumption.turn, Consumption.consume_of_done _ ht.status ht.party hdone,
    Consumption.receive_next, hsource] at hturn
  have hitem : item = (c.cursors i).advance
      (ResultSet.deliver result (call.step true c.world.source).2).1 :=
    congrArg (c.cursors i).advance hdelivery
  rw [hitem]
  exact ⟨_, hturn, hworld ▸ hserves, if_pos rfl, rfl, rfl⟩

theorem Call.rank_next_le (threshold : Option Nat) (s : Source) :
    (Call.next threshold).rank s ≤ 7 := by
  cases threshold <;> simp [Call.next, Call.one, Call.rank]

namespace Session

/-- The session at the source of a consumer, with one stream, which is the consumer's first cursor.
No call for its next item is pending. -/
structure Mirrors (b : Backend) (c : Consumption) (s : Session) : Prop where
  serves : s.scheduler.Serves b c.world.source
  stream : s.streams = #[⟨c.cursors 0, none⟩]

variable {b : Backend} {front : List Page} {N : Nat} {c : Consumption} {s : Session}

/-- A stream whose call comes back takes its item from the delivery. -/
theorem pursueStream_of_done {stream : Stream} {p : Pending} {result : Except FetchError Answer}
    {t u : Scheduler} (hresume : u.resume p = (.done result, t)) :
    pursueStream stream p u = ((some (stream.cursor.advance (t.deliver result).1).1,
      ⟨(stream.cursor.advance (t.deliver result).1).2, none⟩), (t.deliver result).2) := by
  rw [pursueStream, hresume]

theorem streamNext_eq {cursor : Cursor} {call : Call} {item : Option Item} {stream : Stream}
    {t : Scheduler} (hstream : s.streams = #[⟨cursor, none⟩]) (hcall : cursor.nextCall? = some call)
    (hpursue : pursueStream ⟨cursor, none⟩ ⟨call, none⟩ s.scheduler = ((item, stream), t)) :
    s.streamNext 0 = (item, { s with scheduler := t, streams := #[stream] }) := by
  obtain ⟨scheduler, handles, cursors, streams⟩ := s
  cases hstream
  simp [streamNext, hcall, act, hpursue]

/-- The next item comes without blocking, and the consumer has got it. The `N` calls that bring all
pages have to be few enough for the fuel of a call. -/
theorem Mirrors.streamNext (hends : b.ChainEnds front N) (hfuel : 7 + 4 * N ≤ 8 * (b.extent + 4))
    (hs : s.Mirrors b c) (hc : c.Sound b front) (hidle : c.status = .idle) :
    ∃ item s' c', s.streamNext 0 = (some item, s') ∧ s'.Mirrors b c' ∧ c'.Sound b front ∧
      c'.status = item.status ∧ c'.outcomes = c.outcomes ++ item.outcomes := by
  have hopen : (c.cursors 0).finished = false := hc.unfinished (by simp [hidle]) 0
  have hnext : (c.cursors 0).nextCall? = some (.next (c.cursors 0).threshold) := by
    simp [Cursor.nextCall?, hopen]
  have hask : c.ask Consumption.streaming =
      c.begin (.next 0) (.next (c.cursors 0).threshold) := by
    simp [Consumption.ask, Consumption.streaming, hnext]
  have hasked := (hc.ask Consumption.streaming hends hidle).1
  rw [hask] at hasked
  have hpursues : s.scheduler.Pursues b front (.next 0) c.world.parties.length
      (c.begin (.next 0) (.next (c.cursors 0).threshold)) (.next (c.cursors 0).threshold) :=
    ⟨hs.serves, hasked, rfl, by simp [Consumption.begin]⟩
  have hrank := Call.rank_next_le (c.cursors 0).threshold c.world.source
  have hbound : (Call.next (c.cursors 0).threshold).rank c.world.source +
      4 * (N - c.world.source.calls.size) ≤ 8 * (s.scheduler.backend.extent + 4) := by
    rw [hs.serves.plain.backend]
    omega
  obtain ⟨c', call, result, t, ht, hcursors, hkept, hdone, hpursue⟩ :=
    Scheduler.Pursues.pursueFor (p := ⟨.next (c.cursors 0).threshold, none⟩) hends rfl hpursues
      (fun h => absurd h Bool.false_ne_true) hbound
  have hcursor : c'.cursors 0 = c.cursors 0 := congrFun hcursors 0
  obtain ⟨c'', hc'', hserves, hstream, hstatus, houtcomes⟩ := ht.deliver hends hdone
  rw [hcursor] at hstream hstatus houtcomes
  exact ⟨_, _, c'', streamNext_eq hs.stream hnext (pursueStream_of_done hpursue),
    ⟨hserves, by rw [hstream]⟩, hc'', hstatus, houtcomes.trans (congrArg (· ++ _) hkept)⟩

end Session

namespace Pager

/-- What the pager makes of the outcomes that it gets one after another. -/
def Tally.count : Tally → List (Except ResultError GraphValue) → Except FetchError Tally
  | t, [] => .ok t
  | t, .ok v :: rest => (t.addResult v).count rest
  | _, .error (.fetch e) :: _ => .error e
  | t, .error _ :: rest => { t with decodeErrors := t.decodeErrors + 1 }.count rest

variable {b : Backend} {front : List Page} {N : Nat}

/-- The loop runs until the consumer is at the end, if there is fuel for all rows and one more item,
and counts what the consumer gets until then. -/
theorem consume_of_mirrors (hends : b.ChainEnds front N)
    (hfuel : 7 + 4 * N ≤ 8 * (b.extent + 4)) (fuel : Nat) {c : Consumption} {s : Session}
    (hs : s.Mirrors b c) (hc : c.Sound b front) (hidle : c.status = .idle) (t : Tally)
    (hrows : ((b.pagesAfter front N).flatMap Page.rows).length < c.outcomes.length + fuel) :
    ∃ s' c' later, consume fuel s t = (t.count later).map (s', ·) ∧ s'.Mirrors b c' ∧
      c'.Sound b front ∧ c'.status = .ended ∧ c'.outcomes = c.outcomes ++ later := by
  induction fuel generalizing c s t with
  | zero =>
    have hlength := (hc.prefix_outcomes hends).length_le
    rw [List.length_map] at hlength
    omega
  | succ fuel ih =>
    obtain ⟨item, s₁, c₁, hnext, hs₁, hc₁, hstatus, houtcomes⟩ :=
      hs.streamNext hends hfuel hc hidle
    have hlonger : item.status = .idle →
        ((b.pagesAfter front N).flatMap Page.rows).length < c₁.outcomes.length + fuel := by
      intro hgoing
      have hone : item.outcomes.length = 1 := by
        cases item with
        | ended => cases hgoing
        | _ => rfl
      rw [houtcomes, List.length_append, hone]
      omega
    cases item with
    | value v =>
      obtain ⟨s', c', later, hconsume, hs', hc', hended, hlater⟩ :=
        ih hs₁ hc₁ hstatus (t.addResult v) (hlonger rfl)
      refine ⟨s', c', .ok v :: later, ?_, hs', hc', hended, ?_⟩
      · rw [consume, hnext]
        exact hconsume
      · rw [hlater, houtcomes]
        exact List.append_assoc _ _ _
    | error e =>
      obtain ⟨s', c', later, hconsume, hs', hc', hended, hlater⟩ :=
        ih hs₁ hc₁ hstatus { t with decodeErrors := t.decodeErrors + 1 } (hlonger rfl)
      -- it is the error of a row, since no fetch fails
      have hrow : isFetchFailure (.error e) = false := by
        have hmem : Except.error e ∈ c₁.outcomes := by simp [houtcomes, Item.outcomes]
        obtain ⟨row, -, hrow⟩ := List.mem_map.1 ((hc₁.prefix_outcomes hends).subset hmem)
        exact hrow ▸ Consumption.not_isFetchFailure_outcome row
      refine ⟨s', c', .error e :: later, ?_, hs', hc', hended, ?_⟩
      · rw [consume, hnext]
        cases e with
        | fetch e => cases hrow
        | _ => exact hconsume
      · rw [hlater, houtcomes]
        exact List.append_assoc _ _ _
    | ended =>
      refine ⟨s₁, c₁, [], ?_, hs₁, hc₁, hstatus, houtcomes⟩
      rw [consume, hnext]
      rfl

end Pager

end PagedTraversal
