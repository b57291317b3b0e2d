import PagedTraversal.Proofs.Paging.Failure
import PagedTraversal.Proofs.Paging.Served
import PagedTraversal.Proofs.ResultSet.Retry

/-!
# PagedTraversal.Proofs.ResultSet.Recovery

Failed fetches cost a consumer nothing but time. One that asks for the next result again after each
error gets the same rows, in the same order, as it would if no fetch failed.

* `Consumption.Retrying.catches_up`: it gets whatever rows a consumer gets from a backend with the
  same pages.
* `failures_leave_no_trace`: what a single failure leaves behind, and what a whole run comes to.
-/

namespace PagedTraversal

namespace ResultSet

namespace Consumption

variable {b b' : Backend} {front : List Page} {s t : Consumption} {turns : Nat → Turn}
  {serve : Option PageToken → Page}

theorem Retrying.of_ended (hs : s.Retrying b front) (hended : s.status = .ended) :
    s.world.appliedRows = s.world.takenRows ∧ s.world.source.progress.complete = true := by
  have hpatient := hs.patient
  rw [Patient, hended] at hpatient
  refine ⟨?_, hpatient.2⟩
  rw [hs.accounts.rows, hpatient.1, List.append_nil]

/-- At its end a consumer has taken at least as many rows as any other. -/
theorem Retrying.length_le_of_ended (hb : b.Serves serve) (hb' : b'.Serves serve)
    (hs : s.Retrying b front) (ht : t.Retrying b' front) (hended : t.status = .ended) :
    s.world.takenRows.length ≤ t.world.takenRows.length := by
  obtain ⟨k, hchain⟩ := hs.chain
  obtain ⟨k', hchain'⟩ := ht.chain
  obtain ⟨hall, hcomplete⟩ := ht.of_ended hended
  have happlied := World.appliedRows_mono (hchain.prefix_of_complete hchain' hb hb' hcomplete)
  rw [hall] at happlied
  exact (hs.accounts.prefix_takenRows.trans happlied).length_le

theorem Retrying.received_eq_of_length (hb : b.Serves serve) (hb' : b'.Serves serve)
    (hs : s.Retrying b front) (ht : t.Retrying b' front)
    (hlength : t.world.takenRows.length = s.world.takenRows.length) : t.received = s.received := by
  obtain ⟨k, hchain⟩ := hs.chain
  obtain ⟨k', hchain'⟩ := ht.chain
  rw [ht.ledger, hs.ledger,
    World.takenRows_eq_of_length hchain' hchain hb' hb ht.accounts hs.accounts hlength]

/-- Whatever a consumer has got from a backend, another gets it, and comes to the end if the first
one has, from any backend that serves the same pages at last. -/
theorem Retrying.catches_up {first : Option Page} (hb : b.Serves serve)
    (hb' : b'.ServesAtLast serve) (hs : s.Retrying b first.toList)
    (thresholds : Nat → Option Nat) (hfair : Fair turns) :
    ∃ m, ((Consumption.start thresholds first).after b' oneByOne turns m).received = s.received ∧
      (s.status = .ended →
        ((Consumption.start thresholds first).after b' oneByOne turns m).status = .ended) := by
  have hstart := Retrying.start b' thresholds first
  have hnone : (Consumption.start thresholds first).world.takenRows = [] := by
    cases first <;> rfl
  obtain ⟨k, hchain⟩ := hs.chain
  obtain ⟨j, hj⟩ := hchain.applied_eq hb
  obtain ⟨K, hK⟩ := Backend.exists_pagesAfter_eq hb' first.toList j
  rw [← hj] at hK
  by_cases hended : s.status = .ended
  · obtain ⟨hall, hcomplete⟩ := hs.of_ended hended
    have hlast : Chain.ended (b'.pagesAfter first.toList K) = true := by
      rw [hK, ← hchain.complete]
      exact hcomplete
    have hhorizon : World.Horizon b' first.toList K (s.world.takenRows.length + 1) := by
      intro k' w hw _ _ _ hc
      exact hw.lt_of_ended hlast hc
    obtain ⟨n, hreached⟩ := hstart.exists_reached hhorizon hfair
    have ht := hstart.after turns n
    have hle := ht.length_le_of_ended hb'.serves hb hs hended
    rcases hreached with hended' | hL
    · have hge := hs.length_le_of_ended hb hb'.serves ht hended'
      exact ⟨n, hs.received_eq_of_length hb hb'.serves ht (by omega), fun _ => hended'⟩
    · omega
  · have hhorizon : World.Horizon b' first.toList K s.world.takenRows.length := by
      intro k' w hw ha htaken hdry _
      refine hw.lt_of_rows ha hdry ?_
      have hle := hs.accounts.prefix_takenRows.length_le
      rw [World.appliedRows, ← hK] at hle
      omega
    obtain ⟨n, hreached⟩ := hstart.exists_reached hhorizon hfair
    have ht := hstart.after turns n
    have hL : s.world.takenRows.length ≤ ((Consumption.start thresholds first).after b' oneByOne
        turns n).world.takenRows.length := by
      rcases hreached with hended' | hL
      · exact hs.length_le_of_ended hb hb'.serves ht hended'
      · exact hL
    obtain ⟨m, hm⟩ := hstart.exists_length_eq hnone hL
    exact ⟨m, hs.received_eq_of_length hb hb'.serves (hstart.after turns m) hm,
      fun h => absurd h hended⟩

/-- A failed fetch changes nothing but the slot, is told to all who wait on it, and leaves the next
fetch where it stood; it can be any of the three kinds. So a consumer that asks for the next result
again after each error gets the same rows as without the failures, and comes to the end if and only
if it does without them. -/
theorem failures_leave_no_trace (b : Backend) (first : Option Page) :
    (∀ (ms₀ ms : List Move) (m : Move) (h : Handle) (e : FetchError),
      let w₀ := (World.start first).run b ms₀
      let w := w₀.run b ms
      let v := w.move b m
      World.Fails b w m h e →
        World.FailsCleanly b w v h e ∧
        (w₀.source.inFlight = some h →
          v.applied = w₀.applied ∧ v.source.progress.next = w₀.source.progress.next ∧
          v.source.progress.complete = w₀.source.progress.complete ∧
          v.source.progress.pages = w₀.source.progress.pages ∧
          v.source.progress.infos = w₀.source.progress.infos ∧
          w₀.source.progress.buffer = w₀.takenSince v ++ v.source.progress.buffer)) ∧
    (∀ ms : List Move,
      let w := (World.start first).run b ms
      (∀ (h : Handle) page token n seen e,
        w.source.fetches[h]? = some ⟨page, token, .calling n, seen⟩ →
        b.answer n token = .failure e → World.Fails b w (.endCall h) h e) ∧
      (∀ h, w.source.Unnoticed h → World.Fails b w (.poll h) h .taskCrashed) ∧
      (w.source.progress.complete = false → w.source.inFlight = none →
        World.Fails b w (.request false) w.source.fetches.size .noRuntime)) ∧
    (∀ (serve : Option PageToken → Page) (thresholds : Nat → Option Nat)
      (turns turns' : Nat → Turn),
      b.ServesAtLast serve → Fair turns → Fair turns' →
      let s := (start thresholds first).after b oneByOne turns
      let s' := (start thresholds first).after (b.serving serve) oneByOne turns'
      (∀ n, ∃ m, (s' m).received = (s n).received ∧
        ((s n).status = .ended → (s' m).status = .ended)) ∧
      ∀ n, ∃ m, (s m).received = (s' n).received ∧
        ((s' n).status = .ended → (s m).status = .ended)) := by
  refine ⟨?_, fun ms => World.ways_to_fail b _, ?_⟩
  · intro ms₀ ms m h e w₀ w v hfails
    obtain ⟨k₀, hw₀⟩ := World.onChain_run b first ms₀
    obtain ⟨k, hw⟩ := hw₀.run ms
    refine ⟨World.failsCleanly hw hfails, fun hstarted => ?_⟩
    exact World.unchanged_since_start hw₀ (World.accounts_run b first ms₀) hstarted ms hfails
  · intro serve thresholds turns turns' hserves hfair hfair' s s'
    have hserving := b.servesAtLast_serving serve
    refine ⟨fun n => ?_, fun n => ?_⟩
    · have hs := (Retrying.start b thresholds first).after turns n
      exact hs.catches_up hserves.serves hserving thresholds hfair'
    · have hs := (Retrying.start (b.serving serve) thresholds first).after turns' n
      exact hs.catches_up hserving.serves hserves thresholds hfair

/-- Two pages behind one another. -/
def twoRows : Option PageToken → Page
  | none => ⟨[⟨.null⟩], some ⟨[0]⟩, .empty⟩
  | some _ => ⟨[⟨.bool true⟩], none, .empty⟩

/-- The first call crashes, the second and the fourth fail, and all others are served. -/
def flaky : Backend where
  answer n token :=
    match n with
    | 0 => .crash
    | 1 => .failure (.transport "boom")
    | 3 => .failure (.transport "bang")
    | _ => .page (twoRows token)
  extent := 3

theorem flaky_servesAtLast : flaky.ServesAtLast twoRows := by
  refine ⟨?_, fun n token => ⟨n + 4, by omega, rfl⟩⟩
  intro n token p hp
  simp only [flaky] at hp
  split at hp <;> cases hp
  rfl

/-- Three errors later the consumer of the flaky backend has both rows. -/
theorem failures_leave_no_trace_flaky :
    flaky.ServesAtLast twoRows ∧ Fair alternating ∧
    ∃ m, ((start (fun _ => none) none).after flaky oneByOne alternating m).received =
        [.ok (.scalar .null), .ok (.scalar (.boolean true))] ∧
      ((start (fun _ => none) none).after flaky oneByOne alternating m).status = .ended := by
  refine ⟨flaky_servesAtLast, alternating_fair, ?_⟩
  obtain ⟨-, -, hretry⟩ := failures_leave_no_trace flaky none
  obtain ⟨-, hcatches⟩ := hretry twoRows (fun _ => none) alternating alternating flaky_servesAtLast
    alternating_fair alternating_fair
  obtain ⟨m, hreceived, hended⟩ := hcatches 40
  exact ⟨m, hreceived.trans rfl, hended rfl⟩

end Consumption

end ResultSet

end PagedTraversal
