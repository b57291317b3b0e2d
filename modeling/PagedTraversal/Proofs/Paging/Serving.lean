import PagedTraversal.Proofs.Paging.Headway
import PagedTraversal.Proofs.Paging.Outcome
import PagedTraversal.Proofs.Paging.Redelivery

/-!
# PagedTraversal.Proofs.Paging.Serving

Which call a fetch makes. Every fetch that is started makes one call, and the next fetch is started
when it has ended, so that the fetch in the slot makes the call whose number is the number of
fetches that have ended.

* `World.Change`: what a move can do to a fetch.
* `Source.Counts`: calls and ended fetches go together.
* `Fetch.Makes`: the fetch makes the call of the given number; `Fetch.Makes.run`: this stays so, and
  once the task has ended it has ended with the backend's reply to that call.
-/

namespace PagedTraversal

namespace Reply

/-- What those who wait on a fetch are told when its call is answered so. -/
def settlement : Reply → Settlement
  | page _ => .ok ()
  | failure e => .error e
  | crash => .error .taskCrashed

/-- Where the answer leaves the task of the fetch. -/
def stage : Reply → Stage
  | crash => .crashed
  | reply => .returned reply.settlement

theorem outcome_stage (reply : Reply) (page : Nat) (token : Option PageToken)
    (seen : Option Settlement) :
    Fetch.outcome? ⟨page, token, reply.stage, seen⟩ = some reply.settlement := by
  cases reply <;> rfl

theorem eq_page_of_settlement {reply : Reply} (h : reply.settlement = .ok ()) :
    ∃ p, reply = .page p := by
  cases reply with
  | page p => exact ⟨p, rfl⟩
  | failure e => cases h
  | crash => cases h

end Reply

/-- Events that tell that a fetch has ended. -/
def Event.ends : Event → Bool
  | fetchCompleted _ _ _ _ => true
  | fetchFailed _ _ => true
  | fetchAborted _ => true
  | _ => false

theorem Fetch.Evolves.occupies {f f' : Fetch} (h : f.Evolves f') (ho : f'.occupies = true) :
    f.occupies = true := by
  obtain ⟨page, token, stage, seen⟩ := f
  obtain ⟨page', token', stage', seen'⟩ := f'
  cases stage with
  | queued => rfl
  | calling n => rfl
  | returned r =>
    cases h.ended rfl
    cases ho
  | crashed =>
    cases h.ended rfl
    cases seen with
    | none => rfl
    | some r =>
      cases h.seen r rfl
      cases ho

/-! ## What a move does to a fetch -/

theorem Source.endCall_leaves {s : Source} {h : Handle} {page n : Nat} {token : Option PageToken}
    {seen : Option Settlement} (hf : s.fetches[h]? = some ⟨page, token, .calling n, seen⟩)
    (reply : Reply) :
    (s.endCall h reply).fetches = s.fetches.modify h (fun f => { f with stage := reply.stage }) ∧
      (s.endCall h reply).calls = s.calls := by
  rw [endCall_of_calling hf]
  cases reply <;> exact ⟨rfl, rfl⟩

namespace World

/-- All that a move can do to the fetch behind a handle. -/
inductive Change (b : Backend) (w v : World) (h : Handle) (f : Fetch) : Prop where
  | same : w.source.fetches[h]? = some f → Change b w v h f
  /-- It is given out as one that has returned already. -/
  | settled (r : Settlement) : h = w.source.fetches.size → f = w.source.settledFetch r →
      Change b w v h f
  | started : h = w.source.fetches.size →
      f = ⟨w.source.progress.pages, w.source.progress.next, .queued, none⟩ → Change b w v h f
  | begun {page : Nat} {token : Option PageToken} {seen : Option Settlement} :
      w.source.fetches[h]? = some ⟨page, token, .queued, seen⟩ →
      f = ⟨page, token, .calling w.source.calls.size, seen⟩ → Change b w v h f
  | ended {page n : Nat} {token : Option PageToken} {seen : Option Settlement} :
      w.source.fetches[h]? = some ⟨page, token, .calling n, seen⟩ →
      f = ⟨page, token, (b.answer n token).stage, seen⟩ →
      v.applied = w.applied ++ (b.answer n token).pages → v.source.calls = w.source.calls →
      Change b w v h f
  /-- A poll finds out how its task has ended. -/
  | noticed {f' : Fetch} {r : Settlement} : w.source.fetches[h]? = some f' → f'.seen = none →
      f'.outcome? = some r → f = { f' with seen := some r } → Change b w v h f

theorem change_of_act {b : Backend} {w v : World} {hasRuntime : Bool} {h : Handle} {f : Fetch}
    (hact : w.source.Act hasRuntime v.source) (hf : v.source.fetches[h]? = some f) :
    Change b w v h f := by
  generalize v.source = t at hact hf
  cases hact with
  | rest => exact .same hf
  | takeRow =>
    refine .same ?_
    unfold Source.takeRow at hf
    split at hf <;> exact hf
  | drain => exact .same hf
  | request =>
    rcases w.source.request_cases hasRuntime with ⟨r, -, e⟩ | ⟨h', -, -, e⟩ | ⟨-, -, -, e⟩ <;>
      rw [e] at hf
    · rcases Source.lookup_push.1 hf with ⟨hh, hf⟩ | hf
      · exact .settled r hh hf.symm
      · exact .same hf
    · exact .same hf
    · rcases Source.lookup_push.1 hf with ⟨hh, hf⟩ | hf
      · exact .started hh hf.symm
      · exact .same hf
  | poll h' =>
    rcases w.source.poll_cases h' with e | ⟨page, token, r, hf', e⟩ | ⟨page, token, hf', e⟩ <;>
      rw [e] at hf
    · exact .same hf
    · rcases Source.lookup_modify.1 hf with ⟨rfl, f', hf'', hf⟩ | ⟨-, hf⟩
      · cases hf'.symm.trans hf''
        exact .noticed hf' rfl rfl hf.symm
      · exact .same hf
    · rcases Source.lookup_modify.1 hf with ⟨rfl, f', hf'', hf⟩ | ⟨-, hf⟩
      · cases hf'.symm.trans hf''
        exact .noticed hf' rfl rfl hf.symm
      · exact .same hf
  | note _ => exact .same hf

theorem change_of_move (b : Backend) (w : World) (m : Move) {h : Handle} {f : Fetch}
    (hf : (w.move b m).source.fetches[h]? = some f) : Change b w (w.move b m) h f := by
  rcases w.move_cases b m with ⟨hact, -⟩ | ⟨h', e⟩ | ⟨h', e⟩
  · exact change_of_act hact hf
  · rw [e] at hf ⊢
    rcases w.source.beginCall_cases h' with e | ⟨page, token, seen, hf', e⟩ <;> rw [e] at hf
    · exact .same hf
    · rcases Source.lookup_modify.1 hf with ⟨rfl, f', hf'', hf⟩ | ⟨-, hf⟩
      · cases hf'.symm.trans hf''
        exact .begun hf' hf.symm
      · exact .same hf
  · rw [e] at hf ⊢
    rcases w.endCall_cases b h' with e | ⟨page, token, n, seen, hf', e⟩ <;> rw [e] at hf ⊢
    · exact .same hf
    · obtain ⟨hmodify, hcalls⟩ := Source.endCall_leaves hf' (b.answer n token)
      rw [hmodify] at hf
      rcases Source.lookup_modify.1 hf with ⟨rfl, f', hf'', hf⟩ | ⟨-, hf⟩
      · cases hf'.symm.trans hf''
        exact .ended hf' hf.symm rfl hcalls
      · exact .same hf

end World

/-! ## Calls and ended fetches -/

namespace Source

/-- How many fetches have ended. A crash counts from when it is found out. -/
def ends (s : Source) : Nat := s.journal.countP Event.ends

/-- The number of the call that the fetch in the slot makes or has made. With an empty slot it is the
one that the next fetch will make. -/
def nextCall (s : Source) : Nat :=
  match s.slotStage with
  | none => s.calls.size
  | some .queued => s.calls.size
  | some _ => s.calls.size - 1

/-- Every fetch that has ended has made one call, and the one in the slot makes the next. -/
def Counts (s : Source) : Prop :=
  match s.slotStage with
  | none => s.calls.size = s.ends
  | some .queued => s.calls.size = s.ends
  | some _ => s.calls.size = s.ends + 1

theorem Counts.nextCall_eq {s : Source} (hs : s.Counts) : s.nextCall = s.ends := by
  unfold Counts at hs
  unfold nextCall
  split at hs <;> omega

theorem Counts.congr {s t : Source} (hs : s.Counts) (hcalls : t.calls = s.calls)
    (hends : t.ends = s.ends) (hstage : t.slotStage = s.slotStage) : t.Counts := by
  unfold Counts
  rw [hcalls, hends, hstage]
  exact hs

theorem ends_log (s : Source) (e : Event) :
    (s.log e).ends = s.ends + if e.ends then 1 else 0 := by
  simp [ends, log, Array.countP_push]

variable {b : Backend} {s t : Source}

/-- A step either keeps what is in the slot, or ends the fetch that was there. -/
structure Tallies (s t : Source) : Prop where
  counts : t.Counts
  slot : t.ends = s.ends ∧ (∀ h, s.inFlight = some h → t.inFlight = some h) ∨
    t.ends = s.ends + 1 ∧ t.inFlight = none

theorem Tallies.of_same (hs : s.Counts) (hcalls : t.calls = s.calls) (hends : t.ends = s.ends)
    (hstage : t.slotStage = s.slotStage) (hslot : t.inFlight = s.inFlight) : Tallies s t :=
  ⟨hs.congr hcalls hends hstage, .inl ⟨hends, fun h e => by rw [hslot, e]⟩⟩

theorem OneFetch.tallies_act (hone : OneFetch s) {hasRuntime : Bool} (hact : s.Act hasRuntime t)
    (hs : s.Counts) : Tallies s t := by
  cases hact with
  | rest => exact .of_same hs rfl rfl rfl rfl
  | takeRow =>
    unfold Source.takeRow
    split <;> exact .of_same hs rfl rfl rfl rfl
  | drain => exact .of_same hs rfl rfl rfl rfl
  | request =>
    rcases s.request_cases hasRuntime with ⟨r, -, e⟩ | ⟨h, -, -, e⟩ | ⟨-, hslot, -, e⟩ <;> rw [e]
    · exact .of_same hs rfl rfl (hone.slotStage_push _) rfl
    · exact .of_same hs rfl (s.ends_log _) rfl rfl
    · have hends := ends_log { s with
        fetches := s.fetches.push ⟨s.progress.pages, s.progress.next, .queued, none⟩
        inFlight := some s.fetches.size } (.fetchStarted s.progress.pages)
      refine ⟨?_, .inl ⟨hends, fun h e => ?_⟩⟩
      · have hbefore : s.calls.size = s.ends := by simpa [Counts, slotStage, hslot] using hs
        simp only [Counts, log, slotStage, Option.bind_some, Array.getElem?_push_size,
          Option.map_some]
        exact hbefore.trans hends.symm
      · rw [hslot] at e
        cases e
  | poll h =>
    rcases s.poll_cases h with e | ⟨page, token, r, -, e⟩ | ⟨page, token, hf, e⟩ <;> rw [e]
    · exact .of_same hs rfl rfl rfl rfl
    · exact .of_same hs rfl rfl (s.slotStage_setSeen h r) rfl
    · have hstage := slotStage_of_slot ((hone.slot h).2 ⟨_, hf, rfl⟩) hf
      have hbefore : s.calls.size = s.ends + 1 := by simpa [Counts, hstage] using hs
      have hends := ends_log { s with inFlight := none } (.fetchAborted page)
      exact ⟨hbefore.trans hends.symm, .inr ⟨hends, rfl⟩⟩
  | @note events hnote =>
    refine .of_same hs rfl ?_ rfl rfl
    have hnone : events.countP Event.ends = 0 := by
      refine Array.countP_eq_zero.2 fun e he => ?_
      have := hnote e he
      cases e <;> simp_all [Event.ofFetch, Event.ends]
    simp [ends, hnone]

theorem OneFetch.tallies (hone : OneFetch s) (hstep : Source.Step b s t) (hs : s.Counts) :
    Tallies s t := by
  cases hstep with
  | act hact => exact hone.tallies_act hact hs
  | beginCall h =>
    rcases s.beginCall_cases h with e | ⟨page, token, seen, hf, e⟩
    · rw [e]
      exact .of_same hs rfl rfl rfl rfl
    · have hslot := (hone.slot h).2 ⟨_, hf, rfl⟩
      have hbefore : s.calls.size = s.ends := by
        simpa [Counts, slotStage_of_slot hslot hf] using hs
      obtain ⟨-, hcalling⟩ := beginCall_of_queued hf
      have hslot' : (s.beginCall h).inFlight = some h := by
        rw [e]
        exact hslot
      have hstage := slotStage_of_slot hslot' hcalling
      have hends : (s.beginCall h).ends = s.ends := by
        rw [e]
        rfl
      refine ⟨?_, .inl ⟨hends, fun h' e' => by rw [e]; exact e'⟩⟩
      unfold Counts
      rw [hstage, hends, e]
      simpa [setStage] using hbefore
  | @endCall h page n token seen hf =>
    have hslot := (hone.slot h).2 ⟨_, hf, rfl⟩
    have hbefore : s.calls.size = s.ends + 1 := by
      simpa [Counts, slotStage_of_slot hslot hf] using hs
    rw [endCall_of_calling hf]
    cases b.answer n token with
    | page p =>
      have hends := ends_log { s with inFlight := none, progress := s.progress.apply p }
        (.fetchCompleted page p.rows.length p.isLast p.info.host)
      exact ⟨hbefore.trans hends.symm, .inr ⟨hends, rfl⟩⟩
    | failure e =>
      have hends := ends_log { s with inFlight := none } (.fetchFailed page e)
      exact ⟨hbefore.trans hends.symm, .inr ⟨hends, rfl⟩⟩
    | crash =>
      -- the dead fetch stays in the slot
      have hf' : (s.setStage h .crashed).fetches[h]? = some ⟨page, token, .crashed, seen⟩ :=
        lookup_modify.2 (.inl ⟨rfl, _, hf, rfl⟩)
      have hstage := slotStage_of_slot (s := s.setStage h .crashed) hslot hf'
      refine ⟨?_, .inl ⟨rfl, fun _ e => e⟩⟩
      unfold Counts
      rw [hstage]
      exact hbefore

end Source

/-! ## The call of a fetch -/

/-- The fetch makes the call of the given number. While it is in the slot, as many fetches have ended
as there were calls before; once its task has ended, it has ended with the reply to that call. -/
structure Fetch.Makes (b : Backend) (w : World) (n : Nat) (f : Fetch) : Prop where
  present : f.occupies = true → n = w.source.ends
  past : f.occupies = false → n < w.source.ends
  ended : ∀ r, f.outcome? = some r →
    w.source.calls[n]? = some f.token ∧ r = (b.answer n f.token).settlement
  arrived : ∀ p, f.outcome?.isSome = true → b.answer n f.token = .page p →
    w.applied[f.page]? = some p

namespace World

variable {b : Backend} {front : List Page} {k n : Nat} {w : World} {h : Handle} {f f' : Fetch}

theorem calls_grow (b : Backend) (w : World) (m : Move) {n : Nat} {token : Option PageToken}
    (hn : w.source.calls[n]? = some token) : (w.move b m).source.calls[n]? = some token := by
  rcases w.move_cases b m with ⟨hact, -⟩ | ⟨h, e⟩ | ⟨h, e⟩
  · rw [(Source.SameChain.of_act hact).calls]
    exact hn
  · rw [e]
    show (w.source.beginCall h).calls[n]? = _
    rcases w.source.beginCall_cases h with e | ⟨page, token', seen, -, e⟩ <;> rw [e]
    · exact hn
    · have hsize := (Array.getElem?_eq_some_iff.1 hn).1
      show (w.source.calls.push token')[n]? = _
      rw [Array.getElem?_push_lt hsize, ← Array.getElem?_eq_getElem hsize]
      exact hn
  · rw [e]
    rcases w.endCall_cases b h with e | ⟨page, token', n', seen, hf, e⟩ <;> rw [e]
    · exact hn
    · rw [Source.endCall_of_calling hf]
      cases b.answer n' token' <;> exact hn

theorem applied_grows (b : Backend) (w : World) (m : Move) {i : Nat} {p : Page}
    (hi : w.applied[i]? = some p) : (w.move b m).applied[i]? = some p := by
  obtain ⟨later, e⟩ := (w.move_grows b m).1
  rw [← e, List.getElem?_append_left (List.getElem?_eq_some_iff.1 hi).1]
  exact hi

end World

namespace Fetch.Makes

variable {b : Backend} {front : List Page} {k n : Nat} {w : World} {h : Handle} {f f' : Fetch}

theorem move (hm : f.Makes b w n) (hw : World.OnChain b front k w) (hc : w.source.Counts) (m : Move)
    (hf : w.source.fetches[h]? = some f) (hf' : (w.move b m).source.fetches[h]? = some f') :
    f'.Makes b (w.move b m) n := by
  have hone := hw.oneFetch
  have hone' := hone.step (w.source_move b m)
  have htallies := hone.tallies (w.source_move b m) hc
  obtain ⟨f₁, hf₁, hevolves⟩ := Source.evolves_step (w.source_move b m) hf
  obtain rfl : f₁ = f' := Option.some.inj (hf₁.symm.trans hf')
  have hpresent : f₁.occupies = true → n = (w.move b m).source.ends := by
    intro ho'
    have hslot' := (hone'.slot h).2 ⟨f₁, hf', ho'⟩
    rcases htallies.slot with ⟨hends, -⟩ | ⟨-, hempty⟩
    · rw [hends]
      exact hm.present (hevolves.occupies ho')
    · rw [hslot'] at hempty
      cases hempty
  have hpast : f₁.occupies = false → n < (w.move b m).source.ends := by
    intro ho'
    cases ho : f.occupies with
    | true =>
      -- the fetch has left the slot, which ends it
      have hn := hm.present ho
      rcases htallies.slot with ⟨-, hkept⟩ | ⟨hends, -⟩
      · obtain ⟨f₂, hf₂, ho₂⟩ := (hone'.slot h).1 (hkept h ((hone.slot h).2 ⟨f, hf, ho⟩))
        rw [hf'] at hf₂
        cases hf₂
        rw [ho'] at ho₂
        cases ho₂
      · omega
    | false =>
      have hn := hm.past ho
      rcases htallies.slot with ⟨hends, -⟩ | ⟨hends, -⟩ <;> omega
  -- what was known of the outcome stays so
  have hkept : f₁.outcome? = f.outcome? → f₁.Makes b (w.move b m) n := by
    intro houtcome
    refine ⟨hpresent, hpast, fun r hr => ?_, fun p hended hp => ?_⟩
    · rw [houtcome] at hr
      obtain ⟨hcall, hreply⟩ := hm.ended r hr
      rw [hevolves.token]
      exact ⟨w.calls_grow b m hcall, hreply⟩
    · rw [houtcome] at hended
      rw [hevolves.token] at hp
      rw [hevolves.page]
      exact w.applied_grows b m (hm.arrived p hended hp)
  rcases World.change_of_move b w m hf' with hsame | ⟨r, hh, -⟩ | ⟨hh, -⟩ | ⟨hqueued, e⟩ |
    @⟨page, n', token, seen, hcalling, e, happlied, hcalls⟩ | @⟨f₂, r, hf₂, -, hr, -⟩
  · rw [hf] at hsame
    cases hsame
    exact hkept rfl
  · rw [hh, Array.getElem?_eq_none (Nat.le_refl _)] at hf
    cases hf
  · rw [hh, Array.getElem?_eq_none (Nat.le_refl _)] at hf
    cases hf
  · -- a call that has just been made has no reply yet
    subst e
    refine ⟨hpresent, hpast, ?_, ?_⟩
    · intro r hr
      cases hr
    · intro p hended
      cases hended
  · rw [hf] at hcalling
    cases hcalling
    subst e
    -- the reply ends the call that is open, and that is the call of the fetch in the slot
    obtain ⟨hopen, hcall⟩ := hone.openCall h _ n' hf rfl
    have hstage := Source.slotStage_of_slot ((hone.slot h).2 ⟨_, hf, rfl⟩) hf
    have hsize : w.source.calls.size = w.source.ends + 1 := by
      simpa [Source.Counts, hstage] using hc
    have hn := hm.present rfl
    obtain rfl : n' = n := by omega
    refine ⟨hpresent, hpast, fun r hr => ?_, fun p _ hp => ?_⟩
    · rw [Reply.outcome_stage] at hr
      cases hr
      rw [hcalls]
      exact ⟨hcall, rfl⟩
    · obtain ⟨hpage, -, -⟩ := hone.current h _ hf rfl
      have hpage : page = w.applied.length := hpage.trans hw.pages
      have hp : b.answer n' token = .page p := hp
      rw [happlied, hp, hpage]
      simp [Reply.pages]
  · rw [hf] at hf₂
    cases hf₂
    exact hkept ((hevolves.outcome hr).trans hr.symm)

theorem run (hm : f.Makes b w n) (hw : World.OnChain b front k w) (hc : w.source.Counts)
    (hf : w.source.fetches[h]? = some f) (ms : List Move) :
    ∃ f', (w.run b ms).source.fetches[h]? = some f' ∧ f'.Makes b (w.run b ms) n := by
  have hkept : (∃ k, World.OnChain b front k (w.run b ms)) ∧ (w.run b ms).source.Counts ∧
      ∃ f', (w.run b ms).source.fetches[h]? = some f' ∧ f'.Makes b (w.run b ms) n := by
    refine World.run_keeps (P := fun v => (∃ k, World.OnChain b front k v) ∧ v.source.Counts ∧
      ∃ f', v.source.fetches[h]? = some f' ∧ f'.Makes b v n) ?_ ⟨⟨k, hw⟩, hc, f, hf, hm⟩ ms
    rintro v m ⟨⟨k, hv⟩, hc, f, hf, hm⟩
    obtain ⟨f', hf', -⟩ := Source.evolves_step (v.source_move b m) hf
    exact ⟨hv.move m, (hv.oneFetch.tallies (v.source_move b m) hc).counts, f', hf',
      hm.move hv hc m hf hf'⟩
  exact hkept.2.2

end Fetch.Makes

namespace World

/-- Calls and ended fetches go together, and the fetch in the slot makes the call that is due. -/
structure Tallied (b : Backend) (w : World) : Prop where
  counts : w.source.Counts
  makes : ∀ (h : Handle) (f : Fetch), w.source.fetches[h]? = some f → f.occupies = true →
    f.Makes b w w.source.ends

variable {b : Backend} {front : List Page} {k : Nat} {w : World} {h : Handle}

theorem tallied_start (b : Backend) (first : Option Page) : Tallied b (start first) := by
  cases first with
  | none => exact ⟨rfl, by simp [start, Source.initial]⟩
  | some page => exact ⟨rfl, by simp [start, Source.ofFirstPage, Source.initial]⟩

/-- A fetch that has just been started has no reply to answer for. -/
theorem makes_of_queued (page : Nat) (token : Option PageToken) (seen : Option Settlement) :
    Fetch.Makes b w w.source.ends ⟨page, token, .queued, seen⟩ := by
  refine ⟨fun _ => rfl, ?_, ?_, ?_⟩
  · intro ho
    cases ho
  · intro r hr
    cases hr
  · intro p hended
    cases hended

theorem Tallied.move (hw : Tallied b w) (hchain : OnChain b front k w) (m : Move) :
    Tallied b (w.move b m) := by
  refine ⟨(hchain.oneFetch.tallies (w.source_move b m) hw.counts).counts, ?_⟩
  intro h f hf ho
  -- a fetch that was there before occupied the slot then, too
  have hold : ∀ f', w.source.fetches[h]? = some f' →
      f.Makes b (w.move b m) (w.move b m).source.ends := by
    intro f' hf'
    obtain ⟨f₁, hf₁, hevolves⟩ := Source.evolves_step (w.source_move b m) hf'
    obtain rfl : f₁ = f := Option.some.inj (hf₁.symm.trans hf)
    have hmakes := (hw.makes h f' hf' (hevolves.occupies ho)).move hchain hw.counts m hf' hf
    rw [← hmakes.present ho]
    exact hmakes
  rcases change_of_move b w m hf with hf' | ⟨r, -, rfl⟩ | ⟨-, rfl⟩ | ⟨hf', -⟩ | ⟨hf', -, -, -⟩ |
    ⟨hf', -, -, -⟩
  · exact hold _ hf'
  · cases ho
  · exact makes_of_queued _ _ _
  · exact hold _ hf'
  · exact hold _ hf'
  · exact hold _ hf'

theorem Tallied.run (hw : Tallied b w) (hchain : OnChain b front k w) (ms : List Move) :
    Tallied b (w.run b ms) := by
  have hkept : (∃ k, OnChain b front k (w.run b ms)) ∧ Tallied b (w.run b ms) := by
    refine run_keeps (P := fun v => (∃ k, OnChain b front k v) ∧ Tallied b v) ?_
      ⟨⟨k, hchain⟩, hw⟩ ms
    rintro v m ⟨⟨k, hv⟩, htallied⟩
    exact ⟨hv.move m, htallied.move hv m⟩
  exact hkept.2

theorem tallied_run (b : Backend) (first : Option Page) (ms : List Move) :
    Tallied b ((start first).run b ms) :=
  (tallied_start b first).run (onChain_start b first) ms

end World

end PagedTraversal
