import PagedTraversal.Proofs.Paging.Failure
import PagedTraversal.Proofs.Paging.InFlight
import PagedTraversal.Proofs.Paging.Serving

/-!
# PagedTraversal.Proofs.Paging.Handles

What a handle says of its fetch. A request is served by one call for a page, that of the fetch which
it joins or starts, and two requests are given the same handle exactly if one call serves both. A
handle given out early, because all pages are there or because nothing could run a fetch, is on a
fetch of its own.

* `World.TellsTruth`: what holds of a handle from the request on that it was given to, whatever the
  parties do; `World.handle_tells_truth`: it holds of every handle.
-/

namespace PagedTraversal

/-- The call that serves a request: that of the fetch which the request joins or starts. -/
def Source.servingCall (hasRuntime : Bool) (s : Source) : Option Nat :=
  if s.progress.complete || (s.inFlight.isNone && !hasRuntime) then none else some s.nextCall

/-- What a handle tells that is given out without a fetch. -/
def Source.earlySettlement (s : Source) : Settlement :=
  if s.progress.complete then .ok () else .error .noRuntime

namespace World

/-- The move makes a request and is given the handle. A request is made on its own, or by a call that
needs a page or asks for one ahead. -/
inductive Requests (w : World) : Move → Bool → Handle → Prop where
  | own (hasRuntime : Bool) :
      Requests w (.request hasRuntime) hasRuntime (w.source.request hasRuntime).1
  | call {n : Nat} {c : Call} (hasRuntime : Bool) : w.parties[n]? = some (.running c) →
      c.phase = .request ∨ c.phase = .prefetch →
      Requests w (.step n hasRuntime) hasRuntime (w.source.request hasRuntime).1

variable {b : Backend} {front : List Page} {k n : Nat} {w : World} {m : Move} {hasRuntime : Bool}
  {h : Handle} {f : Fetch}

theorem Requests.source_eq (hr : w.Requests m hasRuntime h) :
    h = (w.source.request hasRuntime).1 ∧
      (w.move b m).source = (w.source.request hasRuntime).2 := by
  cases hr with
  | own => exact ⟨rfl, rfl⟩
  | @call n c _ hc hphase =>
    refine ⟨rfl, ?_⟩
    show (w.stepCall n hasRuntime).source = _
    rw [(stepCall_of_running hc hasRuntime).1]
    obtain ⟨goal, phase⟩ := c
    rcases hphase with rfl | rfl <;> rfl

/-- A request is served by the call that is due, and its fetch is in the slot afterwards; or by none,
and then its handle is new and its fetch has returned. -/
theorem Requests.cases (hr : w.Requests m hasRuntime h) (hw : OnChain b front k w)
    (ht : Tallied b w) :
    (w.source.servingCall hasRuntime = none ∧ h = w.source.fetches.size ∧
      (w.move b m).source.fetches[h]? = some (w.source.settledFetch w.source.earlySettlement)) ∨
    (w.source.servingCall hasRuntime = some w.source.ends ∧
      (w.move b m).source.inFlight = some h ∧ (w.move b m).source.ends = w.source.ends ∧
      (w.move b m).source.progress = w.source.progress) := by
  obtain ⟨hh, hsource⟩ := hr.source_eq (b := b)
  have hprogress := w.source.progress_request hasRuntime
  have hdue := ht.counts.nextCall_eq
  have htallies := hw.oneFetch.tallies (w.source_move b m) ht.counts
  -- while a fetch is in the slot, none has just ended
  have hends : (w.move b m).source.inFlight = some h → (w.move b m).source.ends = w.source.ends := by
    intro hslot
    rcases htallies.slot with ⟨hends, -⟩ | ⟨-, hempty⟩
    · exact hends
    · rw [hslot] at hempty
      cases hempty
  rw [hsource] at hends ⊢
  unfold Source.servingCall Source.earlySettlement
  cases hc : w.source.progress.complete with
  | true =>
    have e : w.source.request hasRuntime =
        w.source.addFetch (w.source.settledFetch (.ok ())) := by
      simp [Source.request, hc]
    rw [e] at hh ⊢
    subst hh
    exact .inl ⟨rfl, rfl, Source.lookup_push.2 (.inl ⟨rfl, rfl⟩)⟩
  | false =>
    rcases Option.eq_none_or_eq_some w.source.inFlight with hslot | ⟨h', hslot⟩
    · cases hasRuntime with
      | true =>
        have hfilled : (w.source.request true).2.inFlight = some h := by
          rw [hh]
          simp [Source.request, hc, hslot, Source.addFetch, Source.log]
        refine .inr ⟨?_, hfilled, hends hfilled, hprogress⟩
        simp [hslot, hdue]
      | false =>
        have e : w.source.request false =
            w.source.addFetch (w.source.settledFetch (.error .noRuntime)) := by
          simp [Source.request, hc, hslot]
        rw [e] at hh ⊢
        subst hh
        refine .inl ⟨?_, rfl, Source.lookup_push.2 (.inl ⟨rfl, rfl⟩)⟩
        simp [hslot]
    · have e : w.source.request hasRuntime =
          (h', w.source.log (.fetchJoined w.source.progress.pages)) := by
        simp [Source.request, hc, hslot]
      have hfilled : (w.source.request hasRuntime).2.inFlight = some h := by
        rw [hh, e]
        exact hslot
      refine .inr ⟨?_, hfilled, hends hfilled, hprogress⟩
      simp [hslot, hdue]

/-- A fetch that was there before a move and is in the slot after it. -/
theorem OnChain.occupant (hw : OnChain b front k w) (hf : w.source.fetches[h]? = some f)
    (hslot : (w.move b m).source.inFlight = some h) :
    ∃ f', (w.move b m).source.fetches[h]? = some f' ∧ f.Evolves f' ∧ f'.occupies = true := by
  obtain ⟨f', hf', hevolves⟩ := Source.evolves_step (w.source_move b m) hf
  obtain ⟨f'', hf'', ho⟩ := ((hw.oneFetch.step (w.source_move b m)).slot h).1 hslot
  obtain rfl : f'' = f' := Option.some.inj (hf''.symm.trans hf')
  exact ⟨f'', hf'', hevolves, ho⟩

/-- A later request is given the handle of a fetch as long as no other fetch has ended since. -/
theorem Requests.eq_iff (hr : w.Requests m hasRuntime h) (hw : OnChain b front k w)
    (ht : Tallied b w) {h₀ : Handle} (hf : w.source.fetches[h₀]? = some f) (hm : f.Makes b w n) :
    (h = h₀ ↔ w.source.ends = n) ∧
      (w.source.servingCall hasRuntime = some n ↔ w.source.ends = n) := by
  -- until another fetch has ended, the fetch is in the slot
  have hslot : w.source.ends = n → w.source.inFlight = some h₀ := by
    intro hn
    cases ho : f.occupies with
    | true => exact (hw.oneFetch.slot h₀).2 ⟨f, hf, ho⟩
    | false =>
      have := hm.past ho
      omega
  rcases hr.cases hw ht with ⟨hnone, hh, -⟩ | ⟨hsome, hslot', hends, -⟩
  · have hne : w.source.ends ≠ n := by
      intro hn
      obtain ⟨f', hf', ho'⟩ := (hw.oneFetch.slot h₀).1 (hslot hn)
      have hcomplete := (hw.oneFetch.current h₀ f' hf' ho').2.2
      simp [Source.servingCall, hcomplete, hslot hn] at hnone
    have hlt := (Array.getElem?_eq_some_iff.1 hf).1
    rw [hnone]
    refine ⟨⟨fun e => ?_, fun hn => absurd hn hne⟩, ⟨fun e => ?_, fun hn => absurd hn hne⟩⟩
    · rw [← e, hh] at hlt
      exact absurd hlt (Nat.lt_irrefl _)
    · cases e
  · rw [hsome]
    refine ⟨⟨fun e => ?_, fun hn => ?_⟩, Option.some_inj⟩
    · subst e
      obtain ⟨f', hf', -, ho⟩ := hw.occupant hf hslot'
      rw [← hends]
      exact ((hm.move hw ht.counts m hf hf').present ho).symm
    · have htallies := hw.oneFetch.tallies (w.source_move b m) ht.counts
      rcases htallies.slot with ⟨-, hkept⟩ | ⟨hmore, -⟩
      · have := hkept h₀ (hslot hn)
        rw [hslot'] at this
        exact Option.some.inj this
      · omega

/-! ## The fetch behind a handle -/

/-- From a request on that a call serves, its handle is on the fetch that makes this call. -/
theorem Requests.served (hr : w.Requests m hasRuntime h) (hw : OnChain b front k w)
    (ht : Tallied b w) (hn : w.source.servingCall hasRuntime = some n) (later : List Move) :
    ∃ f, ((w.move b m).run b later).source.fetches[h]? = some f ∧
      f.Makes b ((w.move b m).run b later) n ∧ f.page = w.source.progress.pages ∧
      f.token = w.source.progress.next := by
  obtain ⟨k₁, hw₁⟩ := hw.move m
  have ht₁ := ht.move hw m
  rcases hr.cases hw ht with ⟨hnone, -, -⟩ | ⟨hsome, hslot, hends, hprogress⟩
  · rw [hn] at hnone
    cases hnone
  · rw [hn] at hsome
    cases hsome
    obtain ⟨f, hf, ho⟩ := (hw₁.oneFetch.slot h).1 hslot
    obtain ⟨hpage, htoken, -⟩ := hw₁.oneFetch.current h f hf ho
    rw [hprogress] at hpage htoken
    have hm := ht₁.makes h f hf ho
    rw [hends] at hm
    obtain ⟨f', hf', hm'⟩ := hm.run hw₁ ht₁.counts hf later
    obtain ⟨f'', hf'', hevolves⟩ := evolves_run (b := b) hf later
    obtain rfl : f'' = f' := Option.some.inj (hf''.symm.trans hf')
    exact ⟨f'', hf'', hm', hevolves.page.trans hpage, hevolves.token.trans htoken⟩

/-- From a request on that no call serves, its handle is on a fetch that has returned. -/
theorem Requests.unserved (hr : w.Requests m hasRuntime h) (hw : OnChain b front k w)
    (ht : Tallied b w) (hnone : w.source.servingCall hasRuntime = none) (later : List Move) :
    ∃ f, ((w.move b m).run b later).source.fetches[h]? = some f ∧
      f.stage = .returned w.source.earlySettlement := by
  rcases hr.cases hw ht with ⟨-, -, hf⟩ | ⟨hsome, -, -, -⟩
  · obtain ⟨f, hf, hevolves⟩ := evolves_run (b := b) hf later
    exact ⟨f, hf, hevolves.ended rfl⟩
  · rw [hnone] at hsome
    cases hsome

/-- A handle that no call serves is on a fetch that nobody else is handed. -/
theorem Requests.ne_of_returned (hr : w.Requests m hasRuntime h) (hw : OnChain b front k w)
    (ht : Tallied b w) {h₀ : Handle} {r : Settlement} (hf : w.source.fetches[h₀]? = some f)
    (hstage : f.stage = .returned r) : h ≠ h₀ := by
  rintro rfl
  rcases hr.cases hw ht with ⟨-, hh, -⟩ | ⟨-, hslot, -, -⟩
  · rw [hh, Array.getElem?_eq_none (Nat.le_refl _)] at hf
    cases hf
  · obtain ⟨f', -, hevolves, ho⟩ := hw.occupant hf hslot
    exact Fetch.not_returned_of_occupies (hevolves.occupies ho) r hstage

/-- What the handle of a fetch tells: nothing while the task runs, and then the reply to its call. -/
theorem poll_of_makes (hm : f.Makes b w n) (hone : w.source.OneFetch)
    (hf : w.source.fetches[h]? = some f) :
    (w.source.poll h).1 = none ∧ w.source.Running h ∨
      w.source.calls[n]? = some f.token ∧
        (w.source.poll h).1 = some (b.answer n f.token).settlement := by
  rw [hone.poll_outcome]
  cases houtcome : f.outcome? with
  | none => exact .inl ⟨by simp [Source.outcome?, hf, houtcome], f, hf, houtcome⟩
  | some r =>
    obtain ⟨hcall, rfl⟩ := hm.ended r houtcome
    exact .inr ⟨hcall, Source.outcome?_eq_some.2 ⟨f, hf, houtcome⟩⟩

/-- When the handle tells that the page is there, the page lies in its place among those applied, and
the slot is not the fetch's any more. -/
theorem page_of_makes (hm : f.Makes b w n) (hone : w.source.OneFetch)
    (hf : w.source.fetches[h]? = some f) (hpoll : (w.source.poll h).1 = some (.ok ())) :
    w.source.inFlight ≠ some h ∧
      ∃ p, b.answer n f.token = .page p ∧ w.applied[f.page]? = some p := by
  rw [hone.poll_outcome] at hpoll
  obtain ⟨f', hf', houtcome⟩ := Source.outcome?_eq_some.1 hpoll
  obtain rfl : f' = f := Option.some.inj (hf'.symm.trans hf)
  refine ⟨fun hslot => ?_, ?_⟩
  · rcases hone.inFlight_iff.1 hslot with ⟨f₂, hf₂, hopen⟩ | ⟨page, token, hf₂⟩
    · rw [hf] at hf₂
      cases hf₂
      rw [houtcome] at hopen
      cases hopen
    · rw [hf] at hf₂
      cases hf₂
      cases houtcome
  · obtain ⟨-, hreply⟩ := hm.ended _ houtcome
    obtain ⟨p, hp⟩ := Reply.eq_page_of_settlement hreply.symm
    exact ⟨p, hp, hm.arrived p (by rw [houtcome]; rfl) hp⟩

/-- A page that has come for a fetch lies in its place among the pages applied. -/
theorem Accounts.rows_around {v : World} (hv : v.Accounts) {i : Nat} {p : Page}
    (hp : v.applied[i]? = some p) :
    v.takenRows ++ v.source.progress.buffer =
      (v.applied.take i).flatMap Page.rows ++ p.rows ++
        (v.applied.drop (i + 1)).flatMap Page.rows := by
  obtain ⟨hi, hp⟩ := List.getElem?_eq_some_iff.1 hp
  have hsplit : v.applied = v.applied.take i ++ p :: v.applied.drop (i + 1) := by
    rw [← hp, List.getElem_cons_drop, List.take_append_drop]
  calc v.takenRows ++ v.source.progress.buffer
      = v.applied.flatMap Page.rows := hv.rows.symm
    _ = (v.applied.take i ++ p :: v.applied.drop (i + 1)).flatMap Page.rows := by rw [← hsplit]
    _ = _ := by rw [List.flatMap_append, List.flatMap_cons, List.append_assoc]

/-! ## What a handle tells -/

/-- What holds of the handle `h` that the move `m` is given in `w`.
`same`: another request is given this handle exactly if the same call serves both. `joined`: so it is
as long as no fetch has ended since. `outcome`: until its fetch has ended the handle tells nothing,
and then what the call was answered with. `early`: a handle that no call serves tells at once that
all pages are there, or that nothing could run the fetch. `final`: what it tells does not change.
`arrived`: when it tells that the page is there, the page has been applied in its place, its rows
have been taken or are buffered, and the handle is in flight no more. -/
structure TellsTruth (b : Backend) (w : World) (m : Move) (hasRuntime : Bool) (h : Handle) :
    Prop where
  same : ∀ later m' hasRuntime' h', ((w.move b m).run b later).Requests m' hasRuntime' h' →
    (h' = h ↔ ∃ n, w.source.servingCall hasRuntime = some n ∧
      ((w.move b m).run b later).source.servingCall hasRuntime' = some n)
  joined : w.source.progress.complete = false → hasRuntime = true →
    ∀ later m' hasRuntime' h', ((w.move b m).run b later).Requests m' hasRuntime' h' →
      (h' = h ↔ ((w.move b m).run b later).source.ends = w.source.ends)
  outcome : ∀ n, w.source.servingCall hasRuntime = some n → ∀ later,
    let s := ((w.move b m).run b later).source
    (s.poll h).1 = none ∧ s.Running h ∨
      s.calls[n]? = some w.source.progress.next ∧
        (s.poll h).1 = some (b.answer n w.source.progress.next).settlement
  early : w.source.servingCall hasRuntime = none → ∀ later,
    (((w.move b m).run b later).source.poll h).1 = some w.source.earlySettlement
  final : ∀ later r, (((w.move b m).run b later).source.poll h).1 = some r → ∀ more,
    ((((w.move b m).run b later).run b more).source.poll h).1 = some r
  arrived : ∀ n, w.source.servingCall hasRuntime = some n → ∀ later,
    let v := (w.move b m).run b later
    let page := w.source.progress.pages
    (v.source.poll h).1 = some (.ok ()) →
      page < v.source.progress.pages ∧ v.source.inFlight ≠ some h ∧
      ∃ p, b.answer n w.source.progress.next = .page p ∧ v.applied[page]? = some p ∧
        v.takenRows ++ v.source.progress.buffer =
          (v.applied.take page).flatMap Page.rows ++ p.rows ++
            (v.applied.drop (page + 1)).flatMap Page.rows

/-- Whoever is given a handle, and whatever happens next: the handle is shared by exactly those whom
one call serves, and tells them all the same about it. -/
theorem handle_tells_truth (b : Backend) (first : Option Page) (ms : List Move) (m : Move)
    (hasRuntime : Bool) (h : Handle) :
    let w := (start first).run b ms
    w.Requests m hasRuntime h → TellsTruth b w m hasRuntime h := by
  intro w hr
  obtain ⟨k, hw⟩ : ∃ k, OnChain b first.toList k w := onChain_run b first ms
  have ht : Tallied b w := tallied_run b first ms
  have haccounts : (w.move b m).Accounts := (accounts_run b first ms).move m
  obtain ⟨k₁, hw₁⟩ := hw.move m
  have ht₁ := (ht.move hw m).run hw₁
  have hone : ∀ later, ((w.move b m).run b later).source.OneFetch := fun later => by
    obtain ⟨k₂, hv⟩ := hw₁.run later
    exact hv.oneFetch
  refine ⟨?_, ?_, ?_, ?_, ?_, ?_⟩
  · intro later m' hasRuntime' h' hr'
    obtain ⟨k₂, hv⟩ := hw₁.run later
    cases hn : w.source.servingCall hasRuntime with
    | none =>
      obtain ⟨f, hf, hstage⟩ := hr.unserved hw ht hn later
      refine ⟨fun e => absurd e (hr'.ne_of_returned hv (ht₁ later) hf hstage), ?_⟩
      rintro ⟨n, e, -⟩
      cases e
    | some n =>
      obtain ⟨f, hf, hm, -, -⟩ := hr.served hw ht hn later
      obtain ⟨hsame, hserving⟩ := hr'.eq_iff hv (ht₁ later) hf hm
      refine hsame.trans (hserving.symm.trans ⟨fun e => ⟨n, rfl, e⟩, ?_⟩)
      rintro ⟨n', e, hn'⟩
      cases e
      exact hn'
  · intro hc hruntime later m' hasRuntime' h' hr'
    obtain ⟨k₂, hv⟩ := hw₁.run later
    have hn : w.source.servingCall hasRuntime = some w.source.ends := by
      rw [← ht.counts.nextCall_eq]
      simp [Source.servingCall, hc, hruntime]
    obtain ⟨f, hf, hm, -, -⟩ := hr.served hw ht hn later
    exact (hr'.eq_iff hv (ht₁ later) hf hm).1
  · intro n hn later s
    obtain ⟨f, hf, hm, -, htoken⟩ := hr.served hw ht hn later
    rw [← htoken]
    exact poll_of_makes hm (hone later) hf
  · intro hn later
    obtain ⟨f, hf, hstage⟩ := hr.unserved hw ht hn later
    rw [(hone later).poll_outcome]
    refine Source.outcome?_eq_some.2 ⟨f, hf, ?_⟩
    obtain ⟨page, token, stage, seen⟩ := f
    cases hstage
    rfl
  · intro later r hpoll more
    obtain ⟨k₂, hv⟩ := hw₁.run later
    obtain ⟨k₃, hu⟩ := hv.run more
    rw [hv.oneFetch.poll_outcome] at hpoll
    rw [hu.oneFetch.poll_outcome]
    exact outcome?_run hpoll more
  · intro n hn later v page hpoll
    obtain ⟨k₂, hv⟩ := hw₁.run later
    obtain ⟨f, hf, hm, hpage, htoken⟩ := hr.served hw ht hn later
    obtain ⟨hslot, p, hp, happlied⟩ := page_of_makes hm (hone later) hf hpoll
    rw [hpage] at happlied
    rw [htoken] at hp
    refine ⟨?_, hslot, p, hp, happlied, (haccounts.run later).rows_around happlied⟩
    rw [hv.pages]
    exact (List.getElem?_eq_some_iff.1 happlied).1

/-- A prefetch and a request behind it share the handle. The task crashes, and both are told so. The
next request is served by a new call, and is given a new handle. -/
theorem handle_tells_truth_crash :
    let w := start none
    let v := (w.move crashesOnce (.request true)).run crashesOnce
      [.request true, .beginCall 0, .endCall 0, .poll 0]
    w.Requests (.request true) true 0 ∧ (v.source.poll 0).1 = some (.error .taskCrashed) ∧
      v.source.servingCall true = some 1 ∧ (v.source.request true).1 ≠ 0 := by
  intro w v
  have hrequests : w.Requests (.request true) true 0 := .own true
  have htells := handle_tells_truth crashesOnce none [] (.request true) true 0 hrequests
  refine ⟨hrequests, ?_, by decide, ?_⟩
  · rcases htells.outcome 0 rfl [.request true, .beginCall 0, .endCall 0, .poll 0] with
      ⟨hnone, -⟩ | ⟨-, hpoll⟩
    · cases hnone
    · exact hpoll
  · intro hsame
    obtain ⟨n, hn, hn'⟩ := (htells.same [.request true, .beginCall 0, .endCall 0, .poll 0]
      (.request true) true _ (.own true)).1 hsame
    cases hn
    cases hn'

end World

end PagedTraversal
