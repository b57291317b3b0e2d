import PagedTraversal.Proofs.Paging.Unfailing

/-!
# PagedTraversal.Proofs.Paging.Headway

What is left to do while no fetch fails. A call goes on to a phase of lower rank, comes back, or
waits for the fetch in the slot; and the task of that fetch always has a step to do.

* `Call.step_cases`: what a step of a call comes to.
* `World.tend`: the next step of the task in the slot.
-/

namespace PagedTraversal

theorem Fetch.not_returned_of_occupies {f : Fetch} (h : f.occupies = true)
    (settlement : Settlement) : f.stage ≠ .returned settlement := by
  obtain ⟨page, token, stage, seen⟩ := f
  rintro rfl
  cases h

namespace Source

/-- How far the fetch in the slot has come. -/
def slotStage (s : Source) : Option Stage :=
  s.inFlight.bind fun h => s.fetches[h]?.map Fetch.stage

/-- The steps that are left of the fetches when `N` calls are made in all. A fetch is started, makes
its call and returns. -/
def fetchSteps (N : Nat) (s : Source) : Nat :=
  match s.slotStage with
  | none => 3 * (N - s.calls.size)
  | some .queued => 3 * (N - s.calls.size) - 1
  | some _ => 3 * (N - s.calls.size) + 1

def returned (s : Source) (h : Handle) : Bool :=
  match s.fetches[h]?.map Fetch.stage with
  | some (.returned _) => true
  | _ => false

theorem fetchSteps_congr {s t : Source} (N : Nat) (hcalls : t.calls = s.calls)
    (hstage : t.slotStage = s.slotStage) : t.fetchSteps N = s.fetchSteps N := by
  rw [fetchSteps, fetchSteps, hcalls, hstage]

theorem slotStage_of_slot {s : Source} {h : Handle} {f : Fetch} (hslot : s.inFlight = some h)
    (hf : s.fetches[h]? = some f) : s.slotStage = some f.stage := by
  simp [slotStage, hslot, hf]

/-- A fetch that is put beside the one in the slot changes nothing there. -/
theorem OneFetch.slotStage_push {s : Source} (hone : s.OneFetch) (f : Fetch) :
    slotStage { s with fetches := s.fetches.push f } = s.slotStage := by
  rcases Option.eq_none_or_eq_some s.inFlight with hslot | ⟨h, hslot⟩
  · simp [slotStage, hslot]
  · obtain ⟨f', hf, -⟩ := (hone.slot h).1 hslot
    rw [slotStage_of_slot hslot hf]
    exact slotStage_of_slot hslot (lookup_push.2 (.inr hf))

/-- What a poll finds out does not move a task on. -/
theorem slotStage_setSeen (s : Source) (h : Handle) (settlement : Settlement) :
    (s.setSeen h settlement).slotStage = s.slotStage := by
  have hstage : ∀ h' : Handle, ((s.setSeen h settlement).fetches[h']?).map Fetch.stage =
      (s.fetches[h']?).map Fetch.stage := by
    intro h'
    simp only [setSeen, Array.getElem?_modify]
    split
    · rw [Option.map_map]
      rfl
    · rfl
  simp only [slotStage, hstage]
  rfl

theorem returned_of_stage {s : Source} {h : Handle} {f : Fetch} {settlement : Settlement}
    (hf : s.fetches[h]? = some f) (hstage : f.stage = .returned settlement) :
    s.returned h = true := by
  simp [returned, hf, hstage]

theorem returned_of_occupies {s : Source} {h : Handle} {f : Fetch} (hf : s.fetches[h]? = some f)
    (ho : f.occupies = true) : s.returned h = false := by
  have := Fetch.not_returned_of_occupies ho
  simp only [returned, hf, Option.map_some]
  split
  · next settlement e => exact absurd (Option.some.inj e) (this settlement)
  · rfl

variable {s t : Source}

/-- Only a request can change what is left of the fetches: it starts one. -/
theorem fetchSteps_act (hone : s.OneFetch) (hhealthy : s.Healthy) (hact : s.Act true t) (N : Nat) :
    t.fetchSteps N ≤ s.fetchSteps N := by
  cases hact with
  | rest => exact Nat.le_refl _
  | takeRow =>
    unfold takeRow
    split <;> exact Nat.le_refl _
  | drain => exact Nat.le_refl _
  | request =>
    rcases s.request_cases true with ⟨settlement, -, e⟩ | ⟨h, -, -, e⟩ | ⟨-, hslot, -, e⟩ <;> rw [e]
    · exact Nat.le_of_eq (fetchSteps_congr N rfl (hone.slotStage_push _))
    · exact Nat.le_refl _
    · have hbefore : s.fetchSteps N = 3 * (N - s.calls.size) := by
        simp [fetchSteps, slotStage, hslot]
      rw [hbefore]
      simp only [fetchSteps, log, slotStage, Option.bind_some, Array.getElem?_push_size,
        Option.map_some]
      omega
  | poll h =>
    rcases s.poll_cases h with e | ⟨page, token, settlement, -, e⟩ | ⟨page, token, hf, -⟩
    · exact Nat.le_of_eq (by rw [e])
    · rw [e]
      exact Nat.le_of_eq (fetchSteps_congr N rfl (s.slotStage_setSeen h settlement))
    · rcases hhealthy h _ hf with e | ⟨n, e⟩ | e <;> cases e
  | note _ => exact Nat.le_refl _

/-- With a runtime a request gives out a fetch that has returned only when all pages are there. -/
theorem request_returned (hone : s.OneFetch) :
    (s.request true).1 < (s.request true).2.fetches.size ∧
      (s.request true).2.returned (s.request true).1 = s.progress.complete := by
  rcases s.request_cases true with ⟨settlement, hok, e⟩ | ⟨h, hc, hslot, e⟩ | ⟨hc, -, -, e⟩ <;> rw [e]
  · rw [(hok rfl).1]
    exact ⟨by simp, returned_of_stage (lookup_push.2 (.inl ⟨rfl, rfl⟩)) rfl⟩
  · obtain ⟨f, hf, ho⟩ := (hone.slot h).1 hslot
    rw [hc]
    exact ⟨(Array.getElem?_eq_some_iff.1 hf).1, returned_of_occupies hf ho⟩
  · rw [hc]
    exact ⟨by simp [log], returned_of_occupies (lookup_push.2 (.inl ⟨rfl, rfl⟩)) rfl⟩

/-- A poll waits for the fetch in the slot, or finds that the fetch has brought its page. -/
theorem poll_healthy (hone : s.OneFetch) (hhealthy : s.Healthy) {h : Handle}
    (hsize : h < s.fetches.size) :
    (s.poll h = (none, s) ∧ s.inFlight = some h) ∨
      ((s.poll h).1 = some (.ok ()) ∧ s.returned h = true) := by
  have hf : s.fetches[h]? = some s.fetches[h] := Array.getElem?_eq_getElem hsize
  have hstage := hhealthy h _ hf
  have htruthful := hone.truthful h _ hf
  revert hf hstage htruthful
  generalize s.fetches[h] = f
  intro hf hstage htruthful
  obtain ⟨page, token, stage, seen⟩ := f
  rcases hstage with rfl | ⟨n, rfl⟩ | rfl
  · obtain rfl : seen = none := htruthful
    exact .inl ⟨by simp [poll, hf], (hone.slot h).2 ⟨_, hf, rfl⟩⟩
  · obtain rfl : seen = none := htruthful
    exact .inl ⟨by simp [poll, hf], (hone.slot h).2 ⟨_, hf, rfl⟩⟩
  · refine .inr ⟨?_, returned_of_stage hf rfl⟩
    rcases htruthful with rfl | rfl <;> simp [poll, hf]

end Source

/-! ## The steps of a call -/

/-- A goal without what it has drained. -/
def Goal.kind : Goal → Goal
  | .all _ => .all #[]
  | g => g

namespace Call

/-- How far a call is from coming back, or from waiting for a fetch that has not returned. -/
def rank (c : Call) (s : Source) : Nat :=
  match c.phase with
  | .measure _ => 7
  | .compare _ _ => 6
  | .prefetch => 5
  | .look => 4
  | .request => if s.progress.complete then 6 else 3
  | .wait h => if s.returned h then 5 else 2

def WaitsOn (c : Call) (s : Source) : Prop := ∀ h, c.phase = .wait h → h < s.fetches.size

theorem rank_pos (c : Call) (s : Source) : 0 < c.rank s := by
  unfold rank
  repeat' split
  all_goals omega

/-- When a fetch returns, a call that waits for it or would have joined it is given more to do. -/
theorem rank_le (c : Call) (s t : Source) : c.rank t ≤ c.rank s + 3 := by
  unfold rank
  repeat' split
  all_goals omega

theorem step_kind {c c' : Call} {hasRuntime : Bool} {s : Source}
    (h : (c.step hasRuntime s).1 = .more c') : c'.goal.kind = c.goal.kind := by
  obtain ⟨goal, phase⟩ := c
  cases phase with
  | look =>
    cases goal with
    | one =>
      simp only [step, look] at h
      split at h <;> cases h
      rfl
    | all drained =>
      simp only [step, look] at h
      split at h <;> cases h
      rfl
    | exhausted =>
      simp only [step, look] at h
      split at h <;> cases h
      rfl
    | settled => cases h
  | compare threshold available =>
    simp only [step] at h
    split at h <;> cases h <;> rfl
  | wait handle =>
    simp only [step] at h
    split at h <;> cases h
    rfl
  | _ =>
    cases h
    rfl

/-- A step of a call for rows: it goes on to a lower rank, waits for the fetch in the slot, or comes
back with the first row or with the end. -/
theorem step_cases {c : Call} {s : Source} (hone : s.OneFetch) (hhealthy : s.Healthy)
    (hkind : c.goal.kind = .one ∨ c.goal.kind = .all #[]) (hwait : c.WaitsOn s) :
    (∃ c', (c.step true s).1 = .more c' ∧ c'.rank (c.step true s).2 < c.rank s ∧
      c'.WaitsOn (c.step true s).2) ∨
    (∃ h, c.step true s = (.waiting h, s) ∧ c.takes s = [] ∧ s.inFlight = some h) ∨
    (∃ row, c.goal.kind = .one ∧ c.takes s = [row] ∧ c.rank s = 4 ∧
      (c.step true s).1 = .done (.ok (.one (some row)))) ∨
    ((c.step true s).2.progress.buffer = [] ∧ (c.step true s).2.progress.complete = true ∧
      ((c.goal.kind = .one ∧ (c.step true s).1 = .done (.ok (.one none))) ∨
        ∃ rows, c.goal.kind = .all #[] ∧ (c.step true s).1 = .done (.ok (.all rows)))) := by
  obtain ⟨goal, phase⟩ := c
  cases phase with
  | measure threshold => exact .inl ⟨_, rfl, by simp [rank], by simp [WaitsOn]⟩
  | compare threshold available =>
    refine .inl ?_
    simp only [step]
    split <;> exact ⟨_, rfl, by simp [rank], by simp [WaitsOn]⟩
  | prefetch => exact .inl ⟨_, rfl, by simp [rank], by simp [WaitsOn]⟩
  | look =>
    cases goal with
    | one =>
      simp only [step, look, takes, Source.takeRow]
      cases hb : s.progress.buffer with
      | cons row rest => exact .inr (.inr (.inl ⟨row, rfl, rfl, rfl, rfl⟩))
      | nil =>
        cases hc : s.progress.complete with
        | true => exact .inr (.inr (.inr (by simp [Source.whenEmpty, hc, hb, Goal.kind])))
        | false =>
          refine .inl ⟨_, by simp [Source.whenEmpty, hc, goTo]; rfl, ?_, ?_⟩ <;>
            simp [Source.whenEmpty, hc, rank, WaitsOn]
    | all drained =>
      simp only [step, look, takes, Source.drain]
      cases hc : s.progress.complete with
      | true => exact .inr (.inr (.inr (by simp [Goal.kind])))
      | false => exact .inl ⟨_, rfl, by simp [rank], by simp [WaitsOn]⟩
    | exhausted => rcases hkind with h | h <;> cases h
    | settled => rcases hkind with h | h <;> cases h
  | request =>
    obtain ⟨hsize, hreturned⟩ := s.request_returned hone
    refine .inl ⟨_, rfl, ?_, ?_⟩
    · show (if (s.request true).2.returned (s.request true).1 then 5 else 2) <
        if s.progress.complete then 6 else 3
      rw [hreturned]
      split <;> omega
    · intro h e
      cases e
      exact hsize
  | wait h =>
    rcases Source.poll_healthy hone hhealthy (hwait h rfl) with ⟨e, hslot⟩ | ⟨e, hreturned⟩
    · exact .inr (.inl ⟨h, by simp [step, e], rfl, hslot⟩)
    · refine .inl ?_
      simp only [step]
      split
      · next hnone => rw [hnone] at e; cases e
      · next t hok => exact ⟨_, rfl, by simp [rank, hreturned], by simp [WaitsOn]⟩
      · next err t herror => rw [herror] at e; cases e

end Call

/-! ## The task in the slot -/

namespace World

/-- The task of the fetch in the slot does its next step: it makes its call or is answered. -/
def tend (b : Backend) (w : World) : World :=
  match w.source.inFlight with
  | none => w
  | some h =>
    match w.source.fetches[h]? with
    | some ⟨_, _, .queued, _⟩ => w.move b (.beginCall h)
    | _ => w.move b (.endCall h)

variable {b : Backend} {start : List Page} {N : Nat} {w : World}

/-- The task in the slot makes one move or none. -/
theorem tend_eq_move (b : Backend) (w : World) : w.tend b = w ∨ ∃ m, w.tend b = w.move b m := by
  unfold tend
  split
  · exact .inl rfl
  · split
    · exact .inr ⟨_, rfl⟩
    · exact .inr ⟨_, rfl⟩

theorem tend_of_empty (b : Backend) (hslot : w.source.inFlight = none) : w.tend b = w := by
  simp [tend, hslot]

theorem tend_of_queued (b : Backend) {h : Handle} {page : Nat} {token : Option PageToken}
    {seen : Option Settlement} (hslot : w.source.inFlight = some h)
    (hf : w.source.fetches[h]? = some ⟨page, token, .queued, seen⟩) :
    w.tend b = { w with source := w.source.beginCall h } := by
  simp [tend, hslot, hf, move]

theorem tend_of_calling (b : Backend) {h : Handle} {page n : Nat} {token : Option PageToken}
    {seen : Option Settlement} (hslot : w.source.inFlight = some h)
    (hf : w.source.fetches[h]? = some ⟨page, token, .calling n, seen⟩) :
    w.tend b = { w with
      source := w.source.endCall h (b.answer n token)
      applied := w.applied ++ (b.answer n token).pages } := by
  simp [tend, hslot, hf, move, endCall]

theorem Unfailing.stepCall (hends : b.ChainEnds start N) (hw : Unfailing b start w) (n : Nat) :
    Unfailing b start (w.stepCall n true) :=
  hw.move (m := .step n true) hends rfl

theorem Unfailing.fetchSteps_stepCall (hw : Unfailing b start w) (n N : Nat) :
    (w.stepCall n true).source.fetchSteps N ≤ w.source.fetchSteps N := by
  obtain ⟨k, hchain⟩ := hw.chain
  rcases w.stepCall_cases n true with e | ⟨c, -, e⟩
  · exact Nat.le_of_eq (by rw [e])
  · rw [e]
    exact Source.fetchSteps_act hchain.oneFetch hw.healthy (c.step_act true w.source) N

theorem Unfailing.tend (hends : b.ChainEnds start N) (hw : Unfailing b start w) :
    Unfailing b start (w.tend b) := by
  unfold World.tend
  split
  · exact hw
  · split <;> exact hw.move hends rfl

/-- The task changes nothing that a call holds or has taken. -/
theorem tend_calls (b : Backend) (w : World) :
    (w.tend b).parties = w.parties ∧ (w.tend b).takings = w.takings ∧
      (w.tend b).source.fetches.size = w.source.fetches.size := by
  unfold tend
  split
  · exact ⟨rfl, rfl, rfl⟩
  · next h hslot =>
    split
    · refine ⟨rfl, rfl, ?_⟩
      show (w.source.beginCall h).fetches.size = _
      rcases w.source.beginCall_cases h with e | ⟨page, token, seen, -, e⟩ <;> rw [e]
      simp [Source.setStage]
    · show (w.endCall b h).parties = _ ∧ (w.endCall b h).takings = _ ∧
        (w.endCall b h).source.fetches.size = _
      rcases w.endCall_cases b h with e | ⟨page, token, n, seen, hf, e⟩ <;> rw [e]
      · exact ⟨rfl, rfl, rfl⟩
      · refine ⟨rfl, rfl, ?_⟩
        rw [Source.endCall_of_calling hf]
        cases b.answer n token <;> simp [Source.setStage, Source.log]

theorem tend_fetchSteps (hends : b.ChainEnds start N) (hw : Unfailing b start w) {h : Handle}
    (hslot : w.source.inFlight = some h) :
    (w.tend b).source.fetchSteps N < w.source.fetchSteps N := by
  have hafter := hw.tend hends
  obtain ⟨k, hchain⟩ := hw.chain
  obtain ⟨k', hchain'⟩ := hafter.chain
  have hcalls := hchain'.calls_le hends
  obtain ⟨⟨page, token, stage, seen⟩, hf, ho⟩ := (hchain.oneFetch.slot h).1 hslot
  have hbefore := Source.slotStage_of_slot hslot hf
  rcases hw.healthy h _ hf with rfl | ⟨n, rfl⟩ | rfl
  · obtain ⟨hbegin, hcalling⟩ := Source.beginCall_of_queued hf
    rw [tend_of_queued b hslot hf] at hcalls ⊢
    have hslot' : (w.source.beginCall h).inFlight = some h := by
      rw [hbegin]
      exact hslot
    have hstage := Source.slotStage_of_slot hslot' hcalling
    have hsize : (w.source.beginCall h).calls.size = w.source.calls.size + 1 := by
      rw [hbegin]
      exact Array.size_push _
    simp only [Source.fetchSteps, hstage, hbefore, hsize] at hcalls ⊢
    omega
  · obtain ⟨p, hp⟩ := hchain.answer_page hends hf
    have hsource : (w.tend b).source = w.source.endCall h (.page p) := by
      rw [tend_of_calling b hslot hf, hp]
    have hstage : (w.tend b).source.slotStage = none := by
      rw [hsource, Source.endCall_of_calling hf]
      rfl
    have hsize : (w.tend b).source.calls.size = w.source.calls.size := by
      rw [hsource, Source.endCall_of_calling hf]
      rfl
    simp only [Source.fetchSteps, hstage, hbefore, hsize]
    omega
  · cases ho

end World

end PagedTraversal
