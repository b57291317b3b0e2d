import PagedTraversal.Proofs.ResultSet.Streaming

/-!
# PagedTraversal.Proofs.ResultSet.Prefetching

How much a stream that requests pages ahead lets pile up. The tasks of fetches run while the consumer
yields, that is between its calls and while a call waits; between two other steps of a call nothing
arrives. So what a call has measured is still true when it requests a page, and a fetch is in flight
only while no more rows are buffered than the threshold allows.

* `Call.Prefetches`: what a call knows of the buffer at each of its steps.
* `Consumption.prefetching_bounded`: the buffer never exceeds the first page, or the threshold and
  the largest page behind it.
-/

namespace PagedTraversal

/-- The number of rows of the largest of some pages. -/
def Page.largest (pages : List Page) : Nat := (pages.map fun p => p.rows.length).foldl max 0

theorem Page.largest_concat (pages : List Page) (p : Page) :
    Page.largest (pages ++ [p]) = max (Page.largest pages) p.rows.length := by
  simp [largest]

theorem Source.inFlight_poll_cases (h : Handle) (s : Source) :
    (s.poll h).2.inFlight = s.inFlight ∨ (s.poll h).2.inFlight = none := by
  rcases s.poll_cases h with e | ⟨page, token, r, -, e⟩ | ⟨page, token, -, e⟩ <;> rw [e]
  · exact .inl rfl
  · exact .inl rfl
  · exact .inr rfl

theorem Cursor.threshold_advance (c : Cursor) (r : Except ResultError ResultSet.Delivery) :
    (c.advance r).2.threshold = c.threshold := by
  unfold advance
  split <;> rfl

namespace Call

/-- What the call of a stream with the given threshold has found out about the buffer, and what still
holds of it when nothing arrives between its steps. -/
def Prefetches (threshold : Nat) (c : Call) (s : Source) : Prop :=
  c.goal = .one ∧
  match c.phase with
  | .measure t => t = threshold
  | .compare t available => t = threshold ∧ available = s.available
  | .prefetch => s.available ≤ threshold
  | .request => s.available = 0
  | _ => True

/-- A step only takes from the buffer. If it starts a fetch, no more rows are buffered than the
threshold allows. -/
theorem prefetches_step {threshold : Nat} {c : Call} {s : Source} (hc : c.Prefetches threshold s)
    (hslot : s.inFlight ≠ none → s.available ≤ threshold) :
    (c.step true s).2.available ≤ s.available ∧
      ((c.step true s).2.inFlight ≠ none → (c.step true s).2.available ≤ threshold) ∧
      ∀ c', (c.step true s).1.party c = .running c' → c'.Prefetches threshold (c.step true s).2 := by
  obtain ⟨goal, phase⟩ := c
  obtain ⟨rfl, hknown⟩ := hc
  have hrequest : (s.request true).2.available = s.available := by
    rw [Source.available, s.progress_request]
    rfl
  cases phase with
  | measure t =>
    obtain rfl : t = threshold := hknown
    refine ⟨Nat.le_refl _, hslot, ?_⟩
    rintro c' ⟨⟩
    exact ⟨rfl, rfl, rfl⟩
  | compare t available =>
    obtain ⟨rfl, rfl⟩ : t = threshold ∧ available = s.available := hknown
    simp only [step]
    split
    · next hlow =>
      refine ⟨Nat.le_refl _, hslot, ?_⟩
      rintro c' ⟨⟩
      simp only [Bool.and_eq_true, decide_eq_true_eq] at hlow
      exact ⟨rfl, hlow.1⟩
    · refine ⟨Nat.le_refl _, hslot, ?_⟩
      rintro c' ⟨⟩
      exact ⟨rfl, trivial⟩
  | prefetch =>
    have hlow : s.available ≤ threshold := hknown
    simp only [step, hrequest]
    refine ⟨Nat.le_refl _, fun _ => hlow, ?_⟩
    rintro c' ⟨⟩
    exact ⟨rfl, trivial⟩
  | look =>
    simp only [step, look, Source.takeRow]
    cases hb : s.progress.buffer with
    | cons row rest =>
      have hlength : s.available = rest.length + 1 := by simp [Source.available, hb]
      refine ⟨by simp [Source.available, hb], fun hfilled => ?_, ?_⟩
      · have := hslot hfilled
        show rest.length ≤ threshold
        omega
      · rintro c' ⟨⟩
    | nil =>
      cases hcomplete : s.progress.complete with
      | true =>
        simp only [Source.whenEmpty, hcomplete, if_true]
        refine ⟨Nat.le_refl _, hslot, ?_⟩
        rintro c' ⟨⟩
      | false =>
        simp only [Source.whenEmpty, hcomplete]
        refine ⟨Nat.le_refl _, hslot, ?_⟩
        rintro c' ⟨⟩
        exact ⟨rfl, by simp [Source.available, hb]⟩
  | request =>
    have hdry : s.available = 0 := hknown
    simp only [step, hrequest]
    refine ⟨Nat.le_refl _, fun _ => by omega, ?_⟩
    rintro c' ⟨⟩
    exact ⟨rfl, trivial⟩
  | wait h =>
    have hpoll : (s.poll h).2.available = s.available := by
      rw [Source.available, s.progress_poll]
      rfl
    rw [step_source_of_wait rfl, hpoll]
    refine ⟨Nat.le_refl _, fun hfilled => hslot ?_, ?_⟩
    · rcases s.inFlight_poll_cases h with e | e
      · rw [← e]
        exact hfilled
      · exact absurd e hfilled
    · intro c' hparty
      rw [step_of_wait rfl] at hparty
      split at hparty <;> cases hparty <;> exact ⟨rfl, trivial⟩

end Call

namespace World

/-- The task in the slot brings a page and empties the slot, or leaves the buffer as it is. -/
theorem tend_pages (b : Backend) (w : World) :
    ((w.tend b).source.progress = w.source.progress ∧ (w.tend b).applied = w.applied ∧
      ((w.tend b).source.inFlight = w.source.inFlight ∨ (w.tend b).source.inFlight = none)) ∨
    (w.source.inFlight ≠ none ∧ (w.tend b).source.inFlight = none ∧
      ∃ p, (w.tend b).applied = w.applied ++ [p] ∧
        (w.tend b).source.progress.buffer = w.source.progress.buffer ++ p.rows) := by
  rcases Option.eq_none_or_eq_some w.source.inFlight with hslot | ⟨h, hslot⟩
  · rw [tend_of_empty b hslot]
    exact .inl ⟨rfl, rfl, .inl rfl⟩
  · unfold tend
    simp only [hslot]
    split
    · refine .inl ⟨w.source.progress_beginCall h, rfl, ?_⟩
      show (w.source.beginCall h).inFlight = _ ∨ _
      rcases w.source.beginCall_cases h with e | ⟨_, _, _, -, e⟩ <;> rw [e] <;> exact .inl hslot
    · have hmove : w.move b (.endCall h) = w.endCall b h := rfl
      rw [hmove]
      rcases w.endCall_cases b h with e | ⟨page, token, n, seen, hf, e⟩ <;> rw [e]
      · exact .inl ⟨rfl, rfl, .inl hslot⟩
      · rw [Source.endCall_of_calling hf]
        cases b.answer n token with
        | page p => exact .inr ⟨by simp, rfl, p, rfl, rfl⟩
        | failure err => exact .inl ⟨rfl, by simp [Reply.pages], .inr rfl⟩
        | crash => exact .inl ⟨rfl, by simp [Reply.pages], .inl hslot⟩

end World

namespace ResultSet

namespace Consumption

variable {b : Backend} {front : List Page} {threshold : Nat} {s : Consumption}

/-- The consumer lets others run: it stands between its calls, or its call waits for a fetch. -/
def Yields (s : Consumption) : Prop := ∀ c, s.Calls c → ∃ h, c.phase = .wait h

/-- What stands between two turns of a stream with the given threshold, when some pages have come
with the start. -/
structure Restrained (threshold : Nat) (front : List Page) (s : Consumption) : Prop where
  cursor : (s.cursors 0).threshold = some threshold
  place : s.status = .idle ∨ s.status = .ended ∨
    ∃ c, s.Calls c ∧ c.Prefetches threshold s.world.source
  since : front.length ≤ s.world.applied.length
  slot : s.world.source.inFlight ≠ none → s.world.source.available ≤ threshold
  room : s.world.source.available ≤
    max (front.flatMap Page.rows).length
      (threshold + Page.largest (s.world.applied.drop front.length))

/-- A step that takes from the buffer at most, and fills the slot only when few rows are left. -/
theorem Restrained.of_less {t : Consumption} (hs : s.Restrained threshold front)
    (hcursor : (t.cursors 0).threshold = (s.cursors 0).threshold)
    (hplace : t.status = .idle ∨ t.status = .ended ∨
      ∃ c, t.Calls c ∧ c.Prefetches threshold t.world.source)
    (happlied : t.world.applied = s.world.applied)
    (hless : t.world.source.available ≤ s.world.source.available)
    (hslot : t.world.source.inFlight ≠ none → t.world.source.available ≤ threshold) :
    t.Restrained threshold front where
  cursor := hcursor.trans hs.cursor
  place := hplace
  since := by rw [happlied]; exact hs.since
  slot := hslot
  room := by rw [happlied]; exact Nat.le_trans hless hs.room

/-- A fetch in flight brings its page on top of no more rows than the threshold allows. -/
theorem Restrained.tend (hs : s.Restrained threshold front) (hyields : s.Yields) :
    (s.turn b streaming .background).Restrained threshold front := by
  obtain ⟨hparties, -, -⟩ := s.world.tend_calls b
  -- a call that waits has nothing to remember of the buffer
  have hplace : s.status = .idle ∨ s.status = .ended ∨ ∃ c,
      (s.turn b streaming .background).Calls c ∧ c.Prefetches threshold (s.world.tend b).source := by
    rcases hs.place with hidle | hended | ⟨c, hcalls, hknown⟩
    · exact .inl hidle
    · exact .inr (.inl hended)
    · obtain ⟨h, hphase⟩ := hyields c hcalls
      obtain ⟨n, hstatus, hc⟩ := hcalls
      refine .inr (.inr ⟨c, ⟨n, hstatus, by rw [turn, hparties]; exact hc⟩, hknown.1, ?_⟩)
      rw [hphase]
      trivial
  rcases s.world.tend_pages b with ⟨hprogress, happlied, hslot⟩ |
    ⟨hfilled, hempty, p, happlied, hbuffer⟩
  · have havailable : (s.world.tend b).source.available = s.world.source.available := by
      rw [Source.available, hprogress]
      rfl
    refine hs.of_less rfl hplace happlied (Nat.le_of_eq havailable) fun hfilled => ?_
    rw [turn, havailable]
    refine hs.slot ?_
    rcases hslot with e | e
    · rw [← e]
      exact hfilled
    · exact absurd e hfilled
  · have hlow := hs.slot hfilled
    have havailable : (s.world.tend b).source.available =
        s.world.source.available + p.rows.length := by
      simp [Source.available, hbuffer]
    have hlarger : Page.largest ((s.world.tend b).applied.drop front.length) =
        max (Page.largest (s.world.applied.drop front.length)) p.rows.length := by
      rw [happlied, List.drop_append_of_le_length hs.since, Page.largest_concat]
    refine ⟨hs.cursor, hplace, ?_, fun hfilled' => absurd hempty hfilled', ?_⟩
    · have := hs.since
      rw [turn, happlied, List.length_append]
      omega
    · rw [turn, havailable, hlarger]
      omega

theorem status_receive (s : Consumption) (r : Except ResultError Delivery) :
    ((s.receive (.next 0) r).status = .idle ∨ (s.receive (.next 0) r).status = .ended) ∧
      ((s.receive (.next 0) r).cursors 0).threshold = (s.cursors 0).threshold := by
  have hthreshold := (s.cursors 0).threshold_advance r
  simp only [receive]
  split
  · exact ⟨.inl rfl, by simpa [take] using hthreshold⟩
  · exact ⟨.inl rfl, by simpa [take] using hthreshold⟩
  · exact ⟨.inr rfl, by simpa using hthreshold⟩

theorem Restrained.step (hs : s.Restrained threshold front) {c : Call} (hcalls : s.Calls c)
    (hknown : c.Prefetches threshold s.world.source) :
    (s.consume b streaming).Restrained threshold front := by
  obtain ⟨n, hstatus, hc⟩ := hcalls
  obtain ⟨hless, hslot, hgoesOn⟩ := Call.prefetches_step hknown hs.slot
  obtain ⟨hstep, hparty, -⟩ := World.stepCall_of_running hc true
  -- as long as the call goes on it knows what it has to know at its next step
  have hgoesOn' : ∀ c', (c.step true s.world.source).1.party c = .running c' →
      Restrained threshold front { s with world := s.world.stepCall n true } := by
    intro c' hc'
    rw [hc'] at hparty
    have hknown' := hgoesOn c' hc'
    refine hs.of_less rfl (.inr (.inr ⟨c', ⟨n, hstatus, hparty⟩, ?_⟩)) ?_ ?_ ?_ <;> rw [hstep]
    · exact hknown'
    · exact hless
    · exact hslot
  cases hadvance : (c.step true s.world.source).1 with
  | more c' =>
    rw [consume_of_not_done streaming hstatus hc (by simp [hadvance])]
    exact hgoesOn' c' (by rw [hadvance]; rfl)
  | waiting h =>
    rw [consume_of_not_done streaming hstatus hc (by simp [hadvance])]
    exact hgoesOn' c (by rw [hadvance]; rfl)
  | done result =>
    obtain ⟨events, -, hdeliver⟩ := (s.world.stepCall n true).deliver_eq n
    obtain ⟨hrests, hthreshold⟩ := status_receive
      { s with world := (s.world.stepCall n true).deliver n }
      (deliver result (s.world.stepCall n true).source).1
    have hworld := world_receive { s with world := (s.world.stepCall n true).deliver n } (.next 0)
      (deliver result (s.world.stepCall n true).source).1
    rw [consume_of_done streaming hstatus hc hadvance]
    refine hs.of_less hthreshold (hrests.imp id .inl) ?_ ?_ ?_ <;> rw [hworld, hdeliver, hstep]
    · exact hless
    · exact hslot

theorem Restrained.consume (hs : s.Restrained threshold front) :
    (s.consume b streaming).Restrained threshold front := by
  rcases hs.place with hidle | hended | ⟨c, hcalls, hknown⟩
  · rw [consume_of_idle streaming hidle, ask]
    cases hfinished : (s.cursors 0).finished with
    | true =>
      simp only [streaming, Cursor.nextCall?, hfinished]
      exact hs.of_less rfl (.inr (.inl rfl)) rfl (Nat.le_refl _) hs.slot
    | false =>
      simp only [streaming, Cursor.nextCall?, hfinished, hs.cursor]
      refine hs.of_less rfl (.inr (.inr ⟨.next (some threshold), ⟨_, rfl, ?_⟩, ?_⟩)) rfl
        (Nat.le_refl _) hs.slot
      · simp [begin]
      · exact ⟨rfl, rfl⟩
  · have hsame : s.consume b streaming = s := by simp [Consumption.consume, hended]
    rw [hsame]
    exact hs
  · exact hs.step hcalls hknown

theorem Restrained.start {thresholds : Nat → Option Nat} (hthreshold : thresholds 0 = some threshold)
    (first : Option Page) :
    (Consumption.start thresholds first).Restrained threshold first.toList := by
  cases first with
  | none =>
    exact ⟨hthreshold, .inl rfl, Nat.le_refl _, fun h => absurd rfl h, Nat.zero_le _⟩
  | some page =>
    refine ⟨hthreshold, .inl rfl, Nat.le_refl _, fun h => absurd rfl h, ?_⟩
    have havailable : (World.start (some page)).source.available = page.rows.length := by
      simp [World.start, Source.ofFirstPage, Source.available, Progress.apply, Progress.initial]
    show (World.start (some page)).source.available ≤ _
    rw [havailable]
    exact Nat.le_trans (by simp) (Nat.le_max_left _ _)

theorem Restrained.after {turns : Nat → Turn} (hs : s.Restrained threshold front)
    (hyields : ∀ n, turns n = .background → (s.after b streaming turns n).Yields) (n : Nat) :
    (s.after b streaming turns n).Restrained threshold front := by
  induction n with
  | zero => exact hs
  | succ n ih =>
    rw [Consumption.after]
    cases hturn : turns n with
    | consumer => exact ih.consume
    | background => exact ih.tend (hyields n hturn)

/-- Whatever the fetches bring, and whenever they do so while the consumer yields: the buffer holds no
more rows than have come with the start, or than the threshold and the largest page fetched since
make together; and while a fetch is in flight, no more than the threshold. -/
theorem prefetching_bounded (b : Backend) (first : Option Page) (threshold : Nat)
    (thresholds : Nat → Option Nat) (turns : Nat → Turn) :
    let s := (start thresholds first).after b streaming turns
    thresholds 0 = some threshold →
    (∀ n, turns n = .background → (s n).Yields) →
    ∀ n, let w := (s n).world
      w.source.available ≤ max (first.toList.flatMap Page.rows).length
        (threshold + Page.largest (w.applied.drop first.toList.length)) ∧
      (w.source.inFlight ≠ none → w.source.available ≤ threshold) := by
  intro s hthreshold hyields n w
  have hs : (s n).Restrained threshold first.toList :=
    (Restrained.start hthreshold first).after hyields n
  exact ⟨hs.room, hs.slot⟩

/-- Behind the row that is there the backend has a page of three. -/
def threeBehind : Backend :=
  .script [.page ⟨[World.numbered 2, World.numbered 3, World.numbered 4], none, .empty⟩]

/-- The stream takes the row that is there, and then the fetch that it has started goes through. -/
def restAfterRow (n : Nat) : Turn := if n = 5 ∨ n = 6 then .background else .consumer

theorem prefetching_bounded_three :
    let s := (start (fun _ => some 1) World.oneThere).after threeBehind streaming restAfterRow
    (∀ n, restAfterRow n = .background → (s n).Yields) ∧
      ((s 4).world.source.inFlight = some 0 ∧ (s 4).world.source.available = 1 ∧
        (s 4).world.source.available ≤ 1) ∧
      (s 7).world.source.available = 3 ∧ (s 7).world.source.available ≤ max 1 (1 + 3) := by
  intro s
  have hyields : ∀ n, restAfterRow n = .background → (s n).Yields := by
    intro n hturn c hcalls
    have hidle : (s n).status = .idle := by
      simp only [restAfterRow] at hturn
      split at hturn
      · next hn => rcases hn with rfl | rfl <;> rfl
      · cases hturn
    exact absurd hidle hcalls.not_idle
  have hbounded := prefetching_bounded threeBehind World.oneThere 1 (fun _ => some 1) restAfterRow
    rfl hyields
  exact ⟨hyields, ⟨rfl, rfl, (hbounded 4).2 (by decide)⟩, rfl, (hbounded 7).1⟩

end Consumption

end ResultSet

end PagedTraversal
