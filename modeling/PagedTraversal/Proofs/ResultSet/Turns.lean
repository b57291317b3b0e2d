import PagedTraversal.Proofs.ResultSet.Consumption

/-!
# PagedTraversal.Proofs.ResultSet.Turns

What one turn does while no fetch fails.

* `Consumption.Sound.turn`: it keeps `Consumption.Sound`, and leaves less to do if it does anything.
* `Consumption.Sound.exists_turn`: before the end, one of the two turns does something.
-/

namespace PagedTraversal

namespace ResultSet

namespace Consumption

variable {b : Backend} {front : List Page} {N : Nat} {s : Consumption} (plan : Nat → Way)

theorem rank_of_running {way : Way} {n : Nat} {c : Call} (hstatus : s.status = .asking way n)
    (hc : s.world.parties[n]? = some (.running c)) : s.rank = c.rank s.world.source := by
  simp [rank, hstatus, hc]

theorem todo_lt {t : Consumption} (rows : List Row)
    (hsteps : t.world.source.fetchSteps N ≤ s.world.source.fetchSteps N)
    (htaken : t.world.takenRows = s.world.takenRows ++ rows)
    (hall : t.world.takenRows <+: (b.pagesAfter front N).flatMap Page.rows)
    (hrank : t.rank < s.rank + 5 * rows.length) : t.todo b front N < s.todo b front N := by
  have hlength := hall.length_le
  rw [htaken, List.length_append] at hlength
  simp only [todo, htaken, List.length_append]
  omega

/-! ## The consumer's turns -/

theorem consume_of_idle (hstatus : s.status = .idle) : s.consume b plan = s.ask plan := by
  simp [consume, hstatus]

/-- A call of the plan is after what its way asks for, and looks into the buffer at once or after it
has measured the buffer. -/
theorem ask_eq (hunfinished : ∀ i, (s.cursors i).finished = false) :
    ∃ way e, s.ask plan = s.begin way (Errand.call e) ∧ (Errand.call e).goal.kind = way.kind ∧
      (Errand.call e).held = [] ∧ ∀ source, (Errand.call e).rank source < 8 ∧
        (Errand.call e).WaitsOn source := by
  unfold ask
  cases plan s.world.parties.length with
  | one => exact ⟨.one, .one, rfl, rfl, rfl, by simp [Errand.call, Call.one, Call.rank, Call.WaitsOn]⟩
  | all => exact ⟨.all, .all, rfl, rfl, rfl, by simp [Errand.call, Call.all, Call.rank, Call.WaitsOn]⟩
  | next i =>
    refine ⟨.next i, .next (s.cursors i).threshold, by simp [Cursor.nextCall?, hunfinished i,
      Errand.call], ?_⟩
    cases (s.cursors i).threshold with
    | none => exact ⟨rfl, rfl, by simp [Errand.call, Call.next, Call.one, Call.rank, Call.WaitsOn]⟩
    | some _ => exact ⟨rfl, rfl, by simp [Errand.call, Call.next, Call.rank, Call.WaitsOn]⟩

theorem Sound.ask (hends : b.ChainEnds front N) (hs : s.Sound b front) (hstatus : s.status = .idle) :
    (s.ask plan).Sound b front ∧ (s.ask plan).todo b front N < s.todo b front N := by
  have hunfinished := hs.unfinished (by simp [hstatus])
  obtain ⟨way, e, hask, hkind, hheld, hcall⟩ := ask_eq plan hunfinished
  have hledger : s.outcomes = s.world.takenRows.map Row.outcome := by
    have := hs.standing
    rw [Standing, hstatus] at this
    exact this
  have hmove : World.Unfailing b front (s.world.move b (.ask e)) := hs.unfailing.move hends rfl
  have hrunning : (s.begin way e.call).world.parties[s.world.parties.length]? =
      some (.running e.call) := by
    simp [begin]
  rw [hask]
  refine ⟨⟨hmove, ?_, fun _ => hunfinished⟩, ?_⟩
  · refine ⟨e.call, hrunning, hkind, (hcall _).2, ?_⟩
    rw [hheld, List.map_nil, List.append_nil]
    exact hledger
  · refine todo_lt [] (Nat.le_refl _) (by simp [begin, World.takenRows])
      (hmove.prefix_takenRows hends) ?_
    rw [rank_of_running rfl hrunning, rank, hstatus]
    have := (hcall (s.begin way e.call).world.source).1
    simpa using this

theorem consume_of_done {way : Way} {n : Nat} {c : Call} {result : Except FetchError Answer}
    (hstatus : s.status = .asking way n) (hc : s.world.parties[n]? = some (.running c))
    (hdone : (c.step true s.world.source).1 = .done result) :
    s.consume b plan = { s with world := (s.world.stepCall n true).deliver n }.receive way
      (deliver result (s.world.stepCall n true).source).1 := by
  have hparty := (World.stepCall_of_running hc true).2.1
  have hmove : s.world.move b (.step n true) = s.world.stepCall n true := rfl
  rw [hdone] at hparty
  simp only [consume, hstatus, hmove, hparty]
  rfl

theorem consume_of_not_done {way : Way} {n : Nat} {c : Call} (hstatus : s.status = .asking way n)
    (hc : s.world.parties[n]? = some (.running c))
    (hdone : ∀ result, (c.step true s.world.source).1 ≠ .done result) :
    s.consume b plan = { s with world := s.world.stepCall n true } := by
  have hparty := (World.stepCall_of_running hc true).2.1
  have hmove : s.world.move b (.step n true) = s.world.stepCall n true := rfl
  simp only [consume, hstatus, hmove, hparty]
  cases e : (c.step true s.world.source).1 with
  | done result => exact absurd e (hdone result)
  | _ => rfl

theorem Sound.goOn (hends : b.ChainEnds front N) (hs : s.Sound b front) {way : Way} {n : Nat}
    {c c' : Call} (hstatus : s.status = .asking way n)
    (hc : s.world.parties[n]? = some (.running c)) (hkind : c.goal.kind = way.kind)
    (hledger : s.outcomes ++ c.held.map Row.outcome = s.world.takenRows.map Row.outcome)
    (hmore : (c.step true s.world.source).1 = .more c')
    (hwait : c'.WaitsOn (c.step true s.world.source).2)
    (hrank : c'.rank (c.step true s.world.source).2 < c.rank s.world.source) :
    (s.consume b plan).Sound b front ∧ (s.consume b plan).todo b front N < s.todo b front N := by
  obtain ⟨hstep, hparty, htaken⟩ := World.stepCall_of_running hc true
  have hmove := hs.unfailing.stepCall hends n
  have hsource : (s.world.stepCall n true).source = (c.step true s.world.source).2 := by rw [hstep]
  have hrows := c.step_rows true s.world.source
  rw [hmore] at hparty hrows
  have hheld : c'.held = c.held ++ c.takes s.world.source := by
    simpa [Advance.party, Party.rows, Party.lost] using hrows
  rw [consume_of_not_done plan hstatus hc (by simp [hmore])]
  refine ⟨⟨hmove, ?_, hs.unfinished⟩, ?_⟩
  · rw [Standing, hstatus]
    refine ⟨c', hparty, (Call.step_kind hmore).trans hkind, hsource ▸ hwait, ?_⟩
    show s.outcomes ++ c'.held.map Row.outcome =
      (s.world.stepCall n true).takenRows.map Row.outcome
    rw [hheld, htaken, List.map_append, List.map_append, ← List.append_assoc, hledger]
  · refine todo_lt _ (hs.unfailing.fetchSteps_stepCall n N) htaken (hmove.prefix_takenRows hends) ?_
    have hafter : ({ s with world := s.world.stepCall n true } : Consumption).rank =
        c'.rank (c.step true s.world.source).2 := by
      rw [rank_of_running (s := { s with world := s.world.stepCall n true }) hstatus hparty, hsource]
    show ({ s with world := s.world.stepCall n true } : Consumption).rank < _
    rw [hafter, rank_of_running hstatus hc]
    omega

/-- A call has come back, and the consumer has the outcomes of all that the call took. -/
theorem Sound.comeBack (hends : b.ChainEnds front N) (hs : s.Sound b front) {way : Way} {n : Nat}
    {c : Call} (hstatus : s.status = .asking way n)
    (hc : s.world.parties[n]? = some (.running c))
    (hledger : s.outcomes ++ c.held.map Row.outcome = s.world.takenRows.map Row.outcome)
    {t : Consumption} (hworld : t.world = (s.world.stepCall n true).deliver n)
    (houtcomes : t.outcomes =
      s.outcomes ++ (c.held ++ c.takes s.world.source).map Row.outcome)
    (hend : (t.status = .idle ∧ t.cursors = s.cursors ∧ c.rank s.world.source = 4 ∧
        (c.takes s.world.source).length = 1) ∨
      (t.status = .ended ∧ (c.step true s.world.source).2.progress.buffer = [] ∧
        (c.step true s.world.source).2.progress.complete = true)) :
    t.Sound b front ∧ t.todo b front N < s.todo b front N := by
  obtain ⟨hstep, -, htaken⟩ := World.stepCall_of_running hc true
  have hdelivered : World.Unfailing b front t.world := by
    rw [hworld]
    exact (hs.unfailing.stepCall hends n).move (m := .deliver n) hends rfl
  obtain ⟨events, -, hevents⟩ := (s.world.stepCall n true).deliver_eq n
  have hprogress : t.world.source.progress = (c.step true s.world.source).2.progress := by
    rw [hworld, hevents, hstep]
  have htaken' : t.world.takenRows = s.world.takenRows ++ c.takes s.world.source := by
    rw [← htaken, hworld, hevents]
    rfl
  have hsteps' : t.world.source.fetchSteps N ≤ s.world.source.fetchSteps N := by
    refine Nat.le_trans (Nat.le_of_eq ?_) (hs.unfailing.fetchSteps_stepCall n N)
    rw [hworld, hevents]
    rfl
  have hall : t.outcomes = t.world.takenRows.map Row.outcome := by
    rw [houtcomes, htaken', List.map_append, List.map_append, ← List.append_assoc, hledger]
  have hrank := rank_of_running hstatus hc
  rcases hend with ⟨hidle, hcursors, hlook, hone⟩ | ⟨hended, hbuffer, hcomplete⟩
  · refine ⟨⟨hdelivered, ?_, ?_⟩, ?_⟩
    · rw [Standing, hidle]
      exact hall
    · intro _
      rw [hcursors]
      exact hs.unfinished (by simp [hstatus])
    · refine todo_lt _ hsteps' htaken' (hdelivered.prefix_takenRows hends) ?_
      rw [hrank, hlook, hone, rank, hidle]
      show 8 < 4 + 5 * 1
      omega
  · refine ⟨⟨hdelivered, ?_, fun h => absurd hended h⟩, ?_⟩
    · rw [Standing, hended, hprogress]
      exact ⟨hall, hbuffer, hcomplete⟩
    · refine todo_lt _ hsteps' htaken' (hdelivered.prefix_takenRows hends) ?_
      rw [hrank, rank, hended]
      have := c.rank_pos s.world.source
      show 0 < _
      omega

/-- A step of a call leaves less to do, unless the call waits for the fetch in the slot. -/
theorem Sound.step (hends : b.ChainEnds front N) (hs : s.Sound b front) {way : Way} {n : Nat}
    (hstatus : s.status = .asking way n) :
    (s.consume b plan).Sound b front ∧
      ((s.consume b plan).todo b front N < s.todo b front N ∨
        s.consume b plan = s ∧ s.world.source.inFlight ≠ none) := by
  have hstanding := hs.standing
  rw [Standing, hstatus] at hstanding
  obtain ⟨c, hc, hkind, hwait, hledger⟩ := hstanding
  obtain ⟨k, hchain⟩ := hs.unfailing.chain
  have hgoal : c.goal.kind = .one ∨ c.goal.kind = .all #[] := by
    rw [hkind]
    exact way.kind_cases
  have hrows := c.step_rows true s.world.source
  rcases Call.step_cases hchain.oneFetch hs.unfailing.healthy hgoal hwait with
    ⟨c', hmore, hrank, hwait'⟩ | ⟨h, hsame, htakes, hslot⟩ | ⟨row, hone, htakes, hlook, hdone⟩ |
      ⟨hbuffer, hcomplete, ⟨hone, hdone⟩ | ⟨rows, hall, hdone⟩⟩
  · obtain ⟨hsound, htodo⟩ := hs.goOn plan hends hstatus hc hkind hledger hmore hwait' hrank
    exact ⟨hsound, .inl htodo⟩
  · rw [consume_of_not_done plan hstatus hc (by simp [hsame]),
      World.stepCall_of_waiting hc hsame htakes]
    exact ⟨hs, .inr ⟨rfl, by simp [hslot]⟩⟩
  · rw [hdone] at hrows
    have hnone : c.held ++ c.takes s.world.source = [row] := by
      simpa [Advance.party, Party.rows, Party.lost] using hrows.symm
    rw [consume_of_done plan hstatus hc hdone, receive_found _ (hkind ▸ hone)]
    obtain ⟨hsound, htodo⟩ := hs.comeBack hends hstatus hc hledger
      (t := take { s with world := (s.world.stepCall n true).deliver n } row.outcome) rfl
      (by rw [hnone]; rfl) (.inl ⟨rfl, rfl, hlook, by rw [htakes]; rfl⟩)
    exact ⟨hsound, .inl htodo⟩
  · rw [hdone] at hrows
    have hnone : c.held ++ c.takes s.world.source = [] := by
      simpa [Advance.party, Party.rows, Party.lost] using hrows.symm
    obtain ⟨cursors, hreceive⟩ := receive_ended
      { s with world := (s.world.stepCall n true).deliver n } (hkind ▸ hone)
      (s.world.stepCall n true).source
    rw [consume_of_done plan hstatus hc hdone, hreceive]
    obtain ⟨hsound, htodo⟩ := hs.comeBack hends hstatus hc hledger
      (t := ⟨(s.world.stepCall n true).deliver n, cursors, .ended, s.outcomes⟩) rfl
      (by rw [hnone]; simp) (.inr ⟨rfl, hbuffer, hcomplete⟩)
    exact ⟨hsound, .inl htodo⟩
  · rw [hdone] at hrows
    have hheld : c.held ++ c.takes s.world.source = rows := by
      simpa [Advance.party, Party.rows, Party.lost] using hrows.symm
    have hway : way = .all := by
      rw [hkind] at hall
      cases way with
      | all => rfl
      | _ => cases hall
    subst hway
    rw [consume_of_done plan hstatus hc hdone, receive_all]
    obtain ⟨hsound, htodo⟩ := hs.comeBack hends hstatus hc hledger
      (t := ⟨(s.world.stepCall n true).deliver n, s.cursors, .ended,
        s.outcomes ++ rows.map Row.outcome⟩) rfl
      (by rw [hheld]) (.inr ⟨rfl, hbuffer, hcomplete⟩)
    exact ⟨hsound, .inl htodo⟩

/-! ## The turns of the task in the slot -/

theorem Sound.tend (hends : b.ChainEnds front N) (hs : s.Sound b front) :
    (s.turn b plan .background).Sound b front ∧
      (s.world.source.inFlight ≠ none →
        (s.turn b plan .background).todo b front N < s.todo b front N) := by
  obtain ⟨hparties, htakings, hsize⟩ := s.world.tend_calls b
  have hmove := hs.unfailing.tend hends
  have htaken : (s.world.tend b).takenRows = s.world.takenRows := by
    rw [World.takenRows, htakings]
    rfl
  refine ⟨⟨hmove, ?_, hs.unfinished⟩, ?_⟩
  · have hstanding := hs.standing
    cases hstatus : s.status with
    | idle =>
      simp only [Standing, turn, hstatus, htaken] at hstanding ⊢
      exact hstanding
    | asking way n =>
      simp only [Standing, turn, hstatus, htaken, hparties, Call.WaitsOn, hsize] at hstanding ⊢
      exact hstanding
    | ended =>
      simp only [Standing, hstatus] at hstanding
      obtain ⟨-, -, hslot⟩ := hs.unfailing.of_complete hends hstanding.2.2
      have hsame : s.turn b plan .background = s := by
        rw [turn, World.tend_of_empty b hslot]
      rw [hsame]
      exact hs.standing
  · intro hslot
    obtain ⟨h, hslot⟩ := Option.ne_none_iff_exists'.1 hslot
    have hsteps := World.tend_fetchSteps hends hs.unfailing hslot
    have hrank : (s.turn b plan .background).rank ≤ s.rank + 3 := by
      simp only [rank, turn, hparties]
      split
      · omega
      · split
        · exact Call.rank_le _ _ _
        · omega
      · omega
    simp only [todo, turn, htaken] at hrank ⊢
    omega

/-- Every turn keeps what stands, and one that does anything leaves less to do. -/
theorem Sound.turn (hends : b.ChainEnds front N) (hs : s.Sound b front) (t : Turn) :
    (s.turn b plan t).Sound b front ∧
      (s.turn b plan t = s ∨ (s.turn b plan t).todo b front N < s.todo b front N) := by
  cases t with
  | background =>
    obtain ⟨hsound, htodo⟩ := hs.tend plan hends
    refine ⟨hsound, ?_⟩
    by_cases hslot : s.world.source.inFlight = none
    · exact .inl (by rw [Consumption.turn, World.tend_of_empty b hslot])
    · exact .inr (htodo hslot)
  | consumer =>
    rw [Consumption.turn]
    cases hstatus : s.status with
    | idle =>
      rw [consume_of_idle plan hstatus]
      obtain ⟨hsound, htodo⟩ := hs.ask plan hends hstatus
      exact ⟨hsound, .inr htodo⟩
    | asking way n =>
      obtain ⟨hsound, htodo | ⟨hsame, -⟩⟩ := hs.step plan hends hstatus
      · exact ⟨hsound, .inr htodo⟩
      · exact ⟨hsound, .inl hsame⟩
    | ended =>
      have hsame : s.consume b plan = s := by simp [consume, hstatus]
      rw [hsame]
      exact ⟨hs, .inl rfl⟩

/-- Before the end, the consumer or the task in the slot has something to do. -/
theorem Sound.exists_turn (hends : b.ChainEnds front N) (hs : s.Sound b front)
    (hstatus : s.status ≠ .ended) :
    ∃ t, (s.turn b plan t).todo b front N < s.todo b front N := by
  cases e : s.status with
  | idle =>
    refine ⟨.consumer, ?_⟩
    rw [Consumption.turn, consume_of_idle plan e]
    exact (hs.ask plan hends e).2
  | asking way n =>
    rcases (hs.step plan hends e).2 with htodo | ⟨-, hslot⟩
    · exact ⟨.consumer, htodo⟩
    · exact ⟨.background, (hs.tend plan hends).2 hslot⟩
  | ended => exact absurd e hstatus

end Consumption

end ResultSet

end PagedTraversal
