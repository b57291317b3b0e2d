import PagedTraversal.Proofs.ResultSet.Reader

/-!
# PagedTraversal.Proofs.ResultSet.CursorProtocol

What one can rely on who reads a result set by cursors and is the only one to take rows, whatever
has been done before, whatever the pages are and whichever fetches fail.

* `Reader.Protocol`: what holds at any time.
* `Reader.Calls.after`: a question that is waited for is answered, or its call is still alone with
  the task in the slot.
* `Reader.cursor_protocol`: the protocol holds whatever the reader and the others do.
-/

namespace PagedTraversal

open ResultSet.Consumption (Fair)

/-- No fetch has been requested, joined, polled or called for. -/
structure Source.SameFetches (s t : Source) : Prop where
  inFlight : t.inFlight = s.inFlight
  fetches : t.fetches = s.fetches
  calls : t.calls = s.calls
  journal : ∃ events : Array Event, (∀ e ∈ events, e.ofFetch = false) ∧
    t.journal = s.journal ++ events

namespace ResultSet

/-- The answer to a question whose fetch has failed. -/
def Question.failed (e : FetchError) : Question → Response
  | next => .item (.error (.fetch e))
  | hasNext => .hasNext (.error (.fetch e))

namespace Reader

/-- Asks for the next item, unless that has been done, and performs one step. -/
def hurry (s : Reader) (hasRuntime : Bool) : Reader :=
  match s.pending with
  | none => (s.ask .next).step hasRuntime
  | some _ => s.step hasRuntime

/-- Asked for its next item, the cursor has this one at once and without a fetch. -/
def HasAtOnce (s : Reader) (i : Item) : Prop :=
  ∀ hasRuntime, (s.hurry hasRuntime).answers = s.answers ++ [.item i] ∧
    (s.hurry hasRuntime).pending = none ∧
    s.world.source.SameFetches (s.hurry hasRuntime).world.source

/-- A turn of the reader, who waits for an answer, or of the task in the slot. -/
def turn (b : Backend) (s : Reader) : Turn → Reader
  | .consumer => s.step true
  | .background => { s with world := s.world.tend b }

/-- They take turns, and nobody else does anything. -/
def after (b : Backend) (turns : Nat → Turn) (s : Reader) : Nat → Reader
  | 0 => s
  | i + 1 => (s.after b turns i).turn b (turns i)

/-- What can be relied on by one who has begun to read in `w`, with the pages of `front` there from
the start. -/
structure Protocol (b : Backend) (front : List Page) (w : World) (s : Reader) : Prop where
  /-- After the answer that there is a next item, this is a row that is buffered. -/
  next_after_true : s.Told true → (∀ n, s.pending ≠ some (.hasNext, n)) →
    ∃ row rest, s.world.source.progress.buffer = row :: rest ∧ s.HasAtOnce row.item
  /-- After the answer that there is none, the cursor ends. -/
  next_after_false : s.Told false → (∀ n, s.pending ≠ some (.hasNext, n)) → s.HasAtOnce .ended
  /-- The rows that were left and those that have arrived since are, in order and each once, those
  that the cursors have taken, one cursor after another, and those that are left. The items of each
  cursor are those of its rows and then the closing ones, once there are any. -/
  items : ∃ rowss rows, w.source.progress.buffer ++ w.arrivedSince s.world =
      List.flatten rowss ++ rows ++ s.world.source.progress.buffer ∧
    Gives s.world.source s.cursor.finished s.answers rows ∧
    List.Forall₂ (fun answers rows => ∃ finished, Gives s.world.source finished answers rows)
      s.earlier rowss
  /-- A fetch that fails while an answer waits for it is that answer. -/
  fails : ∀ q n c h e, s.pending = some (q, n) → s.world.parties[n]? = some (.running c) →
    c.phase = .wait h → s.world.source.outcome? h = some (.error e) →
      ∀ hasRuntime, (s.step hasRuntime).answers = s.answers ++ [q.failed e]
  /-- After a failed fetch or the end there is nothing more, and nothing is done for it. -/
  closed : (∃ i ∈ itemsOf s.answers, i.isFinal = true) →
    s.pending = none ∧ ∀ q, s.ask q = s.answer q.closed
  /-- Unless there are empty pages without end, each question is answered. -/
  comes_back : ∀ q n turns, s.pending = some (q, n) → b.EmptyPagesEnd front → Fair turns →
    ∃ i r, Reads b s (s.after b turns i) ∧ (s.after b turns i).answers = s.answers ++ [r] ∧
      r.question = q ∧ (s.after b turns i).pending = none

variable {b : Backend} {front : List Page} {k n : Nat} {w : World} {s t : Reader} {q : Question}
  {c : Call}

/-! ## Answers that are there at once -/

/-- The first step of a call that finds an answer. -/
theorem step_of_glance (hs : s.Calls q n ⟨q.goal, .look⟩) {a : Answer} {p : Progress}
    (hglance : q.goal.glance s.world.source.progress = (.inl a, p)) (hasRuntime : Bool) :
    ∃ v source', s.world.source.SameFetches v.source ∧
      s.step hasRuntime = { s with world := v }.receive q (deliver (.ok a) source').1 := by
  have hstep : Call.step hasRuntime ⟨q.goal, .look⟩ s.world.source =
      (.done (.ok a), { s.world.source with progress := p }) := by
    rw [Call.step, Call.look_eq, hglance]
  refine ⟨_, _, ?_, step_of_done hs (congrArg Prod.fst hstep)⟩
  obtain ⟨events, hevents, hdeliver⟩ := (s.world.stepCall n hasRuntime).deliver_eq n
  rw [hdeliver, (World.stepCall_of_running hs.2.1 hasRuntime).1, hstep]
  exact ⟨rfl, rfl, rfl, events, hevents, rfl⟩

theorem step_of_row (hs : s.Calls .next n ⟨.one, .look⟩) {row : Row} {rest : List Row}
    (hbuffer : s.world.source.progress.buffer = row :: rest) (hasRuntime : Bool) :
    (s.step hasRuntime).answers = s.answers ++ [.item row.item] ∧
      (s.step hasRuntime).pending = none ∧
      s.world.source.SameFetches (s.step hasRuntime).world.source := by
  obtain ⟨v, source', hsame, heq⟩ := step_of_glance hs (Goal.glance_found hbuffer).1 hasRuntime
  rw [heq, receive, advance_row]
  exact ⟨rfl, rfl, hsame⟩

theorem step_of_end (hs : s.Calls .next n ⟨.one, .look⟩)
    (hbuffer : s.world.source.progress.buffer = [])
    (hcomplete : s.world.source.progress.complete = true) (hasRuntime : Bool) :
    (s.step hasRuntime).answers = s.answers ++ [.item .ended] ∧
      (s.step hasRuntime).pending = none ∧
      s.world.source.SameFetches (s.step hasRuntime).world.source := by
  obtain ⟨v, source', hsame, heq⟩ :=
    step_of_glance hs (Goal.glance_finished hbuffer hcomplete).1 hasRuntime
  rw [heq]
  exact ⟨rfl, rfl, hsame⟩

namespace Sound

/-- A call for the next item that is made after an answer whether there is one. -/
theorem hurry_eq (hs : Sound b w s) (hopen : s.cursor.finished = false) {r : Bool}
    (htold : s.Told r) (hnext : ∀ n, s.pending ≠ some (.hasNext, n)) :
    ∃ (s' : Reader) (n : Nat), s'.Calls .next n ⟨.one, .look⟩ ∧ s'.answers = s.answers ∧
      s'.world.source = s.world.source ∧ ∀ hasRuntime, s.hurry hasRuntime = s'.step hasRuntime := by
  cases hpending : s.pending with
  | none =>
    refine ⟨s.asked .next, _, s.calls_asked .next, rfl, rfl, fun hasRuntime => ?_⟩
    simp only [hurry, hpending, ask_of_open hopen hs.plain]
  | some asked =>
    obtain ⟨q, n⟩ := asked
    cases q with
    | next =>
      obtain ⟨-, c, hcalls, hlook⟩ := hs.pending _ _ hpending
      obtain rfl := hlook r htold
      refine ⟨s, n, hcalls, rfl, rfl, fun hasRuntime => ?_⟩
      simp only [hurry, hpending]
    | hasNext => exact absurd hpending (hnext n)

theorem free_of_finished (hs : Sound b w s) (hfinished : s.cursor.finished = true) :
    s.pending = none := by
  cases hpending : s.pending with
  | none => rfl
  | some asked =>
    have hopen := (hs.pending asked.1 asked.2 hpending).1
    rw [hfinished] at hopen
    cases hopen

theorem next_after_true (hs : Sound b w s) (htold : s.Told true)
    (hnext : ∀ n, s.pending ≠ some (.hasNext, n)) :
    ∃ row rest, s.world.source.progress.buffer = row :: rest ∧ s.HasAtOnce row.item := by
  obtain ⟨hopen, hbuffer⟩ := hs.foretold true htold
  obtain ⟨row, rest, hbuffer⟩ := List.exists_cons_of_ne_nil hbuffer
  refine ⟨row, rest, hbuffer, fun hasRuntime => ?_⟩
  obtain ⟨s', n, hcalls, hanswers, hsource, heq⟩ := hs.hurry_eq hopen htold hnext
  rw [← hsource] at hbuffer
  rw [heq, ← hanswers, ← hsource]
  exact step_of_row hcalls hbuffer hasRuntime

theorem next_after_false (hs : Sound b w s) (htold : s.Told false)
    (hnext : ∀ n, s.pending ≠ some (.hasNext, n)) : s.HasAtOnce .ended := by
  intro hasRuntime
  cases hfinished : s.cursor.finished with
  | true =>
    have heq : s.hurry hasRuntime = s.answer (.item .ended) := by
      simp only [hurry, hs.free_of_finished hfinished, ask_of_finished hfinished]
      rfl
    rw [heq]
    exact ⟨rfl, rfl, rfl, rfl, rfl, #[], by simp, Array.append_empty.symm⟩
  | false =>
    have hforetold := (hs.foretold false htold).resolve_left (by simp [hfinished])
    obtain ⟨s', n, hcalls, hanswers, hsource, heq⟩ := hs.hurry_eq hfinished htold hnext
    rw [← hsource] at hforetold
    rw [heq, ← hanswers, ← hsource]
    exact step_of_end hcalls hforetold.1 hforetold.2 hasRuntime

end Sound

/-! ## What the cursors give -/

theorem isFinal_rowItem (row : Row) : row.item.isFinal = false := by
  unfold Row.item
  split <;> rfl

namespace Sound

/-- What was taken since is what the cursors have taken. -/
theorem items (haccounts : w.Accounts) (hs : Sound b w s) :
    ∃ rowss rows, w.source.progress.buffer ++ w.arrivedSince s.world =
        List.flatten rowss ++ rows ++ s.world.source.progress.buffer ∧
      Gives s.world.source s.cursor.finished s.answers rows ∧
      List.Forall₂ (fun answers rows => ∃ finished, Gives s.world.source finished answers rows)
        s.earlier rowss := by
  obtain ⟨rowss, rows, htaken, hgives, hearlier⟩ := hs.taken
  obtain ⟨ms, hms⟩ := hs.moves
  refine ⟨rowss, rows, ?_, hgives, hearlier⟩
  have hsince := haccounts.since (b := b) ms
  rw [← hms] at hsince
  have hrows : w.takenSince s.world = List.flatten rowss ++ rows := by
    have htaken : s.world.takings.map Prod.snd = w.takings.map Prod.snd ++ _ := htaken
    rw [World.takenSince, List.map_drop, htaken, ← List.length_map (f := Prod.snd), List.drop_left]
  rw [hsince, hrows]

theorem fails (hone : s.world.source.OneFetch) (hs : Sound b w s) {h : Handle} {e : FetchError}
    (hpending : s.pending = some (q, n)) (hc : s.world.parties[n]? = some (.running c))
    (hphase : c.phase = .wait h) (houtcome : s.world.source.outcome? h = some (.error e))
    (hasRuntime : Bool) : (s.step hasRuntime).answers = s.answers ++ [q.failed e] := by
  obtain ⟨-, c', hcalls, -⟩ := hs.pending q n hpending
  obtain rfl : c' = c := by
    have hsame := hcalls.2.1.symm.trans hc
    cases hsame
    rfl
  have hdone : (c'.step hasRuntime s.world.source).1 = .done (.error e) := by
    rw [Call.step_of_wait hphase, hone.poll_outcome, houtcome]
  rw [step_of_done hcalls hdone]
  cases q <;> rfl

theorem closed (hs : Sound b w s) (hfinal : ∃ i ∈ itemsOf s.answers, i.isFinal = true) :
    s.pending = none ∧ ∀ q, s.ask q = s.answer q.closed := by
  have hfinished : s.cursor.finished = true := by
    cases hopen : s.cursor.finished with
    | true => rfl
    | false =>
      -- the items of an open cursor come from its rows
      obtain ⟨rowss, rows, -, hgives, -⟩ := hs.taken
      rw [hopen] at hgives
      have hitems : itemsOf s.answers = rows.map Row.item := hgives
      obtain ⟨i, hi, hfinal⟩ := hfinal
      rw [hitems] at hi
      obtain ⟨row, -, rfl⟩ := List.mem_map.1 hi
      rw [isFinal_rowItem] at hfinal
      cases hfinal
  exact ⟨hs.free_of_finished hfinished, fun q => ask_of_finished hfinished⟩

end Sound

/-! ## Waiting for an answer -/

theorem Reads.turn (h : Reads b s t) (d : Turn) : Reads b s (t.turn b d) := by
  cases d with
  | consumer => exact h.act (.step true)
  | background =>
    obtain ⟨hparties, htakings, -⟩ := t.world.tend_calls b
    rcases t.world.tend_eq_move b with e | ⟨m, e⟩
    · rw [Reader.turn, e]
      exact h
    · rw [Reader.turn, e]
      rw [e] at hparties htakings
      exact h.act (.meanwhile m (fun _ _ _ => by rw [hparties]) htakings)

theorem Reads.after (h : Reads b s t) (turns : Nat → Turn) (i : Nat) :
    Reads b s (t.after b turns i) := by
  induction i with
  | zero => exact h
  | succ i ih => exact ih.turn (turns i)

/-- The question is answered with that turn, or the turn is one of the call or of the task in the
slot. -/
theorem Calls.turn (hone : s.world.source.OneFetch) (hopen : s.cursor.finished = false)
    (hs : s.Calls q n c) (d : Turn) :
    (∃ r, (s.turn b d).answers = s.answers ++ [r] ∧ r.question = q ∧ (s.turn b d).pending = none) ∨
    (s.turn b d = { s with world := s.world.soloTurn b n d } ∧ ∃ c', (s.turn b d).Calls q n c') := by
  cases d with
  | background =>
    obtain ⟨hparties, -, hsize⟩ := s.world.tend_calls b
    exact .inr ⟨rfl, c, hs.later (congrArg (·[n]?) hparties) (Nat.le_of_eq hsize.symm)⟩
  | consumer =>
    have hstepped := step_cases hone hopen hs true
    rw [Reader.turn]
    generalize s.step true = t at hstepped
    cases hstepped with
    | goesOn _ hcalls _ => exact .inr ⟨rfl, _, hcalls⟩
    | answers hreply _ => exact .inl ⟨_, rfl, by cases hreply <;> rfl, rfl⟩

/-- Until the answer comes, the call and the task in the slot are alone. -/
theorem Calls.after (hone : s.world.source.OneFetch) (hopen : s.cursor.finished = false)
    (hs : s.Calls q n c) (turns : Nat → Turn) (i : Nat) :
    (∃ j r, (s.after b turns j).answers = s.answers ++ [r] ∧ r.question = q ∧
      (s.after b turns j).pending = none) ∨
    (s.after b turns i = { s with world := s.world.solo b n turns i } ∧
      ∃ c', (s.after b turns i).Calls q n c') := by
  have hmade : s.world.Made n := ⟨hone, .inr ⟨c, hs.2.1, hs.2.2.2⟩⟩
  induction i with
  | zero => exact .inr ⟨rfl, c, hs⟩
  | succ i ih =>
    rcases ih with hanswered | ⟨heq, c', hcalls⟩
    · exact .inl hanswered
    · have hone' : (s.after b turns i).world.source.OneFetch := by
        rw [heq]
        exact (hmade.solo turns i).1
      have hopen' : (s.after b turns i).cursor.finished = false := by
        rw [heq]
        exact hopen
      rcases hcalls.turn (b := b) hone' hopen' (turns i) with ⟨r, hanswers, hrest⟩ | ⟨heq', hcalls'⟩
      · refine .inl ⟨i + 1, r, ?_, hrest⟩
        rw [Reader.after, hanswers, heq]
      · refine .inr ⟨?_, hcalls'⟩
        rw [Reader.after, heq', heq]
        rfl

theorem Calls.comes_back (hchain : World.OnChain b front k s.world) (hopen : s.cursor.finished = false)
    (hs : s.Calls q n c) {turns : Nat → Turn} (hb : b.EmptyPagesEnd front) (hfair : Fair turns) :
    ∃ i r, Reads b s (s.after b turns i) ∧ (s.after b turns i).answers = s.answers ++ [r] ∧
      r.question = q ∧ (s.after b turns i).pending = none := by
  have hmade : s.world.Made n := ⟨hchain.oneFetch, .inr ⟨c, hs.2.1, hs.2.2.2⟩⟩
  obtain ⟨i, c', result, hover⟩ := hmade.comes_back hb hchain hfair
  rcases hs.after (b := b) hchain.oneFetch hopen turns i with
    ⟨j, r, hanswered⟩ | ⟨heq, c'', -, hc, -⟩
  · exact ⟨j, r, Reads.refl.after turns j, hanswered⟩
  · -- a call that is over is not under way
    rw [heq] at hc
    cases hover.symm.trans hc

theorem cursor_protocol (b : Backend) (first : Option Page) (ms : List Move) (s : Reader)
    (hreads : Reads b (.start ((World.start first).run b ms)) s) :
    Protocol b first.toList ((World.start first).run b ms) s := by
  obtain ⟨k, hw⟩ := World.onChain_run b first ms
  have haccounts := World.accounts_run b first ms
  have hs := sound_reads hw haccounts hreads
  obtain ⟨⟨k', hchain⟩, -⟩ := hs.grounds hw haccounts
  have hone := hchain.oneFetch
  refine ⟨hs.next_after_true, hs.next_after_false, hs.items haccounts,
    fun q n c h e hpending hc hphase houtcome => hs.fails hone hpending hc hphase houtcome,
    hs.closed, fun q n turns hpending hb hfair => ?_⟩
  obtain ⟨hopen, c, hcalls, -⟩ := hs.pending q n hpending
  exact hcalls.comes_back hchain hopen hb hfair

/-! ## A cursor that ends with a failed fetch, and the one after it -/

/-- A path with more objects than label sets. -/
def garbled : Row := ⟨.object [("labels", .array []), ("objects", .array [.null])]⟩

/-- Two rows have come with the start, and there is a page behind them. -/
def twoThere : Option Page := some ⟨[World.numbered 1, garbled], some ⟨[0]⟩, .empty⟩

/-- A question, and so many turns. -/
def asks (s : Reader) (q : Question) (i : Nat) : Reader :=
  (s.ask q).after World.failsOnce Consumption.alternating i

theorem Reads.asks (h : Reads World.failsOnce s t) (hfree : t.pending = none) (q : Question)
    (i : Nat) : Reads World.failsOnce s (t.asks q i) :=
  (h.act (.ask q hfree)).after Consumption.alternating i

/-- The cursor has been asked whether there is a next item. -/
def assured : Reader := (start (World.start twoThere)).asks .hasNext 1

/-- It has had both rows, and then the failed fetch. -/
def failedFetch : Reader := ((assured.asks .next 1).asks .next 1).asks .next 7

/-- Another cursor is asked for its first item. -/
def renewed : Reader := failedFetch.renew.asks .next 0

theorem failsOnce_emptyPagesEnd : World.failsOnce.EmptyPagesEnd twoThere.toList
  | 0, _ => ⟨_, _, .here rfl⟩
  | 1, _ => ⟨_, _, .here rfl⟩
  | _ + 2, _ => ⟨_, _, .here rfl⟩

theorem cursor_protocol_failsOnce :
    Reads World.failsOnce (start (World.start twoThere)) assured ∧
    assured.answers = [.hasNext (.ok true)] ∧
    assured.HasAtOnce (.value (.scalar (.integer 1))) ∧
    failedFetch.answers = [.hasNext (.ok true), .item (.value (.scalar (.integer 1))),
      .item (.error (.decode (.unpaired 1 0))), .item (.error (.fetch (.transport "boom")))] ∧
    (∀ q, failedFetch.ask q = failedFetch.answer q.closed) ∧
    ∃ i r, (renewed.after World.failsOnce Consumption.alternating i).answers = [r] := by
  have hassured : Reads World.failsOnce (start (World.start twoThere)) assured :=
    Reads.refl.asks rfl .hasNext 1
  have hfailed : Reads World.failsOnce (start (World.start twoThere)) failedFetch :=
    ((hassured.asks rfl .next 1).asks rfl .next 1).asks rfl .next 7
  have hrenewed : Reads World.failsOnce (start (World.start twoThere)) renewed :=
    (hfailed.act (.renew rfl)).asks rfl .next 0
  refine ⟨hassured, rfl, ?_, rfl, ?_, ?_⟩
  · obtain ⟨row, rest, hbuffer, hnext⟩ :=
      (cursor_protocol World.failsOnce twoThere [] assured hassured).next_after_true rfl nofun
    cases hbuffer
    exact hnext
  · refine ((cursor_protocol World.failsOnce twoThere [] failedFetch hfailed).closed ?_).2
    exact ⟨.error (.fetch (.transport "boom")), List.mem_of_getElem? (i := 2) rfl, rfl⟩
  · obtain ⟨i, r, -, hanswers, -⟩ := (cursor_protocol World.failsOnce twoThere [] renewed
      hrenewed).comes_back .next 4 _ rfl failsOnce_emptyPagesEnd Consumption.alternating_fair
    exact ⟨i, r, hanswers⟩

end Reader

end ResultSet

end PagedTraversal
