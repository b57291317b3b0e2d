import PagedTraversal.Proofs.Paging.Step

/-!
# PagedTraversal.Proofs.Paging.World

Any number of parties at one source. A party makes a call and performs its steps one by one, drops
it, or has its answer decoded; it requests a page and polls handles. The task of a fetch makes its
call and ends with the backend's reply. `World.run` performs a list of such moves, so every order
of the steps of all parties is a list of moves, and the reachable states are what the lists lead to.

A world also keeps what the source forgets: the pages applied so far, and who has taken which row.

* `World.move_cases`, `World.source_move`: what a move does to the source; `World.party_move`: what
  it does to a party.
* `Call.step_buffer`, `Call.step_rows`: where the rows go that a step of a call takes.
-/

namespace PagedTraversal

inductive Errand where
  | one
  | all
  | exhausted
  | fetch
  | settle (h : Handle)
  | next (threshold : Option Nat)

def Errand.call : Errand → Call
  | one => .one
  | all => .all
  | exhausted => .exhausted
  | fetch => .fetch
  | settle h => .settle h
  | next threshold => .next threshold

/-- A call as it stands with the party that made it. A finished call is kept as it was before its
last step. -/
inductive Party where
  | running (c : Call)
  | finished (c : Call) (result : Except FetchError Answer)
  | dropped (c : Call)

/-- The rows that a call has drained and not handed over. -/
def Call.held (c : Call) : List Row :=
  match c.goal with
  | .all drained => drained.toList
  | _ => []

/-- The rows that the next step of a call takes out of the buffer. -/
def Call.takes (c : Call) (s : Source) : List Row :=
  match c.phase, c.goal with
  | .look, .one => s.progress.buffer.take 1
  | .look, .all _ => s.progress.buffer
  | _, _ => []

namespace Party

/-- The rows that a call has handed over, or holds while it runs. -/
def rows : Party → List Row
  | running c => c.held
  | finished _ (.ok (.one (some row))) => [row]
  | finished _ (.ok (.all rows)) => rows
  | _ => []

/-- The rows that went down with a call. -/
def lost : Party → List Row
  | finished c (.error _) => c.held
  | dropped c => c.held
  | _ => []

/-- A call for all rows that has failed or was dropped. -/
def isBrokenAll : Party → Bool
  | finished ⟨.all _, _⟩ (.error _) => true
  | dropped ⟨.all _, _⟩ => true
  | _ => false

theorem lost_of_not_broken {p : Party} (h : p.isBrokenAll = false) : p.lost = [] := by
  match p with
  | running _ => rfl
  | finished _ (.ok _) => rfl
  | finished ⟨.all _, _⟩ (.error _) => simp [isBrokenAll] at h
  | finished ⟨.one, _⟩ (.error _) => rfl
  | finished ⟨.exhausted, _⟩ (.error _) => rfl
  | finished ⟨.settled, _⟩ (.error _) => rfl
  | dropped ⟨.all _, _⟩ => simp [isBrokenAll] at h
  | dropped ⟨.one, _⟩ => rfl
  | dropped ⟨.exhausted, _⟩ => rfl
  | dropped ⟨.settled, _⟩ => rfl

end Party

def Advance.party (c : Call) : Advance → Party
  | more next => .running next
  | waiting _ => .running c
  | done result => .finished c result

def Reply.pages : Reply → List Page
  | page p => [p]
  | _ => []

structure World where
  source : Source
  /-- The calls made so far; a call is known by its place among them. -/
  parties : List Party
  /-- The pages applied so far, in order. -/
  applied : List Page
  /-- The rows taken out of the buffer, in order, each with the call that took it. -/
  takings : List (Nat × Row)

inductive Move where
  | ask (e : Errand)
  | step (n : Nat) (hasRuntime : Bool)
  | drop (n : Nat)
  | deliver (n : Nat)
  | request (hasRuntime : Bool)
  | poll (h : Handle)
  | beginCall (h : Handle)
  | endCall (h : Handle)

/-- Whether something could run a fetch that the move starts. -/
def Move.hasRuntime : Move → Bool
  | step _ hasRuntime => hasRuntime
  | request hasRuntime => hasRuntime
  | _ => true

namespace World

/-- Nothing has been asked for yet. The first page may have come with the start. -/
def start : Option Page → World
  | none => ⟨.initial, [], [], []⟩
  | some page => ⟨.ofFirstPage page, [], [page], []⟩

def appliedRows (w : World) : List Row := w.applied.flatMap Page.rows

def takenRows (w : World) : List Row := w.takings.map Prod.snd

def takenBy (w : World) (n : Nat) : List Row :=
  (w.takings.filter fun t => t.1 == n).map Prod.snd

def stepCall (w : World) (n : Nat) (hasRuntime : Bool) : World :=
  match w.parties[n]? with
  | some (.running c) =>
    let (advance, source) := c.step hasRuntime w.source
    ⟨source, w.parties.set n (advance.party c), w.applied,
      w.takings ++ (c.takes w.source).map (n, ·)⟩
  | _ => w

def dropCall (w : World) (n : Nat) : World :=
  match w.parties[n]? with
  | some (.running c) => { w with parties := w.parties.set n (.dropped c) }
  | _ => w

def deliver (w : World) (n : Nat) : World :=
  match w.parties[n]? with
  | some (.finished _ result) => { w with source := (ResultSet.deliver result w.source).2 }
  | _ => w

def endCall (b : Backend) (w : World) (h : Handle) : World :=
  match w.source.fetches[h]? with
  | some ⟨_, token, .calling n, _⟩ =>
    let reply := b.answer n token
    { w with source := w.source.endCall h reply, applied := w.applied ++ reply.pages }
  | _ => w

def move (b : Backend) (w : World) : Move → World
  | .ask e => { w with parties := w.parties ++ [.running e.call] }
  | .step n hasRuntime => w.stepCall n hasRuntime
  | .drop n => w.dropCall n
  | .deliver n => w.deliver n
  | .request hasRuntime => { w with source := (w.source.request hasRuntime).2 }
  | .poll h => { w with source := (w.source.poll h).2 }
  | .beginCall h => { w with source := w.source.beginCall h }
  | .endCall h => w.endCall b h

def run (b : Backend) (w : World) (moves : List Move) : World := moves.foldl (move b) w

theorem run_append (b : Backend) (w : World) (ms ms' : List Move) :
    w.run b (ms ++ ms') = (w.run b ms).run b ms' :=
  List.foldl_append

theorem run_keeps {b : Backend} {P : World → Prop} (hmove : ∀ w m, P w → P (w.move b m))
    {w : World} (hw : P w) (ms : List Move) : P (w.run b ms) := by
  induction ms generalizing w with
  | nil => exact hw
  | cons m ms ih => exact ih (hmove w m hw)

end World

/-! ## What a step of a call does -/

namespace Call

/-- What a step takes comes from the front of the buffer, and the rest stays there. -/
theorem step_buffer (c : Call) (hasRuntime : Bool) (s : Source) :
    s.progress.buffer = c.takes s ++ (c.step hasRuntime s).2.progress.buffer := by
  obtain ⟨goal, phase⟩ := c
  cases phase with
  | measure threshold => rfl
  | compare threshold available =>
    simp only [step, takes, List.nil_append]
    split <;> rfl
  | prefetch => simp [step, takes, Source.progress_request]
  | look =>
    cases goal with
    | one =>
      simp only [step, look, takes, Source.takeRow]
      cases hb : s.progress.buffer with
      | nil => cases hc : s.progress.complete <;> simp [Source.whenEmpty, hc, hb]
      | cons row rest => simp
    | all drained =>
      simp only [step, look, takes, Source.drain]
      cases s.progress.complete <;> simp
    | exhausted =>
      simp only [step, look, takes, List.nil_append]
      split <;> rfl
    | settled => rfl
  | request => simp [step, takes, Source.progress_request]
  | wait h =>
    have hpoll := Source.progress_poll h s
    simp only [step, takes, List.nil_append]
    split <;> simp_all

/-- A row that a step takes is held, handed over or lost afterwards, and so is what the call has
held before. -/
theorem step_rows (c : Call) (hasRuntime : Bool) (s : Source) :
    ((c.step hasRuntime s).1.party c).rows ++ ((c.step hasRuntime s).1.party c).lost =
      c.held ++ c.takes s := by
  obtain ⟨goal, phase⟩ := c
  cases phase with
  | measure threshold => simp [step, goTo, Advance.party, Party.rows, Party.lost, held, takes]
  | compare threshold available =>
    simp only [step]
    split <;> simp [goTo, Advance.party, Party.rows, Party.lost, held, takes]
  | prefetch => simp [step, goTo, Advance.party, Party.rows, Party.lost, held, takes]
  | look =>
    cases goal with
    | one =>
      simp only [step, look, takes, Source.takeRow]
      cases hb : s.progress.buffer with
      | nil =>
        cases hc : s.progress.complete <;>
          simp [Source.whenEmpty, hc, goTo, Advance.party, Party.rows, Party.lost, held]
      | cons row rest => simp [Advance.party, Party.rows, Party.lost, held]
    | all drained =>
      simp only [step, look, takes, Source.drain]
      cases s.progress.complete <;> simp [Advance.party, Party.rows, Party.lost, held]
    | exhausted =>
      simp only [step, look, takes]
      split <;> simp [goTo, Advance.party, Party.rows, Party.lost, held]
    | settled => simp [step, look, Advance.party, Party.rows, Party.lost, held, takes]
  | request => simp [step, goTo, Advance.party, Party.rows, Party.lost, held, takes]
  | wait h =>
    simp only [step, takes]
    split <;> simp [goTo, Advance.party, Party.rows, Party.lost, held]

end Call

namespace World

theorem stepCall_cases (w : World) (n : Nat) (hasRuntime : Bool) :
    w.stepCall n hasRuntime = w ∨ ∃ c, w.parties[n]? = some (.running c) ∧
      w.stepCall n hasRuntime = ⟨(c.step hasRuntime w.source).2,
        w.parties.set n ((c.step hasRuntime w.source).1.party c), w.applied,
        w.takings ++ (c.takes w.source).map (n, ·)⟩ := by
  unfold stepCall
  split
  · next c hc => exact .inr ⟨c, hc, rfl⟩
  · exact .inl rfl

theorem stepCall_of_running {w : World} {n : Nat} {c : Call}
    (hc : w.parties[n]? = some (.running c)) (hasRuntime : Bool) :
    w.stepCall n hasRuntime = ⟨(c.step hasRuntime w.source).2,
        w.parties.set n ((c.step hasRuntime w.source).1.party c), w.applied,
        w.takings ++ (c.takes w.source).map (n, ·)⟩ ∧
      (w.stepCall n hasRuntime).parties[n]? = some ((c.step hasRuntime w.source).1.party c) ∧
      (w.stepCall n hasRuntime).takenRows = w.takenRows ++ c.takes w.source := by
  have hn : n < w.parties.length := (List.getElem?_eq_some_iff.1 hc).1
  have e : w.stepCall n hasRuntime = ⟨(c.step hasRuntime w.source).2,
      w.parties.set n ((c.step hasRuntime w.source).1.party c), w.applied,
      w.takings ++ (c.takes w.source).map (n, ·)⟩ := by
    simp [stepCall, hc]
  refine ⟨e, ?_, ?_⟩
  · rw [e]
    exact List.getElem?_set_self hn
  · rw [e]
    simp [takenRows, Function.comp_def]

theorem stepCall_of_waiting {w : World} {n : Nat} {c : Call}
    (hc : w.parties[n]? = some (.running c)) {hasRuntime : Bool} {h : Handle}
    (hstep : c.step hasRuntime w.source = (.waiting h, w.source)) (htakes : c.takes w.source = []) :
    w.stepCall n hasRuntime = w := by
  obtain ⟨hn, hget⟩ := List.getElem?_eq_some_iff.1 hc
  have hsame : w.parties.set n (.running c) = w.parties := by
    rw [← hget]
    exact List.set_getElem_self hn
  rw [(stepCall_of_running hc hasRuntime).1, hstep, htakes]
  simp [Advance.party, hsame]

theorem dropCall_cases (w : World) (n : Nat) :
    w.dropCall n = w ∨ ∃ c, w.parties[n]? = some (.running c) ∧
      w.dropCall n = { w with parties := w.parties.set n (.dropped c) } := by
  unfold dropCall
  split
  · next c hc => exact .inr ⟨c, hc, rfl⟩
  · exact .inl rfl

/-- Decoding touches nothing but the journal. -/
theorem deliver_eq (w : World) (n : Nat) :
    ∃ events : Array Event, (∀ e ∈ events, e.ofFetch = false) ∧
      w.deliver n = { w with source.journal := w.source.journal ++ events } := by
  unfold deliver
  split
  · next c result hp =>
    obtain ⟨events, hevents, hsource⟩ := ResultSet.deliver_source result w.source
    exact ⟨events, hevents, by rw [hsource]⟩
  · exact ⟨#[], by simp, by simp⟩

/-- A backend answers only a fetch that has made its call. -/
theorem endCall_cases (b : Backend) (w : World) (h : Handle) :
    w.endCall b h = w ∨ ∃ page token n seen,
      w.source.fetches[h]? = some ⟨page, token, .calling n, seen⟩ ∧
      w.endCall b h = { w with
        source := w.source.endCall h (b.answer n token)
        applied := w.applied ++ (b.answer n token).pages } := by
  unfold endCall
  split
  · next page token n seen hf => exact .inr ⟨page, token, n, seen, hf, rfl⟩
  · exact .inl rfl

/-- The pages applied change only when a call is answered. All else that the task of a fetch does is
to begin its call, and the other moves are acts of the consumers. -/
theorem move_cases (b : Backend) (w : World) (m : Move) :
    (w.source.Act m.hasRuntime (w.move b m).source ∧ (w.move b m).applied = w.applied) ∨
    (∃ h, w.move b m = { w with source := w.source.beginCall h }) ∨
    (∃ h, w.move b m = w.endCall b h) := by
  cases m with
  | ask e => exact .inl ⟨.rest, rfl⟩
  | step n hasRuntime =>
    refine .inl ?_
    show w.source.Act hasRuntime (w.stepCall n hasRuntime).source ∧
      (w.stepCall n hasRuntime).applied = _
    rcases w.stepCall_cases n hasRuntime with h | ⟨c, -, h⟩ <;> rw [h]
    · exact ⟨.rest, rfl⟩
    · exact ⟨c.step_act hasRuntime w.source, rfl⟩
  | drop n =>
    refine .inl ?_
    show w.source.Act true (w.dropCall n).source ∧ (w.dropCall n).applied = _
    rcases w.dropCall_cases n with h | ⟨c, -, h⟩ <;> rw [h] <;> exact ⟨.rest, rfl⟩
  | deliver n =>
    obtain ⟨events, hevents, h⟩ := w.deliver_eq n
    refine .inl ?_
    show w.source.Act true (w.deliver n).source ∧ (w.deliver n).applied = _
    rw [h]
    exact ⟨.note hevents, rfl⟩
  | request hasRuntime => exact .inl ⟨.request, rfl⟩
  | poll h => exact .inl ⟨.poll h, rfl⟩
  | beginCall h => exact .inr (.inl ⟨h, rfl⟩)
  | endCall h => exact .inr (.inr ⟨h, rfl⟩)

theorem source_move (b : Backend) (w : World) (m : Move) :
    Source.Step b w.source (w.move b m).source := by
  rcases w.move_cases b m with ⟨hact, -⟩ | ⟨h, e⟩ | ⟨h, e⟩
  · exact .act hact
  · rw [e]
    exact .beginCall h
  · rw [e]
    rcases w.endCall_cases b h with e | ⟨page, token, n, seen, hf, e⟩ <;> rw [e]
    · have hrest : w.source.Act true w.source := .rest
      exact .act hrest
    · exact .endCall hf

theorem source_run {b : Backend} {P : Source → Prop}
    (hstep : ∀ {s t}, Source.Step b s t → P s → P t) {w : World} (hw : P w.source)
    (ms : List Move) : P (w.run b ms).source :=
  run_keeps (P := fun w => P w.source) (fun w m h => hstep (w.source_move b m) h) hw ms

/-- A party changes only by a step of its call, or when the call is dropped. -/
theorem party_move (b : Backend) {w : World} {n : Nat} {p : Party} (hp : w.parties[n]? = some p)
    (m : Move) :
    (w.move b m).parties[n]? = some p ∨
    ∃ c, p = .running c ∧
      ((∃ hasRuntime, m = .step n hasRuntime ∧
        (w.move b m).parties[n]? = some ((c.step hasRuntime w.source).1.party c)) ∨
      (w.move b m).parties[n]? = some (.dropped c)) := by
  have hn : n < w.parties.length := (List.getElem?_eq_some_iff.1 hp).1
  cases m with
  | ask e =>
    refine .inl ?_
    show (w.parties ++ [.running e.call])[n]? = _
    rw [List.getElem?_append_left hn]
    exact hp
  | step n' hasRuntime =>
    show (w.stepCall n' hasRuntime).parties[n]? = _ ∨ _
    by_cases e : n' = n
    · subst e
      cases p with
      | running c =>
        exact .inr ⟨c, rfl, .inl ⟨hasRuntime, rfl, (stepCall_of_running hp hasRuntime).2.1⟩⟩
      | _ => exact .inl (by simp [stepCall, hp])
    · rcases w.stepCall_cases n' hasRuntime with h | ⟨c, -, h⟩ <;> rw [h]
      · exact .inl hp
      · exact .inl (by rw [List.getElem?_set_ne e]; exact hp)
  | drop n' =>
    show (w.dropCall n').parties[n]? = _ ∨ ∃ c, p = .running c ∧
      (_ ∨ (w.dropCall n').parties[n]? = some (.dropped c))
    rcases w.dropCall_cases n' with h | ⟨c, hc, h⟩
    · rw [h]
      exact .inl hp
    · by_cases e : n' = n
      · subst e
        rw [hp] at hc
        cases hc
        exact .inr ⟨c, rfl, .inr (by rw [h]; exact List.getElem?_set_self hn)⟩
      · exact .inl (by rw [h, List.getElem?_set_ne e]; exact hp)
  | deliver n' =>
    obtain ⟨events, -, h⟩ := w.deliver_eq n'
    refine .inl ?_
    show (w.deliver n').parties[n]? = _
    rw [h]
    exact hp
  | endCall h =>
    refine .inl ?_
    show (w.endCall b h).parties[n]? = _
    rcases w.endCall_cases b h with e | ⟨page, token, n', seen, -, e⟩ <;> rw [e] <;> exact hp
  | _ => exact .inl hp

/-- A party comes into being when its call is made. -/
theorem party_born {b : Backend} {w : World} {n : Nat} {p : Party} {m : Move}
    (hnone : w.parties[n]? = none) (hp : (w.move b m).parties[n]? = some p) :
    ∃ e, m = .ask e ∧ p = .running e.call := by
  have hn : w.parties.length ≤ n := List.getElem?_eq_none_iff.1 hnone
  have hsame : (w.move b m).parties.length = w.parties.length →
      ∃ e, m = .ask e ∧ p = .running e.call := by
    intro hlength
    have := (List.getElem?_eq_some_iff.1 hp).1
    omega
  cases m with
  | ask e =>
    have hp : (w.parties ++ [.running e.call])[n]? = some p := hp
    rw [List.getElem?_append, if_neg (Nat.not_lt.2 hn), List.getElem?_singleton] at hp
    split at hp
    · cases hp
      exact ⟨e, rfl, rfl⟩
    · cases hp
  | step n' hasRuntime =>
    refine hsame ?_
    show (w.stepCall n' hasRuntime).parties.length = _
    rcases w.stepCall_cases n' hasRuntime with h | ⟨c, -, h⟩ <;> rw [h]
    exact List.length_set
  | drop n' =>
    refine hsame ?_
    show (w.dropCall n').parties.length = _
    rcases w.dropCall_cases n' with h | ⟨c, -, h⟩ <;> rw [h]
    exact List.length_set
  | deliver n' =>
    obtain ⟨events, -, h⟩ := w.deliver_eq n'
    refine hsame ?_
    show (w.deliver n').parties.length = _
    rw [h]
  | endCall h =>
    refine hsame ?_
    show (w.endCall b h).parties.length = _
    rcases w.endCall_cases b h with e | ⟨page, token, n', seen, -, e⟩ <;> rw [e]
  | _ => exact hsame rfl

end World

end PagedTraversal
