import Mathlib.Data.List.Forall2
import PagedTraversal.Proofs.Paging.Joining

/-!
# PagedTraversal.Proofs.ResultSet.Reader

One who reads a result set by a cursor, and when done with it by the next one. The cursor is asked
for its next item or whether there is one, in any order; an answer may be waited for or given up.
A stream is a cursor that is only asked for items.

Nobody else takes rows. Apart from that, others may do anything at any time: request pages, poll
handles, ask whether rows are left; and the tasks of the fetches do their steps.

* `Reader.Act`, `Reader.Reads`: what the reader and the others do.
* `Reader.Says`: what a question can be answered with; `Reader.step_cases`: a step of the reader
  goes on or brings such an answer.
* `Reader.Sound`: what stands between two acts; `Reader.sound_reads`: whatever is done, it stands.
-/

namespace PagedTraversal

/-- What a cursor makes of a row: its graph value, or an error in its place. -/
def Row.item (row : Row) : Item :=
  match row.decode with
  | .ok v => .value v
  | .error e => .error (.decode e)

/-- The end and a failed fetch, after which a cursor yields nothing more. -/
def Item.isFinal : Item → Bool
  | value _ => false
  | error e => e.isFetch
  | ended => true

namespace ResultSet

/-- What a cursor is asked: for its next item, or whether there is one. -/
inductive Question where
  | next
  | hasNext

namespace Question

/-- The call that finds the answer; a finished cursor makes none. -/
def call? (c : Cursor) : Question → Option Call
  | next => c.nextCall?
  | hasNext => c.hasNextCall?

def goal : Question → Goal
  | next => .one
  | hasNext => .exhausted

end Question

/-- What a cursor answers. -/
inductive Response where
  | item (i : Item)
  | hasNext (r : Except ResultError Bool)

namespace Response

def question : Response → Question
  | item _ => .next
  | hasNext _ => .hasNext

def item? : Response → Option Item
  | item i => some i
  | hasNext _ => none

end Response

/-- The items among the answers. -/
def itemsOf (answers : List Response) : List Item := answers.filterMap Response.item?

/-- The answer of a finished cursor. -/
def Question.closed : Question → Response
  | next => .item .ended
  | hasNext => .hasNext (.ok false)

/-- A reader with the cursor that it reads by. -/
structure Reader where
  world : World
  cursor : Cursor
  /-- The question that is not answered yet, and the call made for it. -/
  pending : Option (Question × Nat)
  /-- What the cursor has answered, in order. -/
  answers : List Response
  /-- What the cursors before it had answered when they were left, in order. -/
  earlier : List (List Response)

namespace Reader

def start (w : World) : Reader := ⟨w, .start none, none, [], []⟩

def answer (s : Reader) (r : Response) : Reader :=
  { s with answers := s.answers ++ [r], pending := none }

/-- Asks the cursor, which makes a call unless it is finished. -/
def ask (s : Reader) (q : Question) : Reader :=
  match q.call? s.cursor with
  | some c =>
    { s with
      world := { s.world with parties := s.world.parties ++ [.running c] }
      pending := some (q, s.world.parties.length) }
  | none => s.answer q.closed

def receive (s : Reader) : Question → Except ResultError Delivery → Reader
  | .next, delivery =>
    let (item, cursor) := s.cursor.advance delivery
    { s with cursor := cursor }.answer (.item item)
  | .hasNext, delivery => s.answer (.hasNext (Cursor.hasNextOf delivery))

/-- Performs the next step of the call that is pending, and receives the answer when that was the
last. -/
def step (s : Reader) (hasRuntime : Bool) : Reader :=
  match s.pending with
  | none => s
  | some (q, n) =>
    let w := s.world.stepCall n hasRuntime
    match w.parties[n]? with
    | some (.finished _ result) =>
      { s with world := w.deliver n }.receive q (deliver result w.source).1
    | _ => { s with world := w }

/-- Waits no longer for an answer. -/
def giveUp (s : Reader) : Reader :=
  match s.pending with
  | none => s
  | some (_, n) => { s with world := s.world.dropCall n, pending := none }

/-- Leaves the cursor and opens another one. -/
def renew (s : Reader) : Reader :=
  { s with cursor := .start none, answers := [], earlier := s.earlier ++ [s.answers] }

/-- One act of the reader or of others, who take no rows and leave the call of the reader alone. -/
inductive Act (b : Backend) (s : Reader) : Reader → Prop where
  | ask (q : Question) (hfree : s.pending = none) : Act b s (s.ask q)
  | step (hasRuntime : Bool) : Act b s (s.step hasRuntime)
  | giveUp : Act b s s.giveUp
  | renew (hfree : s.pending = none) : Act b s s.renew
  | meanwhile (m : Move)
      (hcall : ∀ q n, s.pending = some (q, n) → (s.world.move b m).parties[n]? = s.world.parties[n]?)
      (hrows : (s.world.move b m).takings = s.world.takings) :
      Act b s { s with world := s.world.move b m }

/-- Any number of acts. -/
inductive Reads (b : Backend) (s : Reader) : Reader → Prop where
  | refl : Reads b s s
  | act {t u : Reader} (hreads : Reads b s t) (hact : Act b t u) : Reads b s u

/-! ## What a cursor has answered -/

/-- How the items of a cursor end: with a failed fetch, or with the end of the rows, and nothing but
the end after that. -/
inductive Closing (source : Source) : List Item → Prop where
  | failed {h : Handle} {e : FetchError} (k : Nat) (houtcome : source.outcome? h = some (.error e)) :
      Closing source (.error (.fetch e) :: List.replicate k .ended)
  | ended (k : Nat) (hbuffer : source.progress.buffer = [])
      (hcomplete : source.progress.complete = true) :
      Closing source (List.replicate (k + 1) .ended)

/-- The items of a cursor are those of the rows that it took, in order, and then the closing ones if
it is finished. -/
def Gives (source : Source) (finished : Bool) (answers : List Response) (rows : List Row) : Prop :=
  match finished with
  | false => itemsOf answers = rows.map Row.item
  | true => ∃ tail, Closing source tail ∧ itemsOf answers = rows.map Row.item ++ tail

/-- What a question is answered with, the rows that are taken for it, and whether the cursor is
finished by it. -/
inductive Says (source : Source) : Question → Response → List Row → Bool → Prop where
  | row {row : Row} {rest : List Row} (hbuffer : source.progress.buffer = row :: rest) :
      Says source .next (.item row.item) [row] false
  | ended (hbuffer : source.progress.buffer = []) (hcomplete : source.progress.complete = true) :
      Says source .next (.item .ended) [] true
  | failed {h : Handle} {e : FetchError} (houtcome : source.outcome? h = some (.error e)) :
      Says source .next (.item (.error (.fetch e))) [] true
  | hasRow {row : Row} {rest : List Row} (hbuffer : source.progress.buffer = row :: rest) :
      Says source .hasNext (.hasNext (.ok true)) [] false
  | hasNone (hbuffer : source.progress.buffer = []) (hcomplete : source.progress.complete = true) :
      Says source .hasNext (.hasNext (.ok false)) [] false
  | unknown {h : Handle} {e : FetchError} (houtcome : source.outcome? h = some (.error e)) :
      Says source .hasNext (.hasNext (.error (.fetch e))) [] false

variable {b : Backend} {front : List Page} {k n : Nat} {w : World} {s t : Reader} {q : Question}
  {c : Call}

theorem advance_row (c : Cursor) (row : Row) (source : Source) :
    c.advance (deliver (.ok (.one (some row))) source).1 = (row.item, c) := by
  cases hdecode : row.decode with
  | ok v => simp [deliver, decodeRow, Row.item, Cursor.advance, hdecode]
  | error e => simp [deliver, decodeRow, Row.item, Cursor.advance, ResultError.isFetch, hdecode]

theorem stays_open (hopen : s.cursor.finished = false) (v : World) :
    { s with world := v, cursor.finished := false } = { s with world := v } := by
  rw [← hopen]

/-- What a look comes to is an answer to the question that the call was made for. -/
theorem reply_of_glance {source : Source} {a : Answer} {p : Progress}
    (hglance : q.goal.glance source.progress = (.inl a, p)) (hopen : s.cursor.finished = false) :
    ∃ r rows finished, Says source q r rows finished ∧ source.progress.buffer = rows ++ p.buffer ∧
      ∀ (v : World) (source' : Source),
        { s with world := v }.receive q (deliver (.ok a) source').1 =
          { s with world := v, cursor.finished := finished }.answer r := by
  cases q with
  | next =>
    cases hb : source.progress.buffer with
    | cons row rest =>
      rw [Question.goal, (Goal.glance_found hb).1] at hglance
      cases hglance
      refine ⟨_, _, _, .row hb, rfl, fun v source' => ?_⟩
      rw [receive, advance_row, ← hopen]
    | nil =>
      cases hc : source.progress.complete with
      | true =>
        rw [Question.goal, (Goal.glance_finished hb hc).1] at hglance
        cases hglance
        exact ⟨_, _, _, .ended hb hc, hb.symm, fun _ _ => rfl⟩
      | false =>
        rw [Question.goal, Goal.glance_of_dry rfl hb hc] at hglance
        cases hglance
  | hasNext =>
    rcases Goal.glance_exhausted source.progress with ⟨row, rest, hb, e⟩ | ⟨hb, hc, e⟩ | ⟨-, -, e⟩ <;>
      rw [Question.goal, e] at hglance <;> cases hglance
    · exact ⟨_, _, _, .hasRow hb, rfl, fun v _ => by rw [stays_open hopen v]; rfl⟩
    · exact ⟨_, _, _, .hasNone hb hc, rfl, fun v _ => by rw [stays_open hopen v]; rfl⟩

theorem reply_of_failed {source : Source} {h : Handle} {e : FetchError}
    (houtcome : source.outcome? h = some (.error e)) (q : Question)
    (hopen : s.cursor.finished = false) :
    ∃ r finished, Says source q r [] finished ∧ ∀ (v : World) (source' : Source),
      { s with world := v }.receive q (deliver (.error e) source').1 =
        { s with world := v, cursor.finished := finished }.answer r := by
  cases q with
  | next =>
    refine ⟨_, _, .failed houtcome, fun v source' => ?_⟩
    simp [receive, deliver, Cursor.advance, ResultError.isFetch]
  | hasNext => exact ⟨_, _, .unknown houtcome, fun v _ => by rw [stays_open hopen v]; rfl⟩

/-- The call that is pending. -/
def Calls (s : Reader) (q : Question) (n : Nat) (c : Call) : Prop :=
  s.pending = some (q, n) ∧ s.world.parties[n]? = some (.running c) ∧ c.goal = q.goal ∧
    c.Underway s.world.source

theorem step_of_done (hs : s.Calls q n c) {hasRuntime : Bool} {result : Except FetchError Answer}
    (hdone : (c.step hasRuntime s.world.source).1 = .done result) :
    s.step hasRuntime = { s with world := (s.world.stepCall n hasRuntime).deliver n }.receive q
      (deliver result (s.world.stepCall n hasRuntime).source).1 := by
  have hparty := (World.stepCall_of_running hs.2.1 hasRuntime).2.1
  rw [hdone] at hparty
  simp only [step, hs.1, hparty]
  rfl

theorem step_of_not_done (hs : s.Calls q n c) {hasRuntime : Bool}
    (hdone : ∀ result, (c.step hasRuntime s.world.source).1 ≠ .done result) :
    s.step hasRuntime = { s with world := s.world.stepCall n hasRuntime } := by
  have hparty := (World.stepCall_of_running hs.2.1 hasRuntime).2.1
  simp only [step, hs.1, hparty]
  cases e : (c.step hasRuntime s.world.source).1 with
  | done result => exact absurd e (hdone result)
  | _ => rfl

/-- What a step comes to while a call is pending. It goes on and takes no row, or its question is
answered. -/
inductive Stepped (s : Reader) (q : Question) (n : Nat) (c : Call) (hasRuntime : Bool) :
    Reader → Prop where
  | goesOn {c' : Call} (hneeds : c.phase = .look → s.world.source.Dry)
      (hcalls : Calls { s with world := s.world.stepCall n hasRuntime } q n c')
      (htakings : (s.world.stepCall n hasRuntime).takings = s.world.takings) :
      Stepped s q n c hasRuntime { s with world := s.world.stepCall n hasRuntime }
  | answers {r : Response} {rows : List Row} {finished : Bool}
      (hreply : Says s.world.source q r rows finished)
      (htakings : ((s.world.stepCall n hasRuntime).deliver n).takings =
        s.world.takings ++ rows.map (n, ·)) :
      Stepped s q n c hasRuntime ({ s with
        world := (s.world.stepCall n hasRuntime).deliver n
        cursor.finished := finished }.answer r)

/-- A step with which the call comes to its end. -/
theorem stepped_of_done (hs : s.Calls q n c) {hasRuntime : Bool} {result : Except FetchError Answer}
    {r : Response} {rows : List Row} {finished : Bool}
    (hstep : (c.step hasRuntime s.world.source).1 = .done result)
    (hreply : Says s.world.source q r rows finished)
    (hbuffer : s.world.source.progress.buffer =
      rows ++ (c.step hasRuntime s.world.source).2.progress.buffer)
    (hanswer : ∀ (v : World) (source' : Source),
      { s with world := v }.receive q (deliver result source').1 =
        { s with world := v, cursor.finished := finished }.answer r) :
    Stepped s q n c hasRuntime (s.step hasRuntime) := by
  rw [step_of_done hs hstep, hanswer]
  refine .answers hreply ?_
  have htakes : c.takes s.world.source = rows := by
    have hfront := c.step_buffer hasRuntime s.world.source
    rw [hbuffer] at hfront
    exact (List.append_cancel_right hfront).symm
  obtain ⟨events, -, hdeliver⟩ := (s.world.stepCall n hasRuntime).deliver_eq n
  rw [hdeliver, (World.stepCall_of_running hs.2.1 hasRuntime).1, htakes]

/-- A step with which it does not come to its end leaves the rows. -/
theorem stepped_of_not_done (hs : s.Calls q n c) {hasRuntime : Bool} {c' : Call}
    (hparty : (c.step hasRuntime s.world.source).1.party c = .running c')
    (hgoal : c'.goal = q.goal) (hunderway : c'.Underway (c.step hasRuntime s.world.source).2)
    (hneeds : c.phase = .look → s.world.source.Dry)
    (hprogress : (c.step hasRuntime s.world.source).2.progress = s.world.source.progress) :
    Stepped s q n c hasRuntime (s.step hasRuntime) := by
  obtain ⟨hworld, hparty', -⟩ := World.stepCall_of_running hs.2.1 hasRuntime
  have hnone : c.takes s.world.source = [] := by
    have hfront := c.step_buffer hasRuntime s.world.source
    rw [hprogress] at hfront
    exact List.self_eq_append_left.1 hfront
  have heq : s.step hasRuntime = { s with world := s.world.stepCall n hasRuntime } := by
    refine step_of_not_done hs fun result hdone => ?_
    rw [hdone] at hparty
    cases hparty
  rw [hparty] at hparty'
  rw [heq]
  refine .goesOn hneeds ⟨hs.1, hparty', hgoal, ?_⟩ ?_
  · show c'.Underway (s.world.stepCall n hasRuntime).source
    rw [hworld]
    exact hunderway
  · rw [hworld, hnone]
    exact List.append_nil _

theorem step_cases (hone : s.world.source.OneFetch) (hopen : s.cursor.finished = false)
    (hs : s.Calls q n c) (hasRuntime : Bool) :
    Stepped s q n c hasRuntime (s.step hasRuntime) := by
  have hstep := Call.underway_step hone hs.2.2.2 hasRuntime
  generalize hadvance : (c.step hasRuntime s.world.source).1 = advance,
    hsource : (c.step hasRuntime s.world.source).2 = t at hstep
  cases hstep with
  | goesOn hgoal hunderway hneeds hprogress =>
    subst hsource
    exact stepped_of_not_done hs (by rw [hadvance]; rfl) (hgoal.trans hs.2.2.1) hunderway hneeds
      hprogress
  | waits hphase _ =>
    refine stepped_of_not_done hs (by rw [hadvance]; rfl) hs.2.2.1 ?_ ?_ ?_
    · rw [hsource]
      exact hs.2.2.2
    · rw [hphase]
      exact nofun
    · rw [hsource]
  | answers _ hglance =>
    rw [hs.2.2.1] at hglance
    obtain ⟨r, rows, finished, hreply, hbuffer, hanswer⟩ := reply_of_glance hglance hopen
    exact stepped_of_done hs hadvance hreply (by rw [hsource]; exact hbuffer) hanswer
  | fails _ houtcome hprogress =>
    obtain ⟨r, finished, hreply, hanswer⟩ := reply_of_failed houtcome q hopen
    exact stepped_of_done hs hadvance hreply (by rw [hsource, hprogress]; rfl) hanswer

/-! ## What stands between two acts -/

/-- What becomes of a source later: the outcomes of fetches stay, and so does the end. -/
structure Later (source source' : Source) : Prop where
  size : source.fetches.size ≤ source'.fetches.size
  outcome : ∀ h r, source.outcome? h = some r → source'.outcome? h = some r
  ended : source.progress.buffer = [] → source.progress.complete = true →
    source'.progress.buffer = [] ∧ source'.progress.complete = true

theorem later_run (hw : World.OnChain b front k w) (haccounts : w.Accounts) (ms : List Move) :
    Later w.source (w.run b ms).source where
  size := by
    by_contra hlt
    obtain ⟨f', hf', -⟩ := World.evolves_run (b := b)
      (Array.getElem?_eq_getElem (Nat.lt_of_not_le hlt)) ms
    exact absurd (Array.getElem?_eq_some_iff.1 hf').1 (Nat.lt_irrefl _)
  outcome h r hr := World.outcome?_run hr ms
  ended hbuffer hcomplete := by
    have hkept := hw.buffer_of_complete haccounts hcomplete ms
    rw [hbuffer] at hkept
    exact ⟨(List.append_eq_nil_iff.1 hkept.symm).2, (hw.run_of_complete hcomplete ms).2.1⟩

/-- What others do leaves the call where it stands. -/
theorem Calls.later (hs : s.Calls q n c) {v : World}
    (hparty : v.parties[n]? = s.world.parties[n]?)
    (hsize : s.world.source.fetches.size ≤ v.source.fetches.size) :
    Calls { s with world := v } q n c := by
  obtain ⟨hpending, hc, hgoal, hasks, hplace⟩ := hs
  refine ⟨hpending, hparty.trans hc, hgoal, hasks, ?_⟩
  revert hplace
  cases c.phase <;> simp only [imp_self]
  exact fun h => Nat.lt_of_lt_of_le h hsize

theorem Closing.later {source source' : Source} {tail : List Item} (h : Closing source tail)
    (hlater : Later source source') : Closing source' tail := by
  cases h with
  | failed k houtcome => exact .failed k (hlater.outcome _ _ houtcome)
  | ended k hbuffer hcomplete =>
    obtain ⟨hbuffer', hcomplete'⟩ := hlater.ended hbuffer hcomplete
    exact .ended k hbuffer' hcomplete'

theorem Closing.concat {source : Source} {tail : List Item} (h : Closing source tail) :
    Closing source (tail ++ [.ended]) := by
  cases h with
  | failed k houtcome =>
    rw [List.cons_append, ← List.replicate_succ']
    exact .failed (k + 1) houtcome
  | ended k hbuffer hcomplete =>
    rw [← List.replicate_succ']
    exact .ended (k + 1) hbuffer hcomplete

theorem itemsOf_concat (answers : List Response) (r : Response) :
    itemsOf (answers ++ [r]) = itemsOf answers ++ r.item?.toList := by
  rw [itemsOf, List.filterMap_append]
  cases h : r.item? <;> simp [itemsOf, h]

namespace Gives

variable {source source' : Source} {answers : List Response} {rows rows' : List Row}
  {finished : Bool} {r : Response}

theorem later (h : Gives source finished answers rows) (hlater : Later source source') :
    Gives source' finished answers rows := by
  cases finished with
  | false => exact h
  | true =>
    obtain ⟨tail, hclosing, hitems⟩ := h
    exact ⟨tail, hclosing.later hlater, hitems⟩

theorem later_all {earlier : List (List Response)} {rowss : List (List Row)}
    (h : List.Forall₂ (fun answers rows => ∃ finished, Gives source finished answers rows)
      earlier rowss) (hlater : Later source source') :
    List.Forall₂ (fun answers rows => ∃ finished, Gives source' finished answers rows)
      earlier rowss :=
  List.Forall₂.imp (fun _ _ ⟨finished, hgives⟩ => ⟨finished, hgives.later hlater⟩) h

/-- An answer of a cursor that is not finished. -/
theorem respond (h : Gives source false answers rows) (hreply : Says source q r rows' finished) :
    Gives source finished (answers ++ [r]) (rows ++ rows') := by
  have hitems : itemsOf answers = rows.map Row.item := h
  cases hreply with
  | row hbuffer =>
    show itemsOf _ = _
    rw [itemsOf_concat, hitems, List.map_append]
    rfl
  | ended hbuffer hcomplete =>
    refine ⟨_, .ended 0 hbuffer hcomplete, ?_⟩
    rw [itemsOf_concat, hitems, List.append_nil]
    rfl
  | failed houtcome =>
    refine ⟨_, .failed 0 houtcome, ?_⟩
    rw [itemsOf_concat, hitems, List.append_nil]
    rfl
  | _ =>
    show itemsOf _ = _
    rw [itemsOf_concat, hitems, List.append_nil]
    exact List.append_nil _

/-- An answer of a cursor that is finished. -/
theorem closed (h : Gives source true answers rows) (q : Question) :
    Gives source true (answers ++ [q.closed]) rows := by
  obtain ⟨tail, hclosing, hitems⟩ := h
  cases q with
  | next =>
    refine ⟨_, hclosing.concat, ?_⟩
    rw [itemsOf_concat, hitems, List.append_assoc]
    rfl
  | hasNext =>
    refine ⟨tail, hclosing, ?_⟩
    rw [itemsOf_concat, hitems]
    exact List.append_nil _

end Gives

/-- The cursor has been asked last whether there is a next item, and this was the answer. -/
def Told (s : Reader) (r : Bool) : Prop := s.answers.getLast? = some (.hasNext (.ok r))

/-- What that answer goes by. -/
def Foretold (s : Reader) : Bool → Prop
  | true => s.cursor.finished = false ∧ s.world.source.progress.buffer ≠ []
  | false => s.cursor.finished = true ∨
      s.world.source.progress.buffer = [] ∧ s.world.source.progress.complete = true

theorem not_dry_of_foretold {r : Bool} (h : s.Foretold r) (hopen : s.cursor.finished = false) :
    ¬ s.world.source.Dry := by
  rintro ⟨hbuffer, hcomplete⟩
  cases r with
  | true => exact h.2 hbuffer
  | false =>
    rcases h with hfinished | ⟨-, hcomplete'⟩
    · rw [hopen] at hfinished
      cases hfinished
    · rw [hcomplete] at hcomplete'
      cases hcomplete'

theorem ask_of_finished (hfinished : s.cursor.finished = true) : s.ask q = s.answer q.closed := by
  cases q <;> simp [ask, Question.call?, Cursor.nextCall?, Cursor.hasNextCall?, hfinished]

/-- The call that a question makes. -/
def asked (s : Reader) (q : Question) : Reader :=
  { s with
    world := { s.world with parties := s.world.parties ++ [.running ⟨q.goal, .look⟩] }
    pending := some (q, s.world.parties.length) }

theorem ask_of_open (hopen : s.cursor.finished = false) (hplain : s.cursor.threshold = none) :
    s.ask q = s.asked q := by
  cases q <;>
    simp only [ask, Question.call?, Cursor.nextCall?, Cursor.hasNextCall?, hopen, hplain] <;> rfl

theorem calls_asked (s : Reader) (q : Question) :
    (s.asked q).Calls q s.world.parties.length ⟨q.goal, .look⟩ := by
  refine ⟨rfl, List.getElem?_concat_length, rfl, ?_, trivial⟩
  cases q <;> rfl

/-- What stands between two acts of a reader that has begun in `w`. -/
structure Sound (b : Backend) (w : World) (s : Reader) : Prop where
  moves : ∃ ms, s.world = w.run b ms
  plain : s.cursor.threshold = none
  /-- A call that was made after such an answer looks first. -/
  pending : ∀ q n, s.pending = some (q, n) →
    s.cursor.finished = false ∧ ∃ c, s.Calls q n c ∧ ∀ r, s.Told r → c = ⟨q.goal, .look⟩
  foretold : ∀ r, s.Told r → s.Foretold r
  /-- All rows that are taken are answers of this cursor and of those before it. -/
  taken : ∃ rowss rows, s.world.takenRows = w.takenRows ++ (List.flatten rowss ++ rows) ∧
    Gives s.world.source s.cursor.finished s.answers rows ∧
    List.Forall₂ (fun answers rows => ∃ finished, Gives s.world.source finished answers rows)
      s.earlier rowss

namespace Sound

theorem start (b : Backend) (w : World) : Sound b w (.start w) where
  moves := ⟨[], rfl⟩
  plain := rfl
  pending := nofun
  foretold := nofun
  taken := ⟨[], [], (List.append_nil _).symm, rfl, .nil⟩

theorem moves_trans (hs : Sound b w s) {v : World} (hv : ∃ ms, v = s.world.run b ms) :
    ∃ ms, v = w.run b ms := by
  obtain ⟨ms, e⟩ := hs.moves
  obtain ⟨ms', rfl⟩ := hv
  exact ⟨ms ++ ms', by rw [e, World.run_append]⟩

/-- The answers of a finished cursor. -/
theorem answer_closed (hs : Sound b w s) (hfinished : s.cursor.finished = true) (q : Question) :
    Sound b w (s.answer q.closed) := by
  refine ⟨hs.moves, hs.plain, nofun, fun r hr => ?_, ?_⟩
  · have hlast : some q.closed = some (.hasNext (.ok r)) := List.getLast?_concat.symm.trans hr
    cases q with
    | next => cases hlast
    | hasNext =>
      cases hlast
      exact .inl hfinished
  · obtain ⟨rowss, rows, htaken, hgives, hearlier⟩ := hs.taken
    rw [hfinished] at hgives
    refine ⟨rowss, rows, htaken, ?_, hearlier⟩
    show Gives _ s.cursor.finished _ _
    rw [hfinished]
    exact hgives.closed q

theorem renew (hs : Sound b w s) (hfree : s.pending = none) : Sound b w s.renew := by
  obtain ⟨rowss, rows, htaken, hgives, hearlier⟩ := hs.taken
  refine ⟨hs.moves, rfl, fun q n h => ?_, nofun, rowss ++ [rows], [], ?_, rfl,
    List.rel_append hearlier (.cons ⟨_, hgives⟩ .nil)⟩
  · cases h.symm.trans hfree
  · rw [List.append_nil, List.flatten_concat]
    exact htaken

section Grounded

/-! The world in which the reader has begun is on the chain and accounts for its rows. -/

variable (hw : World.OnChain b front k w) (haccounts : w.Accounts) (hs : Sound b w s)

include hw haccounts hs

/-- So does that in which it stands. -/
theorem grounds : (∃ k', World.OnChain b front k' s.world) ∧ s.world.Accounts := by
  obtain ⟨ms, e⟩ := hs.moves
  rw [e]
  exact ⟨hw.run ms, haccounts.run ms⟩

theorem later {v : World} (hv : ∃ ms, v = s.world.run b ms) : Later s.world.source v.source := by
  obtain ⟨⟨k', hchain⟩, haccounts'⟩ := hs.grounds hw haccounts
  obtain ⟨ms, rfl⟩ := hv
  exact later_run hchain haccounts' ms

/-- What is buffered is not taken by anybody else. -/
theorem stays_filled {v : World} (hv : ∃ ms, v = s.world.run b ms)
    (htakings : v.takings = s.world.takings) (hfilled : s.world.source.progress.buffer ≠ []) :
    v.source.progress.buffer ≠ [] := by
  obtain ⟨ms, rfl⟩ := hv
  rw [(hs.grounds hw haccounts).2.buffer_of_untaken htakings]
  exact List.append_ne_nil_of_left_ne_nil hfilled _

/-- What happens while the reader takes no row and hears no answer. -/
theorem onward {v : World} (hv : ∃ ms, v = s.world.run b ms) (htakings : v.takings = s.world.takings)
    {pending : Option (Question × Nat)}
    (hpending : ∀ q n, pending = some (q, n) → s.cursor.finished = false ∧
      ∃ c, Calls { s with world := v, pending := pending } q n c ∧
        ∀ r, s.Told r → c = ⟨q.goal, .look⟩) :
    Sound b w { s with world := v, pending := pending } := by
  have hlater := hs.later hw haccounts hv
  refine ⟨hs.moves_trans hv, hs.plain, hpending, fun r hr => ?_, ?_⟩
  · have hforetold := hs.foretold r hr
    cases r with
    | true => exact ⟨hforetold.1, hs.stays_filled hw haccounts hv htakings hforetold.2⟩
    | false => exact hforetold.imp_right fun ⟨hbuffer, hcomplete⟩ => hlater.ended hbuffer hcomplete
  · obtain ⟨rowss, rows, htaken, hgives, hearlier⟩ := hs.taken
    refine ⟨rowss, rows, ?_, hgives.later hlater, Gives.later_all hearlier hlater⟩
    rw [← htaken]
    exact congrArg (List.map Prod.snd) htakings

theorem ask (q : Question) : Sound b w (s.ask q) := by
  cases hfinished : s.cursor.finished with
  | true =>
    rw [ask_of_finished hfinished]
    exact hs.answer_closed hfinished q
  | false =>
    rw [ask_of_open hfinished hs.plain]
    have hmoves : ∃ ms, (s.asked q).world = s.world.run b ms := by
      cases q
      · exact ⟨[.ask .one], rfl⟩
      · exact ⟨[.ask .exhausted], rfl⟩
    refine hs.onward hw haccounts hmoves rfl ?_
    rintro q' n ⟨⟩
    exact ⟨hfinished, _, s.calls_asked q, fun _ _ => rfl⟩

theorem answers (hopen : s.cursor.finished = false) {v : World} (hv : ∃ ms, v = s.world.run b ms)
    {r : Response} {rows : List Row} {finished : Bool}
    (hreply : Says s.world.source q r rows finished)
    (htakings : v.takings = s.world.takings ++ rows.map (n, ·)) :
    Sound b w ({ s with world := v, cursor.finished := finished }.answer r) := by
  have hlater := hs.later hw haccounts hv
  refine ⟨hs.moves_trans hv, hs.plain, nofun, fun r' hr' => ?_, ?_⟩
  · have hlast : some r = some (.hasNext (.ok r')) := List.getLast?_concat.symm.trans hr'
    cases hreply with
    | hasRow hbuffer =>
      cases hlast
      have hfilled : s.world.source.progress.buffer ≠ [] := by
        rw [hbuffer]
        exact List.cons_ne_nil _ _
      exact ⟨rfl, hs.stays_filled hw haccounts hv (htakings.trans (List.append_nil _)) hfilled⟩
    | hasNone hbuffer hcomplete =>
      cases hlast
      exact .inr (hlater.ended hbuffer hcomplete)
    | _ => cases hlast
  · obtain ⟨rowss, taken, htaken, hgives, hearlier⟩ := hs.taken
    rw [hopen] at hgives
    refine ⟨rowss, taken ++ rows, ?_, (hgives.respond hreply).later hlater,
      Gives.later_all hearlier hlater⟩
    show v.takings.map Prod.snd = _
    have hsame : s.world.takings.map Prod.snd = _ := htaken
    simp [htakings, hsame, Function.comp_def]

theorem step (hasRuntime : Bool) : Sound b w (s.step hasRuntime) := by
  cases hpending : s.pending with
  | none =>
    have hsame : s.step hasRuntime = s := by simp [Reader.step, hpending]
    rw [hsame]
    exact hs
  | some asked =>
    obtain ⟨q, n⟩ := asked
    obtain ⟨hopen, c, hcalls, hlook⟩ := hs.pending q n hpending
    obtain ⟨⟨k', hchain⟩, -⟩ := hs.grounds hw haccounts
    have hstepped := step_cases hchain.oneFetch hopen hcalls hasRuntime
    generalize s.step hasRuntime = t at hstepped
    cases hstepped with
    | goesOn hneeds hcalls' htakings =>
      refine hs.onward hw haccounts ⟨[.step n hasRuntime], rfl⟩ htakings fun q' n' h => ?_
      cases h.symm.trans hpending
      refine ⟨hopen, _, hcalls', fun r hr => ?_⟩
      -- a call that was made after such an answer is over with its first step
      obtain rfl := hlook r hr
      exact absurd (hneeds rfl) (not_dry_of_foretold (hs.foretold r hr) hopen)
    | answers hreply htakings =>
      exact hs.answers hw haccounts hopen ⟨[.step n hasRuntime, .deliver n], rfl⟩ hreply htakings

theorem giveUp : Sound b w s.giveUp := by
  cases hpending : s.pending with
  | none =>
    have hsame : s.giveUp = s := by simp [Reader.giveUp, hpending]
    rw [hsame]
    exact hs
  | some asked =>
    have heq : s.giveUp = { s with world := s.world.dropCall asked.2, pending := none } := by
      simp [Reader.giveUp, hpending]
    rw [heq]
    refine hs.onward hw haccounts ⟨[.drop asked.2], rfl⟩ ?_ nofun
    show (s.world.dropCall asked.2).takings = _
    rcases s.world.dropCall_cases asked.2 with e | ⟨c, -, e⟩ <;> rw [e]

theorem meanwhile (m : Move)
    (hcall : ∀ q n, s.pending = some (q, n) → (s.world.move b m).parties[n]? = s.world.parties[n]?)
    (hrows : (s.world.move b m).takings = s.world.takings) :
    Sound b w { s with world := s.world.move b m } := by
  have hmoves : ∃ ms, s.world.move b m = s.world.run b ms := ⟨[m], rfl⟩
  refine hs.onward hw haccounts hmoves hrows fun q n hpending => ?_
  obtain ⟨hopen, c, hcalls, hlook⟩ := hs.pending q n hpending
  exact ⟨hopen, c, hcalls.later (hcall q n hpending) (hs.later hw haccounts hmoves).size, hlook⟩

theorem act (hact : Act b s t) : Sound b w t := by
  cases hact with
  | ask q hfree => exact hs.ask hw haccounts q
  | step hasRuntime => exact hs.step hw haccounts hasRuntime
  | giveUp => exact hs.giveUp hw haccounts
  | renew hfree => exact hs.renew hfree
  | meanwhile m hcall hrows => exact hs.meanwhile hw haccounts m hcall hrows

end Grounded

end Sound

/-- Whatever the reader and the others do. -/
theorem sound_reads (hw : World.OnChain b front k w) (haccounts : w.Accounts)
    (hreads : Reads b (.start w) s) : Sound b w s := by
  induction hreads with
  | refl => exact .start b w
  | act _ hact ih => exact ih.act hw haccounts hact

end Reader

end ResultSet

end PagedTraversal
