import PagedTraversal.Proofs.Paging.Headway

/-!
# PagedTraversal.Proofs.ResultSet.Consumption

A consumer that takes the results of a traversal to their end. A plan says for each of its calls in
which way it asks: for the next result, for all that are left, or by one of its cursors, each of
which may request pages ahead. Between any two steps of the consumer the task of a fetch may do
steps of its own.

* `Consumption.receive_found`, `receive_ended`, `receive_all`: what the consumer makes of an answer.
* `Consumption.Sound`: the outcomes are those of the rows taken, whatever the ways.
-/

namespace PagedTraversal

namespace Row

/-- What a row yields: its graph value, or an error in its place. -/
def outcome (row : Row) : Except ResultError GraphValue := row.decode.mapError .decode

end Row

namespace ResultSet

theorem decodeRows_outcomes (rows : List Row) (s : Source) :
    (decodeRows s rows).1 = rows.map Row.decode := by
  induction rows generalizing s with
  | nil => rfl
  | cons row rest ih =>
    have hfirst : (decodeRow row s).1 = row.decode := by
      unfold decodeRow
      cases row.decode <;> rfl
    rw [decodeRows, List.map_cons, ← hfirst, ← ih (decodeRow row s).2]

/-- A way to ask for results. A cursor is known by its number; a stream is the cursor that it goes
over. -/
inductive Way where
  | one
  | all
  | next (i : Nat)

namespace Way

/-- What a call made in this way is after. -/
def kind : Way → Goal
  | all => .all #[]
  | _ => .one

theorem kind_cases (way : Way) : way.kind = .one ∨ way.kind = .all #[] := by
  cases way with
  | all => exact .inr rfl
  | _ => exact .inl rfl

end Way

inductive Status where
  | idle
  | asking (way : Way) (n : Nat)
  | ended

inductive Turn where
  | consumer
  | background

structure Consumption where
  world : World
  cursors : Nat → Cursor
  status : Status
  /-- What the consumer has got so far, in order. -/
  outcomes : List (Except ResultError GraphValue)

namespace Consumption

/-- Nothing has been taken, and each cursor has its threshold, if any. -/
def start (thresholds : Nat → Option Nat) (first : Option Page) : Consumption :=
  ⟨.start first, fun i => .start (thresholds i), .idle, []⟩

def begin (s : Consumption) (way : Way) (c : Call) : Consumption :=
  { s with
    world := { s.world with parties := s.world.parties ++ [.running c] }
    status := .asking way s.world.parties.length }

/-- Makes the next call of the plan. A finished cursor makes none, and is at the end. -/
def ask (plan : Nat → Way) (s : Consumption) : Consumption :=
  match plan s.world.parties.length with
  | .one => s.begin .one .one
  | .all => s.begin .all .all
  | .next i =>
    match (s.cursors i).nextCall? with
    | some c => s.begin (.next i) c
    | none => { s with status := .ended }

def take (s : Consumption) (outcome : Except ResultError GraphValue) : Consumption :=
  { s with outcomes := s.outcomes ++ [outcome], status := .idle }

def receive (s : Consumption) : Way → Except ResultError Delivery → Consumption
  | .one, .ok (.one (some v)) => s.take (.ok v)
  | .all, .ok (.all outcomes) =>
    { s with outcomes := s.outcomes ++ outcomes.map (Except.mapError .decode), status := .ended }
  | .next i, r =>
    let (item, cursor) := (s.cursors i).advance r
    let s := { s with cursors := fun j => if j = i then cursor else s.cursors j }
    match item with
    | .value v => s.take (.ok v)
    | .error e => s.take (.error e)
    | .ended => { s with status := .ended }
  | _, .ok _ => { s with status := .ended }
  | _, .error e => s.take (.error e)

/-- A step of the consumer: it makes a call, or performs the next step of the one that it has made
and receives the answer when that was the last. -/
def consume (b : Backend) (plan : Nat → Way) (s : Consumption) : Consumption :=
  match s.status with
  | .idle => s.ask plan
  | .asking way n =>
    let w := s.world.move b (.step n true)
    match w.parties[n]? with
    | some (.finished _ result) =>
      { s with world := w.move b (.deliver n) }.receive way (deliver result w.source).1
    | _ => { s with world := w }
  | .ended => s

def turn (b : Backend) (plan : Nat → Way) (s : Consumption) : Turn → Consumption
  | .consumer => s.consume b plan
  | .background => { s with world := s.world.tend b }

def after (b : Backend) (plan : Nat → Way) (turns : Nat → Turn) (s : Consumption) :
    Nat → Consumption
  | 0 => s
  | n + 1 => (s.after b plan turns n).turn b plan (turns n)

/-! ## What is received -/

/-- Whether a row decodes makes no difference to the way in which it is taken. -/
theorem receive_found (s : Consumption) {way : Way} (hway : way.kind = .one) (row : Row)
    (source : Source) :
    s.receive way (deliver (.ok (.one (some row))) source).1 = s.take row.outcome := by
  -- neither a value nor a row that does not decode finishes a cursor
  have hcursors : ∀ i, (fun j => if j = i then s.cursors i else s.cursors j) = s.cursors := by
    intro i
    funext j
    split
    · next e => rw [e]
    · rfl
  cases hdecode : row.decode with
  | ok v =>
    have hdeliver : (deliver (.ok (.one (some row))) source).1 = .ok (.one (some v)) := by
      simp only [deliver, decodeRow, hdecode]
    have houtcome : row.outcome = .ok v := by
      rw [Row.outcome, hdecode]
      rfl
    rw [hdeliver, houtcome]
    cases way with
    | one => rfl
    | all => cases hway
    | next i => simp [receive, Cursor.advance, take, hcursors]
  | error e =>
    have hdeliver : (deliver (.ok (.one (some row))) source).1 = .error (.decode e) := by
      simp only [deliver, decodeRow, hdecode]
    have houtcome : row.outcome = .error (.decode e) := by
      rw [Row.outcome, hdecode]
      rfl
    rw [hdeliver, houtcome]
    cases way with
    | one => rfl
    | all => cases hway
    | next i => simp [receive, Cursor.advance, ResultError.isFetch, take, hcursors]

theorem receive_ended (s : Consumption) {way : Way} (hway : way.kind = .one) (source : Source) :
    ∃ cursors, s.receive way (deliver (.ok (.one none)) source).1 =
      { s with cursors := cursors, status := .ended } := by
  cases way with
  | one => exact ⟨s.cursors, rfl⟩
  | all => cases hway
  | next i => exact ⟨_, rfl⟩

theorem receive_all (s : Consumption) (rows : List Row) (source : Source) :
    s.receive .all (deliver (.ok (.all rows)) source).1 =
      { s with outcomes := s.outcomes ++ rows.map Row.outcome, status := .ended } := by
  have hdeliver : (deliver (.ok (.all rows)) source).1 = .ok (.all (rows.map Row.decode)) := by
    rw [← decodeRows_outcomes rows source]
    rfl
  rw [hdeliver, receive, List.map_map]
  rfl

/-! ## What stands between two turns -/

/-- The outcomes are those of the rows taken, apart from the rows that a call for all of them still
holds. At the end all pages are there and nothing is buffered. -/
def Standing (s : Consumption) : Prop :=
  match s.status with
  | .idle => s.outcomes = s.world.takenRows.map Row.outcome
  | .asking way n => ∃ c, s.world.parties[n]? = some (.running c) ∧ c.goal.kind = way.kind ∧
      c.WaitsOn s.world.source ∧
      s.outcomes ++ c.held.map Row.outcome = s.world.takenRows.map Row.outcome
  | .ended => s.outcomes = s.world.takenRows.map Row.outcome ∧
      s.world.source.progress.buffer = [] ∧ s.world.source.progress.complete = true

structure Sound (b : Backend) (front : List Page) (s : Consumption) : Prop where
  unfailing : s.world.Unfailing b front
  standing : s.Standing
  unfinished : s.status ≠ .ended → ∀ i, (s.cursors i).finished = false

/-- How far the consumer is from a point where it waits, or from the end. -/
def rank (s : Consumption) : Nat :=
  match s.status with
  | .idle => 8
  | .asking _ n =>
    match s.world.parties[n]? with
    | some (.running c) => c.rank s.world.source
    | _ => 0
  | .ended => 0

/-- What is left to do when `N` calls bring all pages: steps of fetches, rows to take, and steps of
the consumer. A fetch that returns gives a call three steps more at most, and a row that is taken
brings the consumer back from rank 4 to rank 8. -/
def todo (b : Backend) (front : List Page) (N : Nat) (s : Consumption) : Nat :=
  4 * s.world.source.fetchSteps N +
    5 * (((b.pagesAfter front N).flatMap Page.rows).length - s.world.takenRows.length) + s.rank

end Consumption

end ResultSet

end PagedTraversal
