import PagedTraversal.Graph.Access
import PagedTraversal.Paging.Call

/-!
# PagedTraversal.ResultSet

The results of a traversal: what a source hands out, row by row, as graph values. A row that does
not decode is consumed like any other and does not touch its neighbours; a failed fetch is an error
of its own kind. A cursor goes over the results once and ends after the first failed fetch.
-/

namespace PagedTraversal

/-- Why a result could not be had. -/
inductive ResultError where
  | decode (e : DecodeError)
  | fetch (e : FetchError)
  | unsupported (operation : String)
deriving DecidableEq

namespace ResultError

def isFetch : ResultError → Bool
  | fetch _ => true
  | _ => false

/-- The text of an error, unless it comes from a task that crashed. -/
def message? : ResultError → Option String
  | decode e => some e.message
  | fetch e => e.message?.map ("Fetch error: " ++ ·)
  | unsupported operation => some ("Unsupported operation: " ++ operation)

end ResultError

namespace ResultSet

/-- Where the consumption of a result set stands. -/
inductive State where
  | ready
  | awaitingFetch
  | exhausted
deriving DecidableEq

def State.name : State → String
  | ready => "ready"
  | awaitingFetch => "awaiting-fetch"
  | exhausted => "exhausted"

/-- The state that follows from two readings of a source, the second of which is only asked for
when nothing is available. -/
def State.ofReadings (available : Nat) (complete : Bool) : State :=
  if 0 < available then ready else if complete then exhausted else awaitingFetch

def state (s : Source) : State := .ofReadings s.available s.progress.complete

/-- The text that describes a result set. -/
def describe (s : Source) : String :=
  "GraphResultSet \x7b available: " ++ Nat.repr s.available ++ ", fully_fetched: " ++
    (if s.progress.complete then "true" else "false") ++ " \x7d"

/-- The text that describes a handle. -/
def describeHandle (s : Source) (h : Handle) : String :=
  "FetchHandle \x7b complete: " ++ (if (s.seen? h).isSome then "true" else "false") ++ " \x7d"

/-- Decodes a row, and reports the kind of what it holds. -/
def decodeRow (row : Row) (s : Source) : Except DecodeError GraphValue × Source :=
  match row.decode with
  | .ok v => (.ok v, s.log (.rowDecoded v.kind))
  | .error e => (.error e, s)

def decodeRows (s : Source) : List Row → List (Except DecodeError GraphValue) × Source
  | [] => ([], s)
  | row :: rest =>
    let (outcome, s) := decodeRow row s
    let (outcomes, s) := decodeRows s rest
    (outcome :: outcomes, s)

/-- What the consumer of a result set comes back with. -/
inductive Delivery where
  | one (value : Option GraphValue)
  | all (outcomes : List (Except DecodeError GraphValue))
  | exhausted (b : Bool)
  | settled

/-- Decodes the rows of an answer. One row that does not decode is the error of its call; among
all rows it stays in its place. -/
def deliver (answer : Except FetchError Answer) (s : Source) :
    Except ResultError Delivery × Source :=
  match answer with
  | .error e => (.error (.fetch e), s)
  | .ok (.one none) => (.ok (.one none), s)
  | .ok (.one (some row)) =>
    match decodeRow row s with
    | (.ok v, s) => (.ok (.one (some v)), s)
    | (.error e, s) => (.error (.decode e), s)
  | .ok (.all rows) =>
    let (outcomes, s) := decodeRows s rows
    (.ok (.all outcomes), s)
  | .ok (.exhausted b) => (.ok (.exhausted b), s)
  | .ok .settled => (.ok .settled, s)

end ResultSet

/-- A single pass over the results. With a threshold it requests pages ahead. -/
structure Cursor where
  threshold : Option Nat
  finished : Bool

/-- What a cursor yields: a result, an error in its place, or the end. -/
inductive Item where
  | value (v : GraphValue)
  | error (e : ResultError)
  | ended

namespace Cursor

def start (threshold : Option Nat) : Cursor := ⟨threshold, false⟩

/-- The call for the next item; a finished cursor makes none. -/
def nextCall? (c : Cursor) : Option Call := if c.finished then none else some (.next c.threshold)

/-- The call that finds out whether there is a next item; a finished cursor makes none. -/
def hasNextCall? (c : Cursor) : Option Call := if c.finished then none else some .exhausted

/-- The item of a delivery. The end and a failed fetch finish the cursor. -/
def advance (c : Cursor) : Except ResultError ResultSet.Delivery → Item × Cursor
  | .ok (.one (some v)) => (.value v, c)
  | .ok _ => (.ended, { c with finished := true })
  | .error e => (.error e, { c with finished := c.finished || e.isFetch })

/-- Whether there is a next item, from what the call that finds it out has come back with. It leaves
the cursor as it is, a failed fetch included. -/
def hasNextOf : Except ResultError ResultSet.Delivery → Except ResultError Bool
  | .ok (.exhausted b) => .ok (!b)
  | .ok _ => .ok false
  | .error e => .error e

/-- Results cannot be removed. -/
def remove (_ : Cursor) : ResultError := .unsupported "remove on a graph result set cursor"

end Cursor

end PagedTraversal
