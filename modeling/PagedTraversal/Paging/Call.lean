import PagedTraversal.Paging.Source

/-!
# PagedTraversal.Paging.Call

What a consumer asks of a source, as a sequence of the source's atomic steps. A call looks into the
buffer; while the buffer is dry and pages are left it requests the next page, waits on the handle,
and looks again. A call that prefetches first measures the buffer. Between two steps of a call
other parties may act on the source.
-/

namespace PagedTraversal

/-- What a call is after. A call for all rows holds those that it has drained so far. -/
inductive Goal where
  | one
  | all (drained : Array Row)
  | exhausted
  | settled

/-- What a call does next. -/
inductive Phase where
  | measure (threshold : Nat)
  | compare (threshold available : Nat)
  | prefetch
  | look
  | request
  | wait (h : Handle)
deriving DecidableEq

structure Call where
  goal : Goal
  phase : Phase

/-- What a call comes back with. -/
inductive Answer where
  | one (row : Option Row)
  | all (rows : List Row)
  | exhausted (b : Bool)
  | settled

/-- One step of a call: it goes on, cannot go on before its fetch has settled, or is over. -/
inductive Advance where
  | more (c : Call)
  | waiting (h : Handle)
  | done (result : Except FetchError Answer)

namespace Call

/-- The next row. -/
def one : Call := ⟨.one, .look⟩

/-- All rows that are left. -/
def all : Call := ⟨.all #[], .look⟩

/-- Whether no row is left. -/
def exhausted : Call := ⟨.exhausted, .look⟩

/-- The next page, waiting until it is there. -/
def fetch : Call := ⟨.settled, .request⟩

/-- The end of a fetch that was requested before. -/
def settle (h : Handle) : Call := ⟨.settled, .wait h⟩

/-- The next row; when no more rows than the threshold are buffered, the next page is requested
first. -/
def next : Option Nat → Call
  | none => one
  | some threshold => ⟨.one, .measure threshold⟩

/-- Goes on to another phase. -/
def goTo (c : Call) (phase : Phase) : Advance := .more { c with phase := phase }

/-- Looks for what the goal needs. -/
def look (c : Call) (s : Source) : Advance × Source :=
  match c.goal with
  | .one =>
    match s.takeRow with
    | (.found row, s) => (.done (.ok (.one (some row))), s)
    | (.finished, s) => (.done (.ok (.one none)), s)
    | (.dry, s) => (c.goTo .request, s)
  | .all drained =>
    match s.drain with
    | (rows, true, s) => (.done (.ok (.all (drained.toList ++ rows))), s)
    | (rows, false, s) => (.more ⟨.all (drained ++ rows), .request⟩, s)
  | .exhausted =>
    match s.peek with
    | .found () => (.done (.ok (.exhausted false)), s)
    | .finished => (.done (.ok (.exhausted true)), s)
    | .dry => (c.goTo .request, s)
  | .settled => (.done (.ok .settled), s)

/-- Performs the next step. -/
def step (hasRuntime : Bool) (c : Call) (s : Source) : Advance × Source :=
  match c.phase with
  | .measure threshold => (c.goTo (.compare threshold s.available), s)
  | .compare threshold available =>
    if available ≤ threshold && !s.progress.complete then
      (c.goTo .prefetch, s.log (.prefetchRequested available threshold))
    else (c.goTo .look, s)
  | .prefetch => (c.goTo .look, (s.request hasRuntime).2)
  | .look => c.look s
  | .request =>
    let (h, s) := s.request hasRuntime
    (c.goTo (.wait h), s)
  | .wait h =>
    match s.poll h with
    | (none, s) => (.waiting h, s)
    | (some (.ok ()), s) => (c.goTo .look, s)
    | (some (.error e), s) => (.done (.error e), s)

/-- Whether a step between two states of the source was the poll that settled the fetch that the call
waits on. -/
def settles (c : Call) (before after : Source) : Bool :=
  match c.phase with
  | .wait h => (before.seen? h).isNone && (after.seen? h).isSome
  | _ => false

end Call

end PagedTraversal
