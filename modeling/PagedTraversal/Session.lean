import PagedTraversal.Paging.Scheduler

/-!
# PagedTraversal.Session

A session with one result set: the handles, cursors, streams and background consumers that were
made so far, each known by its number, and what can be asked of them. Whatever has to wait and is
blocked answers `none`. A blocked call is given up, save that a stream keeps the one for its next
item and resumes it.
-/

namespace PagedTraversal

/-- A stream of results: a cursor and the call for its next item, if one is pending. -/
structure Stream where
  cursor : Cursor
  pending : Option Pending

structure Session where
  scheduler : Scheduler
  handles : Array Handle
  cursors : Array Cursor
  streams : Array Stream

/-- What joining a background consumer finds. -/
inductive Joined where
  | result (r : Except ResultError ResultSet.Delivery)
  | blocked
  | already

namespace Session

def start (scheduler : Scheduler) : Session := ⟨scheduler, #[], #[], #[]⟩

def source (s : Session) : Source := s.scheduler.source

/-- Does something with the scheduler of a session. -/
def act {α : Type} (s : Session) (f : Scheduler → α × Scheduler) : α × Session :=
  let ⟨scheduler, handles, cursors, streams⟩ := s
  let (a, scheduler) := f scheduler
  (a, ⟨scheduler, handles, cursors, streams⟩)

/-- Makes a call for results. -/
def obtain (s : Session) (c : Call) : Option (Except ResultError ResultSet.Delivery) × Session :=
  s.act (·.obtain c)

/-- Makes a call for rows as they arrived. -/
def obtainRows (s : Session) (c : Call) : Option (Except FetchError Answer) × Session :=
  s.act (·.perform c)

/-- Requests the next page without waiting, and keeps the handle. Also gives the number of the
first handle that was kept on the same fetch. -/
def fetch (s : Session) : Handle × Option Nat × Session :=
  let (h, s) := s.act fun scheduler => scheduler.act (·.request scheduler.hasRuntime)
  (h, s.handles.findIdx? (· == h), { s with handles := s.handles.push h })

/-- Waits on a fetch. -/
def settle (s : Session) (h : Handle) : Option Settlement × Session :=
  match s.obtainRows (.settle h) with
  | (some (.ok _), s) => (some (.ok ()), s)
  | (some (.error e), s) => (some (.error e), s)
  | (none, s) => (none, s)

/-- Polls a handle once, without waiting. -/
def poll (s : Session) (h : Handle) : Option Settlement × Session :=
  s.act fun scheduler => scheduler.act (·.poll h)

/-- Lets the background run until it comes to rest. -/
def run (s : Session) : Session := { s with scheduler := s.scheduler.run }

def permit (s : Session) (n : Nat) : Session := { s with scheduler := s.scheduler.permit n }

def openCursor (s : Session) : Nat × Session :=
  (s.cursors.size, { s with cursors := s.cursors.push (.start none) })

/-- The next item of a cursor. -/
def next (s : Session) (n : Nat) : Option Item × Session :=
  let cursor := s.cursors[n]?.getD ⟨none, true⟩
  match cursor.nextCall? with
  | none => (some .ended, s)
  | some call =>
    match s.obtain call with
    | (none, s) => (none, s)
    | (some delivery, s) =>
      let (item, cursor) := cursor.advance delivery
      (some item, { s with cursors := s.cursors.setIfInBounds n cursor })

/-- Whether a cursor has a next item. -/
def hasNext (s : Session) (n : Nat) : Option (Except ResultError Bool) × Session :=
  let cursor := s.cursors[n]?.getD ⟨none, true⟩
  match cursor.hasNextCall? with
  | none => (some (.ok false), s)
  | some call =>
    match s.obtain call with
    | (none, s) => (none, s)
    | (some delivery, s) => (some (Cursor.hasNextOf delivery), s)

def openStream (s : Session) (threshold : Option Nat) : Nat × Session :=
  (s.streams.size, { s with streams := s.streams.push ⟨.start threshold, none⟩ })

/-- Pursues the next item of a stream. -/
def pursueStream (stream : Stream) (p : Pending) (s : Scheduler) :
    (Option Item × Stream) × Scheduler :=
  match s.resume p with
  | (.blocked p, s) => ((none, { stream with pending := some p }), s)
  | (.done result, s) =>
    let (delivery, s) := s.deliver result
    let (item, cursor) := stream.cursor.advance delivery
    ((some item, ⟨cursor, none⟩), s)

/-- The next item of a stream, or of the call for it that is pending. -/
def streamNext (s : Session) (n : Nat) : Option Item × Session :=
  let stream := s.streams[n]?.getD ⟨⟨none, true⟩, none⟩
  let pending : Option Pending :=
    match stream.pending with
    | some p => some p
    | none => stream.cursor.nextCall?.map fun c => ⟨c, none⟩
  match pending with
  | none => (some .ended, s)
  | some p =>
    let ((item, stream), s) := s.act (pursueStream stream p)
    (item, { s with streams := s.streams.setIfInBounds n stream })

/-- Up to the given number of further items of a stream, to its end. -/
def streamItems (n : Nat) : Nat → Session → Option (List Item) × Session
  | 0, s => (some [], s)
  | fuel + 1, s =>
    match s.streamNext n with
    | (none, s) => (none, s)
    | (some .ended, s) => (some [], s)
    | (some item, s) =>
      match streamItems n fuel s with
      | (some items, s) => (some (item :: items), s)
      | (none, s) => (none, s)

/-- All further items of a stream. There are no more of them than rows, and one failed fetch. -/
def streamRest (s : Session) (n : Nat) : Option (List Item) × Session :=
  streamItems n (s.source.available + s.scheduler.backend.extent + 2) s

def spawn (s : Session) (c : Call) : Nat × Session :=
  let (n, scheduler) := s.scheduler.spawn c
  (n, { s with scheduler := scheduler })

/-- Takes the result of a consumer, which can be had once, after the background has run. -/
def join (s : Session) (n : Nat) : Joined × Session :=
  match s.scheduler.tasks[n]? with
  | some .joined => (.already, s)
  | _ =>
    let s := s.run
    match s.scheduler.tasks[n]? with
    | some (.finished r) =>
      (.result r, (s.act fun scheduler => ((), scheduler.setTask n .joined)).2)
    | some .joined => (.already, s)
    | _ => (.blocked, s)

end Session

end PagedTraversal
