import PagedTraversal.Paging.Backend
import PagedTraversal.ResultSet

/-!
# PagedTraversal.Paging.Scheduler

One thread that runs the fetches and the consumers in the background. Jobs wait in a queue, first
in, first out, and the job in front runs until it has to wait. A call made from outside lets the
background run only while it waits on a fetch; it goes on when the background has come to rest, and
is blocked if its fetch has not settled by then.

The end of a fetch wakes the tasks that wait on it, in the order of their seats. The first poll after
the end settles the fetch for all, and also wakes the task that makes it. If that task has to wait
again, it is in the queue already when its next fetch ends, ahead of the other tasks that wait on it.
-/

namespace PagedTraversal

/-- Who waits on a fetch: the caller outside, or a task. -/
inductive Waiter where
  | caller
  | task (n : Nat)
deriving DecidableEq

/-- Those who wait on one fetch, by the number of their seat. The seat vacated last is the first to
be taken again, and the end of the fetch wakes the seats in their order. -/
structure WaitingRoom where
  seats : List (Option Waiter)
  vacated : List Nat

namespace WaitingRoom

def empty : WaitingRoom := ⟨[], []⟩

/-- Takes a seat, and gives its number. -/
def enter (r : WaitingRoom) (w : Waiter) : Nat × WaitingRoom :=
  match r.vacated with
  | seat :: rest => (seat, ⟨r.seats.set seat (some w), rest⟩)
  | [] => (r.seats.length, ⟨r.seats ++ [some w], []⟩)

def leave (r : WaitingRoom) (seat : Nat) : WaitingRoom :=
  ⟨r.seats.set seat none, seat :: r.vacated⟩

/-- The tasks in the order of their seats. -/
def tasks (r : WaitingRoom) : List Nat :=
  r.seats.filterMap fun
    | some (.task n) => some n
    | _ => none

end WaitingRoom

/-- What can run in the background: the task of a fetch from its start, or from where it has its
permit; or a consumer. -/
inductive Job where
  | fetch (h : Handle)
  | permitted (h : Handle)
  | task (n : Nat)
deriving DecidableEq

/-- A consumer in the background. One that was woken while it ran goes back to the queue when it has
to wait. -/
inductive Task where
  | running (c : Call) (woken : Bool)
  | finished (result : Except ResultError ResultSet.Delivery)
  | joined

structure Scheduler where
  source : Source
  backend : Backend
  /-- Without a runtime no fetch can be started. -/
  hasRuntime : Bool
  /-- The permits at the gate in front of the backend, if there is a gate. -/
  gate : Option Nat
  /-- The fetch that waits for a permit. -/
  atGate : Option Handle
  queue : List Job
  tasks : Array Task
  rooms : List (Handle × WaitingRoom)

/-- A call that waits, with its seat once it has taken one. -/
structure Pending where
  call : Call
  seat : Option (Handle × Nat)

inductive Attempt where
  | done (result : Except FetchError Answer)
  | blocked (p : Pending)

namespace Scheduler

def start (source : Source) (backend : Backend) (hasRuntime gated : Bool) : Scheduler :=
  ⟨source, backend, hasRuntime, if gated then some 0 else none, none, [], #[], []⟩

def enqueue (s : Scheduler) (jobs : List Job) : Scheduler := { s with queue := s.queue ++ jobs }

/-- The queue with the fetch that was started last behind it, unless that has begun its call or
is in the queue already. -/
def enlist (source : Source) (queue : List Job) : List Job :=
  let h := source.fetches.size - 1
  match source.fetches[h]? with
  | some ⟨_, _, .queued, _⟩ => if queue.contains (.fetch h) then queue else queue ++ [.fetch h]
  | _ => queue

/-- Performs a step of the source. A fetch that the step has started goes to the queue. -/
def act {α : Type} (s : Scheduler) (step : Source → α × Source) : α × Scheduler :=
  let ⟨source, backend, hasRuntime, gate, atGate, queue, tasks, rooms⟩ := s
  let (a, source) := step source
  (a, ⟨source, backend, hasRuntime, gate, atGate, enlist source queue, tasks, rooms⟩)

/-- Performs a step of the source that has no outcome of its own. -/
def change (s : Scheduler) (step : Source → Source) : Scheduler :=
  (s.act fun source => ((), step source)).2

def enter (s : Scheduler) (h : Handle) (w : Waiter) : Nat × Scheduler :=
  let room := (s.rooms.lookup h).getD .empty
  let (seat, room) := room.enter w
  (seat, { s with rooms := (h, room) :: s.rooms.filter fun r => r.1 != h })

def leave (s : Scheduler) (h : Handle) (seat : Nat) : Scheduler :=
  { s with rooms := s.rooms.map fun r => if r.1 = h then (h, r.2.leave seat) else r }

/-- Wakes the tasks that wait on a fetch and closes its room. A task in the queue keeps its place. -/
def wake (s : Scheduler) (h : Handle) : Scheduler :=
  let woken := ((s.rooms.lookup h).getD .empty).tasks.map Job.task
  { s with rooms := s.rooms.filter fun r => r.1 != h }.enqueue
    (woken.filter fun job => !s.queue.contains job)

/-- Lets the backend answer the call of a fetch, which ends the fetch. -/
def serve (s : Scheduler) (h : Handle) : Scheduler :=
  match s.source.fetches[h]? with
  | some ⟨_, token, .calling n, _⟩ =>
    let reply := s.backend.answer n token
    (s.change (·.endCall h reply)).wake h
  | _ => s

/-- Begins the call of a fetch, which has to pass the gate before it is answered. -/
def callBackend (s : Scheduler) (h : Handle) : Scheduler :=
  let s := s.change (·.beginCall h)
  match s.gate with
  | none => s.serve h
  | some 0 => { s with atGate := some h }
  | some (permits + 1) => { s with gate := some permits }.serve h

/-- Adds permits. A fetch at the gate takes the first one and goes to the queue with it. -/
def permit (s : Scheduler) (n : Nat) : Scheduler :=
  match s.gate with
  | none => s
  | some permits =>
    match s.atGate, permits + n with
    | some h, left + 1 => { s with gate := some left, atGate := none }.enqueue [.permitted h]
    | _, total => { s with gate := some total }

/-- Decodes what a call has come back with. -/
def deliver (s : Scheduler) (result : Except FetchError Answer) :
    Except ResultError ResultSet.Delivery × Scheduler :=
  s.act (ResultSet.deliver result)

def setTask (s : Scheduler) (n : Nat) (t : Task) : Scheduler :=
  { s with tasks := s.tasks.setIfInBounds n t }

/-- Lets a task wait on a fetch. It keeps the seat that it has; if it was woken while it ran, it is
also put into the queue. -/
def suspend (s : Scheduler) (n : Nat) (c : Call) (woken : Bool) (h : Handle) : Scheduler :=
  let seated := ((s.rooms.lookup h).getD .empty).tasks.contains n
  let s := if seated then s else (s.enter h (.task n)).2
  let s := s.setTask n (.running c false)
  if woken then s.enqueue [.task n] else s

/-- Performs one step of a task that runs. It stays in front of the queue while it goes on. The poll
that settles a fetch wakes the task that makes it. -/
def stepTask (s : Scheduler) (n : Nat) : Scheduler :=
  match s.tasks[n]? with
  | some (.running c woken) =>
    let before := s.source
    match s.act (c.step s.hasRuntime) with
    | (.more next, s) =>
      let woken := woken || c.settles before s.source
      { s with queue := .task n :: s.queue }.setTask n (.running next woken)
    | (.waiting h, s) => s.suspend n c woken h
    | (.done result, s) =>
      let (delivery, s) := s.deliver result
      s.setTask n (.finished delivery)
  | _ => s

/-- Runs one step of the job in front. With an empty queue the background is at rest. -/
def step (s : Scheduler) : Scheduler :=
  match s.queue with
  | [] => s
  | .fetch h :: rest => { s with queue := rest }.callBackend h
  | .permitted h :: rest => { s with queue := rest }.serve h
  | .task n :: rest => { s with queue := rest }.stepTask n

/-- Runs until the background is at rest. -/
def runFor : Nat → Scheduler → Scheduler
  | 0, s => s
  | fuel + 1, s => if s.queue.isEmpty then s else runFor fuel s.step

/-- More steps than can pass before the background comes to rest: each page is called for, served,
and looked at by every task, which may be woken twice for it, and each task ends at the first
error. -/
def stepBound (s : Scheduler) : Nat :=
  8 * (s.backend.extent + s.tasks.size + 2) * (s.tasks.size + 2) + s.queue.length

def run (s : Scheduler) : Scheduler := s.runFor s.stepBound

/-- Pursues a call from outside. When it has to wait, the background runs first, unless it is at
rest since the call last moved. -/
def pursueFor : Nat → Bool → Pending → Scheduler → Attempt × Scheduler
  | 0, _, p, s => (.blocked p, s)
  | fuel + 1, atRest, p, s =>
    match s.act (p.call.step s.hasRuntime) with
    | (.more c, s) => pursueFor fuel false ⟨c, none⟩ s
    | (.done result, s) => (.done result, s)
    | (.waiting h, s) =>
      let (p, s) : Pending × Scheduler :=
        match p.seat with
        | some _ => (p, s)
        | none =>
          let (seat, s) := s.enter h .caller
          ({ p with seat := some (h, seat) }, s)
      if atRest then (.blocked p, s) else pursueFor fuel true p s.run

/-- Pursues a pending call, which stays pending if it is blocked. -/
def resume (s : Scheduler) (p : Pending) : Attempt × Scheduler :=
  pursueFor (8 * (s.backend.extent + 4)) false p s

/-- Gives up a pending call. -/
def abandon (s : Scheduler) (p : Pending) : Scheduler :=
  match p.seat with
  | some (h, seat) => s.leave h seat
  | none => s

/-- Makes a call, which is given up if it is blocked. -/
def perform (s : Scheduler) (c : Call) : Option (Except FetchError Answer) × Scheduler :=
  match s.resume ⟨c, none⟩ with
  | (.done result, s) => (some result, s)
  | (.blocked p, s) => (none, s.abandon p)

/-- Makes a call for results. -/
def obtain (s : Scheduler) (c : Call) :
    Option (Except ResultError ResultSet.Delivery) × Scheduler :=
  match s.perform c with
  | (some result, s) =>
    let (delivery, s) := s.deliver result
    (some delivery, s)
  | (none, s) => (none, s)

/-- Puts a consumer into the background. -/
def spawn (s : Scheduler) (c : Call) : Nat × Scheduler :=
  (s.tasks.size, { s with tasks := s.tasks.push (.running c false) }.enqueue [.task s.tasks.size])

end Scheduler

end PagedTraversal
