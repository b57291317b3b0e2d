import PagedTraversal.Paging.Event

/-!
# PagedTraversal.Paging.Source

The state that all consumers of one traversal share: the buffer of fetched rows, how far the pages
have come, and the fetches behind the handles that were given out. Each operation below is one
atomic step. Whoever consumes, prefetches or fetches does so by a sequence of these steps, and
steps of different parties may come in any order.

At most one fetch is in flight. The slot that holds it is filled when a fetch is started and
emptied when the fetch returns. A fetch that crashes does not empty it: that is left to whoever
polls its handle first.
-/

namespace PagedTraversal

/-- How far the pages have come. -/
structure Progress where
  /-- The rows that were fetched and not yet handed out, in order. -/
  buffer : List Row
  /-- What the next fetch asks for; nothing before the first page. -/
  next : Option PageToken
  /-- Whether a page without a token has been applied. -/
  complete : Bool
  /-- The number of pages applied. -/
  pages : Nat
  /-- One report for each page applied, in order. -/
  infos : Array PageInfo

namespace Progress

def initial : Progress := ⟨[], none, false, 0, #[]⟩

/-- Takes in a page: its rows go behind the buffered ones, and its own token replaces the one in
its report. -/
def apply (p : Progress) (page : Page) : Progress where
  buffer := p.buffer ++ page.rows
  next := page.next
  complete := page.isLast
  pages := p.pages + 1
  infos := p.infos.push { page.info with next := page.next }

end Progress

/-- How a fetch ends for those who wait on it. -/
abbrev Settlement := Except FetchError Unit

/-- What a call for a page is answered with. A crash takes the task down with it. -/
inductive Reply where
  | page (p : Page)
  | failure (e : FetchError)
  | crash

/-- How far the task of a fetch has come. A call is known by its place among all calls. -/
inductive Stage where
  | queued
  | calling (call : Nat)
  | returned (settlement : Settlement)
  | crashed

/-- A fetch as seen through its handles. -/
structure Fetch where
  /-- The number of pages that had been applied when the fetch was started. -/
  page : Nat
  /-- What the fetch asks for. -/
  token : Option PageToken
  stage : Stage
  /-- What a poll of a handle has found out. -/
  seen : Option Settlement

/-- A handle names a fetch by its place among all fetches. -/
abbrev Handle := Nat

structure Source where
  progress : Progress
  inFlight : Option Handle
  fetches : Array Fetch
  /-- What each call so far has asked for, in order. -/
  calls : Array (Option PageToken)
  journal : Array Event

/-- What the buffer offers without waiting. -/
inductive Offer (α : Type) where
  | found (a : α)
  | finished
  | dry

namespace Source

/-- Nothing has been fetched yet. -/
def initial : Source := ⟨.initial, none, #[], #[], #[]⟩

/-- The first page came with the start of the traversal. -/
def ofFirstPage (page : Page) : Source := { initial with progress := Progress.initial.apply page }

def log (s : Source) (e : Event) : Source := { s with journal := s.journal.push e }

/-- The number of rows that can be handed out without a fetch. -/
def available (s : Source) : Nat := s.progress.buffer.length

/-- The report on the page that was applied last. -/
def lastInfo? (s : Source) : Option PageInfo := s.progress.infos.back?

/-- What there is to say about an empty buffer. -/
def whenEmpty {α : Type} (s : Source) : Offer α := if s.progress.complete then .finished else .dry

/-- Takes the first row out of the buffer. -/
def takeRow (s : Source) : Offer Row × Source :=
  match s.progress.buffer with
  | row :: rest => (.found row, { s with progress := { s.progress with buffer := rest } })
  | [] => (s.whenEmpty, s)

/-- Takes all rows out of the buffer, and says whether there will be no more. -/
def drain (s : Source) : List Row × Bool × Source :=
  (s.progress.buffer, s.progress.complete, { s with progress := { s.progress with buffer := [] } })

/-- Looks whether there is a row, and leaves it there. -/
def peek (s : Source) : Offer Unit :=
  match s.progress.buffer with
  | _ :: _ => .found ()
  | [] => s.whenEmpty

/-- Gives out a handle on a new fetch. -/
def addFetch (s : Source) (f : Fetch) : Handle × Source :=
  (s.fetches.size, { s with fetches := s.fetches.push f })

/-- A fetch that has returned before it began. -/
def settledFetch (s : Source) (settlement : Settlement) : Fetch :=
  ⟨s.progress.pages, s.progress.next, .returned settlement, none⟩

/-- Asks for the next page: joins the fetch in flight or starts one. When all pages are there, or
nothing could run the fetch, the handle is on a fetch of its own that has returned already. -/
def request (hasRuntime : Bool) (s : Source) : Handle × Source :=
  if s.progress.complete then s.addFetch (s.settledFetch (.ok ()))
  else
    match s.inFlight with
    | some h => (h, s.log (.fetchJoined s.progress.pages))
    | none =>
      if hasRuntime then
        let (h, s) := s.addFetch ⟨s.progress.pages, s.progress.next, .queued, none⟩
        (h, { s with inFlight := some h }.log (.fetchStarted s.progress.pages))
      else s.addFetch (s.settledFetch (.error .noRuntime))

def setStage (s : Source) (h : Handle) (stage : Stage) : Source :=
  { s with fetches := s.fetches.modify h fun f => { f with stage := stage } }

/-- The task of a fetch makes its call. -/
def beginCall (h : Handle) (s : Source) : Source :=
  match s.fetches[h]? with
  | some ⟨_, token, .queued, _⟩ =>
    let n := s.calls.size
    { s with calls := s.calls.push token }.setStage h (.calling n)
  | _ => s

/-- The call of a fetch is answered, and its task ends. A page is applied and an error changes
nothing; both empty the slot. -/
def endCall (h : Handle) (reply : Reply) (s : Source) : Source :=
  match s.fetches[h]? with
  | some ⟨page, _, .calling _, _⟩ =>
    match reply with
    | .page p =>
      let done := Event.fetchCompleted page p.rows.length p.isLast p.info.host
      { s with inFlight := none, progress := s.progress.apply p }.log done
        |>.setStage h (.returned (.ok ()))
    | .failure e =>
      { s with inFlight := none }.log (.fetchFailed page e) |>.setStage h (.returned (.error e))
    | .crash => s.setStage h .crashed
  | _ => s

def setSeen (s : Source) (h : Handle) (settlement : Settlement) : Source :=
  { s with fetches := s.fetches.modify h fun f => { f with seen := some settlement } }

/-- Polls a handle. The first poll after the end of the fetch makes its settlement known to all
clones of the handle; if the task crashed, it also empties the slot. -/
def poll (h : Handle) (s : Source) : Option Settlement × Source :=
  match s.fetches[h]? with
  | none => (none, s)
  | some ⟨_, _, _, some settlement⟩ => (some settlement, s)
  | some ⟨page, _, stage, none⟩ =>
    match stage with
    | .returned settlement => (some settlement, s.setSeen h settlement)
    | .crashed =>
      let settlement := Except.error .taskCrashed
      (some settlement, { s with inFlight := none }.log (.fetchAborted page) |>.setSeen h settlement)
    | _ => (none, s)

/-- What is known through a handle without polling it. -/
def seen? (s : Source) (h : Handle) : Option Settlement := s.fetches[h]?.bind Fetch.seen

/-! ## What the steps do to the progress -/

theorem progress_request (hasRuntime : Bool) (s : Source) :
    (s.request hasRuntime).2.progress = s.progress := by
  simp only [request]
  split
  · rfl
  · split
    · rfl
    · split <;> rfl

theorem progress_beginCall (h : Handle) (s : Source) : (s.beginCall h).progress = s.progress := by
  simp only [beginCall]
  split <;> rfl

/-- A page is the only reply that moves the pages on. -/
theorem progress_endCall_of_no_page (h : Handle) (reply : Reply) (s : Source)
    (hreply : ∀ p, reply ≠ .page p) : (s.endCall h reply).progress = s.progress := by
  simp only [endCall]
  split
  · cases reply with
    | page p => exact absurd rfl (hreply p)
    | failure e => rfl
    | crash => rfl
  · rfl

theorem progress_poll (h : Handle) (s : Source) : (s.poll h).2.progress = s.progress := by
  simp only [poll]
  split
  · rfl
  · rfl
  · split <;> rfl

end Source

end PagedTraversal
