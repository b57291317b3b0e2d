import PagedTraversal.Page

/-!
# PagedTraversal.Paging.Event

What is reported while rows are fetched, consumed and decoded. An event names what happened; its
level, message and fields say how it is written.
-/

namespace PagedTraversal

/-- The page of a fetch is the number of pages that had been fetched when it was started. -/
inductive Event where
  | fetchStarted (page : Nat)
  | fetchJoined (page : Nat)
  | fetchCompleted (page rows : Nat) (last : Bool) (host : Option String)
  | fetchFailed (page : Nat) (error : FetchError)
  | fetchAborted (page : Nat)
  | rowDecoded (kind : Kind)
  | prefetchRequested (available threshold : Nat)
deriving DecidableEq

namespace Event

/-- How much an event matters. -/
inductive Level where
  | trace
  | debug
  | warn
deriving DecidableEq

def Level.name : Level → String
  | trace => "TRACE"
  | debug => "DEBUG"
  | warn => "WARN"

def level : Event → Level
  | fetchStarted _ => .debug
  | fetchJoined _ => .debug
  | fetchCompleted _ _ _ _ => .debug
  | fetchFailed _ _ => .warn
  | fetchAborted _ => .warn
  | rowDecoded _ => .trace
  | prefetchRequested _ _ => .trace

def message : Event → String
  | fetchStarted _ => "starting page fetch"
  | fetchJoined _ => "fetch already in progress, joining it"
  | fetchCompleted _ _ _ _ => "page fetch completed"
  | fetchFailed _ _ => "page fetch failed"
  | fetchAborted _ => "page fetch task aborted"
  | rowDecoded _ => "decoded row"
  | prefetchRequested _ _ => "requesting next page ahead of consumption"

/-- The named texts that go with an event. -/
def fields : Event → List (String × String)
  | fetchStarted page => [("page", Nat.repr page)]
  | fetchJoined page => [("page", Nat.repr page)]
  | fetchCompleted page rows last host =>
    [("page", Nat.repr page), ("rows", Nat.repr rows), ("last", if last then "true" else "false"),
      ("host", host.getD "unknown")]
  | fetchFailed page error => [("page", Nat.repr page), ("error", error.message?.getD "")]
  | fetchAborted page => [("page", Nat.repr page)]
  | rowDecoded kind => [("kind", kind.name)]
  | prefetchRequested available threshold =>
    [("available", Nat.repr available), ("threshold", Nat.repr threshold)]

end Event

end PagedTraversal
