import PagedTraversal.Json.Printer
import PagedTraversal.Pager.Arguments
import PagedTraversal.Session

/-!
# PagedTraversal.Pager.Report

A run of the pager: vertex rows are made as texts and read, served from memory in pages, and
consumed through a stream that requests pages ahead. The report counts what came out and what it
took.
-/

namespace PagedTraversal

namespace Pager

/-- The random parts of a row. -/
structure Draw where
  label : String
  name : String
  age : UInt64

namespace Draw

def labels : List String := ["person", "software", "company"]

def names : List String := ["marko", "vadas", "josh", "peter", "lop", "ripple"]

/-- One step of a linear congruential generator. -/
def nextSeed (seed : UInt64) : UInt64 := seed * 6364136223846793005 + 1442695040888963407

/-- A number below a bound, from the upper half of a seed. -/
def below (seed : UInt64) (bound : Nat) : Nat := seed.toNat / 4294967296 % bound

def ofSeed (seed : UInt64) : Draw :=
  let first := nextSeed seed
  let second := nextSeed first
  let third := nextSeed second
  ⟨labels.getD (below first 3) "person", names.getD (below second 6) "marko",
    UInt64.ofNat (18 + below third 62)⟩

/-- The draws for the given number of rows. -/
def sequence (count : Nat) (seed : UInt64) : List Draw :=
  (List.range count).map fun i => ofSeed (nextSeed seed + UInt64.ofNat i)

end Draw

/-- A property with one annotated value. -/
def annotatedProperty (key : String) (i : Nat) (value : Json) : Json :=
  .array [.object [("id", .object [("local_id", .string (key ++ Nat.repr i))]), ("value", value)]]

/-- The tree of the `i`-th row, a vertex with a name and an age. -/
def vertexTree (i : Nat) (d : Draw) : Json :=
  .object [
    ("id", .object [("community_id", .number (.ofUInt64 1)),
      ("member_id", .number (.ofUInt64 (UInt64.ofNat i))), ("~label", .string d.label)]),
    ("label", .string d.label),
    ("properties", .object [
      ("age", annotatedProperty "a" i (.number (.ofUInt64 d.age))),
      ("name", annotatedProperty "n" i (.string d.name))]),
    ("type", .string "vertex")]

/-- The envelope around the `i`-th row. -/
def envelope (i : Nat) (d : Draw) : Json := .object [("result", vertexTree i d)]

/-- The `i`-th row, read from the text of its envelope. -/
def makeRow (i : Nat) (d : Draw) : Except RowError Row := Row.ofText? (envelope i d).text

/-- The rows of a sequence of draws, numbered from zero, or the error of the first that cannot be
read. -/
def makeRows (draws : List Draw) : Except RowError (List Row) :=
  draws.zipIdx.mapM fun p => makeRow p.2 p.1

/-- What has come out of the stream so far. -/
structure Tally where
  results : Nat
  decodeErrors : Nat
  labels : Members Nat

namespace Tally

def empty : Tally := ⟨0, 0, []⟩

/-- Counts a result, and a vertex under its label. -/
def addResult (t : Tally) (v : GraphValue) : Tally :=
  let labels :=
    match v with
    | .vertex v => Members.insert v.label ((Members.find? v.label t.labels).getD 0 + 1) t.labels
    | _ => t.labels
  { t with results := t.results + 1, labels := labels }

end Tally

/-- Counts up to the given number of items of the stream, to its end or its failed fetch. -/
def consume : Nat → Session → Tally → Except FetchError (Session × Tally)
  | 0, s, t => .ok (s, t)
  | fuel + 1, s, t =>
    match s.streamNext 0 with
    | (some (.value v), s) => consume fuel s (t.addResult v)
    | (some (.error (.fetch e)), _) => .error e
    | (some (.error _), s) => consume fuel s { t with decodeErrors := t.decodeErrors + 1 }
    | (some .ended, s) => .ok (s, t)
    | (none, s) => .ok (s, t)

structure Report where
  rows : Nat
  pageSize : Nat
  prefetchThreshold : Nat
  fetchLatency : Nat
  results : Nat
  decodeErrors : Nat
  pages : Nat
  calls : Nat
  labels : Members Nat

namespace Report

/-- The report on a run over so many rows of a table: what was set, what the stream has yielded, and
the pages and calls that it took. -/
def of (settings : Settings) (table : RowTable) (rows pages calls : Nat) (tally : Tally) :
    Report where
  rows := rows
  pageSize := table.pageSize
  prefetchThreshold := settings.prefetchThreshold.toNat
  fetchLatency := settings.fetchLatency.toNat
  results := tally.results
  decodeErrors := tally.decodeErrors
  pages := pages
  calls := calls
  labels := tally.labels

/-- The counts as members of a JSON object. -/
def counts (r : Report) : List (String × Nat) :=
  [("rows", r.rows), ("page_size", r.pageSize), ("prefetch_threshold", r.prefetchThreshold),
    ("fetch_latency_ms", r.fetchLatency), ("results", r.results),
    ("decode_errors", r.decodeErrors), ("pages_fetched", r.pages), ("fetch_calls", r.calls)]

/-- The lines that tell the counts. -/
def lines (r : Report) : List String :=
  ["=== Paging Results ===",
    "Results: " ++ Nat.repr r.results ++ " (" ++ Nat.repr r.decodeErrors ++ " decode errors)",
    "Pages: " ++ Nat.repr r.pages ++ " (" ++ Nat.repr r.calls ++ " fetches)"]

/-- The lines that tell the labels. -/
def labelLines (r : Report) : List String :=
  r.labels.map fun m => "  " ++ m.1 ++ ": " ++ Nat.repr m.2

end Report

/-- Why a run fails: a row cannot be read, or a page cannot be fetched. -/
inductive RunFailure where
  | row (e : RowError)
  | fetch (e : FetchError)

def RunFailure.message : RunFailure → String
  | .row e => e.message?.getD "JSON error"
  | .fetch _ => "page fetch failed"

/-- The rows in memory, in pages of the size that is set. -/
def table (settings : Settings) (rows : List Row) : RowTable :=
  .ofRows rows settings.pageSize.toNat RowTable.defaultHost

/-- The session of a run: the first page is there, and the stream is open. -/
def openSession (settings : Settings) (table : RowTable) : Session :=
  let source := Source.ofFirstPage table.firstPage
  let session := Session.start (.start source (.table table) true false)
  (session.openStream (some settings.prefetchThreshold.toNat)).2

/-- Runs the pager over the rows of the given draws. -/
def run (settings : Settings) (draws : List Draw) : Except RunFailure Report :=
  match makeRows draws with
  | .error e => .error (.row e)
  | .ok rows =>
    let table := table settings rows
    match consume (rows.length + 2) (openSession settings table) .empty with
    | .error e => .error (.fetch e)
    | .ok (session, tally) =>
      let source := session.source
      .ok (.of settings table draws.length source.progress.pages source.calls.size tally)

/-- The lines that tell what is about to be run. -/
def heading (rows : UInt64) (settings : Settings) : List String :=
  ["=== Result Pager Configuration ===",
    "Rows: " ++ Nat.repr rows.toNat,
    "Page size: " ++ Nat.repr settings.pageSize.toNat,
    "Fetch latency: " ++ Nat.repr settings.fetchLatency.toNat ++ "ms",
    "Prefetch threshold: " ++ Nat.repr settings.prefetchThreshold.toNat,
    "==================================", ""]

/-- The line that tells where the report was written. -/
def writtenLines (path : String) : List String := ["", "Results written to " ++ path]

/-- Why the pager stops before its run. -/
inductive SettingsFailure where
  | inVariables (e : SettingsError)
  | inFile (path : String)

def SettingsFailure.message : SettingsFailure → String
  | .inVariables e => e.message?.getD "invalid settings"
  | .inFile path => "failed to load configuration from " ++ path

/-- The settings of a run: of the file that the command line names, else of the variables; what the
command line sets comes before either. A file that cannot be read has no content. -/
def loadSettings (a : Arguments) (lookup : String → Option String)
    (content : Option ByteArray) : Except SettingsFailure Settings :=
  match a.configPath with
  | some path =>
    match (content.map Settings.ofFile).getD (.error .unreadable) with
    | .ok s => .ok (a.override s)
    | .error _ => .error (.inFile path)
  | none =>
    match Settings.ofVariables lookup with
    | .ok s => .ok (a.override s)
    | .error e => .error (.inVariables e)

end Pager

end PagedTraversal
