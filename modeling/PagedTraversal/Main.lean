import PagedTraversal.Json.Pretty
import PagedTraversal.Pager.Report

/-!
# PagedTraversal.Main

The command line program: reads the arguments, the variables and the configuration file, prints the
report of a run and writes it where it was asked for.
-/

namespace PagedTraversal

namespace Program

/-- Prints an error and gives the exit code for it. -/
def fail (message : String) : IO UInt32 := do
  IO.eprintln ("Error: " ++ message)
  pure 1

/-- The bytes of a file, or nothing when it cannot be read. -/
def readContent (path : Option String) : IO (Option ByteArray) :=
  match path with
  | none => pure none
  | some path => do
    try
      pure (some (← IO.FS.readBinFile path))
    catch _ => pure none

/-- A whole number of hundredths, written with two places. -/
def hundredths (n : Nat) : String :=
  Nat.repr (n / 100) ++ "." ++ Nat.repr (n / 10 % 10) ++ Nat.repr (n % 10)

/-- The quotient of two whole numbers as a JSON number. -/
def quotient (num den : Nat) : Json :=
  match Number.ofDouble? (.ofCode false (Double.nearestCode num den)) with
  | some n => .number n
  | none => .null

/-- The tree of a report with the time that the run took. -/
def reportTree (r : Pager.Report) (nanos : Nat) : Json :=
  let count (n : Nat) : Json := .number (.ofUInt64 (UInt64.ofNat n))
  .object (r.counts.map (fun c => (c.1, count c.2)) ++
    [("elapsed_ms", quotient nanos 1000000),
      ("results_per_sec", quotient (r.results * 1000000000) (max nanos 1)),
      ("labels", .object (r.labels.map fun m => (m.1, count m.2)))])

def usage : String :=
  "Usage: pager [-r ROWS] [-p PAGE_SIZE] [-l LATENCY_MS] [-t THRESHOLD]\n" ++
    "             [--work-us WORK_US] [-c CONFIG] [-o OUTPUT] [--seed SEED]"

def runPager (a : Pager.Arguments) : IO UInt32 := do
  let keys := ["GRAPH_PAGE_SIZE", "GRAPH_FETCH_LATENCY_MS", "GRAPH_PREFETCH_THRESHOLD",
    "LOG_LEVEL", "LOG_FORMAT"]
  let mut found : List (String × String) := []
  for key in keys do
    if let some value ← IO.getEnv key then
      found := (key, value) :: found
  let content ← readContent a.configPath
  match Pager.loadSettings a (fun key => found.lookup key) content with
  | .error e => fail e.message
  | .ok settings =>
    for line in Pager.heading a.rows settings do
      IO.println line
    let start ← IO.monoNanosNow
    match Pager.run settings (Pager.Draw.sequence a.rows.toNat a.seed) with
    | .error e => fail e.message
    | .ok report =>
      let delay := report.calls * settings.fetchLatency.toNat
      IO.sleep (UInt32.ofNat (min (delay + report.results * a.work.toNat / 1000) 4294967295))
      let nanos := (← IO.monoNanosNow) - start
      for line in report.lines do
        IO.println line
      IO.println ("Elapsed: " ++ hundredths (nanos / 10000) ++ "ms")
      IO.println ("Throughput: " ++ Nat.repr (report.results * 1000000000 / max nanos 1) ++
        " results/sec")
      for line in report.labelLines do
        IO.println line
      match a.outputPath with
      | none => pure 0
      | some path =>
        try
          IO.FS.writeFile path (reportTree report nanos).pretty
          for line in Pager.writtenLines path do
            IO.println line
          pure 0
        catch e => fail (toString e)

end Program

end PagedTraversal

open PagedTraversal in
/-- Runs the program; the exit code is two when the command line cannot be read. -/
def main (args : List String) : IO UInt32 :=
  match Pager.Arguments.read args with
  | .ok a => Program.runPager a
  | .error .help => do
    IO.println Program.usage
    pure 0
  | .error .usage => do
    IO.eprintln Program.usage
    pure 2
