import PagedTraversal.Settings

/-!
# PagedTraversal.Pager.Arguments

The command line of the pager. Every option takes a value, which follows as the next argument or
stands in the same one: after `=` for a long name, after the letter with or without `=` for a
short one. An option can be given once, its name has to be written out, and nothing else is
accepted. A value that is an argument of its own does not begin with a hyphen, unless it is only
that.
-/

namespace PagedTraversal

namespace Pager

structure Arguments where
  /-- The number of rows to make. -/
  rows : UInt64
  pageSize : Option UInt64
  fetchLatency : Option UInt64
  prefetchThreshold : Option UInt64
  /-- The time spent on each row, in microseconds. -/
  work : UInt64
  configPath : Option String
  outputPath : Option String
  /-- What the random draws begin with. -/
  seed : UInt64
deriving DecidableEq

inductive Flag where
  | rows
  | pageSize
  | fetchLatency
  | prefetchThreshold
  | work
  | config
  | output
  | seed
deriving DecidableEq

namespace Flag

def ofLong? (name : String) : Option Flag :=
  if name = "rows" then some rows
  else if name = "page-size" then some pageSize
  else if name = "latency-ms" then some fetchLatency
  else if name = "threshold" then some prefetchThreshold
  else if name = "work-us" then some work
  else if name = "config" then some config
  else if name = "output" then some output
  else if name = "seed" then some seed
  else none

def ofShort? (letter : Char) : Option Flag :=
  if letter = 'r' then some rows
  else if letter = 'p' then some pageSize
  else if letter = 'l' then some fetchLatency
  else if letter = 't' then some prefetchThreshold
  else if letter = 'c' then some config
  else if letter = 'o' then some output
  else none

end Flag

/-- What reading the command line comes to, when it is not a run. -/
inductive Stop where
  | usage
  | help
deriving DecidableEq

namespace Arguments

def default : Arguments := ⟨1000, none, none, none, 0, none, none, 42⟩

/-- Sets what a flag stands for. A value that should be a number and is none is refused. -/
def set? (a : Arguments) (flag : Flag) (value : String) : Option Arguments :=
  let number := Settings.ofDigits? value.toList
  match flag with
  | .rows => number.map fun n => { a with rows := n }
  | .pageSize => number.map fun n => { a with pageSize := some n }
  | .fetchLatency => number.map fun n => { a with fetchLatency := some n }
  | .prefetchThreshold => number.map fun n => { a with prefetchThreshold := some n }
  | .work => number.map fun n => { a with work := n }
  | .config => some { a with configPath := some value }
  | .output => some { a with outputPath := some value }
  | .seed => number.map fun n => { a with seed := n }

/-- An argument by its form. -/
inductive Form where
  | flag (flag : Flag) (value : Option String)
  | help
  | endOfFlags
  | other

/-- The form of a long argument, without its two hyphens. -/
def longForm (cs : List Char) : Form :=
  let name := String.ofList (cs.takeWhile (· != '='))
  let value : Option String :=
    match cs.dropWhile (· != '=') with
    | _ :: value => some (String.ofList value)
    | [] => none
  match Flag.ofLong? name, value with
  | some flag, value => .flag flag value
  | none, none => if name = "help" then .help else .other
  | none, some _ => .other

/-- The form of a short argument: its letter and what stands behind it. -/
def shortForm (letter : Char) (cs : List Char) : Form :=
  let value : Option String :=
    match cs with
    | [] => none
    | '=' :: value => some (String.ofList value)
    | value => some (String.ofList value)
  match Flag.ofShort? letter with
  | some flag => .flag flag value
  | none => if letter = 'h' then .help else .other

def form (arg : String) : Form :=
  match arg.toList with
  | ['-', '-'] => .endOfFlags
  | '-' :: '-' :: cs => longForm cs
  | '-' :: letter :: cs => shortForm letter cs
  | _ => .other

/-- Whether an argument can be the value of the flag in front of it. -/
def isValue (arg : String) : Bool :=
  match arg.toList with
  | '-' :: _ :: _ => false
  | _ => true

/-- Reads arguments into a record, given the flags that were set before them. -/
def readFrom (seen : List Flag) (a : Arguments) : List String → Except Stop Arguments
  | [] => .ok a
  | arg :: rest =>
    let assign (flag : Flag) (value : String) : Except Stop (List Flag × Arguments) :=
      if seen.contains flag then .error .usage
      else
        match a.set? flag value with
        | some a => .ok (flag :: seen, a)
        | none => .error .usage
    match form arg with
    | .flag flag (some value) =>
      match assign flag value with
      | .ok (seen, a) => readFrom seen a rest
      | .error stop => .error stop
    | .flag flag none =>
      match rest with
      | value :: rest =>
        if isValue value then
          match assign flag value with
          | .ok (seen, a) => readFrom seen a rest
          | .error stop => .error stop
        else .error .usage
      | [] => .error .usage
    | .help => .error .help
    | .endOfFlags => if rest.isEmpty then .ok a else .error .usage
    | .other => .error .usage

def read (args : List String) : Except Stop Arguments := readFrom [] default args

/-- The settings with those of the command line put in their places. -/
def override (a : Arguments) (s : Settings) : Settings :=
  { s with
    pageSize := a.pageSize.getD s.pageSize
    fetchLatency := a.fetchLatency.getD s.fetchLatency
    prefetchThreshold := a.prefetchThreshold.getD s.prefetchThreshold }

end Arguments

end Pager

end PagedTraversal
