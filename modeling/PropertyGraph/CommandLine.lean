/-
The command line: reading the arguments, and running queries in order against one graph.
What a run prints and leaves on the disk is a function of the arguments, the log filter
and the disk it finds.
-/
import PropertyGraph.Disk
import PropertyGraph.LogFilter
import PropertyGraph.Query

namespace PropertyGraph

/-- What the arguments ask for. -/
structure CommandLine where
  backend : String := "memory"
  database : String := "memory"
  bucket : String := "graph"
  optimize : Bool := true
  explain : Bool := false
  queries : List String := []
deriving DecidableEq, Repr

/-- Why the arguments are refused. -/
inductive UsageError where
  | valueMissing (flag : String)
  | unknownFlag (flag : String)
  | noQuery
  | unsupportedBackend (name : String)
deriving DecidableEq, Repr

def UsageError.message : UsageError → String
  | .valueMissing flag => flag ++ " requires a value"
  | .unknownFlag flag => "unknown flag " ++ flag
  | .noQuery => "at least one query is required"
  | .unsupportedBackend name => "unsupported backend " ++ name

namespace CommandLine

/-- The usage text. -/
def help : String :=
  "Usage: " ++ programName ++ " [--backend memory|sqlite] [--db memory|PATH] [--bucket NAME] " ++
  "[--no-optimize] [--explain] QUERY...\n" ++
  "Each QUERY is a traversal such as \"g.V().has('name','Alice').count()\";\n" ++
  "queries run in order against the same graph and print one JSON value per line.\n" ++
  "Set KVGRAPH_LOG (e.g. KVGRAPH_LOG=debug) to control logging.\n"

/-- Reads arguments over the options read so far; of two values for a flag the last
one counts. -/
def readFlags (c : CommandLine) : List String → Except UsageError CommandLine
  | [] => .ok c
  | arg :: rest =>
    if arg == "--backend" then
      match rest with
      | value :: rest => { c with backend := value }.readFlags rest
      | [] => .error (.valueMissing "--backend")
    else if arg == "--db" || arg == "--database" then
      match rest with
      | value :: rest => { c with database := value }.readFlags rest
      | [] => .error (.valueMissing "--db")
    else if arg == "--bucket" then
      match rest with
      | value :: rest => { c with bucket := value }.readFlags rest
      | [] => .error (.valueMissing "--bucket")
    else if arg == "--no-optimize" then { c with optimize := false }.readFlags rest
    else if arg == "--explain" then { c with explain := true }.readFlags rest
    else if Key.startsWith arg "--" then .error (.unknownFlag arg)
    else { c with queries := c.queries ++ [arg] }.readFlags rest

/-- Reads the arguments that follow the name of the program. -/
def ofArguments (args : List String) : Except UsageError CommandLine := do
  let c ← readFlags {} args
  if c.queries.isEmpty then throw .noQuery
  return c

/-- The options of the graph. A path to a database stands above the kind of store. -/
def config (c : CommandLine) : Except UsageError Config :=
  match BackendKind.ofName? c.backend with
  | none => .error (.unsupportedBackend c.backend)
  | some kind =>
    let inFile := c.database != "memory"
    .ok {
      backend := if inFile then .database else kind
      bucket := c.bucket
      optimize := c.optimize
      path := if inFile then some c.database else none }

/-! ## Running -/

/-- What a run prints, and how it ends. -/
structure Outcome where
  code : Nat
  stdout : String
  stderr : String
deriving DecidableEq, Repr

/-- A text as a line. -/
def line (s : String) : String := s ++ "\n"

/-- A run that prints an error and ends with a code. -/
def failing (code : Nat) (text : String) : Outcome := ⟨code, "", text⟩

/-- A notice as a line of the log. -/
def logLine (notice : Notice) : String :=
  line (notice.level.name.toUpper ++ " " ++ notice.code.text ++ ": " ++ notice.message)

/-- Runs a query, or explains it; the lines it prints, and the error that ended it. -/
def runQuery (o : Optimizer) (explain : Bool) (query : String) :
    Run Handle (String × Option Error) := do
  match ← Engine.outcome (do (← MonadExcept.ofExcept (Chain.parse query)).plan o) with
  | .error e => return ("", some e)
  | .ok plan =>
    if explain then return (line plan.render, none)
    match ← Engine.outcome plan.open with
    | .error e => return ("", some e)
    | .ok stream =>
      let (values, e) ← stream.untilError Stream.plenty
      return (String.join (values.map fun v => line v.text), e)

/-- Runs queries until one fails. -/
def runQueries (o : Optimizer) (explain : Bool) (filter : LogFilter) :
    List String → Engine Handle → Outcome × Engine Handle
  | [], engine => (⟨0, "", ""⟩, engine)
  | query :: rest, engine =>
    let ((printed, failure), engine) := runQuery o explain query { engine with log := [] }
    let logged := String.join ((engine.log.reverse.filter filter.admits).map logLine)
    match failure with
    | some e => (⟨1, printed, logged ++ line ("query failed: " ++ e.message)⟩, engine)
    | none =>
      let (outcome, engine) := runQueries o explain filter rest engine
      (⟨outcome.code, printed ++ outcome.stdout, logged ++ outcome.stderr⟩, engine)

/-- Opens the graph of some options. Comes back with the file it is in and the disk, which
may have changed even if there is no graph. -/
def openGraph (config : Config) (disk : Disk) :
    Except Error (Connection × Option HeldFile) × Disk :=
  match disk.connect config with
  | (.error e, disk) => (.error e, disk)
  | (.ok (connection, file), disk) =>
    match connection.bucket config.bucket with
    | .ok connection => (.ok (connection, file), disk)
    | .error e => (.error e, disk.keep file connection true)

/-- Runs the program: on these arguments, with the text of a log filter if one is set, and
with `issued` ids taken. Comes back with what it printed, the number of ids taken and the
disk. -/
def run (args : List String) (log : Option String) (issued : Nat) (disk : Disk) :
    Outcome × Nat × Disk :=
  let stop (outcome : Outcome) := (outcome, issued, disk)
  if args.any fun a => a == "--help" || a == "-h" then stop ⟨0, line help, ""⟩
  else
    match ofArguments args with
    | .error e => stop (failing 2 (line ("error: " ++ e.message) ++ help))
    | .ok c =>
      match (log.map LogFilter.parse).getD (.ok .default) with
      | .error e => stop (failing 2 (line e.message))
      | .ok filter =>
        match c.config with
        | .error e => stop (failing 2 (line e.message))
        | .ok config =>
          match openGraph config disk with
          | (.error e, disk) => (failing 2 (line e.message), issued, disk)
          | (.ok (connection, file), disk) =>
            let (outcome, engine) := runQueries config.optimizer c.explain filter c.queries
              { store := connection.handle config.bucket, issued := max issued connection.writes, log := [] }
            (outcome, engine.issued,
              disk.keep file (connection.update config.bucket engine.store) (outcome.code == 0))

end CommandLine

end PropertyGraph
