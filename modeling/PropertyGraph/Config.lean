/-
What a graph is opened with.
-/
import PropertyGraph.Connection
import PropertyGraph.Plan.Rule

namespace PropertyGraph

/-- The options of a graph. -/
structure Config where
  backend : BackendKind := .memory
  bucket : String := "graph"
  /-- Whether the optimizer has rules. -/
  optimize : Bool := true
  /-- The file of the database; without one a database lives in memory. -/
  path : Option String := none
deriving DecidableEq, Repr

namespace Config

/-- The options for a kind of store. -/
def ofBackend (kind : BackendKind) : Config := { backend := kind }

/-- The options for a database in a file. -/
def ofPath (path : String) : Config := { backend := .database, path := some path }

/-- The optimizer these options ask for. -/
def optimizer (c : Config) : Optimizer := if c.optimize then .default else .none

end Config

end PropertyGraph
