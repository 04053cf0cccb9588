/-
The notices the engine writes to its log: anomalies it worked around, and breaches
before they are returned.
-/
import PropertyGraph.Error
import PropertyGraph.Element

namespace PropertyGraph

/-- How grave a notice is. -/
inductive Level where
  | warn
  | error
deriving DecidableEq, Repr

def Level.name : Level → String
  | .warn => "warn"
  | .error => "error"

/-- A line of the log. -/
inductive Notice where
  /-- A stored list of ids could not be read and counts as absent. -/
  | corruptIndex (key : String)
  /-- Only one end of an edge is recorded. -/
  | halfEdge (id : String)
  | missingLabel (kind : ElementKind) (id : String)
  /-- A deletion went on past a failing key. -/
  | cleanupFailed (key : String) (error : Error)
  /-- A rule of the optimizer would have changed the type of a result. -/
  | ruleSkipped (rule : String)
  | breach (cause : Breach)
  /-- A warning of the host's own. -/
  | host (code : Code) (message : String)
deriving DecidableEq

namespace Notice

def level : Notice → Level
  | .breach _ => .error
  | _ => .warn

def code : Notice → Code
  | .corruptIndex _ => .warnCorruptIndex
  | .halfEdge _ | .missingLabel .. => .warnDanglingRecord
  | .cleanupFailed .. => .warnCleanupFailed
  | .ruleSkipped _ => .warnRuleSkipped
  | .breach cause => cause.code
  | .host code _ => code

def message : Notice → String
  | .corruptIndex key => "index '" ++ key ++ "' is not a JSON array of ids"
  | .halfEdge id => "edge '" ++ id ++ "' has only one endpoint recorded"
  | .missingLabel kind id => kind.title ++ " '" ++ id ++ "' has no label record"
  | .cleanupFailed key error => "could not clean up '" ++ key ++ "': " ++ error.message
  | .ruleSkipped rule => "rewrite rule '" ++ rule ++ "' changed the result type, skipped"
  | .breach cause => cause.message
  | .host _ message => message

end Notice

end PropertyGraph
