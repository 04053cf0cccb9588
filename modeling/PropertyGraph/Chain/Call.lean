/-
A query as a list of calls: operations with JSON arguments. `Call.render` writes a call
as a reader of a plan sees it; `Chain.toJson` and `Chain.ofJson?` are the form in which
chains are exchanged.
-/
import PropertyGraph.Chain.Operation
import PropertyGraph.Json.Printer

namespace PropertyGraph

/-- The elements a query starts from. -/
inductive Selection where
  | all
  | one (id : String)
  | many (ids : List String)
deriving DecidableEq, Repr

/-- An operation with its arguments. -/
structure Call where
  operation : Operation
  arguments : List Json
deriving DecidableEq

/-- A query. -/
abbrev Chain := List Call

namespace Call

/-- A name with its arguments. -/
def renderAs (name : String) (arguments : List Json) : String :=
  name ++ "(" ++ String.intercalate ", " (arguments.map Json.text) ++ ")"

def render (c : Call) : String := renderAs c.operation.name c.arguments

def toJson (c : Call) : Json :=
  Json.object [("name", .str c.operation.name), ("args", .arr c.arguments)]

/-- The name in a call of the exchanged form: a string, or the only field of an object, with
null in it. -/
def nameOf? : Json → Option String
  | .str name => some name
  | .obj [(name, .null)] => some name
  | _ => none

/-- The name and the arguments of a call of the exchanged form: fields of an object, where
others are ignored, or a list of the two. Arguments may be absent. -/
def partsOf? : Json → Option (Json × Option Json)
  | .arr [name] => some (name, none)
  | .arr [name, arguments] => some (name, some arguments)
  | j => (j.field? "name").map (·, j.field? "args")

/-- A call of the exchanged form. -/
def ofJson? (j : Json) : Option Call := do
  let (name, arguments) ← partsOf? j
  let operation ← Operation.ofName? (← nameOf? name)
  match arguments with
  | some arguments => return ⟨operation, ← arguments.asArray?⟩
  | none => return ⟨operation, []⟩

end Call

namespace Chain

/-- A chain as it is explained. -/
def explain (chain : Chain) : String := String.intercalate " -> " (chain.map Call.render)

def toJson (chain : Chain) : Json := .arr (chain.map Call.toJson)

def ofJson? (j : Json) : Option Chain := do (← j.asArray?).mapM Call.ofJson?

end Chain

end PropertyGraph
