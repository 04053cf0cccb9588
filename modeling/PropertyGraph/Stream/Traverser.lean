/-
What travels through a query: the graph itself, an element by its id, or a value.
-/
import PropertyGraph.Json.Basic
import PropertyGraph.Element
import PropertyGraph.Error

namespace PropertyGraph

/-- An item of a query under way. -/
inductive Traverser where
  | graph
  | vertex (id : String)
  | edge (id : String)
  | value (value : Json)
deriving DecidableEq

namespace Traverser

/-- The type an item has in the grammar. -/
def type : Traverser → ResultType
  | .graph => .graph
  | .vertex _ => .vertex
  | .edge _ => .edge
  | .value _ => .value

/-- The element an item stands for. -/
def element? : Traverser → Option (ElementKind × String)
  | .vertex id => some (.vertex, id)
  | .edge id => some (.edge, id)
  | .graph | .value _ => none

/-- The item of an element. -/
def ofElement (kind : ElementKind) (id : String) : Traverser :=
  match kind with
  | .vertex => .vertex id
  | .edge => .edge id

/-- An item as a result: an element is its id. -/
def toJson : Traverser → Json
  | .graph => .null
  | .vertex id | .edge id => .str id
  | .value v => v

end Traverser

/-- An item of a stream: a traverser, or an error in its place. -/
abbrev Item := Except Error Traverser

/-- What one piece of work on a stream brings. -/
inductive Event where
  | item (item : Item)
  /-- Nothing yet, but there is more to do. -/
  | skip
  | done

end PropertyGraph
