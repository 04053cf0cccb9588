/-
Building a chain call by call. Nothing is checked here; a chain is checked when it is
planned.
-/
import PropertyGraph.Chain.Call

namespace PropertyGraph

/-- A selection as arguments: a list of ids is one argument. -/
def Selection.arguments : Selection → List Json
  | .all => []
  | .one id => [.str id]
  | .many ids => [Json.strings ids]

namespace Chain

/-- Appends a call. -/
def push (chain : Chain) (operation : Operation) (arguments : List Json) : Chain :=
  chain ++ [⟨operation, arguments⟩]

def vertices (chain : Chain) (ids : Selection) : Chain := chain.push .vertices ids.arguments

def edges (chain : Chain) (ids : Selection) : Chain := chain.push .edges ids.arguments

def addVertex (chain : Chain) (label : String) : Chain := chain.push .addVertex [.str label]

def addEdge (chain : Chain) (label source target : String) : Chain :=
  chain.push .addEdge [.str label, .str source, .str target]

def property (chain : Chain) (key : String) (value : Json) : Chain :=
  chain.push .property [.str key, value]

def has (chain : Chain) (key : String) (value : Json) : Chain :=
  chain.push .has [.str key, value]

/-- Appends an operation on names: labels, or property keys. Each is an argument. -/
def onNames (chain : Chain) (operation : Operation) (names : List String) : Chain :=
  chain.push operation (names.map .str)

/-- The end of each edge other than a known one. -/
def otherVertex (chain : Chain) (known : Option String) : Chain :=
  chain.push .otherVertex (known.map Json.str).toList

def limit (chain : Chain) (n : Nat) : Chain := chain.push .limit [.nat n]

/-- Appends an operation that takes no arguments. -/
def plain (chain : Chain) (operation : Operation) : Chain := chain.push operation []

end Chain

end PropertyGraph
