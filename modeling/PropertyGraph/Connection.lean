/-
Connections: buckets by name, in memory each a store of its own, in a database all in one.
A bucket is handed out at its first use and stays the same one after that.
-/
import PropertyGraph.Graph.Validation
import PropertyGraph.Store.Handle
import PropertyGraph.Text.Quoted

namespace PropertyGraph

/-- The kinds of store a connection can lead to. -/
inductive BackendKind where
  | memory
  | database
deriving DecidableEq, Repr

namespace BackendKind

def name : BackendKind → String
  | .memory => "memory"
  | .database => "sqlite"

/-- The kind of a name. -/
def ofName? (name : String) : Option BackendKind :=
  if name == "memory" || name == "mem" then some .memory
  else if name == "sqlite" then some .database
  else none

end BackendKind

/-- Where the buckets of a connection are. -/
inductive Target where
  | memory (buckets : SortedMap String Memory)
  | database (database : Database)

/-- A connection. -/
structure Connection where
  target : Target
  /-- The buckets handed out. -/
  handedOut : SortedMap String Unit

namespace Connection

/-- A connection to nothing yet, in memory. -/
def inMemory : Connection := ⟨.memory .empty, .empty⟩

/-- A connection to a database, which has its tables from then on. -/
def ofDatabase (database : Database) : Connection := ⟨.database database.ensureSchema, .empty⟩

/-- A connection to a fresh store. -/
def fresh : BackendKind → Connection
  | .memory => inMemory
  | .database => ofDatabase .blank

/-- The kind of store a connection leads to. -/
def kind (c : Connection) : BackendKind :=
  match c.target with
  | .memory _ => .memory
  | .database _ => .database

/-- The database of a connection to one. -/
def database? (c : Connection) : Option Database :=
  match c.target with
  | .memory _ => none
  | .database db => some db

/-- Hands out a bucket. A name is a token. -/
def bucket (c : Connection) (name : String) : Except Error Connection := do
  require (Key.isToken name) (.bucketInvalid name)
  return { c with handedOut := c.handedOut.insert name () }

/-- The names of the buckets handed out, in order. -/
def bucketNames (c : Connection) : List String := c.handedOut.keys

/-- The store of a bucket. -/
def handle (c : Connection) (name : String) : Handle :=
  match c.target with
  | .memory buckets => .memory ((buckets.get? name).getD .empty)
  | .database db => .database ⟨name, db⟩

/-- The connection after calls on a bucket. -/
def update (c : Connection) (name : String) (handle : Handle) : Connection :=
  match c.target, handle with
  | .memory buckets, .memory m => { c with target := .memory (buckets.insert name m) }
  | .database _, .database b => { c with target := .database b.database }
  | _, _ => c

/-- Works on a bucket. -/
def onBucket {α : Type} (name : String) (call : StateM Handle α) : StateM Connection α :=
  fun c =>
    let (a, handle) := call (c.handle name)
    (a, c.update name handle)

/-- How many writes there were in all buckets. Each id was written when it was handed out, so
a higher number stands for no id in the store. -/
def writes (c : Connection) : Nat :=
  match c.target with
  | .memory buckets => buckets.toList.foldl (fun n (_, m) => n + m.revision) 0
  | .database db => db.revisions.toList.foldl (fun n (_, revision) => n + revision) 0

/-- The text that shows a connection. -/
def describe (c : Connection) : String :=
  "Connection \x7b backend: " ++ Text.quoted c.kind.name ++ ", buckets: [" ++
    String.intercalate ", " (c.bucketNames.map Text.quoted) ++ "] \x7d"

end Connection

end PropertyGraph
