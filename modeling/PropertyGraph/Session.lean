/-
A session on one connection: buckets with instruments on them, and streams that stay open
between the steps of the session.

On each bucket in use there are counters, and fault rules below the counters. The ids and
the log belong to the session as a whole. Closing the connection ends the handing out of
buckets; the buckets in use and the open streams go on.
-/
import PropertyGraph.Connection
import PropertyGraph.Query
import PropertyGraph.Store.Counted
import PropertyGraph.Store.Faulty

namespace PropertyGraph

/-- The instruments on a bucket. -/
structure Instruments where
  counters : Counters := {}
  rules : List FaultRule := []

/-- A bucket with its instruments. -/
abbrev Instrumented := Counted (Faulty Handle)

/-- A stream left open: of results, or of keys of the bare store. -/
inductive OpenStream where
  | results (stream : Stream)
  | keys (stream : KeyStream)

/-- A session. -/
structure Session where
  connection : Connection
  isOpen : Bool
  /-- The buckets in use. -/
  inUse : SortedMap String Instruments
  /-- The open streams with their buckets. -/
  streams : SortedMap String (String × OpenStream)
  issued : Nat
  /-- The notices, the newest first. -/
  log : List Notice
  optimizer : Optimizer
  /-- Whether what was stored is found again after reopening. -/
  persistent : Bool

namespace Session

variable {α : Type}

/-- A session on a fresh store. -/
def start (kind : BackendKind) (persistent : Bool) (optimizer : Optimizer) : Session :=
  ⟨.fresh kind, true, .empty, .empty, 0, [], optimizer, persistent⟩

/-- The instruments on a bucket. -/
def instruments (s : Session) (bucket : String) : Instruments := (s.inUse.get? bucket).getD {}

/-- Takes a bucket into use. One in use already stays the same, even when the connection is
closed. -/
def use (s : Session) (bucket : String) : Except Error Session := do
  if s.inUse.contains bucket then return s
  if !s.isOpen then throw (.storage .closed)
  let connection ← s.connection.bucket bucket
  return { s with connection := connection, inUse := s.inUse.insert bucket {} }

/-- Works on a bucket through its instruments. -/
def onBucket (bucket : String) (operation : Run Instrumented α) : StateM Session α := fun s =>
  let i := s.instruments bucket
  let store : Instrumented := ⟨⟨s.connection.handle bucket, i.rules⟩, i.counters⟩
  let (a, e) := operation { store := store, issued := s.issued, log := s.log }
  (a, { s with
    connection := s.connection.update bucket e.store.store.store
    inUse := s.inUse.insert bucket ⟨e.store.counters, e.store.store.rules⟩
    issued := e.issued
    log := e.log })

/-- Works on the bare store of a bucket. -/
def onStore (bucket : String) (operation : Run Handle α) : StateM Session α := fun s =>
  let (a, e) := operation { store := s.connection.handle bucket, issued := s.issued, log := s.log }
  (a, { s with
    connection := s.connection.update bucket e.store
    issued := e.issued
    log := e.log })

/-- Puts fault rules in the place of those of a bucket. -/
def setRules (s : Session) (bucket : String) (rules : List FaultRule) : Session :=
  { s with inUse := s.inUse.insert bucket { s.instruments bucket with rules := rules } }

/-- Sets the counters of a bucket to zero. -/
def resetCounters (s : Session) (bucket : String) : Session :=
  { s with inUse := s.inUse.insert bucket { s.instruments bucket with counters := {} } }

/-- The counters of all buckets together. -/
def counters (s : Session) : Counters :=
  s.inUse.toList.foldl (fun sum (_, i) => sum.add i.counters) {}

/-- The entries of a bucket whose keys match a pattern, in the order of the keys. -/
def entries (bucket pattern : String) :
    StateM Session (Except Error (List (String × Entry))) :=
  onStore bucket (do
    let keys ← Engine.keysMatching pattern
    keys.filterMapM fun key => do
      return (← Engine.call (Backend.get key)).map (key, ·) : Attempt Handle _).run

/-! ## Streams -/

/-- Leaves a stream open under a name, in place of one of that name. -/
def keep (s : Session) (name bucket : String) (stream : OpenStream) : Session :=
  { s with streams := s.streams.insert name (bucket, stream) }

/-- Leaves a stream open as long as there is more of it. -/
def keepRest (name bucket : String) (rest : Option OpenStream) : StateM Session Unit :=
  modify fun s =>
    match rest with
    | some stream => s.keep name bucket stream
    | none => { s with streams := s.streams.erase name }

/-- Pulls up to `n` items out of an open stream, and tells whether it ended. A name without
a stream stands for one that ended. -/
def pull (name : String) (n : Nat) : StateM Session (List (Except Error Json) × Bool) := do
  match (← get).streams.get? name with
  | none => return ([], true)
  | some (bucket, .results stream) =>
    let (items, rest) ← onBucket bucket (stream.take Stream.plenty n)
    keepRest name bucket (rest.map .results)
    return (items.map (·.map Traverser.toJson), rest.isNone)
  | some (bucket, .keys stream) =>
    let (keys, rest) ← onStore bucket (Engine.takeKeys Stream.plenty n stream)
    keepRest name bucket (rest.map .keys)
    return (keys.map (·.map Json.str), rest.isNone)

/-! ## Life cycle -/

/-- The names of the buckets handed out, unless the connection is closed. -/
def bucketNames? (s : Session) : Option (List String) :=
  if s.isOpen then some s.connection.bucketNames else none

/-- The text that shows the connection, unless it is closed. -/
def describe? (s : Session) : Option String :=
  if s.isOpen then some s.connection.describe else none

/-- Closes the connection. -/
def close (s : Session) : Session := { s with isOpen := false }

/-- Drops buckets and streams and opens the connection again. -/
def reopen (s : Session) : Session :=
  let connection := match s.persistent, s.connection.database? with
    | true, some db => .ofDatabase db
    | _, _ => .fresh s.connection.kind
  { s with connection := connection, isOpen := true, inUse := .empty, streams := .empty }

end Session

end PropertyGraph
