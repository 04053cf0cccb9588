/-
The engine's state and what every operation on a graph is made of: calls on the store,
fresh ids, notices to the log, and running through a stream of keys.

An operation of type `Attempt σ α` may fail; one of type `Run σ α` cannot. Either way
what it did to the store stays done.
-/
import PropertyGraph.Notice
import PropertyGraph.Store.Backend

namespace PropertyGraph

/-- The id with a number: `01` and thirty hexadecimal digits, so that ids ascend with
their numbers. -/
def elementId (n : Nat) : String :=
  let digits := Nat.toDigits 16 n
  String.ofList (['0', '1'] ++ List.replicate (30 - digits.length) '0' ++ digits)

/-- The state of an engine over a store. -/
structure Engine (σ : Type) where
  store : σ
  /-- How many ids were handed out. -/
  issued : Nat
  /-- The notices, the newest first. -/
  log : List Notice
  /-- The ids in the order they are handed out. A host may bring its own. -/
  ids : Nat → String := elementId

/-- An operation that does not fail. -/
abbrev Run (σ : Type) := StateM (Engine σ)

/-- An operation that may fail. -/
abbrev Attempt (σ : Type) := ExceptT Error (Run σ)

namespace Engine

variable {σ α β : Type}

/-- An engine over a store, nothing handed out and nothing noted. -/
def ofStore (store : σ) : Engine σ := { store := store, issued := 0, log := [] }

/-- Makes a call on the store. -/
def call (access : Access σ α) : Attempt σ α :=
  ExceptT.mk (Backend.within Engine.store (fun s e => { e with store := s }) access.run)

/-- Writes a notice to the log. -/
def note (notice : Notice) : Run σ Unit := modify fun e => { e with log := notice :: e.log }

/-- Notes a breach and makes it an error. -/
def breach (cause : Breach) : Run σ Error := do
  note (.breach cause)
  return .broken cause

/-- Fails with a breach, which is noted, unless a condition holds. -/
def demand (condition : Bool) (cause : Breach) : Attempt σ Unit := do
  if !condition then throw (← (breach cause : Run σ Error))

/-- A fresh id. -/
def freshId : Run σ String := do
  let e ← get
  set { e with issued := e.issued + 1 }
  return e.ids e.issued

/-- An operation whose failure is noted under a key and replaced by a value. -/
def quietly (key : String) (instead : α) (operation : Attempt σ α) : Run σ α := do
  match ← operation.run with
  | .ok a => return a
  | .error e =>
    note (.cleanupFailed key e)
    return instead

/-- The outcome of an operation, as a value. -/
def outcome (operation : Attempt σ α) : Run σ (Except Error α) := operation.run

variable [Backend σ]

/-- One piece of work on a stream of keys. -/
def advance (stream : KeyStream) : Run σ (ScanEvent × KeyStream) :=
  Backend.within Engine.store (fun s e => { e with store := s }) (Backend.advance stream)

/-- Runs through a stream item by item, an error among the keys being an item. -/
def foldStream (f : β → Except Error String → Attempt σ β) :
    (fuel : Nat) → β → KeyStream → Attempt σ β
  | 0, b, _ => return b
  | fuel + 1, b, stream => do
    let (event, stream) ← (advance stream : Run σ _)
    match event with
    | .key key => foldStream f fuel (← f b (.ok key)) stream
    | .failed e => foldStream f fuel (← f b (.error e)) stream
    | .skip => foldStream f fuel b stream
    | .done => return b

/-- Runs through the keys that match one of the patterns. `f` may read the store but
not add keys to it. -/
def foldKeys (f : β → Except Error String → Attempt σ β) (b : β) (patterns : List String) :
    Attempt σ β := do
  let stream ← call (Backend.keys patterns)
  foldStream f (stream.effort (Backend.size (← get).store)) b stream

/-- The keys that match one of the patterns; the first error ends it. -/
def collectKeys (patterns : List String) : Attempt σ (List String) := do
  let found ← foldKeys
    (fun found item => do return (← MonadExcept.ofExcept item) :: found) [] patterns
  return found.reverse

/-- The keys that match a pattern; the first error ends it. -/
def keysMatching (pattern : String) : Attempt σ (List String) := collectKeys [pattern]

/-- The keys that match one of the patterns; errors among them are noted under a key and
passed over. -/
def keysDespite (key : String) (patterns : List String) : Attempt σ (List String) := do
  let found ← foldKeys
    (fun found item => do
      match item with
      | .ok k => return k :: found
      | .error e =>
        (note (.cleanupFailed key e) : Run σ Unit)
        return found) [] patterns
  return found.reverse

/-- Pulls up to `n` items out of a stream, with at most `budget` pieces of work. The stream
comes back with them unless it ended. -/
def takeKeys : (budget n : Nat) → KeyStream →
    Run σ (List (Except Error String) × Option KeyStream)
  | 0, _, stream | _ + 1, 0, stream => return ([], some stream)
  | budget + 1, n + 1, stream => do
    let (event, stream) ← advance stream
    match event with
    | .key key =>
      let (items, left) ← takeKeys budget n stream
      return (.ok key :: items, left)
    | .failed e =>
      let (items, left) ← takeKeys budget n stream
      return (.error e :: items, left)
    | .skip => takeKeys budget (n + 1) stream
    | .done => return ([], none)

end Engine

end PropertyGraph
