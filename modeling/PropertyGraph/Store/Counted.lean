/-
A store that counts the calls it passes on, and the items pulled out of its streams.
A call that fails counts as well.
-/
import PropertyGraph.Store.Backend

namespace PropertyGraph

/-- How often each call was made. -/
structure Counters where
  gets : Nat := 0
  puts : Nat := 0
  updates : Nat := 0
  creates : Nat := 0
  deletes : Nat := 0
  keyScans : Nat := 0
  keysPulled : Nat := 0
deriving DecidableEq, Repr, Inhabited

namespace Counters

def reads (c : Counters) : Nat := c.gets + c.keyScans

def writes (c : Counters) : Nat := c.puts + c.updates + c.creates + c.deletes

/-- All calls; items pulled are no calls. -/
def total (c : Counters) : Nat := c.reads + c.writes

/-- The counters in their published order. -/
def toList (c : Counters) : List Nat :=
  [c.gets, c.puts, c.updates, c.creates, c.deletes, c.keyScans, c.keysPulled]

def add (c d : Counters) : Counters :=
  ⟨c.gets + d.gets, c.puts + d.puts, c.updates + d.updates, c.creates + d.creates,
    c.deletes + d.deletes, c.keyScans + d.keyScans, c.keysPulled + d.keysPulled⟩

end Counters

/-- A store with counters. -/
structure Counted (σ : Type) where
  store : σ
  counters : Counters

namespace Counted

variable {σ α : Type}

/-- Makes a call on the store itself. -/
def inside (call : Access σ α) : Access (Counted σ) α :=
  ExceptT.mk (Backend.within Counted.store (fun s c => { c with store := s }) call.run)

/-- Counts, then makes the call. -/
def counting (tick : Counters → Counters) (call : Access σ α) : Access (Counted σ) α := do
  modify fun c => { c with counters := tick c.counters }
  inside call

/-- An event that is an item counts as pulled. -/
def tally : ScanEvent → Counters → Counters
  | .key _, c | .failed _, c => { c with keysPulled := c.keysPulled + 1 }
  | .skip, c | .done, c => c

instance [Backend σ] : Backend (Counted σ) where
  get key := counting (fun c => { c with gets := c.gets + 1 }) (Backend.get key)
  put key value := counting (fun c => { c with puts := c.puts + 1 }) (Backend.put key value)
  update key value :=
    counting (fun c => { c with updates := c.updates + 1 }) (Backend.update key value)
  create key value :=
    counting (fun c => { c with creates := c.creates + 1 }) (Backend.create key value)
  delete key := counting (fun c => { c with deletes := c.deletes + 1 }) (Backend.delete key)
  keys patterns :=
    counting (fun c => { c with keyScans := c.keyScans + 1 }) (Backend.keys patterns)
  advance stream := fun c =>
    let ((event, stream), store) := Backend.advance stream c.store
    ((event, stream), ⟨store, tally event c.counters⟩)
  size c := Backend.size c.store

end Counted

end PropertyGraph
