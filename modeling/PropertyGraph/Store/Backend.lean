/-
What the engine asks of a store: an ordered set of keys with values. Revisions that
writes return ascend.
-/
import PropertyGraph.Store.Entry
import PropertyGraph.Store.KeyScan

namespace PropertyGraph

/-- A call on a store of type `σ`. It may change the store and still fail. -/
abbrev Access (σ : Type) := ExceptT Error (StateM σ)

/-- A store. -/
class Backend (σ : Type) where
  get : String → Access σ (Option Entry)
  put : String → Blob → Access σ Nat
  update : String → Blob → Access σ Nat
  /-- Fails if the key exists. -/
  create : String → Blob → Access σ Nat
  /-- A missing key is no error. -/
  delete : String → Access σ Unit
  /-- Opens a stream of the keys that match one of the patterns, of all keys if there
  is no pattern. -/
  keys : List String → Access σ KeyStream
  /-- One piece of work on an open stream. -/
  advance : KeyStream → StateM σ (ScanEvent × KeyStream)
  /-- The number of keys. -/
  size : σ → Nat

namespace Backend

/-- A call on a part of a larger state. -/
def within {σ τ α : Type} (part : τ → σ) (replace : σ → τ → τ) (call : StateM σ α) :
    StateM τ α := fun t =>
  let (a, s) := call (part t)
  (a, replace s t)

/-- Opens a scan. -/
def openScan {σ : Type} (patterns : List String) : Access σ KeyStream :=
  match KeyPattern.parseAll patterns with
  | .ok ps => pure (.ofScan (.start ps))
  | .error e => throw e

/-- Works on a scan with the pages of the present state. -/
def advanceScan {σ : Type} (fetch : σ → Fetch) (stream : KeyStream) :
    StateM σ (ScanEvent × KeyStream) := fun s =>
  let (event, scan) := stream.scan.advance (fetch s)
  ((event, { stream with scan := scan }), s)

end Backend

end PropertyGraph
