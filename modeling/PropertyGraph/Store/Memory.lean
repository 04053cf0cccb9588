/-
The store in memory: a sorted map, and one counter of revisions.
-/
import PropertyGraph.Store.Backend
import PropertyGraph.Store.SortedMap

namespace PropertyGraph

/-- A store in memory. -/
structure Memory where
  entries : SortedMap String Entry
  revision : Nat

namespace Memory

def empty : Memory := ⟨.empty, 0⟩

instance : Inhabited Memory := ⟨empty⟩

/-- The number of keys. -/
def size (m : Memory) : Nat := m.entries.size

def isEmpty (m : Memory) : Bool := m.size == 0

/-- Stores a value under the next revision. -/
def write (m : Memory) (key : String) (value : Blob) : Memory :=
  ⟨m.entries.insert key ⟨value, m.revision + 1⟩, m.revision + 1⟩

/-- A page of keys. -/
def page (m : Memory) (stem : String) (after : Option String) (limit : Nat) : List String :=
  let behind (key : String) : Bool :=
    match after with
    | some last => compare last key != .lt
    | none => compare key stem == .lt
  ((m.entries.keys.dropWhile behind).takeWhile (Key.startsWith · stem)).take limit

/-- Writes and returns the revision. -/
def writing (key : String) (value : Blob) : Access Memory Nat := do
  modify (·.write key value)
  return (← get).revision

instance : Backend Memory where
  get key := return (← MonadState.get).entries.get? key
  put := writing
  update := writing
  create key value := do
    if (← MonadState.get).entries.contains key then throw (.keyExists key)
    else writing key value
  delete key := modify fun m => { m with entries := m.entries.erase key }
  keys := Backend.openScan
  advance := Backend.advanceScan fun m stem after limit => .ok (m.page stem after limit)
  size := Memory.size

end Memory

end PropertyGraph
