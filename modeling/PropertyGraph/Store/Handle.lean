/-
A bucket of either kind of store, for callers that learn the kind when they run.
-/
import PropertyGraph.Store.Memory
import PropertyGraph.Store.Database

namespace PropertyGraph

/-- A bucket in memory or in a database. -/
inductive Handle where
  | memory (store : Memory)
  | database (bucket : Bucket)

namespace Handle

variable {α : Type}

/-- Makes the call that suits the kind of the store. -/
def dispatch (onMemory : StateM Memory α) (onBucket : StateM Bucket α) : StateM Handle α
  | .memory m =>
    let (a, m) := onMemory m
    (a, .memory m)
  | .database b =>
    let (a, b) := onBucket b
    (a, .database b)

/-- The same for calls that may fail. -/
def dispatchCall (onMemory : Access Memory α) (onBucket : Access Bucket α) : Access Handle α :=
  ExceptT.mk (dispatch onMemory.run onBucket.run)

instance : Backend Handle where
  get key := dispatchCall (Backend.get key) (Backend.get key)
  put key value := dispatchCall (Backend.put key value) (Backend.put key value)
  update key value := dispatchCall (Backend.update key value) (Backend.update key value)
  create key value := dispatchCall (Backend.create key value) (Backend.create key value)
  delete key := dispatchCall (Backend.delete key) (Backend.delete key)
  keys patterns := dispatchCall (Backend.keys patterns) (Backend.keys patterns)
  advance stream := dispatch (Backend.advance stream) (Backend.advance stream)
  size
    | .memory m => Backend.size m
    | .database b => Backend.size b

end Handle

end PropertyGraph
