/-
A store that fails on purpose. Each rule names a call and a key; it lets a number of
matching calls pass, then fails a number of them. Of several rules the first that fires
wins, and the rules after it do not see the call.
-/
import PropertyGraph.Store.Backend

namespace PropertyGraph

/-- A rule that fails calls. -/
structure FaultRule where
  call : StoreCall
  /-- A key pattern for the calls on one key; for scans, one of the patterns asked for,
  literally. -/
  subject : String
  /-- How many hits pass. -/
  skip : Nat
  /-- How many hits fail after that; all of them if absent. -/
  times : Option Nat
  /-- Before which item a stream fails. -/
  position : Nat
deriving DecidableEq, Repr

namespace FaultRule

/-- Whether the rule fires at a hit, and the rule afterwards. -/
def hit (r : FaultRule) : Bool × FaultRule :=
  match r.skip, r.times with
  | n + 1, _ => (false, { r with skip := n })
  | 0, none => (true, r)
  | 0, some 0 => (false, r)
  | 0, some (n + 1) => (true, { r with times := some n })

/-- The error of a rule that fires at a key or a pattern. -/
def fault (r : FaultRule) (subject : String) : Error := .storage (.injected r.call subject)

/-- The first rule that fires among those a call hits, and the rules afterwards. -/
def strike (hits : FaultRule → Bool) : List FaultRule → Option FaultRule × List FaultRule
  | [] => (none, [])
  | r :: rules =>
    if hits r then
      match r.hit with
      | (true, r) => (some r, r :: rules)
      | (false, r) =>
        let (fired, rules) := strike hits rules
        (fired, r :: rules)
    else
      let (fired, rules) := strike hits rules
      (fired, r :: rules)

/-- Whether a rule is about this call on this key. -/
def isAbout (call : StoreCall) (key : String) (r : FaultRule) : Bool :=
  r.call == call &&
    match KeyPattern.parse r.subject with
    | .ok p => p.accepts key
    | .error _ => false

/-- Whether a rule is about this call for these patterns. -/
def isAmong (call : StoreCall) (patterns : List String) (r : FaultRule) : Bool :=
  r.call == call && patterns.contains r.subject

end FaultRule

/-- A store with fault rules. -/
structure Faulty (σ : Type) where
  store : σ
  rules : List FaultRule

namespace Faulty

variable {σ α : Type}

/-- Makes a call on the store itself. -/
def inside (call : Access σ α) : Access (Faulty σ) α :=
  ExceptT.mk (Backend.within Faulty.store (fun s f => { f with store := s }) call.run)

/-- Shows a call to the rules. -/
def strike (hits : FaultRule → Bool) : Access (Faulty σ) (Option FaultRule) := do
  let f ← get
  let (fired, rules) := FaultRule.strike hits f.rules
  set { f with rules := rules }
  return fired

/-- Makes a call on a key unless a rule fails it. -/
def guarded (call : StoreCall) (key : String) (inner : Access σ α) : Access (Faulty σ) α := do
  match ← strike (FaultRule.isAbout call key) with
  | some rule => throw (rule.fault key)
  | none => inside inner

/-- The interruption after an event: an item brings it nearer. -/
def approach : ScanEvent → Option (Nat × Error) → Option (Nat × Error)
  | .key _, some (n + 1, e) | .failed _, some (n + 1, e) => some (n, e)
  | _, interruption => interruption

instance [Backend σ] : Backend (Faulty σ) where
  get key := guarded .get key (Backend.get key)
  put key value := guarded .put key (Backend.put key value)
  update key value := guarded .update key (Backend.update key value)
  create key value := guarded .create key (Backend.create key value)
  delete key := guarded .delete key (Backend.delete key)
  keys patterns := do
    if let some rule ← strike (FaultRule.isAmong .keys patterns) then
      throw (rule.fault rule.subject)
    let stream ← inside (Backend.keys patterns)
    match ← strike (FaultRule.isAmong .stream patterns) with
    | some rule =>
      return { stream with interruption := some (rule.position, rule.fault rule.subject) }
    | none => return stream
  advance stream := fun f =>
    match stream.interruption with
    | some (0, e) => ((.failed e, { stream with interruption := none }), f)
    | interruption =>
      let ((event, stream), store) := Backend.advance stream f.store
      ((event, { stream with interruption := approach event interruption }),
        { f with store := store })
  size f := Backend.size f.store

end Faulty

end PropertyGraph
