/-
Drawing on a query: item by item, or to its end. A query that writes what it reads may go
on for long, so each run has a budget: the pieces of work it may do.
-/
import PropertyGraph.Stream.Basic

namespace PropertyGraph

variable {σ β : Type} [Backend σ]

/-- What a pull brings. -/
inductive Pulled where
  | item (item : Item) (rest : Stream)
  | ended
  /-- The budget was used up before an item came. -/
  | unfinished (rest : Stream)

namespace Stream

/-- A budget that no run uses up. -/
def plenty : Nat := 1000000000000

/-- Works on a stream until it brings an item or ends. -/
def pull : (budget : Nat) → Stream → Run σ Pulled
  | 0, s => return .unfinished s
  | budget + 1, s => do
    let (event, rest) ← s.advance
    match event with
    | .item item => return .item item rest
    | .skip => pull budget rest
    | .done => return .ended

/-- Pulls up to `n` items. The stream comes back with them unless it ended. -/
def take (budget : Nat) : (n : Nat) → Stream → Run σ (List Item × Option Stream)
  | 0, s => return ([], some s)
  | n + 1, s => do
    match ← s.pull budget with
    | .item item rest =>
      let (items, left) ← take budget n rest
      return (item :: items, left)
    | .ended => return ([], none)
    | .unfinished rest => return ([], some rest)

/-- Runs through the items to the end of a stream; `f` may stop it with an error. Nothing
if the budget is used up first. -/
def fold? (f : β → Item → Except Error β) : (budget : Nat) → β → Stream → Attempt σ (Option β)
  | 0, _, _ => return none
  | budget + 1, b, s => do
    let (event, rest) ← (s.advance : Run σ _)
    match event with
    | .item item => fold? f budget (← MonadExcept.ofExcept (f b item)) rest
    | .skip => fold? f budget b rest
    | .done => return some b

/-- All items, the errors in their places. -/
def items? (budget : Nat) (s : Stream) : Attempt σ (Option (List Item)) :=
  return (← s.fold? (fun found item => .ok (item :: found)) budget []).map List.reverse

/-- All results. The first error ends the run. -/
def results? (budget : Nat) (s : Stream) : Attempt σ (Option (List Json)) :=
  return (← s.fold? (fun found item => item.map (·.toJson :: found)) budget []).map List.reverse

/-- The results before the first error or the end, and that error. -/
def untilError : (budget : Nat) → Stream → Run σ (List Json × Option Error)
  | 0, _ => return ([], none)
  | budget + 1, s => do
    let (event, rest) ← s.advance
    match event with
    | .item (.ok t) =>
      let (values, e) ← untilError budget rest
      return (t.toJson :: values, e)
    | .item (.error e) => return ([], some e)
    | .skip => untilError budget rest
    | .done => return ([], none)

/-- Runs a stream for its effects. The first error ends the run. -/
def exhaust? (budget : Nat) (s : Stream) : Attempt σ (Option Unit) :=
  s.fold? (fun _ item => item.map fun _ => ()) budget ()

end Stream

end PropertyGraph
