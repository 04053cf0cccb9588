/-
Improving plans. A rule looks at every window of its width, from left to right; where it
has a replacement that ends in the same type, the replacement is put in, and the rule goes
on behind the first step of it. A replacement of another type is noted and left out.

A rule may be any function, and one whose replacements are longer than its window need
not come to an end: `PlanRule.sweep?` takes the number of windows it may look at. A rule
that never grows a plan always comes to an end (`PlanRule.isSome_sweep?`), and an
optimizer holds rules of that kind only.
-/
import PropertyGraph.Notice
import PropertyGraph.Plan.Resolve

namespace PropertyGraph

/-- A rule that may replace some steps of a plan by others. -/
structure PlanRule where
  name : String
  /-- How many steps it looks at; with none it is never asked. -/
  window : Nat
  replace : List PlannedStep → Option (List PlannedStep)

namespace PlanRule

/-- The type a list of steps ends in. -/
def lastOutput? (steps : List PlannedStep) : Option ResultType :=
  steps.getLast?.map (·.output)

/-- What the rule makes of the steps from a place on, and what is noted. -/
def replaceFront (r : PlanRule) (steps : List PlannedStep) :
    List PlannedStep × List Notice :=
  let front := steps.take r.window
  match r.replace front with
  | none => (steps, [])
  | some replacement =>
    if lastOutput? replacement == lastOutput? front then
      (replacement ++ steps.drop r.window, [])
    else (steps, [.ruleSkipped r.name])

/-- Goes through the steps, looking at `fuel` windows at most; nothing if there would be
more to look at. -/
def sweep? (r : PlanRule) : (fuel : Nat) → List PlannedStep →
    Option (List PlannedStep × List Notice)
  | 0, _ => none
  | fuel + 1, steps =>
    if steps.length < r.window then some (steps, [])
    else
      match r.replaceFront steps with
      | ([], notices) => some ([], notices)
      | (step :: rest, notices) =>
        (sweep? r fuel rest).map fun (rest, more) => (step :: rest, notices ++ more)

/-- Applies the rule to a plan. -/
def run? (r : PlanRule) (fuel : Nat) (steps : List PlannedStep) :
    Option (List PlannedStep × List Notice) :=
  if r.window == 0 then some (steps, []) else r.sweep? fuel steps

/-- No replacement is longer than what it replaces. -/
def NeverGrows (r : PlanRule) : Prop :=
  ∀ steps replacement, r.replace steps = some replacement → replacement.length ≤ steps.length

theorem length_replaceFront_le {r : PlanRule} (h : r.NeverGrows) (steps : List PlannedStep) :
    (r.replaceFront steps).1.length ≤ steps.length := by
  simp only [replaceFront]
  split
  · simp
  · rename_i replacement hr
    split
    · have := h _ _ hr
      simp only [List.length_take] at this
      simp only [List.length_append, List.length_drop]
      omega
    · simp

/-- A rule that never grows a plan looks at no more windows than there are steps. -/
theorem isSome_sweep? {r : PlanRule} (h : r.NeverGrows) {fuel : Nat}
    {steps : List PlannedStep} (hf : steps.length < fuel) : (r.sweep? fuel steps).isSome := by
  induction fuel generalizing steps with
  | zero => omega
  | succ fuel ih =>
    simp only [sweep?]
    split
    · rfl
    · have hle := length_replaceFront_le h steps
      split
      · rfl
      · rename_i step rest notices hfront
        rw [hfront] at hle
        simp only [List.length_cons] at hle
        simpa using @ih rest (by omega)

theorem isSome_run? {r : PlanRule} (h : r.NeverGrows) (steps : List PlannedStep) :
    (r.run? (steps.length + 1) steps).isSome := by
  simp only [run?]
  split
  · rfl
  · exact isSome_sweep? h (Nat.lt_succ_self _)

end PlanRule

/-- Applies rules one after the other, each looking at `fuel` windows at most. -/
def sweepAll? (fuel : Nat) : List PlanRule → List PlannedStep →
    Option (List PlannedStep × List Notice)
  | [], steps => some (steps, [])
  | r :: rules, steps => do
    let (steps, notices) ← r.run? fuel steps
    let (steps, more) ← sweepAll? fuel rules steps
    return (steps, notices ++ more)

/-- A rule that never grows a plan. -/
abbrev SafeRule := { r : PlanRule // r.NeverGrows }

/-- Applies a rule to a plan. -/
def SafeRule.apply (r : SafeRule) (steps : List PlannedStep) : List PlannedStep × List Notice :=
  (r.1.run? (steps.length + 1) steps).get (PlanRule.isSome_run? r.2 steps)

/-- The rules plans are improved by, in their order. -/
structure Optimizer where
  rules : List SafeRule

namespace Optimizer

/-- No rules. -/
def none : Optimizer := ⟨[]⟩

/-- Adds a rule behind the others. -/
def withRule (o : Optimizer) (r : SafeRule) : Optimizer := ⟨o.rules ++ [r]⟩

def ruleNames (o : Optimizer) : List String := o.rules.map (·.1.name)

/-- Applies every rule. -/
def improve (o : Optimizer) (steps : List PlannedStep) : List PlannedStep × List Notice :=
  o.rules.foldl
    (fun (steps, notices) r =>
      let (steps, more) := r.apply steps
      (steps, notices ++ more))
    (steps, [])

/-- The plan of a chain, and what is noted in making it. -/
def plan (o : Optimizer) (chain : Chain) : Except Error (Plan × List Notice) := do
  let (steps, notices) := o.improve (← chain.resolve)
  return (⟨steps⟩, notices)

end Optimizer

end PropertyGraph
