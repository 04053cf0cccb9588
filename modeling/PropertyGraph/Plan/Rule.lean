/-
The rules that come with the library. Only `vertexLabelScan` is on by default; the others
are there for a host to add.
-/
import PropertyGraph.Plan.Optimizer

namespace PropertyGraph.Rule

/-- `V().has('label', l)` becomes one scan of the entries of the label, in place of a scan
of all vertices with a read of each label. -/
def vertexLabelScan : SafeRule where
  val := {
    name := "vertex-label-scan"
    window := 2
    replace := fun
      | [first, second] =>
        match first.step, second.step with
        | .vertices .all, .has key (.str label) =>
          if key == Key.labelToken && Key.isToken label then
            some [⟨"labelScan", [.str label], first.input, second.output,
              .verticesWithLabel label⟩]
          else none
        | _, _ => none
      | _ => none }
  property := by
    intro steps replacement h
    simp only at h
    split at h
    · split at h
      · split at h
        · injection h with h; subst h; simp
        · contradiction
      · contradiction
    · contradiction

/-- A limit of one or more behind a count limits nothing. -/
def limitAfterCount : SafeRule where
  val := {
    name := "limit-after-count"
    window := 2
    replace := fun
      | [first, second] =>
        match first.step, second.step with
        | .count, .limit n => if 1 ≤ n then some [first] else none
        | _, _ => none
      | _ => none }
  property := by
    intro steps replacement h
    simp only at h
    split at h
    · split at h
      · split at h
        · injection h with h; subst h; simp
        · contradiction
      · contradiction
    · contradiction

/-- Of two limits in a row the lower one remains. -/
def mergeLimits : SafeRule where
  val := {
    name := "merge-limits"
    window := 2
    replace := fun
      | [first, second] =>
        match first.step, second.step with
        | .limit a, .limit b =>
          let n := if a ≤ b then a else b
          some [{ first with arguments := [.nat n], step := .limit n }]
        | _, _ => none
      | _ => none }
  property := by
    intro steps replacement h
    simp only at h
    split at h
    · split at h
      · injection h with h; subst h; simp
      · contradiction
    · contradiction

/-- A rule for steps one by one. -/
def onEachStep (name : String) (replace : PlannedStep → Option PlannedStep) : SafeRule where
  val := {
    name := name
    window := 1
    replace := fun
      | [step] => (replace step).map ([·])
      | _ => none }
  property := by
    intro steps replacement h
    simp only at h
    split at h
    · simp only [Option.map_eq_some_iff] at h
      obtain ⟨s, -, rfl⟩ := h
      simp
    · contradiction

/-- Would put a count in the place of a step that yields vertices. It changes the type of
the result, so it is always left out. -/
def typeChanging : SafeRule :=
  onEachStep "type-changing" fun s =>
    if s.output == .vertex then some { s with name := "count", output := .value, step := .count }
    else none

/-- Makes the root a count, so that the plan no longer starts with the root. -/
def rootless : SafeRule :=
  onEachStep "rootless" fun s =>
    if s.step = .root then some { s with name := "count", step := .count } else none

/-- Makes a count of values ask for ids, which values do not have. -/
def countAsId : SafeRule :=
  onEachStep "count-as-id" fun s =>
    if s.step = .count ∧ s.input = .value then some { s with name := "id", step := .id }
    else none

/-- Would erase every step; it is always left out. -/
def erase : SafeRule where
  val := ⟨"erase", 1, fun _ => some []⟩
  property := by
    intro steps replacement h
    injection h with h
    subst h
    simp

/-- A rule that looks at nothing and so is never asked. -/
def zeroWindow : SafeRule where
  val := ⟨"zero-window", 0, fun _ => some []⟩
  property := erase.property

/-- The rules a host can add. -/
def all : List SafeRule :=
  [vertexLabelScan, limitAfterCount, mergeLimits, typeChanging, rootless, countAsId, erase,
    zeroWindow]

/-- The rule of a name. -/
def ofName? (name : String) : Option SafeRule := all.find? (·.1.name == name)

end PropertyGraph.Rule

namespace PropertyGraph.Optimizer

/-- The rules that are on by default. -/
def default : Optimizer := ⟨[Rule.vertexLabelScan]⟩

end PropertyGraph.Optimizer
