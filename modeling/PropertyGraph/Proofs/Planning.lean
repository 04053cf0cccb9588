/-
Plans as streams. Every step stands for one stage (`Step.stage`), and opening a plan puts the
stages one behind the other (`Plan.open_run`). Behind the first step of a query come only steps
that walk over what is there (`Step.Walks`, `Chain.walks_of_resolve`), so that the default
optimizer changes a plan at its start or not at all (`Optimizer.improve_default`).
-/
import PropertyGraph.Config
import PropertyGraph.Proofs.EngineRun
import PropertyGraph.Proofs.RecordOps
import PropertyGraph.Query

namespace PropertyGraph

/-! ## Steps as stages -/

/-- The stage of a step. -/
def Step.stage : Step → Stage
  | .dropGraph => .sink .dropGraph
  | .drop => .sink .drop
  | .count => .sink (.count 0)
  | .has key value => .filter (.having key value)
  | .property key value => .filter (.setting key value)
  | .id => .filter .ids
  | .label => .filter .labels
  | .valueMap keys => .filter (.valueMaps keys)
  | .properties keys => .expand (.properties keys) none
  | .limit n => .limit n
  | step => .expand (.step step) none

/-- The stages of steps behind a source. -/
def Stream.ofSteps (source : Stream) (steps : List Step) : Stream :=
  steps.foldl (fun s step => .through step.stage s) source

theorem Stream.ofSteps_append (source : Stream) (front behind : List Step) :
    source.ofSteps (front ++ behind) = (source.ofSteps front).ofSteps behind :=
  List.foldl_append

section Opening

variable {σ : Type} [Backend σ]

omit [Backend σ] in
theorem Stream.behind_eq (source : Stream) (step : Step) :
    (source.behind step : Run σ Stream) = pure (.through step.stage source) := by
  cases step <;> rfl

omit [Backend σ] in
theorem Stream.foldlM_behind (steps : List Step) (source : Stream) :
    (steps.foldlM Stream.behind source : Run σ Stream) = pure (source.ofSteps steps) := by
  induction steps generalizing source with
  | nil => rfl
  | cons step steps ih =>
    rw [List.foldlM_cons, Stream.behind_eq, pure_bind]
    exact ih _

omit [Backend σ] in
/-- Opening a plan that starts with the root. -/
theorem Plan.open_run {steps : List PlannedStep} {r : PlannedStep} (hroot : r.step = .root)
    (e : Engine σ) :
    (Plan.open ⟨r :: steps⟩).run.run e =
      (.ok ((Stream.given [.ok .graph]).ofSteps ((r :: steps).map (·.step))), e) := by
  obtain ⟨name, arguments, input, output, step⟩ := r
  obtain rfl : step = .root := hroot
  show ((liftM ((List.map (·.step) (_ :: steps)).foldlM Stream.behind (.given [.ok .graph]) :
    Run σ Stream) : Attempt σ Stream)).run.run e = _
  rw [Stream.foldlM_behind]
  rfl

omit [Backend σ] in
/-- Opening a chain whose plan needs no notice. -/
theorem Chain.openStream_run {o : Optimizer} {chain : Chain} {steps : List PlannedStep}
    (hplan : o.plan chain = .ok (⟨.root :: steps⟩, [])) (e : Engine σ) :
    (chain.openStream o).run.run e =
      (.ok ((Stream.given [.ok .graph]).ofSteps ((PlannedStep.root :: steps).map (·.step))), e) := by
  rw [openStream, plan, hplan]
  exact Plan.open_run (r := .root) rfl e

end Opening

theorem Optimizer.plan_of_resolve (o : Optimizer) {chain : Chain} {steps : List PlannedStep}
    (h : chain.resolve = .ok steps) :
    o.plan chain = .ok (⟨(o.improve steps).1⟩, (o.improve steps).2) := by
  rw [plan, h]
  rfl

/-! ## Steps that walk -/

/-- A step that goes over what is there, with arguments that were checked: it starts from no
graph, and creates nothing. -/
def Step.Walks : Step → Prop
  | .adjacent _ _ labels | .bothEdges labels => ∀ l ∈ labels, Key.isToken l = true
  | .property key _ => IsPropertyKey key
  | .has key _ => Key.isToken key = true
  | .edgeVertex _ | .drop | .id | .label | .properties _ | .valueMap _ | .limit _ | .count => True
  | .root | .vertices _ | .edges _ | .addVertex _ | .addEdge _ _ _ | .dropGraph
  | .verticesWithLabel _ => False

theorem bind_eq_ok {α β : Type} {x : Except Error α} {f : α → Except Error β} {b : β} :
    x >>= f = .ok b ↔ ∃ a, x = .ok a ∧ f a = .ok b := by
  cases x with
  | error err => simp [Bind.bind, Except.bind]
  | ok a => simp [Bind.bind, Except.bind]

namespace Arguments

theorem mapM_eq_ok {α β : Type} {f : α → Except Error β} {p : β → Prop}
    (hf : ∀ a b, f a = .ok b → p b) {l : List α} {bs : List β} (h : l.mapM f = .ok bs) :
    ∀ b ∈ bs, p b := by
  induction l generalizing bs with
  | nil =>
    rw [List.mapM_nil] at h
    cases h
    simp
  | cons a l ih =>
    rw [List.mapM_cons] at h
    obtain ⟨b, ha, h⟩ := bind_eq_ok.1 h
    obtain ⟨rest, hl, h⟩ := bind_eq_ok.1 h
    cases h
    intro x hx
    rcases List.mem_cons.1 hx with rfl | hx
    · exact hf a _ ha
    · exact ih hl x hx

theorem name_eq_ok {op : Operation} {arg : Json} {s : String} (h : name op arg = .ok s) :
    Key.isToken s = true := by
  cases arg with
  | str t =>
    obtain ⟨_, ht, h⟩ := bind_eq_ok.1 h
    cases h
    exact Validation.require_eq_ok.1 ht
  | _ => cases h

theorem mem_distinct {names : List String} {s : String} : s ∈ distinct names ↔ s ∈ names := by
  have hfold : ∀ seen : List String,
      s ∈ names.foldl (fun seen s => if seen.contains s then seen else s :: seen) seen ↔
        s ∈ names ∨ s ∈ seen := by
    induction names with
    | nil => simp
    | cons t names ih =>
      intro seen
      rw [List.foldl_cons, ih]
      split
      · rename_i h
        have ht : t ∈ seen := by simpa using h
        grind
      · grind
  rw [distinct, List.mem_reverse, hfold]
  simp

/-- Names are tokens. -/
theorem names_eq_ok {op : Operation} {args : List Json} {labels : List String}
    (h : names op args = .ok labels) : ∀ l ∈ labels, Key.isToken l = true := by
  have hall : ∀ items : List Json, (do return distinct (← items.mapM (name op))) = Except.ok labels →
      ∀ l ∈ labels, Key.isToken l = true := by
    intro items hitems
    obtain ⟨found, hfound, h⟩ := bind_eq_ok.1 hitems
    cases h
    intro l hl
    exact mapM_eq_ok (fun _ _ => name_eq_ok) hfound l (mem_distinct.1 hl)
  rw [names.eq_def] at h
  split at h
  · exact hall _ h
  · exact hall _ h

theorem filterKey_eq_ok {op : Operation} {arg : Option Json} {key : String}
    (h : filterKey op arg = .ok key) : Key.isToken key = true := by
  match arg with
  | some (.str k) =>
    simp only [filterKey] at h
    split at h
    · cases h
    · split at h
      · rename_i hreserved
        cases h
        rcases Bool.or_eq_true_iff.1 hreserved with hk | hk
        · rw [eq_of_beq hk]
          decide
        · rw [eq_of_beq hk]
          decide
      · obtain ⟨_, hk, h⟩ := bind_eq_ok.1 h
        cases h
        exact Validation.require_eq_ok.1 hk
  | none | some .null | some (.bool _) | some (.num _) | some (.arr _) | some (.obj _) => cases h

theorem propertyKey_eq_ok {op : Operation} {arg : Option Json} {key : String}
    (h : propertyKey op arg = .ok key) : IsPropertyKey key := by
  match arg with
  | some (.str k) =>
    obtain ⟨_, hk, h⟩ := bind_eq_ok.1 h
    cases h
    exact Validation.propertyKey_eq_ok.1 hk
  | none | some .null | some (.bool _) | some (.num _) | some (.arr _) | some (.obj _) => cases h

end Arguments

/-- What may follow elements and values walks. -/
theorem Step.walks_of_ofCall {op : Operation} {state : ResultType} {args : List Json} {step : Step}
    {rule : OperationRule} (hrule : state.rule? op = some rule) (hstate : state ≠ .graph)
    (h : Step.ofCall op state args = .ok step) : step.Walks := by
  have hnot : op ≠ .vertices ∧ op ≠ .edges ∧ op ≠ .addVertex ∧ op ≠ .addEdge := by
    cases state with
    | graph => exact absurd rfl hstate
    | vertex | edge | value => refine ⟨?_, ?_, ?_, ?_⟩ <;> rintro rfl <;> cases hrule
  cases op with
  | vertices => exact absurd rfl hnot.1
  | edges => exact absurd rfl hnot.2.1
  | addVertex => exact absurd rfl hnot.2.2.1
  | addEdge => exact absurd rfl hnot.2.2.2
  | drop =>
    obtain ⟨_, -, h⟩ := bind_eq_ok.1 h
    have hne : (state == .graph) = false := by simpa using hstate
    rw [hne] at h
    cases h
    trivial
  | outVertices | inVertices | outEdges | inEdges | bothEdges =>
    obtain ⟨labels, hlabels, h⟩ := bind_eq_ok.1 h
    cases h
    exact Arguments.names_eq_ok hlabels
  | outVertex | inVertex | bothVertices | id | label | count =>
    obtain ⟨_, -, h⟩ := bind_eq_ok.1 h
    cases h
    trivial
  | otherVertex =>
    obtain ⟨_, -, h⟩ := bind_eq_ok.1 h
    obtain ⟨_, -, h⟩ := bind_eq_ok.1 h
    cases h
    trivial
  | has =>
    obtain ⟨_, -, h⟩ := bind_eq_ok.1 h
    obtain ⟨key, hkey, h⟩ := bind_eq_ok.1 h
    obtain ⟨_, -, h⟩ := bind_eq_ok.1 h
    cases h
    exact Arguments.filterKey_eq_ok hkey
  | property =>
    obtain ⟨_, -, h⟩ := bind_eq_ok.1 h
    obtain ⟨key, hkey, h⟩ := bind_eq_ok.1 h
    obtain ⟨_, -, h⟩ := bind_eq_ok.1 h
    cases h
    exact Arguments.propertyKey_eq_ok hkey
  | properties | valueMap =>
    obtain ⟨_, -, h⟩ := bind_eq_ok.1 h
    cases h
    trivial
  | limit =>
    obtain ⟨_, -, h⟩ := bind_eq_ok.1 h
    obtain ⟨_, -, h⟩ := bind_eq_ok.1 h
    cases h
    trivial

theorem Step.op_vertices {op : Operation} {state : ResultType} {args : List Json} {ids : Selection}
    (h : Step.ofCall op state args = .ok (.vertices ids)) : op = .vertices := by
  cases op with
  | vertices => rfl
  | drop =>
    obtain ⟨_, -, h⟩ := bind_eq_ok.1 h
    split at h <;> cases h
  | _ => simp [Step.ofCall, bind_eq_ok, pure, Except.pure] at h

theorem Step.op_has {op : Operation} {state : ResultType} {args : List Json} {key : String}
    {value : Json} (h : Step.ofCall op state args = .ok (.has key value)) : op = .has := by
  cases op with
  | has => rfl
  | drop =>
    obtain ⟨_, -, h⟩ := bind_eq_ok.1 h
    split at h <;> cases h
  | _ => simp [Step.ofCall, bind_eq_ok, pure, Except.pure] at h

theorem Step.op_drop {op : Operation} {state : ResultType} {args : List Json}
    (h : Step.ofCall op state args = .ok .drop) : op = .drop := by
  cases op with
  | drop => rfl
  | _ => simp [Step.ofCall, bind_eq_ok, pure, Except.pure] at h

namespace Chain

theorem rule_output_ne {state : ResultType} {op : Operation} {rule : OperationRule}
    (h : state.rule? op = some rule) : rule.output ≠ .graph := by
  have hall : ∀ rule ∈ state.rules, rule.output ≠ .graph := by cases state <;> decide
  exact hall rule (List.mem_of_find?_eq_some h)

theorem resolve_eq_ok {state : ResultType} {op : Operation} {rule : OperationRule}
    (h : state.resolve op = .ok rule) : state.rule? op = some rule := by
  rw [ResultType.resolve] at h
  split at h
  · rename_i found hfound
    cases h
    exact hfound
  · cases h

/-- Every step behind a result that is not the graph walks. -/
theorem walks_of_resolveFrom {chain : Chain} {state : ResultType} {steps : List PlannedStep}
    (h : resolveFrom state chain = .ok steps) (hstate : state ≠ .graph) :
    ∀ s ∈ steps, s.step.Walks := by
  induction chain generalizing state steps with
  | nil =>
    cases h
    simp
  | cons call rest ih =>
    obtain ⟨rule, hrule, h⟩ := bind_eq_ok.1 h
    obtain ⟨step, hstep, h⟩ := bind_eq_ok.1 h
    obtain ⟨others, hothers, h⟩ := bind_eq_ok.1 h
    cases h
    have hfound := resolve_eq_ok hrule
    intro s hs
    rcases List.mem_cons.1 hs with rfl | hs
    · exact Step.walks_of_ofCall hfound hstate hstep
    · exact ih hothers (rule_output_ne hfound) s hs

/-- The step of a call, wherever it stands in a chain. -/
theorem exists_call {chain : Chain} {a : ResultType} {steps : List PlannedStep}
    (h : resolveFrom a chain = .ok steps) {s : PlannedStep} (hs : s ∈ steps) :
    ∃ call ∈ chain, Step.ofCall call.operation s.input call.arguments = .ok s.step := by
  induction chain generalizing a steps with
  | nil =>
    cases h
    cases hs
  | cons call rest ih =>
    obtain ⟨rule, -, h⟩ := bind_eq_ok.1 h
    obtain ⟨step, hstep, h⟩ := bind_eq_ok.1 h
    obtain ⟨others, hothers, h⟩ := bind_eq_ok.1 h
    cases h
    rcases List.mem_cons.1 hs with rfl | hs
    · exact ⟨call, List.mem_cons_self, hstep⟩
    · obtain ⟨c, hc, hstep⟩ := ih hothers hs
      exact ⟨c, List.mem_cons_of_mem _ hc, hstep⟩

/-- A chain resolves to the root, a step that starts from the graph, and steps that walk. -/
theorem walks_of_resolve {chain : Chain} {steps : List PlannedStep} (h : chain.resolve = .ok steps) :
    ∃ first rest, steps = .root :: first :: rest ∧ ∀ s ∈ rest, s.step.Walks := by
  obtain ⟨_, hne, h⟩ := bind_eq_ok.1 h
  obtain ⟨found, hfound, h⟩ := bind_eq_ok.1 h
  cases h
  cases chain with
  | nil => cases hne
  | cons call rest =>
    obtain ⟨rule, hrule, h⟩ := bind_eq_ok.1 hfound
    obtain ⟨step, -, h⟩ := bind_eq_ok.1 h
    obtain ⟨others, hothers, h⟩ := bind_eq_ok.1 h
    cases h
    exact ⟨_, others, rfl, walks_of_resolveFrom hothers (rule_output_ne (resolve_eq_ok hrule))⟩

end Chain

/-! ## The default optimizer -/

theorem Config.optimizer_cases (c : Config) : c.optimizer = .default ∨ c.optimizer = .none := by
  rw [Config.optimizer]
  split
  · exact .inl rfl
  · exact .inr rfl

namespace Rule

theorem replace_of_ne {first second : PlannedStep} (h : first.step ≠ .vertices .all) :
    vertexLabelScan.1.replace [first, second] = none := by
  simp only [vertexLabelScan]
  split
  · rename_i hfirst _
    exact absurd hfirst h
  · rfl

theorem replace_eq_some {steps replacement : List PlannedStep}
    (h : vertexLabelScan.1.replace steps = some replacement) :
    ∃ first second l, steps = [first, second] ∧ first.step = .vertices .all ∧
      second.step = .has Key.labelToken (.str l) ∧ Key.isToken l = true ∧ replacement =
        [⟨"labelScan", [.str l], first.input, second.output, .verticesWithLabel l⟩] := by
  simp only [vertexLabelScan] at h
  split at h
  · rename_i first second
    split at h
    · rename_i key l hfirst hsecond
      split at h
      · rename_i hkey
        obtain ⟨hlabel, htoken⟩ := Bool.and_eq_true_iff.1 hkey
        cases h
        rw [beq_iff_eq] at hlabel
        exact ⟨first, second, l, rfl, hfirst, hlabel ▸ hsecond, htoken, rfl⟩
      · cases h
    · cases h
  · cases h

theorem replaceFront_of_none {r : PlanRule} {steps : List PlannedStep}
    (h : r.replace (steps.take r.window) = none) : r.replaceFront steps = (steps, []) := by
  simp only [PlanRule.replaceFront, h]

/-- Where no scan of all vertices is ahead, nothing is replaced. -/
theorem sweep_of_ne {fuel : Nat} {steps : List PlannedStep}
    (h : ∀ s ∈ steps, s.step ≠ .vertices .all) (hfuel : steps.length < fuel) :
    vertexLabelScan.1.sweep? fuel steps = some (steps, []) := by
  induction fuel generalizing steps with
  | zero => omega
  | succ fuel ih =>
    match steps with
    | [] | [_] => rfl
    | first :: second :: rest =>
      have hnone : vertexLabelScan.1.replaceFront (first :: second :: rest) =
          (first :: second :: rest, []) :=
        replaceFront_of_none (replace_of_ne (h first (by simp)))
      have hrest : vertexLabelScan.1.sweep? fuel (second :: rest) = some (second :: rest, []) :=
        ih (fun s hs => h s (List.mem_cons_of_mem _ hs)) (by simpa using hfuel)
      rw [PlanRule.sweep?, if_neg (by simp [vertexLabelScan]), hnone]
      dsimp only
      rw [hrest]
      rfl

end Rule

namespace Optimizer

theorem improve_of_sweep {steps found : List PlannedStep}
    (h : Rule.vertexLabelScan.1.sweep? (steps.length + 1) steps = some (found, [])) :
    default.improve steps = (found, []) := by
  have happly : Rule.vertexLabelScan.apply steps = (found, []) := by
    rw [SafeRule.apply]
    exact Option.get_of_eq_some _ h
  have hrules : default.improve steps =
      ((Rule.vertexLabelScan.apply steps).1, [] ++ (Rule.vertexLabelScan.apply steps).2) := rfl
  rw [hrules, happly]
  rfl

section Default

variable {first : PlannedStep} {rest : List PlannedStep}

theorem improve_of_sweep_rest {found : List PlannedStep}
    (h : Rule.vertexLabelScan.1.sweep? (rest.length + 2) (first :: rest) = some (found, [])) :
    default.improve (.root :: first :: rest) = (.root :: found, []) := by
  have hroot : Rule.vertexLabelScan.1.replaceFront (.root :: first :: rest) =
      (.root :: first :: rest, []) :=
    Rule.replaceFront_of_none (r := Rule.vertexLabelScan.1) (Rule.replace_of_ne (by simp [PlannedStep.root]))
  apply improve_of_sweep
  rw [PlanRule.sweep?, if_neg (by simp [Rule.vertexLabelScan]), hroot]
  dsimp only
  rw [List.length_cons, List.length_cons, h]
  rfl

theorem ne_vertices_of_walks (hrest : ∀ s ∈ rest, s.step.Walks) :
    ∀ s ∈ rest, s.step ≠ .vertices .all := by
  intro s hs h
  have := hrest s hs
  rw [h] at this
  exact this

/-- Where the first two steps have no replacement, nothing is changed. -/
theorem improve_default_of_none (hrest : ∀ s ∈ rest, s.step.Walks)
    (h : Rule.vertexLabelScan.1.replace ((first :: rest).take 2) = Option.none) :
    default.improve (.root :: first :: rest) = (.root :: first :: rest, []) := by
  apply improve_of_sweep_rest
  have hfront := Rule.replaceFront_of_none (r := Rule.vertexLabelScan.1) h
  cases rest with
  | nil => rfl
  | cons second others =>
    rw [PlanRule.sweep?, if_neg (by simp [Rule.vertexLabelScan]), hfront]
    dsimp only
    rw [Rule.sweep_of_ne (ne_vertices_of_walks hrest) (by simp)]
    rfl

/-- Where they have one, nothing else is changed. -/
theorem improve_default_of_some {replacement : List PlannedStep}
    (hrest : ∀ s ∈ rest, s.step.Walks)
    (h : Rule.vertexLabelScan.1.replace ((first :: rest).take 2) = some replacement) :
    default.improve (.root :: first :: rest) = (.root :: (replacement ++ rest.tail), []) := by
  obtain ⟨first', second, l, hsteps, -, -, -, rfl⟩ := Rule.replace_eq_some h
  cases rest with
  | nil => cases hsteps
  | cons second' others =>
    obtain ⟨rfl, rfl⟩ : first = first' ∧ second' = second := by simpa using hsteps
    have hfront : Rule.vertexLabelScan.1.replaceFront (first :: second' :: others) =
        (⟨"labelScan", [.str l], first.input, second'.output, .verticesWithLabel l⟩ :: others, []) := by
      simp only [PlanRule.replaceFront]
      rw [show (first :: second' :: others).take Rule.vertexLabelScan.1.window =
        (first :: second' :: others).take 2 from rfl, h]
      simp [PlanRule.lastOutput?, Rule.vertexLabelScan]
    apply improve_of_sweep_rest
    rw [PlanRule.sweep?, if_neg (by simp [Rule.vertexLabelScan]), hfront]
    dsimp only
    rw [Rule.sweep_of_ne
      (fun s hs => ne_vertices_of_walks hrest s (List.mem_cons_of_mem _ hs))
      (by simp only [List.length_cons]; omega)]
    rfl

/-- The default optimizer puts a scan of a label in the place of a scan of all vertices that
are then kept by their label, and changes nothing else. -/
theorem improve_default (hrest : ∀ s ∈ rest, s.step.Walks) :
    default.improve (.root :: first :: rest) = (.root :: first :: rest, []) ∨
      ∃ second others l, rest = second :: others ∧ first.step = .vertices .all ∧
        second.step = .has Key.labelToken (.str l) ∧ Key.isToken l = true ∧
        default.improve (.root :: first :: rest) = (.root ::
          ⟨"labelScan", [.str l], first.input, second.output, .verticesWithLabel l⟩ :: others, []) := by
  cases hreplace : Rule.vertexLabelScan.1.replace ((first :: rest).take 2) with
  | none => exact .inl (improve_default_of_none hrest hreplace)
  | some replacement =>
    right
    have himprove := improve_default_of_some hrest hreplace
    obtain ⟨first', second, l, hsteps, hfirst, hsecond, htoken, rfl⟩ := Rule.replace_eq_some hreplace
    cases rest with
    | nil => cases hsteps
    | cons second' others =>
      obtain ⟨rfl, rfl⟩ : first = first' ∧ second' = second := by simpa using hsteps
      exact ⟨second', others, l, rfl, hfirst, hsecond, htoken, himprove⟩

end Default

end Optimizer

end PropertyGraph
