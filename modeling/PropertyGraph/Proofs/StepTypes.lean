/-
The types of steps. `Step.output?` says what a step makes of items of a type, if it takes such
items at all; it agrees with the grammar on every step an operation resolves to
(`Step.output?_of_ofCall`). So each step of a plan takes what the one before it yields, with and
without the default optimizer (`Config.plan_typed`).
-/
import PropertyGraph.Proofs.Interleaving

namespace PropertyGraph

namespace ElementKind

/-- The type of the items that stand for elements of a kind. -/
def type : ElementKind → ResultType
  | .vertex => .vertex
  | .edge => .edge

end ElementKind

/-- Whether items of a type stand for elements. -/
def ResultType.isElement : ResultType → Bool
  | .vertex | .edge => true
  | .graph | .value => false

namespace Step

/-- What a step makes of items of a type, if it takes such items. -/
def output? : Step → ResultType → Option ResultType
  | .root, .graph => some .graph
  | .vertices _, .graph | .addVertex _, .graph | .verticesWithLabel _, .graph => some .vertex
  | .edges _, .graph | .addEdge _ _ _, .graph => some .edge
  | .dropGraph, .graph => some .value
  | .adjacent _ adjacency _, .vertex => some adjacency.type
  | .bothEdges _, .vertex => some .edge
  | .edgeVertex _, .edge => some .vertex
  | .has _ _, state | .property _ _, state => if state.isElement then some state else none
  | .drop, state | .id, state | .label, state | .properties _, state | .valueMap _, state =>
    if state.isElement then some .value else none
  | .limit _, state => some state
  | .count, _ => some .value
  | _, _ => none

/-- The texts that a step puts into records it creates. -/
def created : Step → List String
  | .addVertex l => [l]
  | .addEdge l source target => [l, source, target]
  | _ => []

/-- A step whose arguments were checked, also where it creates something. -/
structure Valid (step : Step) : Prop where
  checked : step.Checked
  created : ∀ s ∈ step.created, Key.isToken s = true

theorem Walks.created_eq {step : Step} (h : step.Walks) : step.created = [] := by
  cases step with
  | addVertex | addEdge => cases h
  | _ => rfl

/-- The type checker agrees with the grammar. -/
theorem output?_of_ofCall {op : Operation} {state : ResultType} {args : List Json} {step : Step}
    {rule : OperationRule} (hrule : state.rule? op = some rule)
    (h : ofCall op state args = .ok step) : step.output? state = some rule.output := by
  cases op with
  | vertices | edges | outVertices | inVertices | outEdges | inEdges | bothEdges | properties
  | valueMap =>
    obtain ⟨_, -, h⟩ := bind_eq_ok.1 h
    cases h
    cases state <;> cases hrule <;> rfl
  | addVertex | otherVertex | limit =>
    obtain ⟨_, -, h⟩ := bind_eq_ok.1 h
    obtain ⟨_, -, h⟩ := bind_eq_ok.1 h
    cases h
    cases state <;> cases hrule <;> rfl
  | addEdge =>
    obtain ⟨_, -, h⟩ := bind_eq_ok.1 h
    obtain ⟨_, -, h⟩ := bind_eq_ok.1 h
    obtain ⟨_, -, h⟩ := bind_eq_ok.1 h
    obtain ⟨_, -, h⟩ := bind_eq_ok.1 h
    cases h
    cases state <;> cases hrule
    rfl
  | has | property =>
    obtain ⟨_, -, h⟩ := bind_eq_ok.1 h
    obtain ⟨_, -, h⟩ := bind_eq_ok.1 h
    obtain ⟨_, -, h⟩ := bind_eq_ok.1 h
    cases h
    cases state <;> cases hrule <;> rfl
  | drop | outVertex | inVertex | bothVertices | id | label | count =>
    obtain ⟨_, -, h⟩ := bind_eq_ok.1 h
    cases h
    cases state <;> cases hrule <;> rfl

end Step

namespace Arguments

theorem label_eq_ok {op : Operation} {arg : Option Json} {l : String}
    (h : label op arg = .ok l) : Key.isToken l = true := by
  match arg with
  | some (.str s) =>
    obtain ⟨_, hs, h⟩ := bind_eq_ok.1 h
    cases h
    exact Validation.label_eq_ok.1 hs
  | none | some .null | some (.bool _) | some (.num _) | some (.arr _) | some (.obj _) => cases h

theorem endpoint_eq_ok {op : Operation} {arg : Option Json} {id : String}
    (h : endpoint op arg = .ok id) : Key.isToken id = true := by
  match arg with
  | some (.str s) =>
    obtain ⟨_, hs, h⟩ := bind_eq_ok.1 h
    cases h
    exact Validation.endpoint_eq_ok.1 hs
  | none | some .null | some (.bool _) | some (.num _) | some (.arr _) | some (.obj _) => cases h

end Arguments

/-- What a call creates is made of tokens. -/
theorem Step.valid_of_ofCall {op : Operation} {state : ResultType} {args : List Json} {step : Step}
    (h : ofCall op state args = .ok step) : step.Valid := by
  refine ⟨checked_of_ofCall h, ?_⟩
  have hwalks : ∀ state {rule}, state ≠ .graph → state.rule? op = some rule →
      ofCall op state args = .ok step → ∀ s ∈ step.created, Key.isToken s = true := by
    intro state rule hne hrule h
    rw [(walks_of_ofCall hrule hne h).created_eq]
    simp
  cases op with
  | addVertex =>
    obtain ⟨_, -, h⟩ := bind_eq_ok.1 h
    obtain ⟨l, hl, h⟩ := bind_eq_ok.1 h
    cases h
    simpa [created] using Arguments.label_eq_ok hl
  | addEdge =>
    obtain ⟨_, -, h⟩ := bind_eq_ok.1 h
    obtain ⟨l, hl, h⟩ := bind_eq_ok.1 h
    obtain ⟨s, hs, h⟩ := bind_eq_ok.1 h
    obtain ⟨t, ht, h⟩ := bind_eq_ok.1 h
    cases h
    simpa [created] using
      ⟨Arguments.label_eq_ok hl, Arguments.endpoint_eq_ok hs, Arguments.endpoint_eq_ok ht⟩
  | vertices | edges =>
    obtain ⟨_, -, h⟩ := bind_eq_ok.1 h
    cases h
    simp [created]
  | drop =>
    obtain ⟨_, -, h⟩ := bind_eq_ok.1 h
    cases h
    split <;> simp [created]
  | outVertex | inVertex | bothVertices | otherVertex =>
    exact hwalks .edge (by simp) rfl h
  | _ => exact hwalks .vertex (by simp) rfl h

/-! ## Plans -/

/-- A planned step that yields what it says, with arguments that were checked. -/
structure PlannedStep.Typed (s : PlannedStep) : Prop where
  output : s.step.output? s.input = some s.output
  valid : s.step.Valid

/-- Each step takes what the one before it yields. -/
def PlannedStep.Linked : List PlannedStep → Prop :=
  List.IsChain fun before behind => behind.input = before.output

namespace Chain

/-- What a chain resolves to is typed, each step takes what the one before it yields, and the
first takes items of the type the chain follows. -/
theorem typed_of_resolveFrom {chain : Chain} {state : ResultType} {steps : List PlannedStep}
    (h : resolveFrom state chain = .ok steps) :
    (∀ s ∈ steps, s.Typed) ∧ PlannedStep.Linked steps ∧ ∀ s ∈ steps.head?, s.input = state := by
  induction chain generalizing state steps with
  | nil =>
    cases h
    exact ⟨by simp, .nil, by simp⟩
  | cons call rest ih =>
    obtain ⟨rule, hrule, h⟩ := bind_eq_ok.1 h
    obtain ⟨step, hstep, h⟩ := bind_eq_ok.1 h
    obtain ⟨others, hothers, h⟩ := bind_eq_ok.1 h
    cases h
    obtain ⟨htyped, hlinked, hhead⟩ := ih hothers
    refine ⟨?_, .cons hlinked hhead, by simp⟩
    rintro s (_ | ⟨_, hs⟩)
    · exact ⟨Step.output?_of_ofCall (resolve_eq_ok hrule) hstep, Step.valid_of_ofCall hstep⟩
    · exact htyped s hs

end Chain

/-- A plan that starts with the root, whose steps are typed and linked; only the step behind the
root does not walk. -/
structure Plan.Sound (plan : Plan) : Prop where
  start : ∃ first rest, plan.steps = .root :: first :: rest ∧ ∀ s ∈ rest, s.step.Walks
  typed : ∀ s ∈ plan.steps, s.Typed
  linked : PlannedStep.Linked plan.steps

theorem PlannedStep.typed_root : PlannedStep.root.Typed := ⟨rfl, trivial, by simp [root, Step.created]⟩

theorem Chain.sound_of_resolve {chain : Chain} {steps : List PlannedStep}
    (h : chain.resolve = .ok steps) : Plan.Sound ⟨steps⟩ := by
  obtain ⟨first, rest, rfl, hwalks⟩ := walks_of_resolve h
  obtain ⟨_, -, h⟩ := bind_eq_ok.1 h
  obtain ⟨found, hfound, h⟩ := bind_eq_ok.1 h
  cases h
  obtain ⟨htyped, hlinked, hhead⟩ := typed_of_resolveFrom hfound
  refine ⟨⟨first, rest, rfl, hwalks⟩, ?_, .cons hlinked hhead⟩
  rintro s (_ | ⟨_, hs⟩)
  · exact PlannedStep.typed_root
  · exact htyped s hs

/-- The scan of a label takes the place of two steps without breaking the links. -/
theorem Plan.Sound.labelScan {first second : PlannedStep} {others : List PlannedStep} {l : String}
    (h : Plan.Sound ⟨.root :: first :: second :: others⟩) (hfirst : first.step = .vertices .all)
    (hsecond : second.step = .has Key.labelToken (.str l)) (hl : Key.isToken l = true) :
    Plan.Sound ⟨.root :: ⟨"labelScan", [.str l], first.input, second.output,
      .verticesWithLabel l⟩ :: others⟩ := by
  obtain ⟨⟨_, _, hsteps, hwalks⟩, htyped, hlinked⟩ := h
  cases hsteps
  obtain ⟨htake, hlinked⟩ := List.isChain_cons_cons.1 hlinked
  obtain ⟨hnext, hlinked⟩ := List.isChain_cons_cons.1 hlinked
  have hinput : first.input = .graph := htake
  have hkind : first.output = .vertex := by
    have := (htyped first (by simp)).output
    rw [hfirst, hinput] at this
    exact (Option.some.inj this).symm
  have houtput : second.output = .vertex := by
    have := (htyped second (by simp)).output
    rw [hsecond, hnext, hkind] at this
    exact (Option.some.inj this).symm
  refine ⟨⟨_, others, rfl, fun s hs => hwalks s (by simp [hs])⟩, ?_, ?_⟩
  · intro s hs
    rcases List.mem_cons.1 hs with rfl | hs
    · exact PlannedStep.typed_root
    · rcases List.mem_cons.1 hs with rfl | hs
      · exact ⟨by simp [hinput, houtput, Step.output?], hl, by simp [Step.created]⟩
      · exact htyped s (by simp [hs])
  · -- what follows is linked to what the second step yielded
    refine List.isChain_cons_cons.2 ⟨htake, ?_⟩
    cases others with
    | nil => exact .singleton _
    | cons third others => exact List.isChain_cons_cons.2 (List.isChain_cons_cons.1 hlinked)

/-- Every plan of a chain is sound, under the default optimizer and under none, and nothing is
noted in making it. -/
theorem Config.sound_of_plan (c : Config) {chain : Chain} {plan : Plan} {notices : List Notice}
    (h : c.optimizer.plan chain = .ok (plan, notices)) : plan.Sound ∧ notices = [] := by
  cases hresolve : chain.resolve with
  | error err =>
    rw [Optimizer.plan, hresolve] at h
    cases h
  | ok steps =>
    rw [Optimizer.plan_of_resolve _ hresolve] at h
    cases h
    have hsound := Chain.sound_of_resolve hresolve
    obtain ⟨first, rest, rfl, hwalks⟩ := Chain.walks_of_resolve hresolve
    rw [Config.optimizer]
    split
    · rcases @Optimizer.improve_default first rest hwalks with
        hsame | ⟨second, others, l, rfl, hfirst, hsecond, hl, himprove⟩
      · rw [hsame]
        exact ⟨hsound, rfl⟩
      · rw [himprove]
        exact ⟨hsound.labelScan hfirst hsecond hl, rfl⟩
    · exact ⟨hsound, rfl⟩

end PropertyGraph
