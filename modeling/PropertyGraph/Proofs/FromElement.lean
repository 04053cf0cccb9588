/-
Queries that start at one element of a graph. No rule that is on by default applies to the selection
of an id, so the steps behind it run as they are written, and such a query brings what their stages
make of the element (`Engine.Keeps.yields_startingAt`). Names may be given more than once, one by one
or in an array; the first of each counts (`Arguments.Spell.names_eq`).
-/
import PropertyGraph.Proofs.Enumeration
import PropertyGraph.Proofs.StepTypes

namespace PropertyGraph

open PropertyGraph.Graph

/-! ## Names -/

namespace Arguments

/-- Names as they can be given: one by one, or in one array. -/
def Spell (names : List String) (args : List Json) : Prop :=
  args = names.map .str ∨ args = [.arr (names.map .str)]

theorem nodup_distinct (names : List String) : (distinct names).Nodup := by
  have hfold : ∀ seen : List String, seen.Nodup →
      (names.foldl (fun seen s => if seen.contains s then seen else s :: seen) seen).Nodup := by
    induction names with
    | nil => exact fun _ h => h
    | cons s names ih =>
      intro seen hseen
      rw [List.foldl_cons]
      split
      · exact ih seen hseen
      · rename_i hnew
        exact ih _ (List.nodup_cons.2 ⟨by simpa using hnew, hseen⟩)
  exact List.nodup_reverse.2 (hfold [] List.nodup_nil)

/-- Tokens are taken as they are, each once. -/
theorem Spell.names_eq {names : List String} {args : List Json} (h : Spell names args)
    (htokens : ∀ s ∈ names, Key.isToken s = true) (op : Operation) :
    Arguments.names op args = .ok (distinct names) := by
  have hread : (names.map Json.str).mapM (name op) = .ok names := by
    refine mapM_strings fun s hs => ?_
    simp only [name, require, htokens s hs]
    rfl
  have hnames : Arguments.names op args =
      (do return distinct (← (names.map Json.str).mapM (name op))) := by
    rcases h with rfl | rfl
    · rcases names with _ | ⟨s, _ | ⟨s', names⟩⟩ <;> rfl
    · rfl
  rw [hnames, hread]
  rfl

end Arguments

/-! ## Chains -/

namespace Chain

/-- The query that starts at one element of a kind and goes on with some calls. -/
def startingAt (kind : ElementKind) (id : String) (calls : Chain) : Chain :=
  ⟨kind.selecting, [.str id]⟩ :: calls

/-- The query that starts at all elements of a kind and goes on with some calls. -/
def startingAtAll (kind : ElementKind) (calls : Chain) : Chain := ⟨kind.selecting, []⟩ :: calls

variable {kind : ElementKind} {id : String} {calls : Chain} {planned : List PlannedStep}

/-- A call in front of calls that resolve. -/
theorem resolveFrom_cons {state output : ResultType} {op : Operation} {args : List Json} {shape : Shape}
    {step : Step} (hrule : state.rule? op = some ⟨op, output, shape⟩)
    (hstep : Step.ofCall op state args = .ok step)
    (hcalls : resolveFrom output calls = .ok planned) :
    resolveFrom state (⟨op, args⟩ :: calls) = .ok (⟨op.name, args, state, output, step⟩ :: planned) := by
  have hresolve : state.resolve op = .ok ⟨op, output, shape⟩ := by rw [ResultType.resolve, hrule]
  simp only [resolveFrom, hresolve, hstep, hcalls, bind, Except.bind]
  rfl

theorem resolve_startingAt (hid : Key.isToken id = true)
    (hcalls : resolveFrom kind.type calls = .ok planned) :
    ∃ first : PlannedStep, first.step = .select kind (.one id) ∧
      (startingAt kind id calls).resolve = .ok (.root :: first :: planned) := by
  have hselect : Arguments.selection kind.selecting [.str id] = .ok (.one id) := by
    rw [Arguments.selection, Arguments.selectedId_of_isToken _ hid]
    rfl
  have hstep : Step.ofCall kind.selecting .graph [.str id] = .ok (.select kind (.one id)) := by
    cases kind <;>
    · simp only [ElementKind.selecting] at hselect
      simp only [ElementKind.selecting, Step.ofCall, hselect]
      rfl
  have hrule : ResultType.graph.rule? kind.selecting = some ⟨kind.selecting, kind.type, .factory⟩ := by
    cases kind <;> rfl
  refine ⟨⟨kind.selecting.name, [.str id], .graph, kind.type, .select kind (.one id)⟩, rfl, ?_⟩
  show (do return PlannedStep.root :: (← resolveFrom .graph (startingAt kind id calls))) = _
  rw [startingAt, resolveFrom_cons hrule hstep hcalls]
  rfl

/-- Opened, whatever the optimizer, a query that does not begin with all vertices has the stages of
its own steps. -/
theorem openStream_of_ne {σ : Type} {chain : Chain} {first : PlannedStep}
    (hresolve : chain.resolve = .ok (.root :: first :: planned)) (hfirst : first.step ≠ .vertices .all)
    (c : Config) (e : Engine σ) :
    (chain.openStream c.optimizer).run.run e =
      (.ok ((Stream.given [.ok .graph]).ofSteps
        (.root :: first.step :: planned.map (·.step))), e) := by
  obtain ⟨first', rest', hsteps, hwalks⟩ := walks_of_resolve hresolve
  obtain ⟨rfl, rfl⟩ : first = first' ∧ planned = rest' := by simpa using hsteps
  have hplan := c.optimizer.plan_of_resolve hresolve
  have hnone : Rule.vertexLabelScan.1.replace ((first :: planned).take 2) = none := by
    cases planned with
    | nil => rfl
    | cons second others => exact Rule.replace_of_ne hfirst
  have himprove : c.optimizer.improve (.root :: first :: planned) =
      (.root :: first :: planned, []) := by
    rcases c.optimizer_cases with hc | hc
    · rw [hc]
      exact Optimizer.improve_default_of_none hwalks hnone
    · rw [hc]
      rfl
  rw [himprove] at hplan
  exact openStream_run hplan e

theorem openStream_startingAt {σ : Type} (hid : Key.isToken id = true)
    (hcalls : resolveFrom kind.type calls = .ok planned) (c : Config) (e : Engine σ) :
    ((startingAt kind id calls).openStream c.optimizer).run.run e =
      (.ok ((Stream.given [.ok .graph]).ofSteps
        (.root :: .select kind (.one id) :: planned.map (·.step))), e) := by
  obtain ⟨first, hfirst, hresolve⟩ := resolve_startingAt hid hcalls
  rw [← hfirst]
  refine openStream_of_ne hresolve ?_ c e
  rw [hfirst]
  cases kind <;> simp [Step.select]

/-- A query that goes through all elements of a kind, if its steps are filters, a limit and what
stands behind. -/
theorem picks_of_calls (filters : List (String × Json)) (limit : Option Nat) {behind : List Step}
    (hcalls : resolveFrom kind.type calls = .ok planned)
    (hplanned : planned.map (·.step) = filterSteps filters ++ limitSteps limit ++ behind) :
    (startingAtAll kind calls).Picks kind filters limit behind := by
  have hstep : Step.ofCall kind.selecting .graph [] = .ok (.select kind .all) := by
    cases kind <;> rfl
  have hrule : ResultType.graph.rule? kind.selecting = some ⟨kind.selecting, kind.type, .factory⟩ := by
    cases kind <;> rfl
  refine ⟨⟨kind.selecting.name, [], .graph, kind.type, .select kind .all⟩ :: planned, ?_, ?_⟩
  · show (do return PlannedStep.root :: (← resolveFrom .graph (startingAtAll kind calls))) = _
    rw [startingAtAll, resolveFrom_cons hrule hstep hcalls]
    rfl
  · rw [List.map_cons, hplanned]
    cases kind <;> rfl

end Chain

/-! ## Runs -/

variable {σ : Type} [Backend σ] [LawfulBackend σ] {e : Engine σ} {g : Multigraph}
  {kind : ElementKind} {id : String} {calls : Chain} {planned : List PlannedStep}

/-- An element that is there comes. -/
theorem Engine.Keeps.brings_selected (h : e.Keeps g) (hid : id ∈ g.ids kind) :
    ((Stream.given [.ok .graph]).ofSteps [.root, .select kind (.one id)]).Brings e
      [.ok (.ofElement kind id)] := by
  obtain ⟨found, hexists, hiff⟩ :=
    elementExists_run h kind (h.sound.isToken_of_has (x := (kind, id)) hid)
  obtain rfl : found = true := hiff.2 hid
  have hroot : (Stream.through Step.root.stage (.given [.ok .graph])).Brings e
      ([Traverser.graph].flatMap fun t => [.ok t]) :=
    .expand (l := [.graph]) (Stream.brings_given _ e) fun t ht => by
      obtain rfl : t = .graph := by simpa using ht
      exact ⟨_, rfl, .items _⟩
  have hstage : (Step.select kind (.one id)).stage = .expand (.step (.select kind (.one id))) none := by
    cases kind <;> rfl
  show (Stream.through (Step.select kind (.one id)).stage _).Brings e
    ([Traverser.graph].flatMap fun _ => [.ok (.ofElement kind id)])
  rw [hstage]
  refine .expand (l := [.graph]) hroot fun t ht => ?_
  obtain rfl : t = .graph := by simpa using ht
  have hexpand : (Expansion.ofStep (.select kind (.one id)) .graph).run e =
      (.task (.selectOne kind id), e) := by
    cases kind <;> rfl
  exact ⟨_, hexpand, .task (x := .items _) (Attempt.bind_ok hexists _) (.items _)⟩

/-- A selection of one id supplies its element. -/
theorem Multigraph.supplies_selected (hid : id ∈ g.ids kind) :
    ((Stream.given [.ok .graph]).ofSteps [.root, .select kind (.one id)]).Supplies σ kind True [id]
      g := by
  refine .of_skips fun e he => ?_
  obtain ⟨found, hexists, hiff⟩ :=
    elementExists_run he kind (he.sound.isToken_of_has (x := (kind, id)) hid)
  obtain rfl : found = true := hiff.2 hid
  have hexpand : (Expansion.ofStep (.select kind (.one id)) .graph).run e =
      (.task (.selectOne kind id), e) := by
    cases kind <;> rfl
  have hbegin : (Task.selectOne kind id).begin.run.run e =
      (.ok (.items [.ok (.ofElement kind id)]), e) := Attempt.bind_ok hexists _
  have hskips := (Stream.skips_expanding hexpand).trans
    (.step (Stream.advance_task hbegin) (.refl _ e))
  have hopened : (Stream.given [.ok .graph]).ofSteps [.root, .select kind (.one id)] =
      .through (.expand (.step (.select kind (.one id))) none) (.root none [.ok .graph]) := by
    cases kind <;> rfl
  rw [hopened]
  refine ⟨_, hskips, fun e₁ _ => ⟨_, (Stream.Skips.refl _ e₁).comes rfl, fun g' _ _ e₂ _ => ?_⟩⟩
  exact ⟨_, (Stream.Skips.step rfl (.step rfl (.refl _ e₂))).comes rfl⟩

/-- A query from an element that is there brings what the stages behind the selection make of it. -/
theorem Engine.Keeps.yields_startingAt (h : e.Keeps g) (hid : id ∈ g.ids kind)
    (hcalls : Chain.resolveFrom kind.type calls = .ok planned) {items : List Item}
    (hbrings : ∀ source : Stream, source.Brings e [.ok (.ofElement kind id)] →
      (source.ofSteps (planned.map (·.step))).Brings e items) :
    (Chain.startingAt kind id calls).Yields e items := by
  have htoken := h.sound.isToken_of_has (x := (kind, id)) hid
  exact .of_runs fun c =>
    ⟨_, Chain.openStream_startingAt htoken hcalls c e, (hbrings _ (h.brings_selected hid)).runs⟩

end PropertyGraph
