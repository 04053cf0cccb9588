/-
Queries that take one item at a time. What a step to neighbours, a filter or a step to values makes
of a list is what it makes of each item, put in the place of the item (`Engine.evaluate_itemwise`).
So a query that starts at two lists of elements, one behind the other, brings what it brings from the
first and then what it brings from the second (`Chain.startingAtEach_append`): a step removes what comes
twice of one item, and never what comes of two.
-/
import PropertyGraph.Proofs.EagerLists
import PropertyGraph.Proofs.FromElement
import PropertyGraph.Proofs.LimitStops

namespace PropertyGraph

open PropertyGraph.Graph

/-- The operations that go from an element to others. -/
def Operation.navigating : List Operation :=
  [.outVertices, .inVertices, .outEdges, .inEdges, .bothEdges, .outVertex, .inVertex, .bothVertices,
    .otherVertex]

/-- The operations that only read, and take one item at a time. -/
def Operation.itemwise : List Operation := navigating ++ [.has, .id, .label, .properties, .valueMap]

namespace Step

/-- A step that goes from an element to others. -/
def Navigates : Step → Prop
  | .adjacent .. | .bothEdges _ | .edgeVertex _ => True
  | _ => False

/-- A step that only reads, and takes one item at a time. -/
def Itemwise : Step → Prop
  | .adjacent .. | .bothEdges _ | .edgeVertex _ | .has .. | .id | .label | .properties _
  | .valueMap _ => True
  | _ => False

variable {step : Step}

theorem Itemwise.queries (h : step.Itemwise) : step.Queries := by
  cases step <;> first | exact h.elim | trivial

variable {op : Operation} {state : ResultType} {arguments : List Json}

theorem navigates_of_ofCall (h : Step.ofCall op state arguments = .ok step)
    (hop : op ∈ Operation.navigating) : step.Navigates := by
  cases op with
  | outVertices | inVertices | outEdges | inEdges | bothEdges | outVertex | inVertex
  | bothVertices =>
    obtain ⟨_, -, h⟩ := bind_eq_ok.1 h
    cases h
    trivial
  | otherVertex =>
    obtain ⟨_, -, h⟩ := bind_eq_ok.1 h
    obtain ⟨_, -, h⟩ := bind_eq_ok.1 h
    cases h
    trivial
  | _ => exact absurd hop (by decide)

theorem Navigates.itemwise (h : step.Navigates) : step.Itemwise := by
  cases step <;> first | exact h.elim | trivial

theorem itemwise_of_ofCall (h : Step.ofCall op state arguments = .ok step)
    (hop : op ∈ Operation.itemwise) : step.Itemwise := by
  rcases List.mem_append.1 hop with hop | hop
  · exact (navigates_of_ofCall h hop).itemwise
  · cases op with
    | properties | valueMap | id | label =>
      obtain ⟨_, -, h⟩ := bind_eq_ok.1 h
      cases h
      trivial
    | has =>
      obtain ⟨_, -, h⟩ := bind_eq_ok.1 h
      obtain ⟨_, -, h⟩ := bind_eq_ok.1 h
      obtain ⟨_, -, h⟩ := bind_eq_ok.1 h
      cases h
      trivial
    | _ => exact absurd hop (by decide)

end Step

/-! ## Lists of items -/

namespace Item

theorem splice_append (a b : List Item) (f : Traverser → List Item) :
    splice (a ++ b) f = splice a f ++ splice b f := List.flatMap_append

theorem splice_ok (t : Traverser) (f : Traverser → List Item) : splice [.ok t] f = f t :=
  List.append_nil _

theorem nodup_each {answer : Except Error (List Traverser)}
    (h : ∀ ts, answer = .ok ts → ts.Nodup) : (each answer).Nodup := by
  cases answer with
  | error err => exact List.nodup_singleton _
  | ok ts => exact (h ts rfl).map fun _ _ => Except.ok.inj

end Item

variable {σ : Type} [Backend σ] {e : Engine σ} {step : Step}

/-- What a step makes of a list, it makes of each item in its place. -/
theorem Engine.evaluate_itemwise (h : step.Itemwise) (items : List Item) :
    e.evaluate step items = Item.splice items fun t => e.evaluate step [.ok t] := by
  cases step with
  | adjacent | bothEdges | edgeVertex | has | id | label | properties | valueMap =>
    simp only [Engine.evaluate, Item.splice_ok]
  | _ => exact h.elim

/-- Steps that take one item at a time make of two lists what they make of each. -/
theorem Engine.foldl_evaluate_append {steps : List Step} (h : ∀ step ∈ steps, step.Itemwise)
    (a b : List Item) :
    steps.foldl (fun items step => e.evaluate step items) (a ++ b) =
      steps.foldl (fun items step => e.evaluate step items) a ++
        steps.foldl (fun items step => e.evaluate step items) b := by
  induction steps generalizing a b with
  | nil => rfl
  | cons step steps ih =>
    have hstep : e.evaluate step (a ++ b) = e.evaluate step a ++ e.evaluate step b := by
      have hitemwise := Engine.evaluate_itemwise (e := e) (h step List.mem_cons_self)
      rw [hitemwise (a ++ b), Item.splice_append, ← hitemwise, ← hitemwise]
    simp only [List.foldl_cons, hstep]
    exact ih (fun step hs => h step (List.mem_cons_of_mem _ hs)) _ _

theorem Engine.selected_append (kind : ElementKind) (a b : List String) :
    e.selected kind (.many (a ++ b)) = e.selected kind (.many a) ++ e.selected kind (.many b) :=
  List.flatMap_append

/-! ## What one item comes to -/

/-- The neighbours of a vertex are put together without those that were seen. -/
theorem gives_neighbors (vertex : String) (direction : Direction) (adjacency : Adjacency)
    (labels : List String) {seen : List String} (hseen : seen.Nodup) :
    Gives (neighbors vertex direction adjacency labels seen : Attempt σ _) List.Nodup := by
  rw [neighbors]
  generalize (if labels.isEmpty = true then [none] else labels.map some) = scopes
  induction scopes generalizing seen with
  | nil => exact .pure hseen
  | cons scope scopes ih =>
    rw [List.foldlM_cons]
    exact .bind_of (q := List.Nodup) (.bind fun ids => .pure (nodup_union hseen)) fun _ h => ih h

theorem nodup_endsOf (ends : Endpoints) (which : EdgeTo) : (endsOf ends which).Nodup := by
  obtain ⟨source, target⟩ := ends
  have hsingle : ∀ end? : Option String, end?.toList.Nodup := by
    intro end?
    cases end? with
    | none => exact List.nodup_nil
    | some v => exact List.nodup_singleton v
  cases which with
  | target => exact hsingle target
  | source => exact hsingle source
  | other known => exact hsingle _
  | both =>
    rw [endsOf]
    split
    · exact hsingle source
    · rename_i hne
      refine List.nodup_append'.2 ⟨hsingle source, hsingle target, ?_⟩
      intro v hv hv'
      rw [Option.mem_toList] at hv hv'
      exact hne (by rw [hv, hv', beq_self_eq_true])

theorem Traverser.ofElement_injective (kind : ElementKind) :
    Function.Injective (Traverser.ofElement kind) := by
  intro a b h
  cases kind <;> cases h <;> rfl

/-- Nothing comes twice of one item. -/
theorem Step.Navigates.nodup_evaluate (h : step.Navigates) (t : Traverser) :
    (e.evaluate step [.ok t]).Nodup := by
  cases step with
  | adjacent direction adjacency labels =>
    simp only [Engine.evaluate, Item.splice_ok]
    cases t with
    | vertex id =>
      refine Item.nodup_each fun ts hts => ?_
      have hgives : ∀ kind, Gives (do
          return (← neighbors id direction adjacency labels []).map (Traverser.ofElement kind) :
          Attempt σ (List Traverser)) List.Nodup := fun kind =>
        .bind_of (gives_neighbors id direction adjacency labels List.nodup_nil) fun ids hids =>
          .pure (hids.map (Traverser.ofElement_injective kind))
      exact hgives _ e ts hts
    | graph | edge | value => exact List.nodup_singleton _
  | bothEdges labels =>
    simp only [Engine.evaluate, Item.splice_ok]
    cases t with
    | vertex id =>
      refine Item.nodup_each fun ts hts => ?_
      have hgives : Gives (do
          let leaving ← neighbors id .outgoing .edges labels []
          return (← neighbors id .incoming .edges labels leaving).map .edge :
          Attempt σ (List Traverser)) List.Nodup :=
        .bind_of (gives_neighbors id .outgoing .edges labels List.nodup_nil) fun leaving hleaving =>
          .bind_of (gives_neighbors id .incoming .edges labels hleaving) fun ids hids =>
            .pure (hids.map (Traverser.ofElement_injective .edge))
      exact hgives e ts hts
    | graph | edge | value => exact List.nodup_singleton _
  | edgeVertex ends =>
    simp only [Engine.evaluate, Item.splice_ok]
    cases t with
    | edge id =>
      refine Item.nodup_each fun ts hts => ?_
      have hgives : Gives (do return (endsOf (← edgeEndpoints id) ends).map .vertex :
          Attempt σ (List Traverser)) List.Nodup :=
        .bind fun found => .pure ((nodup_endsOf found ends).map (Traverser.ofElement_injective .vertex))
      exact hgives e ts hts
    | graph | vertex | value => exact List.nodup_singleton _
  | _ => exact h.elim

/-! ## Chains from several elements -/

namespace Chain

/-- The query that starts at elements of a kind, their ids in one array, and goes on with some
calls. -/
def startingAtEach (kind : ElementKind) (ids : List Json) (calls : Chain) : Chain :=
  ⟨kind.selecting, [.arr ids]⟩ :: calls

/-- A chain is accepted, whatever else becomes of it. -/
def Planned (c : Config) (chain : Chain) : Prop :=
  ∃ plan notices, c.optimizer.plan chain = .ok (plan, notices)

/-- A chain brings these items, errors in their places, and changes nothing but the log. -/
def Answers (c : Config) (e : Engine σ) (chain : Chain) (items : List Item) : Prop :=
  ∃ n, ∀ budget, n ≤ budget → ∃ log,
    (do (← chain.openStream c.optimizer).items? budget : Attempt σ _).run.run e =
      (.ok (some items), { e with log := log })

variable {kind : ElementKind} {ids xs ys : List Json} {calls Q : Chain} {c : Config}
  {names : List String} {planned : List PlannedStep}

theorem resolve_startingAtEach {found : List PlannedStep} :
    (startingAtEach kind ids calls).resolve = .ok found ↔ ∃ names planned,
      ids.mapM (Arguments.selectedId kind.selecting) = .ok names ∧
        resolveFrom kind.type calls = .ok planned ∧ found = .root ::
          ⟨kind.selecting.name, [.arr ids], .graph, kind.type, .select kind (.many names)⟩ ::
            planned := by
  constructor
  · intro h
    obtain ⟨_, -, h⟩ := bind_eq_ok.1 h
    obtain ⟨steps, hsteps, h⟩ := bind_eq_ok.1 h
    cases h
    obtain ⟨rule, hrule, hsteps⟩ := bind_eq_ok.1 hsteps
    obtain ⟨step, hstep, hsteps⟩ := bind_eq_ok.1 hsteps
    obtain ⟨planned, hplanned, hsteps⟩ := bind_eq_ok.1 hsteps
    cases hsteps
    cases kind <;>
    · cases hrule
      obtain ⟨sel, hsel, hstep⟩ := bind_eq_ok.1 hstep
      cases hstep
      obtain ⟨names, hnames, hsel⟩ := bind_eq_ok.1 hsel
      cases hsel
      exact ⟨names, planned, hnames, hplanned, rfl⟩
  · rintro ⟨names, planned, hnames, hplanned, rfl⟩
    have hsel : Arguments.selection kind.selecting [.arr ids] = .ok (.many names) := by
      rw [Arguments.selection, hnames]
      rfl
    have hstep : Step.ofCall kind.selecting .graph [.arr ids] = .ok (.select kind (.many names)) := by
      cases kind <;>
      · simp only [ElementKind.selecting] at hsel
        simp only [ElementKind.selecting, Step.ofCall, hsel]
        rfl
    have hrule : ResultType.graph.rule? kind.selecting = some ⟨kind.selecting, kind.type, .factory⟩ := by
      cases kind <;> rfl
    show (do return PlannedStep.root :: (← resolveFrom .graph (startingAtEach kind ids calls))) = _
    rw [startingAtEach, resolveFrom_cons hrule hstep hplanned]
    rfl

theorem planned_startingAtEach : Planned c (startingAtEach kind ids calls) ↔
    (∃ names, ids.mapM (Arguments.selectedId kind.selecting) = .ok names) ∧
      ∃ planned, resolveFrom kind.type calls = .ok planned := by
  constructor
  · rintro ⟨plan, notices, h⟩
    obtain ⟨found, hfound, -⟩ := bind_eq_ok.1 h
    obtain ⟨names, planned, hnames, hplanned, -⟩ := resolve_startingAtEach.1 hfound
    exact ⟨⟨names, hnames⟩, planned, hplanned⟩
  · rintro ⟨⟨names, hnames⟩, planned, hplanned⟩
    exact ⟨_, _, c.optimizer.plan_of_resolve
      (resolve_startingAtEach.2 ⟨names, planned, hnames, hplanned, rfl⟩)⟩

theorem mapM_selectedId_append {op : Operation} : (∃ names, (xs ++ ys).mapM (Arguments.selectedId op) = .ok names) ↔
    (∃ names, xs.mapM (Arguments.selectedId op) = .ok names) ∧
      ∃ names, ys.mapM (Arguments.selectedId op) = .ok names := by
  rw [List.mapM_append]
  cases xs.mapM (Arguments.selectedId op) with
  | error err => simp [bind, Except.bind]
  | ok left =>
    cases ys.mapM (Arguments.selectedId op) with
    | error err => simp [bind, Except.bind]
    | ok right => simp [bind, Except.bind, pure, Except.pure]

theorem resolveFrom_single {state : ResultType} {call : Call}
    (h : resolveFrom state [call] = .ok planned) : ∃ last : PlannedStep, planned = [last] ∧
      Step.ofCall call.operation state call.arguments = .ok last.step := by
  obtain ⟨rule, -, h⟩ := bind_eq_ok.1 h
  obtain ⟨step, hstep, h⟩ := bind_eq_ok.1 h
  obtain ⟨others, hothers, h⟩ := bind_eq_ok.1 h
  cases hothers
  cases h
  exact ⟨_, rfl, hstep⟩

/-- Steps that take one item at a time bring what they make of the elements selected. -/
theorem answers_startingAtEach [LawfulBackend σ] (e : Engine σ)
    (hnames : ids.mapM (Arguments.selectedId kind.selecting) = .ok names)
    (hplanned : resolveFrom kind.type calls = .ok planned)
    (hitemwise : ∀ call ∈ calls, call.operation ∈ Operation.itemwise) :
    Answers c e (startingAtEach kind ids calls)
      ((planned.map (·.step)).foldl (fun items step => e.evaluate step items)
        (e.selected kind (.many names))) := by
  have hresolve := resolve_startingAtEach.2 ⟨names, planned, hnames, hplanned, rfl⟩
  have hopen := openStream_of_ne (σ := σ) hresolve (by cases kind <;> simp [Step.select]) c e
  have hqueries : ∀ step ∈ Step.root :: .select kind (.many names) :: planned.map (·.step),
      step.Queries := by
    refine List.forall_mem_cons.2 ⟨trivial, List.forall_mem_cons.2 ⟨by cases kind <;> trivial, ?_⟩⟩
    intro step hstep
    obtain ⟨s, hs, rfl⟩ := List.mem_map.1 hstep
    obtain ⟨call, hcall, hofCall⟩ := exists_call hplanned hs
    exact (Step.itemwise_of_ofCall hofCall (hitemwise call hcall)).queries
  have hselected : e.evaluate (.select kind (.many names)) (e.evaluate .root [.ok .graph]) =
      e.selected kind (.many names) := by
    cases kind <;> simp [Step.select, Engine.evaluate, Item.splice]
  obtain ⟨trace, log, hruns, hitems⟩ :=
    ((delivers_given (e := e) [.ok .graph]).ofSteps hqueries).runs e.log
  rw [List.foldl_cons, List.foldl_cons, hselected] at hitems
  obtain ⟨n, hn⟩ := hruns.items?_run
  refine ⟨n, fun budget hbudget => ⟨log, ?_⟩⟩
  rw [Attempt.bind_ok hopen]
  exact (hn budget hbudget).trans (by rw [hitems])

/-- A query of steps that take one item at a time, started at two lists of elements one behind the
other, is accepted if it is accepted from each, and brings what it brings from the first and then what
it brings from the second, whatever is stored. A last step to other elements puts in the place of each
item what it finds from this one, where nothing comes twice. -/
theorem startingAtEach_append [LawfulBackend σ] (c : Config) (e : Engine σ) (kind : ElementKind)
    (xs ys : List Json) {Q : Chain} (hQ : ∀ call ∈ Q, call.operation ∈ Operation.itemwise) :
    (Planned c (startingAtEach kind (xs ++ ys) Q) ↔
      Planned c (startingAtEach kind xs Q) ∧ Planned c (startingAtEach kind ys Q)) ∧
    (Planned c (startingAtEach kind (xs ++ ys) Q) → ∃ left right,
      Answers c e (startingAtEach kind xs Q) left ∧ Answers c e (startingAtEach kind ys Q) right ∧
        Answers c e (startingAtEach kind (xs ++ ys) Q) (left ++ right)) ∧
    ∀ call, call.operation ∈ Operation.navigating →
      Planned c (startingAtEach kind xs (Q ++ [call])) → ∃ parents f,
        Answers c e (startingAtEach kind xs Q) parents ∧ (∀ t, (f t).Nodup) ∧
          Answers c e (startingAtEach kind xs (Q ++ [call])) (Item.splice parents f) := by
  refine ⟨?_, fun hplanned => ?_, fun call hcall hplanned => ?_⟩
  · simp only [planned_startingAtEach, mapM_selectedId_append]
    tauto
  · obtain ⟨hnames, planned, hsteps⟩ := planned_startingAtEach.1 hplanned
    obtain ⟨⟨left, hleft⟩, right, hright⟩ := mapM_selectedId_append.1 hnames
    have hboth : (xs ++ ys).mapM (Arguments.selectedId kind.selecting) = .ok (left ++ right) := by
      rw [List.mapM_append, hleft, hright]
      rfl
    have hall : ∀ step ∈ planned.map (·.step), step.Itemwise := by
      intro step hstep
      obtain ⟨s, hs, rfl⟩ := List.mem_map.1 hstep
      obtain ⟨call, hcall, hofCall⟩ := exists_call hsteps hs
      exact Step.itemwise_of_ofCall hofCall (hQ call hcall)
    have hanswers := answers_startingAtEach (c := c) e hboth hsteps hQ
    rw [Engine.selected_append, Engine.foldl_evaluate_append hall] at hanswers
    exact ⟨_, _, answers_startingAtEach e hleft hsteps hQ, answers_startingAtEach e hright hsteps hQ,
      hanswers⟩
  · obtain ⟨⟨names, hnames⟩, planned, hsteps⟩ := planned_startingAtEach.1 hplanned
    obtain ⟨before, after, state, rfl, -, hbefore, hafter⟩ := resolveFrom_append hsteps
    obtain ⟨last, rfl, hlast⟩ := resolveFrom_single hafter
    have hnavigates := Step.navigates_of_ofCall hlast hcall
    have hQcall : ∀ call' ∈ Q ++ [call], call'.operation ∈ Operation.itemwise := by
      intro call' hcall'
      rcases List.mem_append.1 hcall' with h | h
      · exact hQ call' h
      · obtain rfl := List.mem_singleton.1 h
        exact List.mem_append_left _ hcall
    have hanswers := answers_startingAtEach (c := c) e hnames hsteps hQcall
    rw [List.map_append, List.foldl_append, List.map_singleton, List.foldl_cons, List.foldl_nil,
      Engine.evaluate_itemwise hnavigates.itemwise] at hanswers
    exact ⟨_, _, answers_startingAtEach e hnames hbefore hQ, hnavigates.nodup_evaluate, hanswers⟩

/-- The neighbors of one vertex and of two, one of them the same again, and the edges that enter the
neighbors of the two. -/
theorem startingAtEach_append_linkingOps :
    let kept := ((RecordOp.runAll linkingOps).run (Engine.ofStore Memory.empty)).2
    let first : List Json := [.str (elementId 0)]
    let second : List Json := [.str (elementId 1), .str (elementId 0)]
    (∃ left right,
      Answers {} kept (startingAtEach .vertex first [⟨.outVertices, []⟩]) left ∧
      Answers {} kept (startingAtEach .vertex second [⟨.outVertices, []⟩]) right ∧
      Answers {} kept (startingAtEach .vertex (first ++ second) [⟨.outVertices, []⟩]) (left ++ right)) ∧
    ∃ parents f, Answers {} kept (startingAtEach .vertex second [⟨.outVertices, []⟩]) parents ∧
      (∀ t, (f t).Nodup) ∧
      Answers {} kept (startingAtEach .vertex second [⟨.outVertices, []⟩, ⟨.inEdges, [.str "knows"]⟩])
        (Item.splice parents f) := by
  intro kept first second
  obtain ⟨-, hboth, -⟩ := startingAtEach_append {} kept .vertex first second
    (Q := [⟨.outVertices, []⟩]) (by decide)
  obtain ⟨-, -, hlast⟩ := startingAtEach_append {} kept .vertex second []
    (Q := [⟨.outVertices, []⟩]) (by decide)
  exact ⟨hboth ⟨_, _, rfl⟩, hlast ⟨.inEdges, [.str "knows"]⟩ (by decide) ⟨_, _, rfl⟩⟩

end Chain

end PropertyGraph
