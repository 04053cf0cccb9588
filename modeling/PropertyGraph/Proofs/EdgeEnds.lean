/-
Where edges lead. Going to the neighbours of a vertex at once, by the lists of neighbours, comes to
the same vertices as going to its edges and from there to the ends that are recorded with each of
them; the other ends of all edges at a vertex, one for each edge, are the neighbours in both
directions; and an edge has its source and then its target as its ends, a loop only one
(`Engine.edgeEnds_history`).
-/
import PropertyGraph.Proofs.FromElement

namespace PropertyGraph

open PropertyGraph.Graph

/-! ## The ends of an edge -/

namespace Direction

/-- The operation that goes to the neighbours in a direction. -/
def toVertices : Direction → Operation
  | .outgoing => .outVertices
  | .incoming => .inVertices

/-- The operation that goes to the edges in a direction. -/
def toEdges : Direction → Operation
  | .outgoing => .outEdges
  | .incoming => .inEdges

/-- The operation that goes on from these edges to their far ends. -/
def toFar : Direction → Operation
  | .outgoing => .outVertex
  | .incoming => .inVertex

/-- The far end as a step names it. -/
def farEnd : Direction → EdgeTo
  | .outgoing => .target
  | .incoming => .source

end Direction

namespace Edge

/-- The end of an edge that is not a known vertex; of a loop, that vertex. -/
def opposite (x : Edge) (v : String) : String := if x.source = v then x.target else x.source

/-- The ends of an edge a step goes to. -/
def goal (x : Edge) : EdgeTo → List String
  | .target => [x.target]
  | .source => [x.source]
  | .both => if x.source = x.target then [x.source] else [x.source, x.target]
  | .other none => [x.target]
  | .other (some known) => if x.source = known then [x.target] else
      if x.target = known then [x.source] else [x.target]

theorem endsOf_eq (x : Edge) (ends : EdgeTo) :
    endsOf ⟨some x.source, some x.target⟩ ends = x.goal ends := by
  cases ends with
  | target | source => rfl
  | both => simp [endsOf, goal]
  | other known =>
    cases known with
    | none => rfl
    | some known => simp only [endsOf, otherEnd, goal, beq_iff_eq]; grind

theorem goal_farEnd (x : Edge) (d : Direction) : x.goal d.farEnd = [x.far d] := by
  cases d <;> rfl

/-- Seen from one of its ends, an edge has one other end. -/
theorem goal_other {x : Edge} {d : Direction} {v : String} (h : x.near d = v) :
    x.goal (.other (some v)) = [x.opposite v] := by
  subst h
  cases d with
  | outgoing => simp [goal, near, opposite]
  | incoming =>
    by_cases h : x.source = x.target
    · simp [goal, near, opposite, h]
    · simp [goal, near, opposite, h]

theorem opposite_near (x : Edge) (d : Direction) : x.opposite (x.near d) = x.far d := by
  cases d with
  | outgoing => simp [opposite, near, far]
  | incoming => simp only [opposite, near, far]; grind

end Edge

namespace Multigraph

/-- The edges at a vertex in both directions: those that leave, then those that only enter. -/
def bothEdgesBy (g : Multigraph) (v : String) (labels : List String) : List Edge :=
  g.edgesBy v .outgoing labels ++
    (g.edgesBy v .incoming labels).filter (· ∉ g.edgesBy v .outgoing labels)

variable {g : Multigraph} {v : String} {labels : List String}

theorem mem_bothEdgesBy {x : Edge} :
    x ∈ g.bothEdgesBy v labels ↔ ∃ d, x ∈ g.edgesBy v d labels := by
  have hd : (∃ d, x ∈ g.edgesBy v d labels) ↔
      x ∈ g.edgesBy v .outgoing labels ∨ x ∈ g.edgesBy v .incoming labels :=
    ⟨fun ⟨d, h⟩ => by cases d <;> simp [h], fun h => h.elim (⟨_, ·⟩) (⟨_, ·⟩)⟩
  rw [hd, bothEdgesBy, List.mem_append, List.mem_filter, decide_eq_true_iff]
  grind

theorem nodup_bothEdgesBy (hg : g.Sound) (h : labels.Nodup) :
    ((g.bothEdgesBy v labels).map (·.id)).Nodup := by
  have hof : ∀ d, (g.edgesBy v d labels).Nodup := fun d =>
    List.Nodup.of_map _ (nodup_edgesBy hg v d h)
  have hall : (g.bothEdgesBy v labels).Nodup :=
    List.nodup_append'.2 ⟨hof _, (hof _).filter _, fun x hx hx' => by
      simpa [hx] using (List.mem_filter.1 hx').2⟩
  refine hall.map_on fun x hx y hy hid => ?_
  obtain ⟨_, hx⟩ := mem_bothEdgesBy.1 hx
  obtain ⟨_, hy⟩ := mem_bothEdgesBy.1 hy
  exact List.inj_on_of_nodup_map hg.edgeIds (mem_edgesBy.1 hx).1 (mem_edgesBy.1 hy).1 hid

end Multigraph

/-- The items that edges come as. -/
def edgeItems (edges : List Edge) : List Item := edges.map fun x => .ok (.edge x.id)

/-- Two queries bring the same items, in whatever order and however often. -/
def Chain.Agree {σ : Type} [Backend σ] (e : Engine σ) (a b : Chain) : Prop :=
  ∃ xs ys, a.Yields e xs ∧ b.Yields e ys ∧ ∀ i, i ∈ xs ↔ i ∈ ys

/-! ## Stages -/

section Stages

variable {σ : Type} [Backend σ] [LawfulBackend σ] {e : Engine σ} {g : Multigraph} {source : Stream}
  {v : String} {labels : List String}

omit [LawfulBackend σ] in
/-- A step that makes a task of a vertex. -/
theorem Stream.Brings.task_vertex (step : Step) {t : Task} {items : List Item}
    (hs : source.Brings e [.ok (.vertex v)]) (hstage : step.stage = .expand (.step step) none)
    (hstep : (Expansion.ofStep step (.vertex v)).run e = (.task t, e))
    (ht : (Expansion.task t).Brings e items) :
    (Stream.through step.stage source).Brings e items := by
  rw [hstage]
  have hbrings : (Stream.through (.expand (.step step) none) source).Brings e
      ([Traverser.vertex v].flatMap fun _ => items) :=
    hs.expand fun u hu => by
      obtain rfl : u = .vertex v := by simpa using hu
      exact ⟨_, hstep, ht⟩
  simpa using hbrings

/-- The ends that a step goes to from an edge of a graph. -/
def Multigraph.goalItems (g : Multigraph) (ends : EdgeTo) : Traverser → List Item
  | .edge id => (g.edge? id).toList.flatMap fun x => vertexItems (x.goal ends)
  | _ => []

/-- Behind edges come the ends that a step goes to, edge by edge. -/
theorem Stream.Brings.ends {edges : List Edge} (hs : source.Brings e (edgeItems edges))
    (h : e.Keeps g) (hedges : ∀ x ∈ edges, x ∈ g.edges) (ends : EdgeTo) :
    (Stream.through (Step.edgeVertex ends).stage source).Brings e
      (vertexItems (edges.flatMap (·.goal ends))) := by
  have hs' : source.Brings e ((edges.map fun x => Traverser.edge x.id).map .ok) := by
    rwa [List.map_map]
  have hbrings : (Stream.through (.expand (.step (.edgeVertex ends)) none) source).Brings e
      ((edges.map fun x => Traverser.edge x.id).flatMap (g.goalItems ends)) := hs'.expand fun t ht => by
    obtain ⟨x, hx, rfl⟩ := List.mem_map.1 ht
    have hedge : g.edge? x.id = some x := (Multigraph.edge?_eq_some h.sound).2 (hedges x hx)
    have hrun := edgeEndpoints_run h (h.sound.edges x (hedges x hx)).id.1
    rw [hedge] at hrun
    refine ⟨_, rfl, .task (x := .items _) (Attempt.bind_ok hrun _) ?_⟩
    simp only [Multigraph.goalItems, hedge, Option.map_some, Edge.endsOf_eq]
    simpa [vertexItems] using Expansion.Brings.items _
  have hfound : (edges.map fun x => Traverser.edge x.id).flatMap (g.goalItems ends) =
      vertexItems (edges.flatMap (·.goal ends)) := by
    rw [List.flatMap_map, vertexItems, List.map_flatMap]
    refine List.flatMap_congr fun x hx => ?_
    simp [Multigraph.goalItems, (Multigraph.edge?_eq_some h.sound).2 (hedges x hx), vertexItems]
  rwa [hfound] at hbrings

end Stages

/-! ## Queries -/

section Queries

variable {σ : Type} [Backend σ] [LawfulBackend σ] {e : Engine σ} {g : Multigraph} {v : String}
  {names : List String} {args : List Json}

/-- The neighbours in a direction, each once. -/
theorem Engine.Keeps.yields_toVertices (h : e.Keeps g) (hv : v ∈ g.ids .vertex)
    (hnames : ∀ l ∈ names, Key.isToken l = true) (hargs : Arguments.Spell names args)
    (d : Direction) :
    ∃ ws : List String,
      (Chain.startingAt .vertex v [⟨d.toVertices, args⟩]).Yields e (vertexItems ws) ∧
        ∀ w, w ∈ ws ↔ w ∈ (g.edgesBy v d (Arguments.distinct names)).map (·.far d) := by
  have htokens : ∀ l ∈ Arguments.distinct names, Key.isToken l = true := fun l hl =>
    hnames l (Arguments.mem_distinct.1 hl)
  obtain ⟨ws, hrun, -, hiff⟩ := vertices_run h (h.sound.isName hv).1 htokens d
  have hcalls : Chain.resolveFrom .vertex [⟨d.toVertices, args⟩] =
      .ok [⟨d.toVertices.name, args, .vertex, .vertex,
        .adjacent d .vertices (Arguments.distinct names)⟩] := by
    cases d <;>
    · refine Chain.resolveFrom_cons rfl ?_ ?_
      · simp only [Direction.toVertices, Step.ofCall, hargs.names_eq hnames]
        rfl
      · rfl
  refine ⟨ws, h.yields_startingAt hv hcalls fun source hs => ?_, fun w => ?_⟩
  · refine hs.task_vertex (.adjacent d .vertices _) rfl rfl ?_
    exact Task.adjacent_brings hrun
  · rw [hiff, List.mem_map]

/-- Behind the edges in a direction, their far ends come, one for each edge. -/
theorem Engine.Keeps.yields_toFar (h : e.Keeps g) (hv : v ∈ g.ids .vertex)
    (hnames : ∀ l ∈ names, Key.isToken l = true) (hargs : Arguments.Spell names args)
    (d : Direction) :
    (Chain.startingAt .vertex v [⟨d.toEdges, args⟩, ⟨d.toFar, []⟩]).Yields e
      (vertexItems ((g.edgesBy v d (Arguments.distinct names)).map (·.far d))) := by
  have htokens : ∀ l ∈ Arguments.distinct names, Key.isToken l = true := fun l hl =>
    hnames l (Arguments.mem_distinct.1 hl)
  have hcalls : Chain.resolveFrom .vertex [⟨d.toEdges, args⟩, ⟨d.toFar, []⟩] =
      .ok [⟨d.toEdges.name, args, .vertex, .edge, .adjacent d .edges (Arguments.distinct names)⟩,
        ⟨d.toFar.name, [], .edge, .vertex, .edgeVertex d.farEnd⟩] := by
    cases d <;>
    · refine Chain.resolveFrom_cons rfl ?_ ?_
      · simp only [Direction.toEdges, Step.ofCall, hargs.names_eq hnames]
        rfl
      · rfl
  refine h.yields_startingAt hv hcalls fun source hs => ?_
  have hedges := hs.task_vertex (.adjacent d .edges (Arguments.distinct names)) rfl rfl
    (h.edges_bring (h.sound.isName hv).1 htokens (Arguments.nodup_distinct _) d)
  have hends := Stream.Brings.ends hedges h (fun x hx => (Multigraph.mem_edgesBy.1 hx).1) d.farEnd
  have hfar : (g.edgesBy v d (Arguments.distinct names)).flatMap (·.goal d.farEnd) =
      (g.edgesBy v d (Arguments.distinct names)).map (·.far d) := by
    rw [List.map_eq_flatMap]
    exact List.flatMap_congr fun x _ => x.goal_farEnd d
  rwa [hfar] at hends

/-- The edges in both directions, and behind them the other end of each. -/
theorem Engine.Keeps.yields_opposite (h : e.Keeps g) (hv : v ∈ g.ids .vertex)
    (hnames : ∀ l ∈ names, Key.isToken l = true) (hargs : Arguments.Spell names args) :
    (Chain.startingAt .vertex v [⟨.bothEdges, args⟩]).Yields e
        (edgeItems (g.bothEdgesBy v (Arguments.distinct names))) ∧
      (Chain.startingAt .vertex v [⟨.bothEdges, args⟩, ⟨.otherVertex, [.str v]⟩]).Yields e
        (vertexItems ((g.bothEdgesBy v (Arguments.distinct names)).map (·.opposite v))) := by
  have htoken := (h.sound.isName hv).1
  have htokens : ∀ l ∈ Arguments.distinct names, Key.isToken l = true := fun l hl =>
    hnames l (Arguments.mem_distinct.1 hl)
  have hboth : ∀ {calls planned}, Chain.resolveFrom .edge calls = .ok planned →
      Chain.resolveFrom .vertex (⟨.bothEdges, args⟩ :: calls) = .ok (⟨Operation.bothEdges.name, args,
        .vertex, .edge, .bothEdges (Arguments.distinct names)⟩ :: planned) := fun hcalls => by
    refine Chain.resolveFrom_cons rfl ?_ hcalls
    simp only [Step.ofCall, hargs.names_eq hnames]
    rfl
  have hother : Chain.resolveFrom .edge [⟨.otherVertex, [.str v]⟩] =
      .ok [⟨Operation.otherVertex.name, [.str v], .edge, .vertex, .edgeVertex (.other (some v))⟩] := by
    have hne : v.isEmpty = false := by simpa using Validation.not_isEmpty_of_isToken htoken
    refine Chain.resolveFrom_cons rfl ?_ ?_
    · show (do return Step.edgeVertex (.other (← Arguments.knownVertex .otherVertex (some (.str v))))) = _
      rw [Arguments.knownVertex, hne]
      rfl
    · rfl
  have hedges : ∀ source : Stream, source.Brings e [.ok (.vertex v)] →
      (Stream.through (Step.bothEdges (Arguments.distinct names)).stage source).Brings e
        (edgeItems (g.bothEdgesBy v (Arguments.distinct names))) := fun source hs =>
    hs.task_vertex _ rfl rfl (h.bothEdges_bring htoken htokens (Arguments.nodup_distinct _))
  constructor
  · exact h.yields_startingAt hv (@hboth [] _ rfl) hedges
  · refine h.yields_startingAt hv (hboth hother) fun source hs => ?_
    have hends := Stream.Brings.ends (hedges source hs) h (fun x hx => by
      obtain ⟨_, hx⟩ := Multigraph.mem_bothEdgesBy.1 hx
      exact (Multigraph.mem_edgesBy.1 hx).1) (.other (some v))
    have hone : (g.bothEdgesBy v (Arguments.distinct names)).flatMap (·.goal (.other (some v))) =
        (g.bothEdgesBy v (Arguments.distinct names)).map (·.opposite v) := by
      rw [List.map_eq_flatMap]
      refine List.flatMap_congr fun x hx => ?_
      obtain ⟨_, hx⟩ := Multigraph.mem_bothEdgesBy.1 hx
      exact Edge.goal_other (Multigraph.mem_edgesBy.1 hx).2.1
    rwa [hone] at hends

/-- The other ends of the edges at a vertex are its neighbours in both directions. -/
theorem Multigraph.mem_opposite {w : String} :
    w ∈ (g.bothEdgesBy v names).map (·.opposite v) ↔
      ∃ d, w ∈ (g.edgesBy v d names).map (·.far d) := by
  simp only [List.mem_map, mem_bothEdgesBy]
  constructor
  · rintro ⟨x, ⟨d, hx⟩, rfl⟩
    exact ⟨d, x, hx, ((mem_edgesBy.1 hx).2.1 ▸ x.opposite_near d).symm⟩
  · rintro ⟨d, x, hx, rfl⟩
    exact ⟨x, ⟨d, hx⟩, (mem_edgesBy.1 hx).2.1 ▸ x.opposite_near d⟩

/-- The ends of an edge: its source, then its target. -/
theorem Engine.Keeps.yields_bothVertices (h : e.Keeps g) {x : Edge} (hx : x ∈ g.edges) :
    (Chain.startingAt .edge x.id [⟨.bothVertices, []⟩]).Yields e
      (vertexItems (if x.source = x.target then [x.source] else [x.source, x.target])) := by
  have hid : x.id ∈ g.ids .edge := List.mem_map_of_mem hx
  have hcalls : Chain.resolveFrom .edge [⟨.bothVertices, []⟩] =
      .ok [⟨Operation.bothVertices.name, [], .edge, .vertex, .edgeVertex .both⟩] := rfl
  refine h.yields_startingAt hid hcalls fun source hs => ?_
  have hends : (Stream.through (Step.edgeVertex .both).stage source).Brings e
      (vertexItems ([x].flatMap (·.goal .both))) := .ends hs h (by simpa using hx) .both
  rwa [List.flatMap_singleton] at hends

end Queries

/-! ## After a history -/

/-- Whatever operations ran from an empty store, from a vertex that is there and for any labels, as
sets: the neighbours in a direction are the far ends of the edges in that direction; and of the edges
in both directions, each of which comes once, the other ends, of which one comes for each edge, are the
neighbours in both directions. The ends of an edge that is there are its source and then its target,
and one vertex only where it is a loop. -/
theorem Engine.edgeEnds_history {σ : Type} [Backend σ] [LawfulBackend σ] {e : Engine σ}
    (hempty : ∀ key, e.contents key = none) {ops : List RecordOp} (hops : ∀ op ∈ ops, op.Named)
    (hids : GoodIds e.ids (Multigraph.history e.ids ops (.empty, e.issued)).2) :
    let g := (Multigraph.history e.ids ops (.empty, e.issued)).1
    let e' := ((RecordOp.runAll ops).run e).2
    (∀ v ∈ g.ids .vertex, ∀ labels args, (∀ l ∈ labels, Key.isToken l = true) →
      Arguments.Spell labels args →
      (∀ d : Direction, Chain.Agree e' (.startingAt .vertex v [⟨d.toVertices, args⟩])
        (.startingAt .vertex v [⟨d.toEdges, args⟩, ⟨d.toFar, []⟩])) ∧
      ∃ (both : List Edge) (outs ins : List String), (both.map (·.id)).Nodup ∧
        (Chain.startingAt .vertex v [⟨.bothEdges, args⟩]).Yields e' (edgeItems both) ∧
        (Chain.startingAt .vertex v [⟨.bothEdges, args⟩, ⟨.otherVertex, [.str v]⟩]).Yields e'
          (vertexItems (both.map (·.opposite v))) ∧
        (Chain.startingAt .vertex v [⟨.outVertices, args⟩]).Yields e' (vertexItems outs) ∧
        (Chain.startingAt .vertex v [⟨.inVertices, args⟩]).Yields e' (vertexItems ins) ∧
        ∀ w, w ∈ both.map (·.opposite v) ↔ w ∈ outs ∨ w ∈ ins) ∧
    ∀ x ∈ g.edges, (Chain.startingAt .edge x.id [⟨.bothVertices, []⟩]).Yields e'
      (vertexItems (if x.source = x.target then [x.source] else [x.source, x.target])) := by
  intro g e'
  obtain ⟨htracks, -⟩ := (Tracks.empty hempty).run hops hids
  have h : e'.Keeps g := htracks.keeps
  refine ⟨fun v hv labels args hlabels hargs => ⟨fun d => ?_, ?_⟩, fun x hx => h.yields_bothVertices hx⟩
  · obtain ⟨ws, hws, hiff⟩ := h.yields_toVertices hv hlabels hargs d
    refine ⟨_, _, hws, h.yields_toFar hv hlabels hargs d, fun i => ?_⟩
    simp only [vertexItems, List.mem_map (f := fun id => Except.ok (Traverser.vertex id)), hiff]
  · obtain ⟨outs, houts, hout⟩ := h.yields_toVertices hv hlabels hargs .outgoing
    obtain ⟨ins, hins, hin⟩ := h.yields_toVertices hv hlabels hargs .incoming
    obtain ⟨hboth, hopposite⟩ := h.yields_opposite hv hlabels hargs
    refine ⟨_, outs, ins, Multigraph.nodup_bothEdgesBy h.sound (Arguments.nodup_distinct labels), hboth,
      hopposite, houts, hins, fun w => ?_⟩
    rw [Multigraph.mem_opposite, hout, hin]
    exact ⟨fun ⟨d, hd⟩ => by cases d <;> simp [hd], fun hw => hw.elim (⟨_, ·⟩) (⟨_, ·⟩)⟩

/-- Parallel edges and a loop, asked for by a label that is given twice. -/
theorem edgeEnds_linkingOps :
    Chain.Agree ((RecordOp.runAll linkingOps).run (Engine.ofStore Memory.empty)).2
        (.startingAt .vertex (elementId 0) [⟨.outVertices, ["knows", "likes", "knows"].map .str⟩])
        (.startingAt .vertex (elementId 0)
          [⟨.outEdges, ["knows", "likes", "knows"].map .str⟩, ⟨.outVertex, []⟩]) ∧
      (Chain.startingAt .edge (elementId 4) [⟨.bothVertices, []⟩]).Yields
        ((RecordOp.runAll linkingOps).run (Engine.ofStore Memory.empty)).2
        (vertexItems [elementId 0]) := by
  obtain ⟨hvertex, hedge⟩ := @Engine.edgeEnds_history Memory _ _ (Engine.ofStore Memory.empty)
    (fun _ => rfl) linkingOps (by decide) (by decide)
  exact ⟨(hvertex (elementId 0) (by decide) _ _ (by decide) (.inl rfl)).1 .outgoing,
    hedge ⟨elementId 4, "knows", elementId 0, elementId 0⟩ (by decide)⟩

end PropertyGraph
