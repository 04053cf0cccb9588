/-
Datasets as graphs. What is generated can be loaded, whatever is drawn (`Dataset.generate?_loadable`).
Loading a dataset whose edges have their ends among its vertices runs operations on records, one after
the other (`Dataset.load?_run`), and the graph they make is counted as the dataset is: by queries that
count what they pick, whether the optimizer changes them or not (`Engine.Keeps.yields_counted`), and
the edges that leave a vertex (`Engine.Keeps.yields_outDegree`). So all of it can be checked against
the dataset (`Engine.dataset_history`), where the hub is the first vertex that the most edges leave
(`Dataset.hub_spec`).
-/
import PropertyGraph.Dataset
import PropertyGraph.Proofs.Nesting

namespace PropertyGraph

open PropertyGraph.Graph

/-! ## Operations one after the other -/

namespace RecordOp

variable {σ : Type} [Backend σ]

theorem runAll_cons (op : RecordOp) (ops : List RecordOp) (e : Engine σ) :
    ((runAll (op :: ops)).run e).2 = ((runAll ops).run (op.run.run e).2).2 := rfl

theorem runAll_append (ops ops' : List RecordOp) (e : Engine σ) :
    ((runAll (ops ++ ops')).run e).2 = ((runAll ops').run ((runAll ops).run e).2).2 := by
  induction ops generalizing e with
  | nil => rfl
  | cons op ops ih => rw [List.cons_append, runAll_cons, ih, runAll_cons]

end RecordOp

/-! ## Queries that count -/

section Counting

variable {σ : Type} [Backend σ] [LawfulBackend σ] {e : Engine σ} {g : Multigraph}
  {kind : ElementKind} {filters : List (String × Json)} {limit : Option Nat}

/-- A number, as it is brought. -/
def countItem (n : Nat) : Item := .ok (.value (.nat n))

theorem Chain.resolveFrom_count (kind : ElementKind) :
    Chain.resolveFrom kind.type [⟨.count, []⟩] =
      .ok [⟨Operation.count.name, [], kind.type, .value, .count⟩] := by
  have hrule : kind.type.rule? .count = some ⟨.count, .value, .transform⟩ := by cases kind <;> rfl
  exact Chain.resolveFrom_cons hrule rfl rfl

/-- A query that counts what it picks brings its number. -/
theorem Engine.Keeps.yields_counted {chain : Chain} (h : e.Keeps g)
    (hchain : chain.Picks kind filters limit [.count]) (hsorted : ∀ v : Survey, v.Sorted g)
    (hshows : g.Shows kind filters limit (g.ids kind)) :
    chain.Yields e [countItem (g.picks kind filters limit).length] := by
  refine .of_runs fun c => ?_
  obtain ⟨s, hs, hopen⟩ := hchain.exists_supplies (σ := σ) (by simp) h.sound hsorted hshows c
  have hcounted := (hs.runs h).counted (l := (g.picks kind filters limit).map (.ofElement kind))
    (by simp [Function.comp_def]) 0
  rw [List.length_map, Nat.zero_add] at hcounted
  exact ⟨_, hopen e, hcounted⟩

/-- The number of all elements of a kind. -/
theorem Engine.Keeps.yields_countAll (h : e.Keeps g) (hsorted : ∀ v : Survey, v.Sorted g)
    (kind : ElementKind) :
    (Chain.startingAtAll kind [⟨.count, []⟩]).Yields e [countItem (g.ids kind).length] := by
  have hyields := h.yields_counted (Chain.picks_of_calls [] none (Chain.resolveFrom_count kind) rfl)
    hsorted g.shows_all
  rwa [g.picks_all] at hyields

/-- The number of the vertices of a label. -/
theorem Engine.Keeps.yields_countLabel (h : e.Keeps g) (hsorted : ∀ v : Survey, v.Sorted g)
    (l : String) :
    (Chain.startingAtAll .vertex [⟨.has, [.str Key.labelToken, .str l]⟩, ⟨.count, []⟩]).Yields e
      [countItem (g.labeled l).length] := by
  have hcalls : Chain.resolveFrom ElementKind.vertex.type
      [⟨.has, [.str Key.labelToken, .str l]⟩, ⟨.count, []⟩] =
        .ok [⟨Operation.has.name, [.str Key.labelToken, .str l], .vertex, .vertex,
          .has Key.labelToken (.str l)⟩, ⟨Operation.count.name, [], .vertex, .value, .count⟩] :=
    Chain.resolveFrom_cons rfl rfl (Chain.resolveFrom_count .vertex)
  have hyields := h.yields_counted (Chain.picks_of_calls [(Key.labelToken, .str l)] none hcalls rfl)
    hsorted (g.shows_label l)
  rwa [h.sound.picks_label] at hyields

/-- The number of the edges that leave a vertex. -/
theorem Engine.Keeps.yields_outDegree {v : String} (h : e.Keeps g) (hv : v ∈ g.ids .vertex) :
    (Chain.startingAt .vertex v [⟨.outEdges, []⟩, ⟨.count, []⟩]).Yields e
      [countItem (g.edges.countP (·.source == v))] := by
  have htoken := (h.sound.isName hv).1
  have hcalls : Chain.resolveFrom ElementKind.vertex.type [⟨.outEdges, []⟩, ⟨.count, []⟩] =
      .ok [⟨Operation.outEdges.name, [], .vertex, .edge, .adjacent .outgoing .edges []⟩,
        ⟨Operation.count.name, [], .edge, .value, .count⟩] :=
    Chain.resolveFrom_cons rfl rfl (Chain.resolveFrom_count .edge)
  have hedges : (Stream.through (.expand (.step (.adjacent .outgoing .edges [])) none)
      ((Stream.given [.ok .graph]).ofSteps [.root, .vertices (.one v)])).Brings e
      ([Traverser.vertex v].flatMap fun _ =>
        (g.edgesBy v .outgoing []).map fun x => .ok (.edge x.id)) :=
    (h.brings_selected hv).expand (l := [.vertex v]) fun t ht => by
      obtain rfl : t = .vertex v := by simpa using ht
      exact ⟨_, rfl, h.edges_bring htoken (by simp) .nil .outgoing⟩
  rw [List.flatMap_singleton] at hedges
  have hcounted := hedges.runs.counted
    (l := (g.edgesBy v .outgoing []).map fun x => .edge x.id) (by simp [Function.comp_def]) 0
  have hlength : (g.edgesBy v .outgoing []).length = g.edges.countP (·.source == v) := by
    simp [Multigraph.edgesBy, Multigraph.scopeLabels, Multigraph.edgesAt, Edge.isAt, Edge.near,
      List.countP_eq_length_filter]
  rw [List.length_map, Nat.zero_add, hlength] at hcounted
  exact .of_runs fun c =>
    ⟨_, Chain.openStream_startingAt htoken hcalls c e, hcounted⟩

end Counting

/-- A graph without elements. -/
def Multigraph.Bare (g : Multigraph) : Prop := ∀ kind, g.ids kind = []

namespace Dataset

/-! ## Generating -/

/-- Each edge has its ends among the vertices, and all labels are tokens. Loops and parallel edges
may be there. -/
structure Loadable (d : Dataset) : Prop where
  ends : ∀ x ∈ d.edges, x.source < d.nodeCount ∧ x.target < d.nodeCount
  labels : ∀ l ∈ d.labels, Key.isToken l = true
  edgeLabels : ∀ x ∈ d.edges, Key.isToken x.label = true

section Generating

variable {draws : Draws} {nodes index bound : Nat}

theorem draw_lt (draws : Draws) (index : Nat) (h : 0 < bound) : draw draws index bound < bound :=
  Nat.mod_lt _ h

theorem pick_mem (draws : Draws) (index : Nat) {items : List String} (h : items ≠ []) :
    pick draws index items ∈ items := by
  have hlt := draw_lt draws index (List.length_pos_iff.2 h)
  rw [pick, List.getD_eq_getElem _ _ hlt]
  exact List.getElem_mem hlt

/-- An edge between two different vertices, with one of the labels. -/
def Joins (nodes : Nat) (x : EdgeSpec) : Prop :=
  (x.source < nodes ∧ x.target < nodes ∧ x.source ≠ x.target) ∧ x.label ∈ edgeLabels

/-- The draw for the other end is shifted past the first, so the ends differ. -/
theorem joins_randomEdge (draws : Draws) (h : 2 ≤ nodes) (index : Nat) :
    Joins nodes (randomEdge draws nodes index) := by
  have hsource := draw_lt draws index (show 0 < nodes by omega)
  have hother := draw_lt draws (index + 1) (show 0 < nodes - 1 by omega)
  refine ⟨?_, pick_mem draws (index + 2) (by decide)⟩
  simp only [randomEdge]
  split <;> omega

theorem joins_shapeEdges (draws : Draws) (h : 2 ≤ nodes) (shape : GraphShape) :
    ∀ x ∈ shapeEdges draws nodes shape, Joins nodes x := by
  intro x hx
  cases shape with
  | line =>
    obtain ⟨i, hi, rfl⟩ := List.mem_map.1 hx
    have := List.mem_range.1 hi
    have hends : i < nodes ∧ i + 1 < nodes ∧ i ≠ i + 1 := by omega
    exact ⟨hends, by simp [edgeLabels]⟩
  | star =>
    obtain ⟨i, hi, rfl⟩ := List.mem_map.1 hx
    have := List.mem_range.1 hi
    have hends : 0 < nodes ∧ i + 1 < nodes ∧ 0 ≠ i + 1 := by omega
    exact ⟨hends, by simp [edgeLabels]⟩
  | random edges =>
    obtain ⟨i, -, rfl⟩ := List.mem_map.1 hx
    exact joins_randomEdge draws h _

/-- Whatever is drawn, a dataset of at least two vertices is generated, and it can be loaded. -/
theorem generate?_loadable (draws : Draws) (shape : GraphShape) (h : 2 ≤ nodes) :
    ∃ d, generate? draws shape nodes = some d ∧ d.nodeCount = nodes ∧ d.isValid = true ∧
      d.Loadable := by
  have htokens : ∀ l ∈ vertexLabels ++ edgeLabels, Key.isToken l = true := by decide
  have hjoins := joins_shapeEdges draws h shape
  refine ⟨_, if_neg (by omega), by simp [nodeCount], ?_, ?_, ?_, ?_⟩
  · simp only [isValid, nodeCount, List.length_map, List.length_range, List.all_eq_true,
      Bool.and_eq_true, decide_eq_true_eq, bne_iff_ne, and_assoc]
    exact fun x hx => (hjoins x hx).1
  · intro x hx
    simp only [nodeCount, List.length_map, List.length_range]
    exact ⟨(hjoins x hx).1.1, (hjoins x hx).1.2.1⟩
  · intro l hl
    obtain ⟨i, -, rfl⟩ := List.mem_map.1 hl
    exact htokens _ (List.mem_append_left _ (pick_mem draws i (by decide)))
  · exact fun x hx => htokens _ (List.mem_append_right _ (hjoins x hx).2)

end Generating

/-! ## The hub -/

/-- One more vertex is looked at: it takes the place of the best so far if more edges leave it. -/
def leading (d : Dataset) (best : Nat × Nat) (i : Nat) : Nat × Nat :=
  if best.1 < d.outDegree i then (d.outDegree i, i) else best

theorem hub_eq (d : Dataset) : d.hub = ((List.range d.nodeCount).foldl d.leading (0, 0)).2 := rfl

/-- Among the first vertices, the best so far is the first that the most edges leave. -/
theorem foldl_leading (d : Dataset) (n : Nat) :
    let best := (List.range n).foldl d.leading (0, 0)
    (∀ i < n, d.outDegree i ≤ best.1) ∧ (∀ i < best.2, d.outDegree i < best.1) ∧
      (best.2 < n ∧ d.outDegree best.2 = best.1 ∨ best = (0, 0)) := by
  induction n with
  | zero => simp
  | succ n ih =>
    rw [List.range_succ, List.foldl_append, List.foldl_cons, List.foldl_nil]
    generalize (List.range n).foldl d.leading (0, 0) = best at ih
    obtain ⟨hmost, hfirst, hbest⟩ := ih
    rw [leading]
    split
    · rename_i hmore
      refine ⟨fun i hi => ?_, fun i hi => Nat.lt_of_le_of_lt (hmost i hi) hmore, .inl ⟨by simp, rfl⟩⟩
      rcases Nat.lt_succ_iff_lt_or_eq.1 hi with hi | rfl
      · exact (hmost i hi).trans (Nat.le_of_lt hmore)
      · exact Nat.le_refl _
    · rename_i hnot
      refine ⟨fun i hi => ?_, hfirst, hbest.imp_left fun h => ⟨by omega, h.2⟩⟩
      rcases Nat.lt_succ_iff_lt_or_eq.1 hi with hi | rfl
      · exact hmost i hi
      · exact Nat.not_lt.1 hnot

/-- Of all vertices, the hub is the first that the most edges leave. -/
theorem hub_spec {d : Dataset} (h : 0 < d.nodeCount) :
    d.hub < d.nodeCount ∧ (∀ i < d.nodeCount, d.outDegree i ≤ d.outDegree d.hub) ∧
      ∀ i < d.hub, d.outDegree i < d.outDegree d.hub := by
  have hfold := d.foldl_leading d.nodeCount
  simp only [hub_eq]
  generalize (List.range d.nodeCount).foldl d.leading (0, 0) = best at hfold
  obtain ⟨hmost, hfirst, ⟨hlt, hdegree⟩ | rfl⟩ := hfold
  · rw [hdegree]
    exact ⟨hlt, hmost, hfirst⟩
  · exact ⟨h, fun i hi => (hmost i hi).trans (Nat.zero_le _), fun i hi => absurd hi (Nat.not_lt_zero i)⟩

/-! ## Loading -/

/-- The operations that create vertices and number them, from an id and a number on. -/
def vertexOps (ids : Nat → String) : (next start : Nat) → List String → List RecordOp
  | _, _, [] => []
  | next, start, label :: rest =>
    .createVertex label :: .setProperty .vertex (ids next) indexKey (.nat start) ::
      vertexOps ids (next + 1) (start + 1) rest

/-- The operations that create edges, where the ids of vertices are handed out from one on. -/
def edgeOps (ids : Nat → String) (first : Nat) (edges : List EdgeSpec) : List RecordOp :=
  edges.map fun x => .createEdge x.label (ids (first + x.source)) (ids (first + x.target))

/-- The operations that load a dataset. -/
def ops (d : Dataset) (ids : Nat → String) (first : Nat) : List RecordOp :=
  vertexOps ids first 0 d.labels ++ edgeOps ids first d.edges

theorem isPropertyKey_indexKey : IsPropertyKey indexKey := by decide

theorem named_vertexOps {ids : Nat → String} {next start : Nat} {labels : List String}
    (hids : GoodIds ids (next + labels.length)) : ∀ op ∈ vertexOps ids next start labels, op.Named := by
  induction labels generalizing next start with
  | nil => simp [vertexOps]
  | cons label labels ih =>
    rw [List.length_cons] at hids
    have htoken : Key.isToken (ids next) = true := (hids.wellFormed next (by omega)).isName.1
    have hrest : ∀ op ∈ vertexOps ids (next + 1) (start + 1) labels, op.Named :=
      ih (hids.mono (by omega))
    simpa [vertexOps, RecordOp.Named, htoken] using hrest

section Graphs

variable {ids : Nat → String} {s : Multigraph × Nat} {start first : Nat} {labels : List String}
  {edges : List EdgeSpec}

/-- What creating vertices and numbering them makes of a graph. -/
structure AddsVertices (ids : Nat → String) (start : Nat) (labels : List String)
    (s s' : Multigraph × Nat) : Prop where
  next : s'.2 = s.2 + labels.length
  vertexIds : s'.1.ids .vertex = s.1.ids .vertex ++ (List.range' s.2 labels.length).map ids
  vertexLabels : s'.1.vertices.map (·.label) = s.1.vertices.map (·.label) ++ labels
  allEdges : s'.1.edges = s.1.edges
  numbered : ∀ i < labels.length,
    s'.1.property .vertex (ids (s.2 + i)) indexKey = some (.nat (start + i))
  others : ∀ id key, (key = indexKey → ∀ i < labels.length, ids (s.2 + i) ≠ id) →
    s'.1.property .vertex id key = s.1.property .vertex id key

theorem addsVertices_history (hlabels : ∀ l ∈ labels, Key.isToken l = true)
    (hids : GoodIds ids (s.2 + labels.length)) :
    AddsVertices ids start labels s
      (Multigraph.history ids (vertexOps ids s.2 start labels) s) := by
  induction labels generalizing s start with
  | nil => exact ⟨rfl, by simp [vertexOps, Multigraph.history], by simp [vertexOps, Multigraph.history],
      rfl, by simp, fun _ _ _ => rfl⟩
  | cons label labels ih =>
    rw [List.length_cons] at hids
    let s₁ : Multigraph × Nat := ((s.1.addVertex ⟨ids s.2, label⟩).setProperty .vertex (ids s.2)
      indexKey (.nat start), s.2 + 1)
    have hfirst : Multigraph.history ids (vertexOps ids s.2 start (label :: labels)) s =
        Multigraph.history ids (vertexOps ids s₁.2 (start + 1) labels) s₁ := by
      simp only [vertexOps, Multigraph.history, List.foldl_cons, Multigraph.step,
        hlabels label List.mem_cons_self, isPropertyKey_indexKey, if_true, s₁]
    have hrest : AddsVertices ids (start + 1) labels s₁ _ :=
      ih (fun l hl => hlabels l (List.mem_cons_of_mem _ hl))
        (hids.mono (show s.2 + 1 + labels.length ≤ _ by omega))
    rw [hfirst]
    have hnew : ∀ i < labels.length, ids (s₁.2 + i) ≠ ids s.2 := fun i hi heq => by
      have := hids.injective (show s.2 + 1 + i < _ by omega) (by omega) heq
      omega
    refine ⟨hrest.next.trans (by simp only [List.length_cons, s₁]; omega), ?_, ?_, hrest.allEdges,
      fun i hi => ?_, fun id key hother => ?_⟩
    · rw [hrest.vertexIds, List.length_cons, List.range'_succ, List.map_cons,
        List.append_cons _ _ (List.map _ _)]
      simp [s₁, Multigraph.ids, Multigraph.addVertex, Multigraph.setProperty]
    · rw [hrest.vertexLabels, List.append_cons]
      simp [s₁, Multigraph.addVertex, Multigraph.setProperty]
    · cases i with
      | zero =>
        refine (hrest.others _ _ fun _ => hnew).trans ?_
        simp [s₁, Multigraph.setProperty]
      | succ i =>
        have hnumbered := hrest.numbered i (by simpa using hi)
        rwa [show s₁.2 + i = s.2 + (i + 1) by simp only [s₁]; omega, Nat.add_right_comm] at hnumbered
    · refine (hrest.others id key fun hkey i hi => ?_).trans ?_
      · have := hother hkey (i + 1) (by simpa using hi)
        rwa [show s.2 + (i + 1) = s₁.2 + i by simp only [s₁]; omega] at this
      · have hne : ¬(id = ids s.2 ∧ key = indexKey) := fun h =>
          hother h.2 0 (by simp) h.1.symm
        simp [s₁, Multigraph.setProperty, Multigraph.addVertex, hne]

/-- What creating edges makes of a graph. -/
structure AddsEdges (ids : Nat → String) (first : Nat) (edges : List EdgeSpec)
    (s s' : Multigraph × Nat) : Prop where
  next : s'.2 = s.2 + edges.length
  vertices : s'.1.vertices = s.1.vertices
  sources : s'.1.edges.map (·.source) =
    s.1.edges.map (·.source) ++ edges.map fun x => ids (first + x.source)
  property : s'.1.property = s.1.property

/-- Vertices for the ends of edges are there. -/
def EndsThere (ids : Nat → String) (first : Nat) (edges : List EdgeSpec) (g : Multigraph) : Prop :=
  ∀ x ∈ edges, Key.isToken x.label = true ∧ ids (first + x.source) ∈ g.ids .vertex ∧
    ids (first + x.target) ∈ g.ids .vertex

theorem addsEdges_history (hends : EndsThere ids first edges s.1) :
    AddsEdges ids first edges s (Multigraph.history ids (edgeOps ids first edges) s) := by
  induction edges generalizing s with
  | nil => exact ⟨rfl, rfl, by simp [edgeOps, Multigraph.history], rfl⟩
  | cons x edges ih =>
    let s₁ : Multigraph × Nat := (s.1.addEdge ⟨ids s.2, x.label, ids (first + x.source),
      ids (first + x.target)⟩, s.2 + 1)
    have hfirst : Multigraph.history ids (edgeOps ids first (x :: edges)) s =
        Multigraph.history ids (edgeOps ids first edges) s₁ := by
      simp only [edgeOps, List.map_cons, Multigraph.history, List.foldl_cons, Multigraph.step,
        hends x List.mem_cons_self, and_self, if_true, s₁]
    have hrest := ih (s := s₁) fun y hy => hends y (List.mem_cons_of_mem _ hy)
    rw [hfirst]
    refine ⟨hrest.next.trans (by simp only [List.length_cons, s₁]; omega), hrest.vertices, ?_,
      hrest.property⟩
    rw [hrest.sources, List.map_cons, List.append_cons _ _ (List.map _ _)]
    simp [s₁, Multigraph.addEdge]

variable {σ : Type} [Backend σ] [LawfulBackend σ] {e : Engine σ}

/-- Vertices are loaded by their operations. -/
theorem loadVertices_run (h : Tracks ids s e) (hlabels : ∀ l ∈ labels, Key.isToken l = true)
    (hids : GoodIds ids (s.2 + labels.length)) :
    (loadVertices start labels).run.run e = (.ok ((List.range' s.2 labels.length).map ids),
      ((RecordOp.runAll (vertexOps ids s.2 start labels)).run e).2) := by
  induction labels generalizing s e start with
  | nil => rfl
  | cons label labels ih =>
    rw [List.length_cons] at hids
    obtain ⟨e₁, hcreate, htracks, -⟩ := createVertex_run h (hlabels label List.mem_cons_self)
      (hids.mono (by omega))
    have htoken := (hids.wellFormed s.2 (by omega)).isName.1
    obtain ⟨e₂, hset, hkeeps, hbeside⟩ :=
      htracks.keeps.setProperty .vertex htoken isPropertyKey_indexKey (.nat start)
    have hrest := @ih _ (start + 1) _ (htracks.of_keeps hkeeps hbeside fun _ _ hid => hid)
      (fun l hl => hlabels l (List.mem_cons_of_mem _ hl))
      (hids.mono (show s.2 + 1 + labels.length ≤ _ by omega))
    rw [vertexOps, RecordOp.runAll_cons, RecordOp.run, RecordOp.run_of_outcome hcreate,
      RecordOp.runAll_cons, RecordOp.run, RecordOp.run_of_outcome hset, loadVertices, Attempt.bind_ok hcreate,
      Attempt.bind_ok hset, Attempt.bind_ok hrest]
    rfl

/-- Edges are loaded by theirs. -/
theorem loadEdges?_run (vertexIds : List String) (h : Tracks ids s e)
    (hends : EndsThere ids first edges s.1) (hids : GoodIds ids (s.2 + edges.length))
    (hlisted : ∀ x ∈ edges, vertexIds[x.source]? = some (ids (first + x.source)) ∧
      vertexIds[x.target]? = some (ids (first + x.target))) :
    (loadEdges? vertexIds edges).run.run e =
      (.ok (some ()), ((RecordOp.runAll (edgeOps ids first edges)).run e).2) := by
  induction edges generalizing s e with
  | nil => rfl
  | cons x edges ih =>
    rw [List.length_cons] at hids
    obtain ⟨hlabel, hsource, htarget⟩ := hends x List.mem_cons_self
    obtain ⟨e₁, hcreate, htracks, -⟩ := createEdge_run h hlabel hsource htarget
      (hids.mono (by omega))
    have hrest := ih htracks (fun y hy => hends y (List.mem_cons_of_mem _ hy))
      (hids.mono (show s.2 + 1 + edges.length ≤ _ by omega))
      fun y hy => hlisted y (List.mem_cons_of_mem _ hy)
    rw [edgeOps, List.map_cons, RecordOp.runAll_cons, RecordOp.run, RecordOp.run_of_outcome hcreate,
      loadEdges?]
    simp only [hlisted x List.mem_cons_self]
    rw [Attempt.bind_ok hcreate]
    exact hrest

/-- A dataset is loaded by its operations, and its vertices have the ids that come next. -/
theorem load?_run {d : Dataset} (hd : d.Loadable) (h : Tracks ids s e)
    (hids : GoodIds ids (s.2 + d.nodeCount + d.edgeCount)) :
    let s₁ := Multigraph.history ids (vertexOps ids s.2 0 d.labels) s
    AddsVertices ids 0 d.labels s s₁ ∧
      AddsEdges ids s.2 d.edges s₁ (Multigraph.history ids (d.ops ids s.2) s) ∧
      d.load?.run.run e = (.ok (some ((List.range' s.2 d.nodeCount).map ids)),
        ((RecordOp.runAll (d.ops ids s.2)).run e).2) := by
  intro s₁
  have hvertexIds : GoodIds ids (s.2 + d.labels.length) := hids.mono (Nat.le_add_right _ _)
  have hvertices : AddsVertices ids 0 d.labels s s₁ := addsVertices_history hd.labels hvertexIds
  have hloaded : (loadVertices 0 d.labels).run.run e =
      (.ok ((List.range' s.2 d.nodeCount).map ids), _) := loadVertices_run h hd.labels hvertexIds
  have hlisted : ∀ i < d.nodeCount, ((List.range' s.2 d.nodeCount).map ids)[i]? =
      some (ids (s.2 + i)) := by
    intro i hi
    simp [hi]
  have hends : EndsThere ids s.2 d.edges s₁.1 := by
    have hthere : ∀ i < d.nodeCount, ids (s.2 + i) ∈ s₁.1.ids .vertex := by
      intro i hi
      rw [hvertices.vertexIds]
      exact List.mem_append_right _ (List.mem_of_getElem? (hlisted i hi))
    exact fun x hx => ⟨hd.edgeLabels x hx, hthere _ (hd.ends x hx).1, hthere _ (hd.ends x hx).2⟩
  obtain ⟨htracks, -⟩ := h.run (named_vertexOps hvertexIds) (hvertices.next ▸ hvertexIds)
  have hedges := loadEdges?_run ((List.range' s.2 d.nodeCount).map ids) htracks hends
    (hids.mono (by rw [hvertices.next]; rfl))
    fun x hx => ⟨hlisted _ (hd.ends x hx).1, hlisted _ (hd.ends x hx).2⟩
  refine ⟨hvertices, ?_, ?_⟩
  · rw [ops, Multigraph.history, List.foldl_append]
    exact addsEdges_history hends
  · rw [load?, Attempt.bind_ok hloaded, Attempt.bind_ok hedges, ops, RecordOp.runAll_append]
    rfl

theorem named_ops {d : Dataset} (hids : GoodIds ids (first + d.nodeCount)) :
    ∀ op ∈ d.ops ids first, op.Named := by
  intro op hop
  rcases List.mem_append.1 hop with hop | hop
  · exact named_vertexOps hids op hop
  · obtain ⟨x, -, rfl⟩ := List.mem_map.1 hop
    trivial

end Graphs

/-! ## What is counted -/

/-- A graph that has nothing but the elements of a dataset. The ids of its vertices are those that
come from a number on. -/
structure Loaded (d : Dataset) (ids : Nat → String) (n : Nat) (g : Multigraph) : Prop where
  vertexIds : g.ids .vertex = (List.range' n d.nodeCount).map ids
  labels : g.vertices.map (·.label) = d.labels
  sources : g.edges.map (·.source) = d.edges.map fun x => ids (n + x.source)
  numbered : ∀ i < d.nodeCount, g.property .vertex (ids (n + i)) indexKey = some (.nat i)

section Counts

variable {ids : Nat → String} {n : Nat} {g : Multigraph} {s s₁ s' : Multigraph × Nat} {d : Dataset}

/-- A dataset is all there is of a graph that had no elements. -/
theorem loaded (hbare : s.1.Bare) (hv : AddsVertices ids 0 d.labels s s₁)
    (he : AddsEdges ids s.2 d.edges s₁ s') : d.Loaded ids s.2 s'.1 := by
  have hnoVertices : s.1.vertices = [] := List.map_eq_nil_iff.1 (hbare .vertex)
  have hnoEdges : s.1.edges = [] := List.map_eq_nil_iff.1 (hbare .edge)
  refine ⟨?_, ?_, ?_, fun i hi => ?_⟩
  · have hsame : s'.1.ids .vertex = s₁.1.ids .vertex := congrArg (List.map _) he.vertices
    rw [hsame, hv.vertexIds, show s.1.ids .vertex = [] from hbare .vertex]
    rfl
  · rw [he.vertices, hv.vertexLabels, hnoVertices]
    rfl
  · rw [he.sources, hv.allEdges, hnoEdges]
    rfl
  · have hnumber := hv.numbered i hi
    rwa [Nat.zero_add, ← he.property] at hnumber

theorem Loaded.length_edges (h : d.Loaded ids n g) : (g.ids .edge).length = d.edgeCount := by
  have hlength := congrArg List.length h.sources
  simpa [Multigraph.ids, edgeCount] using hlength

theorem Loaded.length_labeled (h : d.Loaded ids n g) (l : String) :
    (g.labeled l).length = d.labelCount l := by
  rw [Multigraph.labeled, List.length_map, ← List.countP_eq_length_filter, labelCount, ← h.labels,
    List.count_eq_countP, List.countP_map]
  rfl

/-- Ids are told apart, so as many edges leave a vertex as leave its number. -/
theorem Loaded.countP_source (h : d.Loaded ids n g) (hd : d.Loadable)
    (hids : GoodIds ids (n + d.nodeCount)) {i : Nat} (hi : i < d.nodeCount) :
    g.edges.countP (·.source == ids (n + i)) = d.outDegree i := by
  have hcount : g.edges.countP (·.source == ids (n + i)) =
      (g.edges.map (·.source)).countP (· == ids (n + i)) := by
    rw [List.countP_map]
    rfl
  rw [hcount, h.sources, List.countP_map, outDegree]
  refine List.countP_congr fun x hx => ?_
  have hx' := (hd.ends x hx).1
  simp only [Function.comp_apply, beq_iff_eq]
  constructor
  · intro heq
    have := hids.injective (i := n + x.source) (j := n + i) (by omega) (by omega) heq
    omega
  · rintro rfl
    rfl

theorem readable_nat {i : Nat} (hi : i < 2 ^ 64) : (Json.nat i).readable = true := by
  simp only [Json.nat, Json.readable, Bool.and_eq_true, decide_eq_true_eq]
  refine ⟨by omega, Int.ofNat_le.2 ?_⟩
  rw [Number.maxInt]
  omega

/-- The number of a vertex can be read with its other properties. -/
theorem readableAt_loaded (hg : s.1.Readable) (hv : AddsVertices ids 0 d.labels s s₁)
    (he : AddsEdges ids s.2 d.edges s₁ s') {i : Nat} (hi : i < d.nodeCount) (hword : i < 2 ^ 64) :
    s'.1.ReadableAt .vertex (ids (s.2 + i)) := by
  intro key value hvalue
  rw [he.property] at hvalue
  by_cases hkey : key = indexKey
  · rw [hkey, hv.numbered i hi, Nat.zero_add] at hvalue
    cases hvalue
    exact readable_nat hword
  · rw [hv.others _ _ fun h => absurd h hkey] at hvalue
    exact hg _ _ key value hvalue

end Counts

end Dataset

/-! ## After a history -/

/-- Whatever is drawn, a dataset of any shape with at least two vertices is generated, with labels that
are tokens and edges between two different vertices. Where any operations left a graph without elements,
every dataset whose labels are tokens and whose edges have their ends among its vertices is loaded; and
then the vertices, the edges, the vertices of a label and the edges that leave a vertex are as many as
the dataset has, and each vertex has its number, if this is a machine word. The hub of a dataset with
vertices is the first that the most edges leave. -/
theorem Engine.dataset_history {σ : Type} [Backend σ] [LawfulBackend σ] {e : Engine σ}
    (hempty : ∀ key, e.contents key = none) {ops : List RecordOp} (hops : ∀ op ∈ ops, op.Named)
    (hreadable : ∀ op ∈ ops, op.Readable)
    (hbare : (Multigraph.history e.ids ops (.empty, e.issued)).1.Bare) :
    (∀ draws shape nodes, 2 ≤ nodes → ∃ d, Dataset.generate? draws shape nodes = some d ∧
      d.nodeCount = nodes ∧ d.isValid = true ∧ d.Loadable) ∧
    (∀ d : Dataset, d.Loadable →
      GoodIds e.ids ((Multigraph.history e.ids ops (.empty, e.issued)).2 + d.nodeCount + d.edgeCount) →
      let e' := ((RecordOp.runAll ops).run e).2
      ∃ vertexIds e'', d.load?.run.run e' = (.ok (some vertexIds), e'') ∧
        vertexIds.length = d.nodeCount ∧
        (Chain.startingAtAll .vertex [⟨.count, []⟩]).Yields e'' [countItem d.nodeCount] ∧
        (Chain.startingAtAll .edge [⟨.count, []⟩]).Yields e'' [countItem d.edgeCount] ∧
        (∀ l, Key.isToken l = true →
          (Chain.startingAtAll .vertex [⟨.has, [.str "label", .str l]⟩, ⟨.count, []⟩]).Yields e''
            [countItem (d.labelCount l)]) ∧
        ∀ i id, vertexIds[i]? = some id →
          (Chain.startingAt .vertex id [⟨.outEdges, []⟩, ⟨.count, []⟩]).Yields e''
            [countItem (d.outDegree i)] ∧
          (i < 2 ^ 64 → (Chain.startingAt .vertex id [⟨.valueMap, [.str "idx"]⟩]).Yields e''
            [.ok (.value (.obj [("idx", .nat i)]))])) ∧
    ∀ d : Dataset, 0 < d.nodeCount → d.hub < d.nodeCount ∧
      (∀ i < d.nodeCount, d.outDegree i ≤ d.outDegree d.hub) ∧
      ∀ i < d.hub, d.outDegree i < d.outDegree d.hub := by
  refine ⟨fun draws shape nodes hnodes => Dataset.generate?_loadable draws shape hnodes, ?_,
    fun d hd => Dataset.hub_spec hd⟩
  intro d hd hids e'
  generalize hs : Multigraph.history e.ids ops (.empty, e.issued) = s at hbare hids
  have hgood : GoodIds e.ids s.2 := hids.mono (by omega)
  obtain ⟨htracks, -⟩ := (Tracks.empty hempty).run hops (hs ▸ hgood)
  rw [hs] at htracks
  obtain ⟨hv, he, hload⟩ := Dataset.load?_run hd htracks hids
  have hnamed := Dataset.named_ops (d := d) (hids.mono (Nat.le_add_right _ _))
  have hids' : GoodIds e.ids (Multigraph.history e.ids (d.ops e.ids s.2) s).2 := by
    rw [he.next, hv.next]
    exact hids
  have h := (htracks.run hnamed hids').1.keeps
  have hascending := ((Multigraph.Ascending.empty e.ids e.issued).history (hs ▸ hgood))
  rw [hs] at hascending
  have hsorted : ∀ v : Survey, v.Sorted (Multigraph.history e.ids (d.ops e.ids s.2) s).1 :=
    Survey.sorted_of_ascending (hascending.history hids') hids'
  have hg : s.1.Readable := hs ▸ Multigraph.readable_history hreadable
  have hloaded := Dataset.loaded hbare hv he
  refine ⟨_, _, hload, by simp, ?_, ?_, fun l _ => ?_, fun i id hid => ?_⟩
  · have hcount := h.yields_countAll hsorted .vertex
    rwa [hloaded.vertexIds, List.length_map, List.length_range'] at hcount
  · have hcount := h.yields_countAll hsorted .edge
    rwa [hloaded.length_edges] at hcount
  · have hcount := h.yields_countLabel hsorted l
    rwa [hloaded.length_labeled] at hcount
  · have hthere : id ∈ (Multigraph.history e.ids (d.ops e.ids s.2) s).1.ids .vertex :=
      hloaded.vertexIds ▸ List.mem_of_getElem? hid
    obtain ⟨hi, rfl⟩ : i < d.nodeCount ∧ e.ids (s.2 + i) = id := by
      simpa [List.getElem?_eq_some_iff] using hid
    refine ⟨?_, fun hword => ?_⟩
    · have hcount := h.yields_outDegree hthere
      rwa [hloaded.countP_source hd (hids.mono (Nat.le_add_right _ _)) hi] at hcount
    · have hkey : ∀ n ∈ [Dataset.indexKey], Key.isToken n = true := by
        simpa using Dataset.isPropertyKey_indexKey.1
      exact (h.yields_told (Dataset.readableAt_loaded hg hv he hi hword) hthere hkey (.inl rfl)
        (Multigraph.tells_property Dataset.isPropertyKey_indexKey (hloaded.numbered i hi))).1

/-- Two vertices, with a loop at the first and two edges to the second. -/
def loopedDataset : Dataset :=
  ⟨["person", "place"], [⟨0, 1, "knows"⟩, ⟨0, 0, "uses"⟩, ⟨0, 1, "knows"⟩]⟩

theorem dataset_looped :
    ∃ (vertexIds : List String) (after : Engine Memory) (id : String),
      loopedDataset.load?.run.run (Engine.ofStore Memory.empty) = (.ok (some vertexIds), after) ∧
        vertexIds[0]? = some id ∧
        (Chain.startingAtAll .edge [⟨.count, []⟩]).Yields after [countItem 3] ∧
        (Chain.startingAt .vertex id [⟨.outEdges, []⟩, ⟨.count, []⟩]).Yields after [countItem 3] ∧
        loopedDataset.hub = 0 := by
  obtain ⟨-, hload, -⟩ := @Engine.dataset_history Memory _ _ (Engine.ofStore Memory.empty)
    (fun _ => rfl) [] (by simp) (by simp) (by intro kind; cases kind <;> rfl)
  obtain ⟨vertexIds, after, hloaded, hlength, -, hedges, -, hvertices⟩ :=
    hload loopedDataset ⟨by decide, by decide, by decide⟩ (by decide)
  obtain _ | ⟨id, rest⟩ := vertexIds
  · exact absurd hlength (by decide)
  · exact ⟨id :: rest, after, id, hloaded, rfl, hedges, (hvertices 0 id rfl).1, by decide⟩

end PropertyGraph
