/-
Going from a vertex to its edges and its neighbours. Whatever history a store has, a query
that starts at a vertex finds the edges of the graph there, label by label and in the order of
creation, and each neighbour once (`Engine.navigation_history`).
-/
import PropertyGraph.Proofs.Contents
import PropertyGraph.Proofs.Planning
import PropertyGraph.Proofs.Reading
import PropertyGraph.Proofs.StreamRun

namespace PropertyGraph

open PropertyGraph.Graph

/-! ## Lists of ids put together -/

theorem union_append (seen a b : List String) : union seen (a ++ b) = union (union seen a) b :=
  List.foldl_append

/-- Distinct ids go behind the ones already seen, without those. -/
theorem union_eq_append {seen ids : List String} (h : ids.Nodup) :
    union seen ids = seen ++ ids.filter (!seen.contains ·) := by
  induction ids generalizing seen with
  | nil => simp [union]
  | cons id ids ih =>
    obtain ⟨hnew, hids⟩ := List.nodup_cons.1 h
    show union (if seen.contains id then seen else seen ++ [id]) ids = _
    rw [ih hids]
    by_cases hseen : seen.contains id = true
    · rw [if_pos hseen, List.filter_cons, hseen]
      rfl
    · rw [if_neg hseen, List.filter_cons, if_pos (by simpa using hseen)]
      have hsame : ids.filter (!(seen ++ [id]).contains ·) = ids.filter (!seen.contains ·) := by
        apply List.filter_congr
        intro x hx
        have hne : x ≠ id := fun hxid => hnew (hxid ▸ hx)
        simp [hne]
      rw [hsame, List.append_assoc]
      rfl

/-! ## The edges at a vertex -/

namespace Multigraph

/-- The labels an operation goes by, where no label stands for every edge. -/
def scopeLabels (labels : List String) : List (Option String) :=
  if labels.isEmpty then [none] else labels.map some

/-- The edges at a vertex in a direction: label by label, or all of them. -/
def edgesBy (g : Multigraph) (v : String) (d : Direction) (labels : List String) : List Edge :=
  (scopeLabels labels).flatMap fun label => g.edgesAt ⟨v, d, label⟩

variable {g : Multigraph} {neighbors : Scope → List String}

theorem mem_edgesBy {v : String} {d : Direction} {labels : List String} {x : Edge} :
    x ∈ g.edgesBy v d labels ↔
      x ∈ g.edges ∧ x.near d = v ∧ (labels = [] ∨ x.label ∈ labels) := by
  simp only [edgesBy, scopeLabels, edgesAt, Edge.isAt, List.mem_flatMap, List.mem_filter]
  cases labels with
  | nil => simp
  | cons l labels => simp; grind

/-- No edge comes twice. -/
theorem nodup_edgesBy (hg : g.Sound) (v : String) (d : Direction) {labels : List String}
    (h : labels.Nodup) : ((g.edgesBy v d labels).map (·.id)).Nodup := by
  have hat : ∀ s, (g.edgesAt s).Nodup := fun s => (List.Nodup.of_map _ hg.edgeIds).filter _
  refine List.Nodup.map_on (fun x hx y hy hid => ?_) ?_
  · exact List.inj_on_of_nodup_map hg.edgeIds (mem_edgesBy.1 hx).1 (mem_edgesBy.1 hy).1 hid
  · rw [edgesBy, scopeLabels]
    cases labels with
    | nil => simpa using hat _
    | cons l labels =>
      rw [List.nodup_flatMap]
      refine ⟨fun label _ => hat _, ?_⟩
      rw [if_neg (by simp), List.pairwise_map]
      refine h.imp fun {a b} hne x hxa hxb => hne ?_
      simp only [edgesAt, Edge.isAt, List.mem_filter, Bool.and_eq_true] at hxa hxb
      have ha : a = x.label := by simpa using hxa.2.2
      have hb : b = x.label := by simpa using hxb.2.2
      exact ha.trans hb.symm

/-- The edges listed at the scopes of some labels. -/
theorem listed_edgesBy (hg : g.Sound) (v : String) (d : Direction) (labels : List String) :
    (scopeLabels labels).flatMap
        (fun label => (g.layout neighbors).listed ⟨v, d, label⟩ .edges) =
      (g.edgesBy v d labels).map (·.id) := by
  simp only [listed_edges hg, edgesBy, List.map_flatMap]

/-- The vertices listed there are the other ends of these edges. -/
theorem mem_listed_vertices (hg : g.Sound) (hfits : g.Fits neighbors) {v : String} {d : Direction}
    {labels : List String} {w : String} :
    w ∈ (scopeLabels labels).flatMap
        (fun label => (g.layout neighbors).listed ⟨v, d, label⟩ .vertices) ↔
      ∃ x ∈ g.edgesBy v d labels, x.far d = w := by
  simp only [listed_vertices hg hfits, List.mem_flatMap, edgesBy, (hfits _).mem_iff, List.mem_map]
  grind

end Multigraph

/-! ## Reading the lists at a vertex -/

section Reading

variable {σ : Type} [Backend σ] [LawfulBackend σ] {e : Engine σ} {v : String}
  {labels : List String}

/-- The lists at the scopes of some labels are put together, each id once. -/
theorem neighbors_run {L : Layout} (he : e.Holds L.record) (hv : Key.isToken v = true)
    (hlabels : ∀ l ∈ labels, Key.isToken l = true) (d : Direction) (a : Adjacency)
    (seen : List String) :
    (neighbors v d a labels seen).run.run e =
      (.ok (union seen ((Multigraph.scopeLabels labels).flatMap fun label =>
        L.listed ⟨v, d, label⟩ a)), e) := by
  have hscopes : ∀ label ∈ Multigraph.scopeLabels labels, (⟨v, d, label⟩ : Scope).Valid := by
    intro label hlabel
    refine ⟨hv, fun l hl => ?_⟩
    rw [Multigraph.scopeLabels] at hlabel
    split at hlabel
    · rw [List.mem_singleton] at hlabel
      rw [hlabel] at hl
      cases hl
    · obtain ⟨l', hl', rfl⟩ := List.mem_map.1 hlabel
      cases hl
      exact hlabels l hl'
  show ((Multigraph.scopeLabels labels).foldlM (fun seen label =>
    return union seen (← adjacentIds v d a label) : List String → _ → Attempt σ _) seen).run.run e = _
  generalize Multigraph.scopeLabels labels = scopes at hscopes
  induction scopes generalizing seen with
  | nil => rfl
  | cons label scopes ih =>
    have hread := (does_adjacentIds (hscopes label (by simp)) a L).run_of_reads
      (reads_adjacentIds _ _ _ _) he
    rw [List.foldlM_cons, List.flatMap_cons, union_append, bind_assoc]
    refine (Attempt.bind_ok hread _).trans ?_
    rw [pure_bind]
    exact ih _ fun l hl => hscopes l (List.mem_cons_of_mem _ hl)

variable {g : Multigraph}

theorem edges_run (h : e.Keeps g) (hv : Key.isToken v = true)
    (hlabels : ∀ l ∈ labels, Key.isToken l = true) (d : Direction) (seen : List String) :
    (neighbors v d .edges labels seen).run.run e =
      (.ok (union seen ((g.edgesBy v d labels).map (·.id))), e) := by
  obtain ⟨hg, _, hfits, hholds⟩ := h
  rw [neighbors_run hholds hv hlabels d .edges seen, Multigraph.listed_edgesBy hg]

theorem vertices_run (h : e.Keeps g) (hv : Key.isToken v = true)
    (hlabels : ∀ l ∈ labels, Key.isToken l = true) (d : Direction) :
    ∃ ws : List String, (neighbors v d .vertices labels []).run.run e = (.ok ws, e) ∧ ws.Nodup ∧
      ∀ w, w ∈ ws ↔ ∃ x ∈ g.edgesBy v d labels, x.far d = w := by
  obtain ⟨hg, _, hfits, hholds⟩ := h
  refine ⟨_, neighbors_run hholds hv hlabels d .vertices [], nodup_union List.nodup_nil, ?_⟩
  intro w
  rw [mem_union, Multigraph.mem_listed_vertices hg hfits]
  simp

end Reading

/-! ## Queries from a vertex -/

namespace Arguments

theorem distinct_of_nodup {names : List String} (h : names.Nodup) : distinct names = names := by
  have hfold : ∀ seen : List String, (∀ s ∈ names, s ∉ seen) →
      names.foldl (fun seen s => if seen.contains s then seen else s :: seen) seen =
        names.reverse ++ seen := by
    induction names with
    | nil => simp
    | cons s names ih =>
      intro seen hseen
      obtain ⟨hs, hnames⟩ := List.nodup_cons.1 h
      have hnot : seen.contains s = false := by simpa using hseen s (by simp)
      rw [List.foldl_cons, hnot, List.reverse_cons, List.append_assoc]
      refine ih hnames (s :: seen) fun t ht => ?_
      rw [List.mem_cons, not_or]
      exact ⟨fun hts => hs (hts ▸ ht), hseen t (List.mem_cons_of_mem _ ht)⟩
  rw [distinct, hfold [] (by simp), List.append_nil, List.reverse_reverse]

/-- Texts that are each taken as they are. -/
theorem mapM_strings {read : Json → Except Error String} {texts : List String}
    (h : ∀ s ∈ texts, read (.str s) = .ok s) : (texts.map Json.str).mapM read = .ok texts := by
  induction texts with
  | nil => rfl
  | cons s texts ih =>
    rw [List.map_cons, List.mapM_cons, h s (by simp), ih fun t ht => h t (List.mem_cons_of_mem _ ht)]
    rfl

/-- Distinct tokens are taken as they are. -/
theorem names_strings (op : Operation) {labels : List String}
    (hlabels : ∀ l ∈ labels, Key.isToken l = true) (hnodup : labels.Nodup) :
    names op (labels.map .str) = .ok labels := by
  have hname : (labels.map Json.str).mapM (name op) = .ok labels := by
    refine mapM_strings fun l hl => ?_
    simp only [name, require, hlabels l hl]
    rfl
  have hnames : names op (labels.map .str) =
      (do return distinct (← (labels.map Json.str).mapM (name op))) := by
    rcases labels with _ | ⟨l, _ | ⟨l', labels⟩⟩ <;> rfl
  rw [hnames, hname]
  exact congrArg Except.ok (distinct_of_nodup hnodup)

end Arguments

namespace Chain

/-- The query that starts at a vertex and goes on by labels. -/
def fromVertex (v : String) (op : Operation) (labels : List String) : Chain :=
  [⟨.vertices, [.str v]⟩, ⟨op, labels.map .str⟩]

/-- Run to its end, a query brings these items and leaves everything as it was, whatever the
optimizer. -/
def Yields {σ : Type} [Backend σ] (chain : Chain) (e : Engine σ) (items : List Item) : Prop :=
  ∀ c : Config, ∃ n, ∀ budget, n ≤ budget →
    (do (← chain.openStream c.optimizer).items? budget : Attempt σ _).run.run e =
      (.ok (some items), e)

variable {σ : Type} [Backend σ] {v : String} {op : Operation} {labels : List String}
  {rule : OperationRule} {step : Step}

/-- A query brings what the stream it opens runs through, if nothing changes meanwhile. -/
theorem Yields.of_runs {chain : Chain} {e : Engine σ} {items : List Item}
    (h : ∀ c : Config, ∃ s : Stream, (chain.openStream c.optimizer).run.run e = (.ok s, e) ∧
      s.Runs e (items.map (·, e)) e) : chain.Yields e items := by
  intro c
  obtain ⟨s, hopen, hruns⟩ := h c
  obtain ⟨n, hn⟩ := hruns.items?_run
  refine ⟨n, fun budget hbudget => ?_⟩
  rw [Attempt.bind_ok hopen, hn budget hbudget]
  simp [Function.comp_def]

theorem resolve_fromVertex (hv : Key.isToken v = true) (hrule : ResultType.vertex.rule? op = some rule)
    (hstep : Step.ofCall op .vertex (labels.map .str) = .ok step) :
    (fromVertex v op labels).resolve = .ok [.root,
      ⟨"V", [.str v], .graph, .vertex, .vertices (.one v)⟩,
      ⟨op.name, labels.map .str, .vertex, rule.output, step⟩] := by
  have hne : v.isEmpty = false := by simpa using Validation.not_isEmpty_of_isToken hv
  have hselect : Step.ofCall .vertices .graph [.str v] = .ok (.vertices (.one v)) := by
    simp only [Step.ofCall, Arguments.selection, Arguments.selectedId, Validation.id, require, hne, hv]
    rfl
  have hrest : resolveFrom .vertex [⟨op, labels.map .str⟩] =
      .ok [⟨op.name, labels.map .str, .vertex, rule.output, step⟩] := by
    simp only [resolveFrom, ResultType.resolve, hrule, hstep]
    rfl
  have hfirst : resolveFrom .graph (fromVertex v op labels) =
      .ok [⟨"V", [.str v], .graph, .vertex, .vertices (.one v)⟩,
        ⟨op.name, labels.map .str, .vertex, rule.output, step⟩] := by
    show (do
      let step ← Step.ofCall .vertices .graph [.str v]
      let planned : PlannedStep := ⟨"V", [.str v], .graph, .vertex, step⟩
      return planned :: (← resolveFrom .vertex [⟨op, labels.map .str⟩])) = _
    rw [hselect, hrest]
    rfl
  show (do return PlannedStep.root :: (← resolveFrom .graph (fromVertex v op labels))) = _
  rw [hfirst]
  rfl

omit [Backend σ] in
/-- The stream of a query from a vertex, whatever the optimizer. -/
theorem openStream_fromVertex (c : Config) (hv : Key.isToken v = true)
    (hrule : ResultType.vertex.rule? op = some rule)
    (hstep : Step.ofCall op .vertex (labels.map .str) = .ok step) (e : Engine σ) :
    ((fromVertex v op labels).openStream c.optimizer).run.run e =
      (.ok ((Stream.given [.ok .graph]).ofSteps [.root, .vertices (.one v), step]), e) := by
  have hplan := c.optimizer.plan_of_resolve (resolve_fromVertex hv hrule hstep)
  have himprove : ∀ steps, c.optimizer.improve [.root,
      ⟨"V", [.str v], .graph, .vertex, .vertices (.one v)⟩, steps] = ([.root,
      ⟨"V", [.str v], .graph, .vertex, .vertices (.one v)⟩, steps], []) := by
    intro steps
    rw [Config.optimizer]
    split
    · rfl
    · rfl
  rw [himprove] at hplan
  exact openStream_run hplan e

/-- A query from a vertex that is there brings what its step makes of the vertex. -/
theorem yields_fromVertex [LawfulBackend σ] {e : Engine σ} {g : Multigraph} (h : e.Keeps g)
    (hv : v ∈ g.ids .vertex) (hrule : ResultType.vertex.rule? op = some rule)
    (hstep : Step.ofCall op .vertex (labels.map .str) = .ok step)
    (hstage : step.stage = .expand (.step step) none) {x : Expansion} {items : List Item}
    (hexpand : (Expansion.ofStep step (.vertex v)).run e = (x, e)) (hx : x.Brings e items) :
    (fromVertex v op labels).Yields e items := by
  refine .of_runs fun c => ?_
  obtain ⟨vertex, hmem, rfl⟩ := List.mem_map.1 hv
  have htoken := (h.sound.vertices vertex hmem).1.1
  have hexists : (elementExists .vertex vertex.id).run.run e = (.ok true, e) := by
    obtain ⟨neighbors, hfits, hholds⟩ := h.holds
    have hstored := hholds.contents_iff h.sound hfits (Key.element .vertex vertex.id) (.text vertex.id)
    have hthere : e.contents (Key.element .vertex vertex.id) = some (.text vertex.id) :=
      hstored.2 (.vertex hmem)
    rw [elementExists, Attempt.bind_ok (Engine.get_run _ e)]
    rw [Engine.contents] at hthere
    cases hentry : (LawfulBackend.entries e.store).get? (Key.element .vertex vertex.id) with
    | none => simp [hentry] at hthere
    | some entry => rfl
  have hroot : (Stream.through (.expand (.step .root) none) (.given [.ok .graph])).Brings e
      ([Traverser.graph].flatMap fun t => [.ok t]) :=
    .expand (l := [.graph]) (Stream.brings_given _ e) fun t ht => by
      obtain rfl : t = .graph := by simpa using ht
      exact ⟨_, rfl, .items _⟩
  have hvertex : (Stream.through (.expand (.step (.vertices (.one vertex.id))) none)
      (.through (.expand (.step .root) none) (.given [.ok .graph]))).Brings e
      ([Traverser.graph].flatMap fun _ => [.ok (.vertex vertex.id)]) :=
    .expand (l := [.graph]) hroot fun t ht => by
      obtain rfl : t = .graph := by simpa using ht
      refine ⟨_, rfl, .task (x := .items [.ok (.vertex vertex.id)]) ?_ (.items _)⟩
      exact (Attempt.bind_ok hexists _)
  have hall : ((Stream.given [.ok .graph]).ofSteps [.root, .vertices (.one vertex.id), step]).Brings e
      ([Traverser.vertex vertex.id].flatMap fun _ => items) := by
    show (Stream.through step.stage _).Brings e _
    rw [hstage]
    exact .expand (l := [.vertex vertex.id]) hvertex fun t ht => by
      obtain rfl : t = .vertex vertex.id := by simpa using ht
      exact ⟨x, hexpand, hx⟩
  rw [List.flatMap_singleton] at hall
  exact ⟨_, openStream_fromVertex c htoken hrule hstep e, hall.runs⟩

end Chain

section Navigation

variable {σ : Type} [Backend σ] [LawfulBackend σ] {e : Engine σ} {g : Multigraph} {v : String}
  {labels : List String}

omit [LawfulBackend σ] in
theorem Task.adjacent_brings {d : Direction} {a : Adjacency} {ids : List String}
    (h : (neighbors v d a labels []).run.run e = (.ok ids, e)) :
    (Expansion.task (.adjacent v d a labels)).Brings e (ids.map fun id =>
      .ok (match a with | .vertices => .vertex id | .edges => .edge id)) := by
  refine .task (x := .items _) ?_ (.items _)
  cases a <;> exact Attempt.bind_ok h _

theorem Engine.Keeps.edges_bring (h : e.Keeps g) (hv : Key.isToken v = true)
    (hlabels : ∀ l ∈ labels, Key.isToken l = true) (hnodup : labels.Nodup) (d : Direction) :
    (Expansion.task (.adjacent v d .edges labels)).Brings e
      ((g.edgesBy v d labels).map fun x => .ok (.edge x.id)) := by
  have hrun := edges_run h hv hlabels d []
  rw [union_eq_append (Multigraph.nodup_edgesBy h.sound v d hnodup)] at hrun
  have hbrings := Task.adjacent_brings hrun
  simp only [List.contains_nil, Bool.not_false, List.filter_true, List.nil_append,
    List.map_map] at hbrings
  exact hbrings

/-- Of the edges in both directions, those that leave come first, and a loop comes once. -/
theorem Engine.Keeps.bothEdges_bring (h : e.Keeps g) (hv : Key.isToken v = true)
    (hlabels : ∀ l ∈ labels, Key.isToken l = true) (hnodup : labels.Nodup) :
    (Expansion.task (.bothEdges v labels)).Brings e
      ((g.edgesBy v .outgoing labels ++ (g.edgesBy v .incoming labels).filter
        (· ∉ g.edgesBy v .outgoing labels)).map fun x => .ok (.edge x.id)) := by
  have hleaving := edges_run h hv hlabels .outgoing []
  have hentering := edges_run h hv hlabels .incoming
    ((g.edgesBy v .outgoing labels).map (·.id))
  rw [union_eq_append (Multigraph.nodup_edgesBy h.sound v _ hnodup)] at hleaving hentering
  simp only [List.contains_nil, Bool.not_false, List.filter_true, List.nil_append] at hleaving
  have hseen : ((g.edgesBy v .incoming labels).map (·.id)).filter
      (!((g.edgesBy v .outgoing labels).map (·.id)).contains ·) =
      ((g.edgesBy v .incoming labels).filter (· ∉ g.edgesBy v .outgoing labels)).map (·.id) := by
    rw [List.filter_map]
    refine congrArg (List.map _) (List.filter_congr fun x hx => ?_)
    have hiff : x.id ∈ (g.edgesBy v .outgoing labels).map (·.id) ↔
        x ∈ g.edgesBy v .outgoing labels := by
      constructor
      · intro hxid
        obtain ⟨y, hy, hyx⟩ := List.mem_map.1 hxid
        have hxg := (Multigraph.mem_edgesBy.1 hx).1
        exact List.inj_on_of_nodup_map h.sound.edgeIds (Multigraph.mem_edgesBy.1 hy).1 hxg hyx ▸ hy
      · exact List.mem_map_of_mem
    simp only [Function.comp_apply, List.contains_eq_mem, hiff, decide_not]
  rw [hseen, ← List.map_append] at hentering
  refine .task (x := .items _) ?_ (.items _)
  rw [Task.begin, Attempt.bind_ok hleaving, Attempt.bind_ok hentering, List.map_map]
  rfl

/-- The edges at a vertex come label by label, in the order of creation. -/
theorem Engine.Keeps.yields_edges (h : e.Keeps g) (hv : v ∈ g.ids .vertex)
    (hlabels : ∀ l ∈ labels, Key.isToken l = true) (hnodup : labels.Nodup) (d : Direction)
    (op : Operation) {rule : OperationRule} (hrule : ResultType.vertex.rule? op = some rule)
    (hop : ∀ args, Step.ofCall op .vertex args =
      (do return .adjacent d .edges (← Arguments.names op args))) :
    (Chain.fromVertex v op labels).Yields e
      ((g.edgesBy v d labels).map fun x => .ok (.edge x.id)) := by
  have hstep : Step.ofCall op .vertex (labels.map .str) = .ok (.adjacent d .edges labels) := by
    rw [hop, Arguments.names_strings op hlabels hnodup]
    rfl
  exact Chain.yields_fromVertex h hv hrule hstep rfl rfl
    (h.edges_bring (h.sound.isName hv).1 hlabels hnodup d)

theorem Engine.Keeps.yields_bothEdges (h : e.Keeps g) (hv : v ∈ g.ids .vertex)
    (hlabels : ∀ l ∈ labels, Key.isToken l = true) (hnodup : labels.Nodup) :
    (Chain.fromVertex v .bothEdges labels).Yields e
      ((g.edgesBy v .outgoing labels ++ (g.edgesBy v .incoming labels).filter
        (· ∉ g.edgesBy v .outgoing labels)).map fun x => .ok (.edge x.id)) := by
  have hstep : Step.ofCall .bothEdges .vertex (labels.map .str) = .ok (.bothEdges labels) := by
    show (do return Step.bothEdges (← Arguments.names .bothEdges (labels.map .str))) = _
    rw [Arguments.names_strings _ hlabels hnodup]
    rfl
  exact Chain.yields_fromVertex h hv rfl hstep rfl rfl
    (h.bothEdges_bring (h.sound.isName hv).1 hlabels hnodup)

/-- Each neighbour comes once. -/
theorem Engine.Keeps.yields_vertices (h : e.Keeps g) (hv : v ∈ g.ids .vertex)
    (hlabels : ∀ l ∈ labels, Key.isToken l = true) (hnodup : labels.Nodup) (d : Direction)
    (op : Operation) {rule : OperationRule} (hrule : ResultType.vertex.rule? op = some rule)
    (hop : ∀ args, Step.ofCall op .vertex args =
      (do return .adjacent d .vertices (← Arguments.names op args))) :
    ∃ ws : List String, ws.Nodup ∧ (∀ w, w ∈ ws ↔ ∃ x ∈ g.edgesBy v d labels, x.far d = w) ∧
      (Chain.fromVertex v op labels).Yields e (ws.map fun w => .ok (.vertex w)) := by
  obtain ⟨vertex, hmem, hid⟩ := List.mem_map.1 hv
  have hv' : Key.isToken v = true := hid ▸ (h.sound.vertices vertex hmem).1.1
  obtain ⟨ws, hrun, hws, hiff⟩ := vertices_run h hv' hlabels d
  have hstep : Step.ofCall op .vertex (labels.map .str) = .ok (.adjacent d .vertices labels) := by
    rw [hop, Arguments.names_strings op hlabels hnodup]
    rfl
  exact ⟨ws, hws, hiff,
    Chain.yields_fromVertex h hv hrule hstep rfl rfl (Task.adjacent_brings hrun)⟩

end Navigation

/-! ## After a history -/

/-- Whatever operations ran from an empty store, the queries from a vertex of the graph bring
its edges label by label in the order of creation, and each of its neighbours once: those a
vertex has by an edge with one of the labels, or by any edge where no label is named. -/
theorem Engine.navigation_history {σ : Type} [Backend σ] [LawfulBackend σ] {e : Engine σ}
    (hempty : ∀ key, e.contents key = none) {ops : List RecordOp} (hops : ∀ op ∈ ops, op.Named)
    (hids : GoodIds e.ids (Multigraph.history e.ids ops (.empty, e.issued)).2) {v : String}
    (hv : v ∈ (Multigraph.history e.ids ops (.empty, e.issued)).1.ids .vertex)
    {labels : List String} (hlabels : ∀ l ∈ labels, Key.isToken l = true) (hnodup : labels.Nodup) :
    let g := (Multigraph.history e.ids ops (.empty, e.issued)).1
    let e' := ((RecordOp.runAll ops).run e).2
    let leaving := g.edgesBy v .outgoing labels
    let entering := g.edgesBy v .incoming labels
    (Chain.fromVertex v .outEdges labels).Yields e' (leaving.map fun x => .ok (.edge x.id)) ∧
      (Chain.fromVertex v .inEdges labels).Yields e' (entering.map fun x => .ok (.edge x.id)) ∧
      (Chain.fromVertex v .bothEdges labels).Yields e'
        ((leaving ++ entering.filter (· ∉ leaving)).map fun x => .ok (.edge x.id)) ∧
      (∃ ws : List String, ws.Nodup ∧
        (∀ w, w ∈ ws ↔ ∃ x ∈ g.edges, x.source = v ∧ x.target = w ∧
          (labels = [] ∨ x.label ∈ labels)) ∧
        (Chain.fromVertex v .outVertices labels).Yields e' (ws.map fun w => .ok (.vertex w))) ∧
      ∃ ws : List String, ws.Nodup ∧
        (∀ w, w ∈ ws ↔ ∃ x ∈ g.edges, x.target = v ∧ x.source = w ∧
          (labels = [] ∨ x.label ∈ labels)) ∧
        (Chain.fromVertex v .inVertices labels).Yields e' (ws.map fun w => .ok (.vertex w)) := by
  obtain ⟨htracks, -⟩ := (Tracks.empty hempty).run hops hids
  have h := htracks.keeps
  intro g e' leaving entering
  obtain ⟨outs, houts, hout, hyieldsOut⟩ := h.yields_vertices hv hlabels hnodup .outgoing .outVertices
    rfl fun _ => rfl
  obtain ⟨ins, hins, hin, hyieldsIn⟩ := h.yields_vertices hv hlabels hnodup .incoming .inVertices
    rfl fun _ => rfl
  refine ⟨h.yields_edges hv hlabels hnodup .outgoing .outEdges rfl fun _ => rfl,
    h.yields_edges hv hlabels hnodup .incoming .inEdges rfl fun _ => rfl,
    h.yields_bothEdges hv hlabels hnodup, ⟨outs, houts, fun w => ?_, hyieldsOut⟩,
    ins, hins, fun w => ?_, hyieldsIn⟩
  · simp only [hout, Multigraph.mem_edgesBy, Edge.near, Edge.far]
    grind
  · simp only [hin, Multigraph.mem_edgesBy, Edge.near, Edge.far]
    grind

/-- Two vertices with edges between them, a loop, and an edge that goes again. -/
def linkingOps : List RecordOp :=
  [.createVertex "person", .createVertex "person",
    .createEdge "knows" (elementId 0) (elementId 1), .createEdge "likes" (elementId 0) (elementId 1),
    .createEdge "knows" (elementId 0) (elementId 0), .dropEdge (elementId 2)]

theorem yields_linkingOps :
    (Chain.fromVertex (elementId 0) .outEdges ["likes", "knows"]).Yields
      ((RecordOp.runAll linkingOps).run (Engine.ofStore Memory.empty)).2
      [.ok (.edge (elementId 3)), .ok (.edge (elementId 4))] :=
  (@Engine.navigation_history Memory _ _ (Engine.ofStore Memory.empty) (fun _ => rfl) linkingOps
    (by decide) (by decide) (elementId 0) (by decide) ["likes", "knows"] (by decide) (by decide)).1

end PropertyGraph
