/-
Queries that change the elements they go through. A drop takes out just the elements that filters
and a limit pick of the graph as it was at first, vertices with the edges at them, and a property is
set of just these: none is passed over and none comes twice, although the keys the scan goes through
are deleted under it (`Engine.sweeping_history`).
-/
import PropertyGraph.Proofs.Enumeration

namespace PropertyGraph

open PropertyGraph.Graph

namespace Multigraph

/-! ## Many elements at once -/

/-- The ids of the edges that leave or enter one of some vertices. -/
def touching (g : Multigraph) (ids : List String) : List String :=
  (g.edges.filter fun x => x.source ∈ ids ∨ x.target ∈ ids).map (·.id)

/-- Takes elements of a kind and their properties out, vertices with the edges at them. -/
def without (g : Multigraph) : ElementKind → List String → Multigraph
  | .edge, gone => g.removeEdges gone
  | .vertex, gone =>
    let rest := g.removeEdges (g.touching gone)
    { rest with
      vertices := rest.vertices.filter (·.id ∉ gone)
      property := fun kind id key =>
        if kind = .vertex ∧ id ∈ gone then none else rest.property kind id key
      opened := fun s => rest.opened s && s.vertex ∉ gone }

/-- Sets a property of some elements. -/
def setEach (g : Multigraph) (kind : ElementKind) (ids : List String) (key : String) (value : Json) :
    Multigraph :=
  { g with property := fun kind' id' key' =>
      if kind' = kind ∧ id' ∈ ids ∧ key' = key then some value else g.property kind' id' key' }

variable {g : Multigraph} {kind : ElementKind} {ids : List String}

theorem mem_touching {id : String} :
    id ∈ g.touching ids ↔ ∃ x ∈ g.edges, (x.source ∈ ids ∨ x.target ∈ ids) ∧ x.id = id := by
  simp only [touching, List.mem_map, List.mem_filter, decide_eq_true_eq, and_assoc]

/-- The edges at a vertex and those at others, once these are gone. -/
theorem mem_touching_cons (g : Multigraph) (v : String) (ids : List String) (id : String) :
    id ∈ g.touching (v :: ids) ↔
      id ∈ g.incident v ∨ id ∈ (g.removeEdges (g.incident v)).touching ids := by
  have hincident : ∀ i, i ∈ g.incident v ↔
      ∃ x ∈ g.edges, (x.source = v ∨ x.target = v) ∧ x.id = i := by
    simp only [incident, touches, List.mem_map, List.mem_filter, Bool.or_eq_true, beq_iff_eq,
      and_assoc, implies_true]
  have hedges : ∀ x, x ∈ (g.removeEdges (g.incident v)).edges ↔
      x ∈ g.edges ∧ x.id ∉ g.incident v := by
    simp [removeEdges]
  simp only [mem_touching, hedges, List.mem_cons]
  constructor
  · rintro ⟨x, hx, hends, rfl⟩
    by_cases hv : x.id ∈ g.incident v
    · exact .inl hv
    · refine .inr ⟨x, ⟨hx, hv⟩, ?_, rfl⟩
      have hnot : ¬(x.source = v ∨ x.target = v) :=
        fun hends => hv ((hincident _).2 ⟨x, hx, hends, rfl⟩)
      grind
  · rintro (hid | ⟨x, ⟨hx, -⟩, hends, rfl⟩)
    · obtain ⟨x, hx, hends, rfl⟩ := (hincident id).1 hid
      exact ⟨x, hx, by grind, rfl⟩
    · exact ⟨x, hx, by grind, rfl⟩

theorem without_nil (g : Multigraph) (kind : ElementKind) : g.without kind [] = g := by
  cases kind with
  | edge => exact removeEdges_nil g
  | vertex =>
    have htouching : g.touching [] = [] := by simp [touching]
    simp [without, htouching, removeEdges_nil]

/-- One element, and then the others. -/
theorem without_cons (g : Multigraph) (kind : ElementKind) (id : String) (ids : List String) :
    (g.drop kind id).without kind ids = g.without kind (id :: ids) := by
  cases kind with
  | edge => exact removeEdges_removeEdges g [id] ids
  | vertex =>
    -- the edges at the others are found where those at the first are gone
    have hedges : (g.removeEdges (g.incident id)).removeEdges
        ((g.removeEdges (g.incident id)).touching ids) = g.removeEdges (g.touching (id :: ids)) := by
      rw [removeEdges_removeEdges]
      exact removeEdges_congr g fun i => by rw [List.mem_append, mem_touching_cons]
    have hfirst : (g.dropVertex id).removeEdges ((g.dropVertex id).touching ids) =
        (g.removeEdges (g.touching (id :: ids))).removeVertex id := by
      rw [← hedges]
      simp only [dropVertex, removeVertex, removeEdges, touching, Multigraph.mk.injEq, true_and,
        and_true]
      funext kind i key
      grind
    show (without (g.dropVertex id) .vertex ids) = _
    simp only [without, hfirst]
    simp only [removeVertex, List.filter_filter, Multigraph.mk.injEq, true_and]
    refine ⟨List.filter_congr fun v _ => ?_, ?_, ?_⟩
    · by_cases hv : v.id = id <;> simp [hv]
    · funext kind i key
      grind
    · funext s
      rw [Bool.and_assoc]
      refine congrArg _ ?_
      by_cases hs : s.vertex = id <;> simp [hs]

/-- Elements that are dropped one after the other. -/
theorem foldl_drop (g : Multigraph) (kind : ElementKind) (ids : List String) :
    ids.foldl (·.drop kind) g = g.without kind ids := by
  induction ids generalizing g with
  | nil => exact (without_nil g kind).symm
  | cons id ids ih => exact (ih _).trans (without_cons g kind id ids)

/-- A property that is set of one element after the other. -/
theorem foldl_setProperty (g : Multigraph) (kind : ElementKind) (ids : List String) (key : String)
    (value : Json) :
    ids.foldl (fun g id => g.setProperty kind id key value) g = g.setEach kind ids key value := by
  induction ids generalizing g with
  | nil => simp [setEach]
  | cons id ids ih =>
    refine (ih _).trans ?_
    simp only [setEach, setProperty, Multigraph.mk.injEq, true_and, and_true]
    funext kind' id' key'
    grind

end Multigraph

variable {σ : Type} [Backend σ] [LawfulBackend σ] {e : Engine σ} {g : Multigraph} {kind : ElementKind}
  {filters : List (String × Json)} {limit : Option Nat} {chain : Chain}

/-! ## Queries that change what they pick -/

section Sweeps

variable (h : e.Keeps g) (hsorted : ∀ v : Survey, v.Sorted g)
  (hshows : g.Shows kind filters limit (g.ids kind)) (c : Config)

include h hsorted hshows

/-- A drop takes out what is picked. -/
theorem Engine.Keeps.dropping_picks (hchain : chain.Picks kind filters limit [.drop]) :
    ∃ e', (∃ n, ∀ budget, n ≤ budget →
        (do (← chain.openStream c.optimizer).items? budget : Attempt σ _).run.run e =
          (.ok (some []), e')) ∧
      e'.Keeps (g.without kind (g.picks kind filters limit)) ∧ e.Beside e' := by
  obtain ⟨s, hs, hopen⟩ := hchain.exists_supplies (σ := σ) (by simp) h.sound hsorted hshows c
  obtain ⟨e', hruns, hkeeps, hb⟩ := hs.runs_drop (fun _ => h.sound.isToken_picks) h
  obtain ⟨n, hn⟩ := hruns.items?_run
  rw [Multigraph.foldl_drop] at hkeeps
  refine ⟨e', ⟨n, fun budget hbudget => ?_⟩, hkeeps, hb⟩
  rw [Attempt.bind_ok (hopen e)]
  exact hn budget hbudget

/-- A property is set of what is picked. -/
theorem Engine.Keeps.setting_picks {key : String} {value : Json}
    (hchain : chain.Picks kind filters limit [.property key value]) :
    ∃ e', (∃ n, ∀ budget, n ≤ budget →
        (do (← chain.openStream c.optimizer).items? budget : Attempt σ _).run.run e =
          (.ok (some (elementItems kind (g.picks kind filters limit))), e')) ∧
      e'.Keeps (g.setEach kind (g.picks kind filters limit) key value) ∧ e.Beside e' ∧
      ∀ k, e'.contents k = if k ∈ (g.picks kind filters limit).map (Key.property kind · key)
        then some (.text value.text) else e.contents k := by
  have hkey : IsPropertyKey key := hchain.walks (.property key value) (by simp)
  obtain ⟨s, hs, hopen⟩ := hchain.exists_supplies (σ := σ) (by simp) h.sound hsorted hshows c
  obtain ⟨trace, e', hruns, htrace, hkeeps, hb, hcontents⟩ :=
    hs.runs_setting (fun _ => h.sound.isToken_picks) hkey value h
  obtain ⟨n, hn⟩ := hruns.items?_run
  rw [Multigraph.foldl_setProperty] at hkeeps
  refine ⟨e', ⟨n, fun budget hbudget => ?_⟩, hkeeps, hb, hcontents⟩
  rw [Attempt.bind_ok (hopen e), ← show trace.map (·.1) = elementItems kind _ from htrace]
  exact hn budget hbudget

end Sweeps

/-! ## After a history -/

/-- Whatever operations ran from an empty store, a query that goes through all elements of a kind,
keeps those that pass filters and so many of these at most, and drops them, takes out just these,
vertices with the edges at them, and brings nothing; one that sets a property of them sets it of just
these, brings each of them once, and writes no other key. Which they are is told by the graph before
the query, in the order of the ids, and the optimizer makes no difference. -/
theorem Engine.sweeping_history (hempty : ∀ key, e.contents key = none) {ops : List RecordOp}
    (hops : ∀ op ∈ ops, op.Named)
    (hids : GoodIds e.ids (Multigraph.history e.ids ops (.empty, e.issued)).2)
    (hshows : (Multigraph.history e.ids ops (.empty, e.issued)).1.Shows kind filters limit
      ((Multigraph.history e.ids ops (.empty, e.issued)).1.ids kind)) :
    let g := (Multigraph.history e.ids ops (.empty, e.issued)).1
    let e' := ((RecordOp.runAll ops).run e).2
    let picked := g.picks kind filters limit
    e'.Keeps g ∧ (g.ids kind).Pairwise (fun a b => compare a b = .lt) ∧
    (∀ (c : Config) (chain : Chain), chain.Picks kind filters limit [.drop] →
      ∃ e'', (∃ n, ∀ budget, n ≤ budget →
          (do (← chain.openStream c.optimizer).items? budget : Attempt σ _).run.run e' =
            (.ok (some []), e'')) ∧
        e''.Keeps (g.without kind picked) ∧ e'.Beside e'') ∧
    ∀ (c : Config) (chain : Chain) key value, chain.Picks kind filters limit [.property key value] →
      ∃ e'', (∃ n, ∀ budget, n ≤ budget →
          (do (← chain.openStream c.optimizer).items? budget : Attempt σ _).run.run e' =
            (.ok (some (elementItems kind picked)), e'')) ∧
        e''.Keeps (g.setEach kind picked key value) ∧ e'.Beside e'' ∧
        ∀ k, e''.contents k = if k ∈ picked.map (Key.property kind · key) then some (.text value.text)
          else e'.contents k := by
  intro g e' picked
  obtain ⟨htracks, -⟩ := (Tracks.empty hempty).run hops hids
  have h : e'.Keeps g := htracks.keeps
  have hsorted : ∀ v : Survey, v.Sorted g :=
    Survey.sorted_of_ascending ((Multigraph.Ascending.empty e.ids e.issued).history hids) hids
  refine ⟨h, Survey.ids_all kind g ▸ (hsorted (.all kind)).ascending, fun c chain hchain => ?_,
    fun c chain key value hchain => ?_⟩
  · exact h.dropping_picks hsorted hshows c hchain
  · exact h.setting_picks hsorted hshows c hchain

/-- Three vertices in a row, of which the first and the last are marked. -/
def rowOps : List RecordOp :=
  [.createVertex "person", .createVertex "person", .createVertex "person",
    .createEdge "knows" (elementId 0) (elementId 1), .createEdge "knows" (elementId 1) (elementId 2),
    .setProperty .vertex (elementId 0) "seen" (.bool true),
    .setProperty .vertex (elementId 2) "seen" (.bool true)]

/-- What is dropped of them: the first that is marked. -/
def rowFilters : List (String × Json) := [("label", .str "person"), ("seen", .bool true)]

def droppingRow : Chain :=
  [⟨.vertices, []⟩, ⟨.has, [.str "label", .str "person"]⟩, ⟨.has, [.str "seen", .bool true]⟩,
    ⟨.limit, [.nat 1]⟩, ⟨.drop, []⟩]

/-- The first vertex goes, and the edge at it. -/
theorem sweeping_rowOps :
    let g := (Multigraph.history elementId rowOps (.empty, 0)).1
    let kept := ((RecordOp.runAll rowOps).run (Engine.ofStore Memory.empty)).2
    ∃ after, (∃ n, ∀ budget, n ≤ budget →
        (do (← droppingRow.openStream .default).items? budget : Attempt Memory _).run.run kept =
          (.ok (some []), after)) ∧
      after.Keeps (g.without .vertex [elementId 0]) ∧
      (g.without .vertex [elementId 0]).ids .vertex = [elementId 1, elementId 2] ∧
      (g.without .vertex [elementId 0]).ids .edge = [elementId 4] := by
  intro g kept
  have hread : ∀ id ∈ g.ids .vertex, g.passes? .vertex id rowFilters ≠ none := by decide
  have hpicked : g.picks .vertex rowFilters (some 1) = [elementId 0] := by decide
  obtain ⟨-, -, hdrop, -⟩ := @Engine.sweeping_history Memory _ _ (Engine.ofStore Memory.empty)
    .vertex rowFilters (some 1) (fun _ => rfl) rowOps (by decide) (by decide)
    (Multigraph.shows_of_read hread)
  obtain ⟨after, hrun, hkeeps, -⟩ := hdrop {} droppingRow ⟨_, rfl, rfl⟩
  have hwithout : after.Keeps (g.without .vertex (g.picks .vertex rowFilters (some 1))) := hkeeps
  rw [hpicked] at hwithout
  exact ⟨after, hrun, hwithout, by decide, by decide⟩

end PropertyGraph
