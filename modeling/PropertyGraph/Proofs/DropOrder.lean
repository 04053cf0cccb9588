/-
Drops in any order. A drop takes an edge out of the lists of the vertices that stay at its first
place, and may find that another drop took it out before. Where several elements are dropped one
after the other, it only depends on which they are what graph is left (`Multigraph.dropEach_eq`) and
what the ordered lists of neighbours are then (`acts_dropEach`), and so is every key of the store and
every value (`Engine.dropOrder_history`).
-/
import PropertyGraph.Proofs.FlakyDrops
import PropertyGraph.Proofs.InHand
import PropertyGraph.Proofs.Supply

namespace PropertyGraph

open PropertyGraph.Graph

/-- The ids of the vertices among some elements. -/
def vertexIds (xs : List ElementRef) : List String :=
  xs.filterMap fun
    | (.vertex, id) => some id
    | (.edge, _) => none

/-- Drops elements one after the other. -/
def dropElements {σ : Type} [Backend σ] (xs : List ElementRef) : Run σ Unit :=
  xs.forM fun x => dropElement x.1 x.2

namespace Multigraph

/-! ## Many drops at once -/

/-- The ids of the edges that go with an element: all edges at a vertex, and an edge itself. -/
def goneWith (g : Multigraph) : ElementRef → List String
  | (.vertex, id) => g.incident id
  | (.edge, id) => [id]

/-- Takes edges and vertices out, and their properties. -/
def cleared (g : Multigraph) (edges vertices : List String) : Multigraph where
  vertices := g.vertices.filter (·.id ∉ vertices)
  edges := g.edges.filter (·.id ∉ edges)
  property kind id key :=
    if (kind = .edge ∧ id ∈ edges) ∨ (kind = .vertex ∧ id ∈ vertices) then none
    else g.property kind id key
  opened s := g.opened s && s.vertex ∉ vertices

/-- Drops elements one after the other. -/
def dropEach (g : Multigraph) (xs : List ElementRef) : Multigraph :=
  xs.foldl (fun g x => g.drop x.1 x.2) g

variable {g : Multigraph}

theorem cleared_nil : g.cleared [] [] = g := by
  simp [cleared]

/-- Which edges and which vertices go is all that counts. -/
theorem cleared_congr {a b vs ws : List String} (hab : ∀ id, id ∈ a ↔ id ∈ b)
    (hvw : ∀ id, id ∈ vs ↔ id ∈ ws) : g.cleared a vs = g.cleared b ws := by
  simp only [cleared, hab, hvw]

theorem cleared_cleared (a b vs ws : List String) :
    (g.cleared a vs).cleared b ws = g.cleared (a ++ b) (vs ++ ws) := by
  simp only [cleared, List.filter_filter, Multigraph.mk.injEq, List.mem_append]
  refine ⟨List.filter_congr fun v _ => ?_, List.filter_congr fun x _ => ?_, ?_, ?_⟩
  · grind
  · grind
  · funext kind id key
    grind
  · funext s
    grind

theorem drop_eq (x : ElementRef) : g.drop x.1 x.2 = g.cleared (g.goneWith x) (vertexIds [x]) := by
  obtain ⟨kind, id⟩ := x
  cases kind with
  | edge =>
    simp [drop, dropEdge, removeEdges, cleared, goneWith, vertexIds]
  | vertex =>
    simp only [drop, dropVertex, removeVertex, removeEdges, cleared, goneWith, vertexIds,
      Multigraph.mk.injEq]
    refine ⟨List.filter_congr fun v _ => ?_, List.filter_congr fun x _ => ?_, ?_, ?_⟩
    · rw [Bool.eq_iff_iff]
      simp
    · rw [List.contains_eq_mem]
      exact decide_not.symm
    · funext kind i key
      grind
    · funext s
      rw [Bool.eq_iff_iff]
      simp

theorem edges_drop (g : Multigraph) (x : ElementRef) :
    (g.drop x.1 x.2).edges = (g.removeEdges (g.goneWith x)).edges := by
  obtain ⟨kind, id⟩ := x
  cases kind <;> rfl

/-- What goes with an element may be gone already. -/
theorem mem_goneWith_drop (g : Multigraph) (x y : ElementRef) (id : String) :
    id ∈ g.goneWith x ∨ id ∈ (g.drop x.1 x.2).goneWith y ↔ id ∈ g.goneWith x ∨ id ∈ g.goneWith y := by
  obtain ⟨kind, i⟩ := y
  cases kind with
  | edge => rfl
  | vertex =>
    simp only [goneWith, incident, edges_drop, removeEdges, List.mem_map, List.mem_filter]
    grind

/-- The edges that go with one element, and then with others. -/
theorem mem_gone_cons (x : ElementRef) (xs : List ElementRef) (id : String) :
    id ∈ g.goneWith x ++ xs.flatMap (g.drop x.1 x.2).goneWith ↔
      id ∈ (x :: xs).flatMap g.goneWith := by
  have hone := fun y => g.mem_goneWith_drop x y id
  simp only [List.flatMap_cons, List.mem_append, List.mem_flatMap]
  grind

/-- Elements that are dropped one after the other. -/
theorem dropEach_eq (xs : List ElementRef) :
    g.dropEach xs = g.cleared (xs.flatMap g.goneWith) (vertexIds xs) := by
  induction xs generalizing g with
  | nil => exact cleared_nil.symm
  | cons x xs ih =>
    have hvertices : vertexIds (x :: xs) = vertexIds [x] ++ vertexIds xs :=
      List.filterMap_append (l := [x])
    rw [hvertices]
    calc g.dropEach (x :: xs)
        = (g.drop x.1 x.2).cleared (xs.flatMap (g.drop x.1 x.2).goneWith) (vertexIds xs) := ih
      _ = (g.cleared (g.goneWith x) (vertexIds [x])).cleared
            (xs.flatMap (g.drop x.1 x.2).goneWith) (vertexIds xs) := by rw [← drop_eq]
      _ = _ := cleared_cleared ..
      _ = _ := cleared_congr (mem_gone_cons x xs) fun _ => Iff.rfl

/-- Which elements are dropped is all that counts. -/
theorem dropEach_congr {xs ys : List ElementRef} (h : ∀ x, x ∈ xs ↔ x ∈ ys) :
    g.dropEach xs = g.dropEach ys ∧ ∀ neighbors,
      g.thinned neighbors (xs.flatMap g.goneWith) = g.thinned neighbors (ys.flatMap g.goneWith) := by
  have hgone : ∀ id, id ∈ xs.flatMap g.goneWith ↔ id ∈ ys.flatMap g.goneWith := by
    simp only [List.mem_flatMap, h, implies_true]
  have hvertices : ∀ id, id ∈ vertexIds xs ↔ id ∈ vertexIds ys := by
    simp only [vertexIds, List.mem_filterMap, h, implies_true]
  rw [dropEach_eq, dropEach_eq]
  exact ⟨cleared_congr hgone hvertices, fun _ => thinned_congr hgone⟩

/-- What is left over of the lists of neighbours after one drop and then others. -/
theorem thinned_drop {neighbors : Scope → List String} (x : ElementRef) (xs : List ElementRef) :
    (g.drop x.1 x.2).thinned (g.thinned neighbors (g.goneWith x))
        (xs.flatMap (g.drop x.1 x.2).goneWith) =
      g.thinned neighbors ((x :: xs).flatMap g.goneWith) := by
  have hedges : ∀ n gone, (g.drop x.1 x.2).thinned n gone =
      (g.removeEdges (g.goneWith x)).thinned n gone := by
    intro n gone
    funext s
    simp only [thinned, edgesAt, edges_drop]
  rw [hedges, thinned_thinned]
  exact thinned_congr (mem_gone_cons x xs)

theorem Sound.drop (hg : g.Sound) (x : ElementRef) : (g.drop x.1 x.2).Sound := by
  obtain ⟨kind, id⟩ := x
  cases kind with
  | vertex => exact hg.dropVertex id
  | edge => exact hg.removeEdges [id]

theorem Fits.drop {neighbors : Scope → List String} (hfits : g.Fits neighbors) (x : ElementRef) :
    (g.drop x.1 x.2).Fits (g.thinned neighbors (g.goneWith x)) := by
  intro s
  rw [edgesAt, edges_drop]
  exact hfits.thinned (g.goneWith x) s

end Multigraph

/-! ## Runs -/

variable {σ : Type} [Backend σ] [LawfulBackend σ] {g : Multigraph} {neighbors : Scope → List String}

theorem acts_dropElement (hg : g.Sound) (hfits : g.Fits neighbors) {x : ElementRef}
    (hx : Key.isToken x.2 = true) :
    Acts (dropElement x.1 x.2 : Run σ Unit) (g.layout neighbors).record ()
      ((g.drop x.1 x.2).layout (g.thinned neighbors (g.goneWith x))).record := by
  obtain ⟨kind, id⟩ := x
  cases kind with
  | vertex => exact acts_dropVertex hg hfits hx
  | edge => exact acts_dropEdge_graph hg neighbors hx

/-- Dropping elements one after the other, with the lists of neighbours as they are ordered then. -/
theorem acts_dropElements {xs : List ElementRef} (hxs : ∀ x ∈ xs, Key.isToken x.2 = true)
    (hg : g.Sound) (hfits : g.Fits neighbors) :
    Acts (dropElements xs : Run σ Unit) (g.layout neighbors).record ()
      ((g.dropEach xs).layout (g.thinned neighbors (xs.flatMap g.goneWith))).record := by
  induction xs generalizing g neighbors with
  | nil =>
    rw [List.flatMap_nil, Multigraph.thinned_nil]
    exact .pure () _
  | cons x xs ih =>
    have hrest := ih (fun y hy => hxs y (List.mem_cons_of_mem _ hy)) (hg.drop x) (hfits.drop x)
    rw [Multigraph.thinned_drop] at hrest
    exact .bind (f := fun _ => dropElements xs) (acts_dropElement hg hfits (hxs x (by simp))) hrest

/-! ## After a history -/

/-- Whatever operations ran from an empty store, the same elements can be dropped in any order: the
store has the same keys then and the same values, whichever of the elements are there, and whether
edges among them are at vertices among them, parallel or loops. -/
theorem Engine.dropOrder_history {e : Engine σ} (hempty : ∀ key, e.contents key = none)
    {ops : List RecordOp} (hops : ∀ op ∈ ops, op.Named)
    (hids : GoodIds e.ids (Multigraph.history e.ids ops (.empty, e.issued)).2)
    {xs ys : List ElementRef} (hxs : ∀ x ∈ xs, Key.isToken x.2 = true)
    (hsame : ∀ x, x ∈ xs ↔ x ∈ ys) :
    let start := ((RecordOp.runAll ops).run e).2
    let one := ((dropElements xs).run start).2
    let other := ((dropElements ys).run start).2
    one.Beside other ∧ ∀ key, one.contents key = other.contents key := by
  intro start one other
  obtain ⟨htracks, -⟩ := (Tracks.empty hempty).run hops hids
  obtain ⟨hg, neighbors, hfits, hholds⟩ := htracks.keeps
  have hys : ∀ y ∈ ys, Key.isToken y.2 = true := fun y hy => hxs y ((hsame y).2 hy)
  obtain ⟨e₁, hone, hholds₁, hb₁⟩ := acts_dropElements (σ := σ) hxs hg hfits start hholds
  obtain ⟨e₂, hother, hholds₂, hb₂⟩ := acts_dropElements (σ := σ) hys hg hfits start hholds
  obtain ⟨hgraph, hthinned⟩ := Multigraph.dropEach_congr
    (g := (Multigraph.history e.ids ops (.empty, e.issued)).1) hsame
  rw [hgraph, hthinned neighbors] at hholds₁
  have hends : one = e₁ ∧ other = e₂ := ⟨congrArg Prod.snd hone, congrArg Prod.snd hother⟩
  rw [hends.1, hends.2]
  refine ⟨⟨hb₂.issued.trans hb₁.issued.symm, hb₂.log.trans hb₁.log.symm, hb₂.ids.trans hb₁.ids.symm⟩,
    fun key => ?_⟩
  exact hholds₂.contents_eq hholds₁ fun _ _ _ => rfl

/-- A vertex with a loop and parallel edges, its edges and an element that is not there, forwards and
backwards. -/
theorem dropOrder_knottedOps :
    let xs : List ElementRef := [(.vertex, elementId 1), (.edge, elementId 2), (.edge, elementId 4),
      (.edge, elementId 9), (.vertex, elementId 0)]
    let start := ((RecordOp.runAll knottedOps).run (Engine.ofStore Memory.empty)).2
    let one := ((dropElements xs).run start).2
    let other := ((dropElements xs.reverse).run start).2
    one.Beside other ∧ ∀ key, one.contents key = other.contents key :=
  Engine.dropOrder_history (e := Engine.ofStore Memory.empty) (fun _ => rfl) (by decide) (by decide)
    (by decide) fun _ => List.mem_reverse.symm

end PropertyGraph
