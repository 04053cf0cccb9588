/-
The graph a store stands for: vertices and edges in the order they were created, and the
properties written last. `Multigraph.layout` says what a store keeps for a graph; each change
of the graph is a change of the layout (`layout_addVertex` and its companions). A graph is
`Sound` when its ids are distinct names and its edges run between its vertices; every change
keeps it so.
-/
import PropertyGraph.Proofs.EdgeLayout

namespace PropertyGraph

open PropertyGraph.Graph

/-- A vertex with its label. -/
structure Vertex where
  id : String
  label : String
deriving DecidableEq

/-- A graph with labels and properties. Edges may be parallel, and loops. -/
structure Multigraph where
  /-- The vertices in the order they were created. -/
  vertices : List Vertex
  /-- The edges in the order they were created. -/
  edges : List Edge
  /-- The value written last for a property. One may be written for an id that is not there. -/
  property : ElementKind → String → String → Option Json
  /-- Whether an edge was put at a scope since its vertex was created. -/
  opened : Scope → Bool

namespace Multigraph

/-- The graph without anything. -/
def empty : Multigraph := ⟨[], [], fun _ _ _ => none, fun _ => false⟩

/-- The ids of the elements of a kind. -/
def ids (g : Multigraph) : ElementKind → List String
  | .vertex => g.vertices.map (·.id)
  | .edge => g.edges.map (·.id)

/-- The vertex of an id. -/
def vertex? (g : Multigraph) (id : String) : Option Vertex := g.vertices.find? (·.id == id)

/-- The edge of an id. -/
def edge? (g : Multigraph) (id : String) : Option Edge := g.edges.find? (·.id == id)

/-- The edges at a scope, in the order they were created. -/
def edgesAt (g : Multigraph) (s : Scope) : List Edge := g.edges.filter (·.isAt s)

/-! ## Changes -/

def addVertex (g : Multigraph) (v : Vertex) : Multigraph :=
  { g with vertices := g.vertices ++ [v] }

def addEdge (g : Multigraph) (e : Edge) : Multigraph :=
  { g with
    edges := g.edges ++ [e]
    opened := fun s => g.opened s || e.isAt s }

def setProperty (g : Multigraph) (kind : ElementKind) (id key : String) (value : Json) :
    Multigraph :=
  { g with property := fun kind' id' key' =>
      if kind' = kind ∧ id' = id ∧ key' = key then some value else g.property kind' id' key' }

/-- Takes edges and their properties out. -/
def removeEdges (g : Multigraph) (gone : List String) : Multigraph :=
  { g with
    edges := g.edges.filter (!gone.contains ·.id)
    property := fun kind id key =>
      if kind = .edge ∧ id ∈ gone then none else g.property kind id key }

/-- Takes a vertex and its properties out. -/
def removeVertex (g : Multigraph) (gone : String) : Multigraph :=
  { g with
    vertices := g.vertices.filter (·.id != gone)
    property := fun kind id key =>
      if kind = .vertex ∧ id = gone then none else g.property kind id key
    opened := fun s => g.opened s && s.vertex != gone }

/-- Whether an edge leaves or enters a vertex. -/
def touches (e : Edge) (id : String) : Bool := e.source == id || e.target == id

/-- The ids of the edges at a vertex. -/
def incident (g : Multigraph) (id : String) : List String :=
  (g.edges.filter (touches · id)).map (·.id)

/-- Takes an edge out. -/
def dropEdge (g : Multigraph) (id : String) : Multigraph := g.removeEdges [id]

/-- Takes a vertex out, and every edge at it. -/
def dropVertex (g : Multigraph) (id : String) : Multigraph :=
  (g.removeEdges (g.incident id)).removeVertex id

/-! ## What a store keeps -/

/-- What a store keeps for a graph, where the lists of neighbours are given. -/
def layout (g : Multigraph) (neighbors : Scope → List String) : Layout where
  plain
    | .element .vertex id => if id ∈ g.ids .vertex then some (.text id) else none
    | .element .edge id => if id ∈ g.ids .edge then some (.text "") else none
    | .listing kind id => if id ∈ g.ids kind then some (.text "") else none
    | .label .vertex id => (g.vertex? id).map (.text ·.label)
    | .label .edge id => (g.edge? id).map (.text ·.label)
    | .labelEntry id label => if ⟨id, label⟩ ∈ g.vertices then some (.text "") else none
    | .property kind id key => (g.property kind id key).map (.text ·.text)
    | .source id => (g.edge? id).map (.text ·.source)
    | .target id => (g.edge? id).map (.text ·.target)
  adjacent s :=
    if g.opened s then some ⟨(g.edgesAt s).map (·.id), neighbors s⟩ else none

/-- The lists of neighbours have one entry for every edge, in some order. -/
def Fits (g : Multigraph) (neighbors : Scope → List String) : Prop :=
  ∀ s, (neighbors s).Perm ((g.edgesAt s).map (·.far s.direction))

/-- Ids are distinct names, edges run between vertices, scopes are opened where edges are and
only at vertices, and properties have names. -/
structure Sound (g : Multigraph) : Prop where
  vertexIds : (g.ids .vertex).Nodup
  edgeIds : (g.ids .edge).Nodup
  vertices : ∀ v ∈ g.vertices, IsName v.id ∧ Key.isToken v.label = true
  edges : ∀ e ∈ g.edges, e.Named
  ends : ∀ e ∈ g.edges, ∀ d, e.near d ∈ g.ids .vertex
  opened : ∀ e ∈ g.edges, ∀ s, e.isAt s = true → g.opened s = true
  live : ∀ s, g.opened s = true → s.vertex ∈ g.ids .vertex
  scopes : ∀ s, g.opened s = true → ∀ l, s.label = some l → Key.isToken l = true
  properties : ∀ kind id key, g.property kind id key ≠ none →
    Key.isToken id = true ∧ Key.isToken key = true

theorem Sound.empty : Multigraph.empty.Sound where
  vertexIds := .nil
  edgeIds := .nil
  vertices := by simp [Multigraph.empty]
  edges := by simp [Multigraph.empty]
  ends := by simp [Multigraph.empty]
  opened := by simp [Multigraph.empty]
  live := by simp [Multigraph.empty]
  scopes := by simp [Multigraph.empty]
  properties := by simp [Multigraph.empty]

variable {g : Multigraph} {neighbors : Scope → List String}

/-! ## Looking up -/

/-- What has a key is found under it, where keys are distinct. -/
theorem find?_eq_some_iff {α : Type} {key : α → String} {l : List α} (h : (l.map key).Nodup) {a : α} :
    l.find? (key · == key a) = some a ↔ a ∈ l := by
  constructor
  · exact List.mem_of_find?_eq_some
  · intro ha
    obtain ⟨b, hb⟩ : ∃ b, l.find? (key · == key a) = some b := by
      rw [← Option.isSome_iff_exists, List.find?_isSome]
      exact ⟨a, ha, by simp⟩
    have hkey : key b = key a := by simpa using List.find?_some hb
    rw [hb, List.inj_on_of_nodup_map h (List.mem_of_find?_eq_some hb) ha hkey]

theorem edge?_eq_some (hg : g.Sound) {e : Edge} : g.edge? e.id = some e ↔ e ∈ g.edges :=
  find?_eq_some_iff hg.edgeIds

theorem vertex?_eq_some (hg : g.Sound) {v : Vertex} : g.vertex? v.id = some v ↔ v ∈ g.vertices :=
  find?_eq_some_iff hg.vertexIds

theorem edge?_eq_none {id : String} : g.edge? id = none ↔ id ∉ g.ids .edge := by
  simp only [edge?, List.find?_eq_none, beq_iff_eq, ids, List.mem_map, not_exists, not_and]

theorem vertex?_eq_none {id : String} : g.vertex? id = none ↔ id ∉ g.ids .vertex := by
  simp only [vertex?, List.find?_eq_none, beq_iff_eq, ids, List.mem_map, not_exists, not_and]

theorem exists_edge {id : String} (h : id ∈ g.ids .edge) : ∃ e ∈ g.edges, e.id = id := by
  simpa [ids] using h

/-- The ids of vertices are names. -/
theorem Sound.isName (hg : g.Sound) {id : String} (hid : id ∈ g.ids .vertex) : IsName id := by
  obtain ⟨v, hv, rfl⟩ := List.mem_map.1 hid
  exact (hg.vertices v hv).1

theorem edgesAt_eq_nil (hg : g.Sound) {s : Scope} (h : g.opened s = false) : g.edgesAt s = [] := by
  rw [edgesAt, List.filter_eq_nil_iff]
  intro e he hat
  have := hg.opened e he s hat
  simp [h] at this

theorem Fits.eq_nil (hfits : g.Fits neighbors) {s : Scope} (h : g.edgesAt s = []) :
    neighbors s = [] := by
  have := hfits s
  rw [h] at this
  simpa using this

/-- The edges listed at a scope. -/
theorem listed_edges (hg : g.Sound) (s : Scope) :
    (g.layout neighbors).listed s .edges = (g.edgesAt s).map (·.id) := by
  cases h : g.opened s with
  | true => simp [Layout.listed, layout, h, Neighborhood.list]
  | false => simp [Layout.listed, layout, h, edgesAt_eq_nil hg h]

/-- The neighbours listed at a scope. -/
theorem listed_vertices (hg : g.Sound) (hfits : g.Fits neighbors) (s : Scope) :
    (g.layout neighbors).listed s .vertices = neighbors s := by
  cases h : g.opened s with
  | true => simp [Layout.listed, layout, h, Neighborhood.list]
  | false => simp [Layout.listed, layout, h, hfits.eq_nil (edgesAt_eq_nil hg h)]

/-! ## What the changes change -/

theorem vertex?_addVertex {v : Vertex} (hnew : v.id ∉ g.ids .vertex) (id : String) :
    (g.addVertex v).vertex? id = if id = v.id then some v else g.vertex? id := by
  have hnone : g.vertex? v.id = none := vertex?_eq_none.2 hnew
  rw [vertex?, addVertex, List.find?_append]
  show (g.vertex? id).or _ = _
  by_cases h : id = v.id
  · rw [if_pos h, h, hnone]
    simp
  · have hv : ¬ v.id = id := fun he => h he.symm
    rw [if_neg h]
    simp [hv]

theorem edge?_addEdge {e : Edge} (hnew : e.id ∉ g.ids .edge) (id : String) :
    (g.addEdge e).edge? id = if id = e.id then some e else g.edge? id := by
  have hnone : g.edge? e.id = none := edge?_eq_none.2 hnew
  rw [edge?, addEdge, List.find?_append]
  show (g.edge? id).or _ = _
  by_cases h : id = e.id
  · rw [if_pos h, h, hnone]
    simp
  · have he : ¬ e.id = id := fun he => h he.symm
    rw [if_neg h]
    simp [he]

theorem edge?_removeEdges (g : Multigraph) (gone : List String) (id : String) :
    (g.removeEdges gone).edge? id = if id ∈ gone then none else g.edge? id := by
  rw [edge?, removeEdges, List.find?_filter]
  split
  · rename_i h
    rw [List.find?_eq_none]
    intro e _
    by_cases he : e.id = id
    · simp [he, h]
    · simp [he]
  · rename_i h
    rw [edge?]
    congr 1
    funext e
    by_cases he : e.id = id
    · simp [he, h]
    · simp [he]

theorem vertex?_removeVertex (g : Multigraph) (gone id : String) :
    (g.removeVertex gone).vertex? id = if id = gone then none else g.vertex? id := by
  rw [vertex?, removeVertex, List.find?_filter]
  split
  · rename_i h
    rw [List.find?_eq_none]
    intro v _
    simp [h]
  · rename_i h
    rw [vertex?]
    congr 1
    funext v
    by_cases hv : v.id = id
    · simp [hv, h]
    · simp [hv]

theorem mem_ids_addVertex {v : Vertex} {kind : ElementKind} {id : String} :
    id ∈ (g.addVertex v).ids kind ↔ id ∈ g.ids kind ∨ (kind = .vertex ∧ id = v.id) := by
  cases kind <;> simp [ids, addVertex]

theorem mem_ids_addEdge {e : Edge} {kind : ElementKind} {id : String} :
    id ∈ (g.addEdge e).ids kind ↔ id ∈ g.ids kind ∨ (kind = .edge ∧ id = e.id) := by
  cases kind <;> simp [ids, addEdge]

theorem mem_ids_removeEdges {gone : List String} {kind : ElementKind} {id : String} :
    id ∈ (g.removeEdges gone).ids kind ↔ id ∈ g.ids kind ∧ ¬(kind = .edge ∧ id ∈ gone) := by
  cases kind with
  | vertex => simp [ids, removeEdges]
  | edge =>
    simp only [ids, removeEdges, List.mem_map, List.mem_filter]
    grind

theorem mem_ids_removeVertex {gone : String} {kind : ElementKind} {id : String} :
    id ∈ (g.removeVertex gone).ids kind ↔ id ∈ g.ids kind ∧ ¬(kind = .vertex ∧ id = gone) := by
  cases kind with
  | vertex =>
    simp only [ids, removeVertex, List.mem_map, List.mem_filter]
    grind
  | edge => simp [ids, removeVertex]

/-! ## Changes of the layout -/

theorem layout_addVertex {v : Vertex} (hnew : v.id ∉ g.ids .vertex) :
    (g.addVertex v).layout neighbors =
      ((((g.layout neighbors).setPlain (.element .vertex v.id) (some (.text v.id))).setPlain
        (.label .vertex v.id) (some (.text v.label))).setPlain
        (.labelEntry v.id v.label) (some (.text ""))).setPlain
        (.listing .vertex v.id) (some (.text "")) := by
  have hmem : ∀ id label, (⟨id, label⟩ : Vertex) ∈ (g.addVertex v).vertices ↔
      (⟨id, label⟩ : Vertex) ∈ g.vertices ∨ (id = v.id ∧ label = v.label) := by
    intro id label
    obtain ⟨i, l⟩ := v
    simp [addVertex]
  apply Layout.ext
  · intro key
    simp only [Layout.setPlain]
    cases key with
    | element kind id =>
      cases kind <;> simp only [layout, mem_ids_addVertex] <;> grind
    | listing kind id => simp only [layout, mem_ids_addVertex]; grind
    | label kind id =>
      cases kind with
      | vertex => simp only [layout, vertex?_addVertex hnew]; grind
      | edge => rfl
    | labelEntry id label => simp only [layout, hmem]; grind
    | property kind id key => rfl
    | source id => rfl
    | target id => rfl
  · intro s
    rfl

theorem layout_setProperty {kind : ElementKind} {id key : String} {value : Json} :
    (g.setProperty kind id key value).layout neighbors =
      (g.layout neighbors).setPlain (.property kind id key) (some (.text value.text)) := by
  apply Layout.ext
  · intro k
    simp only [Layout.setPlain]
    cases k with
    | property kind' id' key' =>
      simp only [layout, setProperty, PlainKey.property.injEq]
      split <;> rfl
    | element kind' id' => cases kind' <;> rfl
    | listing kind' id' => rfl
    | label kind' id' => cases kind' <;> rfl
    | labelEntry id' label => rfl
    | source id' => rfl
    | target id' => rfl
  · intro s
    rfl

/-- The lists of neighbours after an edge was linked. -/
def appended (neighbors : Scope → List String) (e : Edge) : Scope → List String :=
  fun s => if e.isAt s then neighbors s ++ [e.far s.direction] else neighbors s

/-- The lists of neighbours after an edge was unlinked. -/
def erased (neighbors : Scope → List String) (e : Edge) : Scope → List String :=
  fun s => if e.isAt s then (neighbors s).erase (e.far s.direction) else neighbors s

theorem edgesAt_addEdge (g : Multigraph) (e : Edge) (s : Scope) :
    (g.addEdge e).edgesAt s = if e.isAt s then g.edgesAt s ++ [e] else g.edgesAt s := by
  simp only [edgesAt, addEdge, List.filter_append]
  split
  · rename_i h
    simp [h]
  · rename_i h
    simp [h]

theorem edgesAt_removeEdges (g : Multigraph) (gone : List String) (s : Scope) :
    (g.removeEdges gone).edgesAt s = (g.edgesAt s).filter (!gone.contains ·.id) := by
  simp only [edgesAt, removeEdges, List.filter_filter, Bool.and_comm]

theorem edgesAt_removeEdge (g : Multigraph) (id : String) (s : Scope) :
    (g.removeEdges [id]).edgesAt s = (g.edgesAt s).filter (·.id != id) := by
  rw [edgesAt_removeEdges]
  apply List.filter_congr
  intro e _
  by_cases h : e.id = id
  · simp [h]
  · simp [h]

theorem map_id_filter (edges : List Edge) (id : String) :
    (edges.filter (·.id != id)).map (·.id) = (edges.map (·.id)).filter (· != id) := by
  rw [List.filter_map]
  rfl

theorem layout_addEdge (hg : g.Sound) (hfits : g.Fits neighbors) {e : Edge}
    (hnew : e.id ∉ g.ids .edge) :
    (g.addEdge e).layout (appended neighbors e) =
      ((((((g.layout neighbors).setPlain (.element .edge e.id) (some (.text ""))).setPlain
        (.label .edge e.id) (some (.text e.label))).setPlain
        (.source e.id) (some (.text e.source))).setPlain
        (.target e.id) (some (.text e.target))).linkEdge e).setPlain
        (.listing .edge e.id) (some (.text "")) := by
  apply Layout.ext
  · intro key
    simp only [Layout.setPlain, Layout.linkEdge]
    cases key with
    | element kind id =>
      cases kind <;> simp only [layout, mem_ids_addEdge] <;> grind
    | listing kind id => simp only [layout, mem_ids_addEdge]; grind
    | label kind id =>
      cases kind with
      | vertex => rfl
      | edge => simp only [layout, edge?_addEdge hnew]; grind
    | labelEntry id label => rfl
    | property kind id key => rfl
    | source id => simp only [layout, edge?_addEdge hnew]; grind
    | target id => simp only [layout, edge?_addEdge hnew]; grind
  · intro s
    have hedges : (g.layout neighbors).listed s .edges = _ := listed_edges hg s
    have hvertices := listed_vertices hg hfits s
    show _ = if e.isAt s then some (⟨(g.layout neighbors).listed s .edges ++ [e.id],
      (g.layout neighbors).listed s .vertices ++ [e.far s.direction]⟩ : Neighborhood)
      else (g.layout neighbors).adjacent s
    rw [hedges, hvertices]
    by_cases hat : e.isAt s = true
    · have hopen : (g.addEdge e).opened s = true := by simp [addEdge, hat]
      simp [layout, hopen, hat, edgesAt_addEdge, appended]
    · have hopen : (g.addEdge e).opened s = g.opened s := by simp [addEdge, hat]
      simp only [layout, hopen, edgesAt_addEdge, appended, if_neg hat]

/-- Removing edges removes every record about them. -/
theorem plain_removeEdges (g : Multigraph) (gone : List String)
    (neighbors neighbors' : Scope → List String) (key : PlainKey) :
    ((g.removeEdges gone).layout neighbors).plain key =
      if key.about.1 = .edge ∧ key.about.2 ∈ gone then none
      else (g.layout neighbors').plain key := by
  cases key with
  | element kind id =>
    cases kind <;> simp only [layout, mem_ids_removeEdges, PlainKey.about] <;> grind
  | listing kind id => simp only [layout, mem_ids_removeEdges, PlainKey.about]; grind
  | label kind id =>
    cases kind with
    | vertex => rfl
    | edge => simp only [layout, edge?_removeEdges, PlainKey.about]; grind
  | labelEntry id label => rfl
  | property kind id key => simp only [layout, removeEdges, PlainKey.about]; grind
  | source id => simp only [layout, edge?_removeEdges, PlainKey.about]; grind
  | target id => simp only [layout, edge?_removeEdges, PlainKey.about]; grind

theorem plain_removeEdge (g : Multigraph) (id : String) (neighbors neighbors' : Scope → List String)
    (key : PlainKey) :
    ((g.removeEdges [id]).layout neighbors).plain key =
      if key.about = (.edge, id) then none else (g.layout neighbors').plain key := by
  rw [plain_removeEdges g [id] neighbors neighbors']
  simp only [List.mem_singleton, Prod.ext_iff]

/-- Unlinking an edge and removing every record about it. -/
theorem layout_removeEdge (hg : g.Sound) {e : Edge} (he : e ∈ g.edges) :
    (g.removeEdges [e.id]).layout (erased neighbors e) =
      ((g.layout neighbors).unlinkEdge e).withoutElement .edge e.id := by
  apply Layout.ext
  · exact g.plain_removeEdge e.id _ neighbors
  · intro s
    have hopen : (g.removeEdges [e.id]).opened s = g.opened s := rfl
    simp only [layout, hopen, edgesAt_removeEdge, map_id_filter, Layout.withoutElement,
      Layout.unlinkEdge, erased, reduceCtorEq, false_and, ite_false]
    by_cases hat : e.isAt s = true
    · simp only [hat, ite_true]
      cases g.opened s <;> rfl
    · have hkeep : ((g.edgesAt s).map (·.id)).filter (· != e.id) = (g.edgesAt s).map (·.id) := by
        rw [List.filter_eq_self]
        intro id hid
        simp only [edgesAt, List.mem_map, List.mem_filter] at hid
        obtain ⟨x, ⟨hx, hxs⟩, rfl⟩ := hid
        have hne : x.id ≠ e.id := fun h =>
          hat (List.inj_on_of_nodup_map hg.edgeIds hx he h ▸ hxs)
        simpa using hne
      rw [hkeep, if_neg hat, if_neg hat]

/-- Removing what is recorded under the id of an edge that is not there. -/
theorem layout_removeEdge_of_absent {id : String} (h : id ∉ g.ids .edge) :
    (g.removeEdges [id]).layout neighbors = (g.layout neighbors).withoutElement .edge id := by
  have hedges : g.edges.filter (! [id].contains ·.id) = g.edges := by
    rw [List.filter_eq_self]
    intro e he
    have hne : e.id ≠ id := fun hid => h (by rw [← hid]; exact List.mem_map_of_mem he)
    simpa using hne
  apply Layout.ext
  · exact g.plain_removeEdge id _ neighbors
  · intro s
    have hat : (g.removeEdges [id]).edgesAt s = g.edgesAt s := by
      rw [edgesAt, edgesAt]
      exact congrArg (List.filter _) hedges
    have hopen : (g.removeEdges [id]).opened s = g.opened s := rfl
    simp [layout, hopen, hat, Layout.withoutElement]

/-- Removing every record about a vertex. -/
theorem layout_removeVertex (g : Multigraph) (neighbors : Scope → List String) (id : String) :
    (g.removeVertex id).layout neighbors = (g.layout neighbors).withoutElement .vertex id := by
  have hmem : ∀ i label, (⟨i, label⟩ : Vertex) ∈ (g.removeVertex id).vertices ↔
      (⟨i, label⟩ : Vertex) ∈ g.vertices ∧ i ≠ id := by
    intro i label
    simp [removeVertex]
  apply Layout.ext
  · intro key
    simp only [Layout.withoutElement]
    cases key with
    | element kind i =>
      cases kind <;> simp only [layout, mem_ids_removeVertex, PlainKey.about] <;> grind
    | listing kind i => simp only [layout, mem_ids_removeVertex, PlainKey.about]; grind
    | label kind i =>
      cases kind with
      | vertex => simp only [layout, vertex?_removeVertex, PlainKey.about]; grind
      | edge => rfl
    | labelEntry i label => simp only [layout, hmem, PlainKey.about]; grind
    | property kind i key => simp only [layout, removeVertex, PlainKey.about]; grind
    | source i => rfl
    | target i => rfl
  · intro s
    have hat : (g.removeVertex id).edgesAt s = g.edgesAt s := rfl
    by_cases hs : s.vertex = id
    · simp [layout, Layout.withoutElement, removeVertex, hs]
    · simp [layout, Layout.withoutElement, removeVertex, hs, edgesAt]

/-! ## What the changes keep -/

theorem Fits.addEdge (hfits : g.Fits neighbors) (e : Edge) :
    (g.addEdge e).Fits (appended neighbors e) := by
  intro s
  rw [edgesAt_addEdge, appended]
  split
  · rename_i hat
    simpa [hat] using (hfits s).append_right _
  · rename_i hat
    simpa [hat] using hfits s

/-- Edges with distinct ids, one of them put first. -/
theorem perm_cons_filter {edges : List Edge} (h : (edges.map (·.id)).Nodup) {e : Edge}
    (he : e ∈ edges) : edges.Perm (e :: edges.filter (·.id != e.id)) := by
  have hrest : edges.filter (·.id != e.id) = edges.erase e := by
    rw [(List.Nodup.of_map _ h).erase_eq_filter]
    apply List.filter_congr
    intro x hx
    by_cases hid : x.id = e.id
    · obtain rfl : x = e := List.inj_on_of_nodup_map h hx he hid
      rw [bne_self_eq_false, bne_self_eq_false]
    · have hne : x ≠ e := fun h => hid (by rw [h])
      rw [bne_iff_ne.2 hid, bne_iff_ne.2 hne]
  rw [hrest]
  exact List.perm_cons_erase he

/-- The edges at a scope without one of them. -/
theorem edgesAt_perm_cons (hg : g.Sound) {e : Edge} (he : e ∈ g.edges) {s : Scope}
    (hat : e.isAt s = true) : (g.edgesAt s).Perm (e :: (g.removeEdges [e.id]).edgesAt s) := by
  have hdistinct : ((g.edgesAt s).map (·.id)).Nodup :=
    hg.edgeIds.sublist (List.filter_sublist.map _)
  rw [edgesAt_removeEdge]
  exact perm_cons_filter hdistinct (List.mem_filter.2 ⟨he, hat⟩)

theorem edgesAt_removeEdge_of_not (hg : g.Sound) {e : Edge} (he : e ∈ g.edges) {s : Scope}
    (hat : ¬ e.isAt s = true) : (g.removeEdges [e.id]).edgesAt s = g.edgesAt s := by
  rw [edgesAt_removeEdge, List.filter_eq_self]
  intro x hx
  rw [edgesAt, List.mem_filter] at hx
  have hne : x.id ≠ e.id := fun h => hat (List.inj_on_of_nodup_map hg.edgeIds hx.1 he h ▸ hx.2)
  simpa using hne

theorem Sound.addVertex (hg : g.Sound) {v : Vertex} (hid : IsName v.id)
    (hlabel : Key.isToken v.label = true) (hnew : v.id ∉ g.ids .vertex) :
    (g.addVertex v).Sound where
  vertexIds := by
    simp only [Multigraph.addVertex, ids, List.map_append, List.map_cons, List.map_nil]
    exact List.nodup_append'.2 ⟨hg.vertexIds, List.nodup_singleton _, by simpa [ids] using hnew⟩
  edgeIds := hg.edgeIds
  vertices w hw := by
    simp only [Multigraph.addVertex, List.mem_append, List.mem_singleton] at hw
    rcases hw with hw | rfl
    · exact hg.vertices w hw
    · exact ⟨hid, hlabel⟩
  edges := hg.edges
  ends e he d := mem_ids_addVertex.2 (.inl (hg.ends e he d))
  opened := hg.opened
  live s hs := mem_ids_addVertex.2 (.inl (hg.live s hs))
  scopes := hg.scopes
  properties := hg.properties

theorem Sound.addEdge (hg : g.Sound) {e : Edge} (he : e.Named) (hnew : e.id ∉ g.ids .edge)
    (hends : ∀ d, e.near d ∈ g.ids .vertex) : (g.addEdge e).Sound where
  vertexIds := hg.vertexIds
  edgeIds := by
    simp only [Multigraph.addEdge, ids, List.map_append, List.map_cons, List.map_nil]
    exact List.nodup_append'.2 ⟨hg.edgeIds, List.nodup_singleton _, by simpa [ids] using hnew⟩
  vertices := hg.vertices
  edges x hx := by
    simp only [Multigraph.addEdge, List.mem_append, List.mem_singleton] at hx
    rcases hx with hx | rfl
    · exact hg.edges x hx
    · exact he
  ends x hx := by
    simp only [Multigraph.addEdge, List.mem_append, List.mem_singleton] at hx
    rcases hx with hx | rfl
    · exact hg.ends x hx
    · exact hends
  opened x hx s hat := by
    simp only [Multigraph.addEdge, List.mem_append, List.mem_singleton] at hx
    rcases hx with hx | rfl
    · simp [Multigraph.addEdge, hg.opened x hx s hat]
    · simp [Multigraph.addEdge, hat]
  live s hs := by
    simp only [Multigraph.addEdge, Bool.or_eq_true] at hs
    rcases hs with hs | hs
    · exact hg.live s hs
    · have hnear := hends s.direction
      simp only [Edge.isAt, Bool.and_eq_true, beq_iff_eq] at hs
      rwa [hs.1] at hnear
  scopes s hs l hl := by
    simp only [Multigraph.addEdge, Bool.or_eq_true] at hs
    rcases hs with hs | hs
    · exact hg.scopes s hs l hl
    · have hlabel : l = e.label := by
        simp only [Edge.isAt, hl, Bool.and_eq_true] at hs
        simpa using hs.2
      exact hlabel ▸ he.label
  properties := hg.properties

theorem Sound.setProperty (hg : g.Sound) (kind : ElementKind) {id key : String}
    (hid : Key.isToken id = true) (hkey : Key.isToken key = true) (value : Json) :
    (g.setProperty kind id key value).Sound where
  vertexIds := hg.vertexIds
  edgeIds := hg.edgeIds
  vertices := hg.vertices
  edges := hg.edges
  ends := hg.ends
  opened := hg.opened
  live := hg.live
  scopes := hg.scopes
  properties kind' id' key' h := by
    simp only [Multigraph.setProperty] at h
    split at h
    · rename_i heq
      rw [heq.2.1, heq.2.2]
      exact ⟨hid, hkey⟩
    · exact hg.properties kind' id' key' h

theorem Sound.removeEdges (hg : g.Sound) (gone : List String) : (g.removeEdges gone).Sound where
  vertexIds := hg.vertexIds
  edgeIds := hg.edgeIds.sublist (List.filter_sublist.map _)
  vertices := hg.vertices
  edges e he := hg.edges e (List.mem_of_mem_filter he)
  ends e he := hg.ends e (List.mem_of_mem_filter he)
  opened e he := hg.opened e (List.mem_of_mem_filter he)
  live := hg.live
  scopes := hg.scopes
  properties kind id key h := hg.properties kind id key fun hnone => h (by
    simp only [Multigraph.removeEdges, hnone, ite_self])

/-- A vertex without edges can go. -/
theorem Sound.removeVertex (hg : g.Sound) {id : String} (hfree : ∀ e ∈ g.edges, ∀ d, e.near d ≠ id) :
    (g.removeVertex id).Sound where
  vertexIds := hg.vertexIds.sublist (List.filter_sublist.map _)
  edgeIds := hg.edgeIds
  vertices v hv := hg.vertices v (List.mem_of_mem_filter hv)
  edges := hg.edges
  ends e he d := mem_ids_removeVertex.2 ⟨hg.ends e he d, fun h => hfree e he d h.2⟩
  opened e he s hat := by
    have hne : s.vertex ≠ id := by
      simp only [Edge.isAt, Bool.and_eq_true, beq_iff_eq] at hat
      rw [← hat.1]
      exact hfree e he _
    simp [Multigraph.removeVertex, hg.opened e he s hat, hne]
  live s hs := by
    simp only [Multigraph.removeVertex, Bool.and_eq_true, bne_iff_ne] at hs
    exact mem_ids_removeVertex.2 ⟨hg.live s hs.1, fun h => hs.2 h.2⟩
  scopes s hs := by
    simp only [Multigraph.removeVertex, Bool.and_eq_true] at hs
    exact hg.scopes s hs.1
  properties kind i key h := hg.properties kind i key fun hnone => h (by
    simp only [Multigraph.removeVertex, hnone, ite_self])

/-- With the edges at a vertex gone, no edge is at it. -/
theorem near_ne_of_removed {id : String} {e : Edge}
    (he : e ∈ (g.removeEdges (g.incident id)).edges) (d : Direction) : e.near d ≠ id := by
  simp only [Multigraph.removeEdges, List.mem_filter, Bool.not_eq_true', List.contains_eq_mem,
    decide_eq_false_iff_not] at he
  intro hd
  apply he.2
  refine List.mem_map_of_mem (List.mem_filter.2 ⟨he.1, ?_⟩)
  cases d <;> simp_all [touches, Edge.near]

theorem edgesAt_removed {id : String} (s : Scope) (hs : s.vertex = id) :
    (g.removeEdges (g.incident id)).edgesAt s = [] := by
  rw [edgesAt, List.filter_eq_nil_iff]
  intro e he hat
  simp only [Edge.isAt, Bool.and_eq_true, beq_iff_eq] at hat
  exact near_ne_of_removed he _ (hat.1.trans hs)

theorem Sound.dropVertex (hg : g.Sound) (id : String) : (g.dropVertex id).Sound :=
  (hg.removeEdges _).removeVertex fun _ he d => near_ne_of_removed he d

end Multigraph

variable {σ α : Type} [Backend σ] [LawfulBackend σ]

/-- A store keeps a graph and nothing else. -/
structure Engine.Keeps (e : Engine σ) (g : Multigraph) : Prop where
  sound : g.Sound
  holds : ∃ neighbors, g.Fits neighbors ∧ e.Holds (g.layout neighbors).record

/-- An operation that makes one graph of another, however the lists of neighbours are
ordered. -/
theorem Engine.Keeps.acts {e : Engine σ} {g g' : Multigraph} (h : e.Keeps g) (hg : g'.Sound)
    {operation : Run σ α} {a : α}
    (hacts : ∀ neighbors, g.Fits neighbors → ∃ neighbors', g'.Fits neighbors' ∧
      Acts operation (g.layout neighbors).record a (g'.layout neighbors').record) :
    ∃ e', operation.run e = (a, e') ∧ e'.Keeps g' ∧ e.Beside e' := by
  obtain ⟨neighbors, hfits, hholds⟩ := h.holds
  obtain ⟨neighbors', hfits', hact⟩ := hacts neighbors hfits
  obtain ⟨e', hrun, hholds', hb⟩ := hact e hholds
  exact ⟨e', hrun, ⟨hg, neighbors', hfits', hholds'⟩, hb⟩

end PropertyGraph
