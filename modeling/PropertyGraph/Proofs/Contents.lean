/-
What the store of a graph contains, entry by entry, and that operations on an empty store keep
it so: after any history the store has the entries of the graph that the history builds, and
no other key (`Engine.contents_history`).
-/
import PropertyGraph.Proofs.RecordOps

namespace PropertyGraph

open PropertyGraph.Graph

namespace Multigraph

/-! ## The entries of a graph -/

/-- A key that the store of a graph has, and what is kept there. An edge is at a scope of each
of its ends among all edges, and at one among those of its label. -/
inductive Entry (g : Multigraph) (neighbors : Scope → List String) : String → Blob → Prop
  | vertex {v : Vertex} (h : v ∈ g.vertices) :
    Entry g neighbors (Key.element .vertex v.id) (.text v.id)
  | vertexLabel {v : Vertex} (h : v ∈ g.vertices) :
    Entry g neighbors (Key.label .vertex v.id) (.text v.label)
  | labelEntry {v : Vertex} (h : v ∈ g.vertices) :
    Entry g neighbors (Key.labelEntry v.id v.label) (.text "")
  | vertexListing {v : Vertex} (h : v ∈ g.vertices) :
    Entry g neighbors (Key.enumeration .vertex v.id) (.text "")
  | edge {e : Edge} (h : e ∈ g.edges) : Entry g neighbors (Key.element .edge e.id) (.text "")
  | edgeLabel {e : Edge} (h : e ∈ g.edges) :
    Entry g neighbors (Key.label .edge e.id) (.text e.label)
  | source {e : Edge} (h : e ∈ g.edges) : Entry g neighbors (Key.edgeFrom e.id) (.text e.source)
  | target {e : Edge} (h : e ∈ g.edges) : Entry g neighbors (Key.edgeTo e.id) (.text e.target)
  | edgeListing {e : Edge} (h : e ∈ g.edges) :
    Entry g neighbors (Key.enumeration .edge e.id) (.text "")
  | property {kind : ElementKind} {id key : String} {value : Json}
    (h : g.property kind id key = some value) :
    Entry g neighbors (Key.property kind id key) (.text value.text)
  | edgeMarker {e : Edge} {s : Scope} (h : e ∈ g.edgesAt s) :
    Entry g neighbors (Key.marker s.vertex s.direction .edges s.label e.id) (.text "")
  | neighborMarker {e : Edge} {s : Scope} (h : e ∈ g.edgesAt s) :
    Entry g neighbors (Key.marker s.vertex s.direction .vertices s.label (e.far s.direction))
      (.text "")
  | edgeIndex {s : Scope} (h : g.opened s = true) :
    Entry g neighbors (Key.index s.vertex s.direction .edges s.label)
      (idList ((g.edgesAt s).map (·.id)))
  | neighborIndex {s : Scope} (h : g.opened s = true) :
    Entry g neighbors (Key.index s.vertex s.direction .vertices s.label) (idList (neighbors s))

variable {g : Multigraph} {neighbors : Scope → List String}

/-- A record of the layout is an entry. -/
theorem entry_of_record (hg : g.Sound) (hfits : g.Fits neighbors) {r : RecordKey} {value : Blob}
    (h : (g.layout neighbors).record r = some value) : g.Entry neighbors r.text value := by
  cases r with
  | plain key =>
    cases key with
    | element kind id =>
      cases kind with
      | vertex =>
        obtain ⟨hid, ⟨⟩⟩ := Option.ite_none_right_eq_some.1 h
        obtain ⟨v, hv, rfl⟩ := List.mem_map.1 hid
        exact .vertex hv
      | edge =>
        obtain ⟨hid, ⟨⟩⟩ := Option.ite_none_right_eq_some.1 h
        obtain ⟨e, he, rfl⟩ := List.mem_map.1 hid
        exact .edge he
    | listing kind id =>
      obtain ⟨hid, ⟨⟩⟩ := Option.ite_none_right_eq_some.1 h
      cases kind with
      | vertex =>
        obtain ⟨v, hv, rfl⟩ := List.mem_map.1 hid
        exact .vertexListing hv
      | edge =>
        obtain ⟨e, he, rfl⟩ := List.mem_map.1 hid
        exact .edgeListing he
    | label kind id =>
      cases kind with
      | vertex =>
        obtain ⟨v, hv, rfl⟩ := Option.map_eq_some_iff.1 h
        obtain rfl : v.id = id := by simpa using List.find?_some hv
        exact .vertexLabel ((vertex?_eq_some hg).1 hv)
      | edge =>
        obtain ⟨e, he, rfl⟩ := Option.map_eq_some_iff.1 h
        obtain rfl : e.id = id := by simpa using List.find?_some he
        exact .edgeLabel ((edge?_eq_some hg).1 he)
    | labelEntry id label =>
      simp only [Layout.record, layout] at h
      obtain ⟨hv, ⟨⟩⟩ := Option.ite_none_right_eq_some.1 h
      exact .labelEntry (v := ⟨id, label⟩) hv
    | property kind id key =>
      obtain ⟨j, hj, rfl⟩ := Option.map_eq_some_iff.1 h
      exact .property hj
    | source id =>
      obtain ⟨e, he, rfl⟩ := Option.map_eq_some_iff.1 h
      obtain rfl : e.id = id := by simpa using List.find?_some he
      exact .source ((edge?_eq_some hg).1 he)
    | target id =>
      obtain ⟨e, he, rfl⟩ := Option.map_eq_some_iff.1 h
      obtain rfl : e.id = id := by simpa using List.find?_some he
      exact .target ((edge?_eq_some hg).1 he)
  | marker s a t =>
    simp only [Layout.record] at h
    obtain ⟨ht, ⟨⟩⟩ := Option.ite_none_right_eq_some.1 h
    cases a with
    | edges =>
      rw [listed_edges hg] at ht
      obtain ⟨e, he, rfl⟩ := List.mem_map.1 ht
      exact .edgeMarker he
    | vertices =>
      rw [listed_vertices hg hfits, (hfits s).mem_iff] at ht
      obtain ⟨e, he, rfl⟩ := List.mem_map.1 ht
      exact .neighborMarker he
  | index s a =>
    simp only [Layout.record, layout] at h
    obtain ⟨n, hn, rfl⟩ := Option.map_eq_some_iff.1 h
    obtain ⟨hopen, ⟨⟩⟩ := Option.ite_none_right_eq_some.1 hn
    cases a with
    | edges => exact .edgeIndex hopen
    | vertices => exact .neighborIndex hopen

/-- An entry is a record of the layout. -/
theorem record_of_entry (hg : g.Sound) (hfits : g.Fits neighbors) {key : String} {value : Blob}
    (h : g.Entry neighbors key value) :
    ∃ r : RecordKey, r.Valid ∧ key = r.text ∧ (g.layout neighbors).record r = some value := by
  have hscope : ∀ {s e}, e ∈ g.edgesAt s → s.Valid := by
    intro s e he
    rw [edgesAt, List.mem_filter] at he
    have hopen := hg.opened e he.1 s he.2
    obtain ⟨v, hv, hid⟩ := List.mem_map.1 (hg.live s hopen)
    exact ⟨hid ▸ (hg.vertices v hv).1.1, hg.scopes s hopen⟩
  have hopened : ∀ {s}, g.opened s = true → s.Valid := by
    intro s hopen
    obtain ⟨v, hv, hid⟩ := List.mem_map.1 (hg.live s hopen)
    exact ⟨hid ▸ (hg.vertices v hv).1.1, hg.scopes s hopen⟩
  have hvertex : ∀ {v}, v ∈ g.vertices → v.id ∈ g.ids .vertex := List.mem_map_of_mem
  have hedge : ∀ {e}, e ∈ g.edges → e.id ∈ g.ids .edge := List.mem_map_of_mem
  cases h with
  | @vertex v hv =>
    exact ⟨.plain (.element .vertex v.id), (hg.vertices v hv).1.1, rfl, if_pos (hvertex hv)⟩
  | @vertexLabel v hv =>
    refine ⟨.plain (.label .vertex v.id), (hg.vertices v hv).1.1, rfl, ?_⟩
    simp [Layout.record, layout, (vertex?_eq_some hg).2 hv]
  | @labelEntry v hv =>
    exact ⟨.plain (.labelEntry v.id v.label), ⟨(hg.vertices v hv).1.1, (hg.vertices v hv).2⟩, rfl,
      if_pos hv⟩
  | @vertexListing v hv =>
    exact ⟨.plain (.listing .vertex v.id), (hg.vertices v hv).1.1, rfl, if_pos (hvertex hv)⟩
  | @edge e he =>
    exact ⟨.plain (.element .edge e.id), (hg.edges e he).id.1, rfl, if_pos (hedge he)⟩
  | @edgeLabel e he =>
    refine ⟨.plain (.label .edge e.id), (hg.edges e he).id.1, rfl, ?_⟩
    simp [Layout.record, layout, (edge?_eq_some hg).2 he]
  | @source e he =>
    refine ⟨.plain (.source e.id), (hg.edges e he).id.1, rfl, ?_⟩
    simp [Layout.record, layout, (edge?_eq_some hg).2 he]
  | @target e he =>
    refine ⟨.plain (.target e.id), (hg.edges e he).id.1, rfl, ?_⟩
    simp [Layout.record, layout, (edge?_eq_some hg).2 he]
  | @edgeListing e he =>
    exact ⟨.plain (.listing .edge e.id), (hg.edges e he).id.1, rfl, if_pos (hedge he)⟩
  | @property kind id key value hvalue =>
    refine ⟨.plain (.property kind id key), hg.properties kind id key (by simp [hvalue]), rfl, ?_⟩
    simp [Layout.record, layout, hvalue]
  | @edgeMarker e s he =>
    refine ⟨.marker s .edges e.id, ⟨hscope he, (hg.edges e (List.mem_of_mem_filter he)).id⟩, rfl, ?_⟩
    simp only [Layout.record, listed_edges hg]
    exact if_pos (List.mem_map_of_mem he)
  | @neighborMarker e s he =>
    refine ⟨.marker s .vertices (e.far s.direction),
      ⟨hscope he, (hg.edges e (List.mem_of_mem_filter he)).far _⟩, rfl, ?_⟩
    simp only [Layout.record, listed_vertices hg hfits]
    refine if_pos ((hfits s).mem_iff.2 ?_)
    exact List.mem_map.2 ⟨e, he, rfl⟩
  | @edgeIndex s hopen =>
    refine ⟨.index s .edges, hopened hopen, rfl, ?_⟩
    simp [Layout.record, layout, hopen, Neighborhood.list]
  | @neighborIndex s hopen =>
    refine ⟨.index s .vertices, hopened hopen, rfl, ?_⟩
    simp [Layout.record, layout, hopen, Neighborhood.list]

end Multigraph

variable {σ : Type} [Backend σ] [LawfulBackend σ]

/-- A store with the records of a graph has its entries and no other key. -/
theorem Engine.Holds.contents_iff {g : Multigraph} {neighbors : Scope → List String} {e : Engine σ}
    (h : e.Holds (g.layout neighbors).record) (hg : g.Sound) (hfits : g.Fits neighbors)
    (key : String) (value : Blob) :
    e.contents key = some value ↔ g.Entry neighbors key value := by
  constructor
  · intro hkey
    obtain ⟨r, hr, rfl⟩ := h.only key (by simp [hkey])
    rw [h.stored r hr] at hkey
    exact Multigraph.entry_of_record hg hfits hkey
  · intro hentry
    obtain ⟨r, hr, rfl, hvalue⟩ := Multigraph.record_of_entry hg hfits hentry
    rw [h.stored r hr, hvalue]

/-! ## After a history -/

/-- Whatever operations run from an empty store, where ids are handed out as they should be, the
store has exactly the entries of the graph that they build: the lists of edges in the order of
creation, and in the lists of neighbours one entry for every edge. -/
theorem Engine.contents_history {e : Engine σ} (hempty : ∀ key, e.contents key = none)
    {ops : List RecordOp} (hops : ∀ op ∈ ops, op.Named)
    (hids : GoodIds e.ids (Multigraph.history e.ids ops (.empty, e.issued)).2) :
    (Multigraph.history e.ids ops (.empty, e.issued)).1.Sound ∧
      ∃ neighbors, (Multigraph.history e.ids ops (.empty, e.issued)).1.Fits neighbors ∧
        ∀ key value, ((RecordOp.runAll ops).run e).2.contents key = some value ↔
          (Multigraph.history e.ids ops (.empty, e.issued)).1.Entry neighbors key value := by
  obtain ⟨htracks, -⟩ := (Tracks.empty hempty).run hops hids
  obtain ⟨hsound, neighbors, hfits, hholds⟩ := htracks.keeps
  exact ⟨hsound, neighbors, hfits, hholds.contents_iff hsound hfits⟩

/-- Two vertices with parallel edges, a loop and properties, of which some go again. -/
def someOps : List RecordOp :=
  [.createVertex "person", .createVertex "person",
    .createEdge "knows" (elementId 0) (elementId 1), .createEdge "knows" (elementId 0) (elementId 1),
    .createEdge "likes" (elementId 0) (elementId 0), .setProperty .vertex (elementId 1) "name" .null,
    .dropEdge (elementId 2), .dropVertex (elementId 1), .dropVertex (elementId 1),
    .setProperty .vertex (elementId 1) "name" (.bool true)]

theorem contents_someOps :
    (Multigraph.history elementId someOps (.empty, 0)).1.Sound ∧
      ∃ neighbors, (Multigraph.history elementId someOps (.empty, 0)).1.Fits neighbors ∧
        ∀ key value, ((RecordOp.runAll someOps).run (Engine.ofStore Memory.empty)).2.contents key =
            some value ↔
          (Multigraph.history elementId someOps (.empty, 0)).1.Entry neighbors key value :=
  Engine.contents_history (e := Engine.ofStore Memory.empty) (fun _ => rfl) (by decide) (by decide)

end PropertyGraph
