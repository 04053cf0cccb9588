/-
Dropping a vertex of a graph whose lists of ids may be damaged. `Worn` says what a store keeps of
such a graph: lists that can be read are right, and markers are as ever, but those between the
vertex that goes and its neighbours, which the lists guard. Unlinking an edge and dropping one
keep it, so dropping the vertex leaves the records of the graph without the vertex and its edges
(`leads_dropVertex`, `Fallen`): where a list is missing, the markers show which edges are there.
-/
import PropertyGraph.Proofs.Postings

namespace PropertyGraph

open PropertyGraph.Graph

/-! ## Graphs with damaged lists -/

/-- What a store keeps at a scope where `links` are linked, while a vertex goes. Lists that can
be read are right, and so are markers, but one between that vertex and another may be missing:
without a list to count in, an edge takes it along even if another edge still joins the two. -/
structure WornAt (v : String) (m : Records) (s : Scope) (links : List Edge) : Prop where
  distinct : (links.map (·.id)).Nodup
  edgeMarker : ∀ t, m (.marker s .edges t) = if t ∈ links.map (·.id) then some (.text "") else none
  vertexMarker : s.vertex ≠ v → ∀ t ≠ v, m (.marker s .vertices t) =
    if t ∈ links.map (·.far s.direction) then some (.text "") else none
  joined : ∀ t, m (.marker s .vertices t) ≠ none → t ∈ links.map (·.far s.direction)
  edgeList : ∀ ids, m.ids? (.index s .edges) = some ids → ids = links.map (·.id)
  vertexList : ∀ ids, m.ids? (.index s .vertices) = some ids →
    ids.Perm (links.map (·.far s.direction))

/-- What a store keeps of a graph while a vertex goes, by the records about elements and the
edges linked at each scope. -/
structure Worn (v : String) (plain : PlainKey → Option Blob) (links : Scope → List Edge)
    (m : Records) : Prop where
  plain : ∀ key, m (.plain key) = plain key
  scope : ∀ s, WornAt v m s (links s)

variable {v : String} {plain : PlainKey → Option Blob} {m m' : Records}

section Scopes

variable {s : Scope}

/-- Only the markers and the lists at a scope count. -/
theorem WornAt.congr {links : List Edge} (h : WornAt v m s links)
    (hmarker : ∀ a t, m' (.marker s a t) = m (.marker s a t))
    (hlist : ∀ a, m'.ids? (.index s a) = m.ids? (.index s a)) : WornAt v m' s links where
  distinct := h.distinct
  edgeMarker t := (hmarker .edges t).trans (h.edgeMarker t)
  vertexMarker hs t ht := (hmarker .vertices t).trans (h.vertexMarker hs t ht)
  joined t ht := h.joined t (by rwa [← hmarker])
  edgeList ids hids := h.edgeList ids (by rwa [← hlist])
  vertexList ids hids := h.vertexList ids (by rwa [← hlist])

/-- Unlinking an edge at a scope, where the vertex that goes is at one of its ends. -/
theorem WornAt.unlink {links : List Edge} (h : WornAt v m s links) {x : Edge} (hx : x ∈ links)
    (hv : s.vertex = v ∨ x.far s.direction = v)
    (hm : m.Unlinked s x.id (x.far s.direction) m') :
    WornAt v m' s (links.filter (·.id != x.id)) := by
  have hids := Multigraph.map_id_filter links x.id
  have hfar : (links.map (·.far s.direction)).Perm (x.far s.direction ::
      (links.filter (·.id != x.id)).map (·.far s.direction)) :=
    (Multigraph.perm_cons_filter h.distinct hx).map _
  have hlist : ∀ ids, m'.ids? (.index s .vertices) = some ids →
      ids.Perm ((links.filter (·.id != x.id)).map (·.far s.direction)) := by
    intro ids hread
    rw [hm.vertexList] at hread
    obtain ⟨old, hold, rfl⟩ := Option.map_eq_some_iff.1 hread
    simpa [remaining] using ((h.vertexList old hold).trans hfar).erase (x.far s.direction)
  constructor
  case distinct =>
    rw [hids]
    exact h.distinct.filter _
  case edgeMarker =>
    intro t
    rw [hids, hm.edgeMarker, h.edgeMarker]
    by_cases ht : t = x.id
    · simp [ht]
    · simp [ht]
  case vertexMarker =>
    intro hs t ht
    have hother : t ≠ x.far s.direction := fun he => ht (he.trans (hv.resolve_left hs))
    rw [hm.vertexMarker, if_neg fun hand => hother hand.1, h.vertexMarker hs t ht]
    simp only [hfar.mem_iff, List.mem_cons, hother, false_or]
  case joined =>
    intro t hthere
    rw [hm.vertexMarker] at hthere
    by_cases ht : t = x.far s.direction
    · -- The marker of the far end stays only while a list holds it, and that list is right.
      have hheld : (m'.ids? (.index s .vertices)).any (·.contains (x.far s.direction)) := by
        by_contra hnot
        exact hthere (if_pos ⟨ht, hnot⟩)
      obtain ⟨ids, hread, hmem⟩ := (Option.any_eq_true _ _).1 hheld
      exact (hlist ids hread).mem_iff.1 (by simpa [ht] using hmem)
    · rw [if_neg fun hand => ht hand.1] at hthere
      have hmem := h.joined t hthere
      rw [hfar.mem_iff, List.mem_cons] at hmem
      exact hmem.resolve_left ht
  case edgeList =>
    intro ids hread
    rw [hm.edgeList] at hread
    obtain ⟨old, hold, rfl⟩ := Option.map_eq_some_iff.1 hread
    rw [hids, h.edgeList old hold]
    rfl
  case vertexList => exact hlist

end Scopes

section Changes

variable {g : Multigraph} {x : Edge} {links : Scope → List Edge}

theorem Multigraph.end_of_touches (h : Multigraph.touches x v = true) (d : Direction) :
    x.near d = v ∨ x.far d = v := by
  simp only [touches, Bool.or_eq_true, beq_iff_eq] at h
  cases d
  · exact h
  · exact h.symm

theorem Multigraph.touches_of_mem_incident (hg : g.Sound) (hx : x ∈ g.edges)
    (h : x.id ∈ g.incident v) : touches x v = true := by
  obtain ⟨y, hy, hid⟩ := List.mem_map.1 h
  rw [← List.inj_on_of_nodup_map hg.edgeIds (List.mem_of_mem_filter hy) hx hid]
  exact (List.mem_filter.1 hy).2

/-- The edges linked at each scope once an edge is unlinked at some of them. -/
def cutAt (links : Scope → List Edge) (scopes : List Scope) (edge : String) : Scope → List Edge :=
  fun s => if s ∈ scopes then (links s).filter (·.id != edge) else links s

/-- An edge that is cut at its four scopes is out of the graph. -/
theorem cutAt_scopes (hg : g.Sound) (hx : x ∈ g.edges) :
    cutAt g.edgesAt x.scopes x.id = (g.removeEdges [x.id]).edgesAt := by
  funext s
  by_cases hat : x.isAt s = true
  · rw [cutAt, if_pos (Edge.mem_scopes.2 hat), Multigraph.edgesAt_removeEdge]
  · rw [cutAt, if_neg (mt Edge.mem_scopes.1 hat), Multigraph.edgesAt_removeEdge_of_not hg hx hat]

/-- What a store keeps about the elements of a graph while a vertex goes, which is not listed any
more. -/
def Multigraph.unlisted (g : Multigraph) (v : String) : PlainKey → Option Blob := fun key =>
  if key = .listing .vertex v then none else (g.layout fun _ => []).plain key

theorem Worn.setPlain (h : Worn v plain links m) (key : PlainKey) :
    Worn v (fun k => if k = key then none else plain k) links (m.set (.plain key) none) where
  plain k := by
    by_cases hk : k = key
    · simp [hk]
    · rw [Records.set_of_ne _ _ (by simpa using hk), h.plain k, if_neg hk]
  scope s := (h.scope s).congr (fun a t => Records.set_of_ne _ _ (by simp)) fun a =>
    Records.ids?_set_of_ne _ _ (by simp)

/-- Nothing at a scope lies below the marker of an edge. -/
theorem Worn.withoutChildren (h : Worn v plain links m) (id : String) :
    Worn v (fun k => if (RecordKey.plain k).owner? = some (.edge, id) then none else plain k) links
      (m.without fun r => r.owner? = some (.edge, id)) where
  plain k := by rw [Records.without, h.plain k]
  scope s := (h.scope s).congr (fun a t => by simp [Records.without, RecordKey.owner?]) fun a =>
    Records.ids?_congr (by simp [Records.without, RecordKey.owner?])

theorem PlainKey.about_eq_iff {key : PlainKey} {kind : ElementKind} {id : String} :
    key.about = (kind, id) ↔ key = .listing kind id ∨
      (RecordKey.plain key).owner? = some (kind, id) ∨ key = .element kind id := by
  cases key <;> simp [about, RecordKey.owner?]

/-- The records when a vertex and the edges at it are gone: as the graph without these edges has
them, and nothing of the vertex. -/
structure Fallen (g : Multigraph) (v : String) (m : Records) : Prop where
  own : ∀ r : RecordKey, r.owner? = some (.vertex, v) ∨ r = .plain (.listing .vertex v) ∨
    r = .plain (.element .vertex v) → m r = none
  plain : ∀ key : PlainKey, key.about ≠ (.vertex, v) →
    m (.plain key) = ((g.removeEdges (g.incident v)).layout fun _ => []).plain key
  scope : ∀ s, s.vertex ≠ v → WornAt v m s ((g.removeEdges (g.incident v)).edgesAt s)

/-- With the edges at the vertex gone, its own records go. -/
theorem Worn.fallen (h : Worn v ((g.removeEdges (g.incident v)).unlisted v)
    (g.removeEdges (g.incident v)).edgesAt m) :
    Fallen g v ((m.without fun r => r.owner? = some (.vertex, v)).set
      (.plain (.element .vertex v)) none) := by
  constructor
  case own =>
    intro r hr
    by_cases hself : r = .plain (.element .vertex v)
    · rw [hself, Records.set_self]
    · rw [Records.set_of_ne _ _ hself, Records.without]
      rcases hr with howner | rfl | rfl
      · exact if_pos howner
      · rw [h.plain]
        simp [Multigraph.unlisted, RecordKey.owner?]
      · exact absurd rfl hself
  case plain =>
    intro key hkey
    rw [ne_eq, PlainKey.about_eq_iff, not_or, not_or] at hkey
    rw [Records.set_of_ne _ _ (by simpa using hkey.2.2), Records.without, if_neg hkey.2.1, h.plain,
      Multigraph.unlisted, if_neg hkey.1]
  case scope =>
    intro s hs
    have hother : ¬some (ElementKind.vertex, s.vertex) = some (.vertex, v) := by simpa using hs
    refine (h.scope s).congr (fun a t => ?_) fun a => ?_
    · rw [Records.set_of_ne _ _ (by simp)]
      exact if_neg hother
    · rw [Records.ids?_set_of_ne _ _ (by simp)]
      exact Records.ids?_congr (if_neg hother)

end Changes

variable {σ : Type} [Backend σ] [LawfulBackend σ] {g : Multigraph} {x : Edge}

/-! ## Dropping edges -/

section Edges

/-- Unlinking an edge at one more scope. -/
theorem leads_unlinkScope (hg : g.Sound) (hx : x ∈ g.edges) (hv : Multigraph.touches x v = true)
    {scopes : List Scope} (h : Worn v plain (cutAt g.edgesAt scopes x.id) m) (d : Direction)
    (b : Bool) (hnew : x.scope d b ∉ scopes) :
    Leads m (unlinkEnd x.id (x.scope d b).vertex (x.scope d b).direction (some (x.far d))
      (x.scope d b).label : Run σ Unit) fun _ m' =>
      Worn v plain (cutAt g.edgesAt (x.scope d b :: scopes) x.id) m' := by
  have hnamed := hg.edges x hx
  refine (leads_unlinkEnd (hnamed.scope_valid d b) hnamed.id (hnamed.far d) m).mono
    fun _ m' hm => ⟨fun key => (hm.plain key).trans (h.plain key), fun s => ?_⟩
  have hscope := h.scope s
  by_cases hs : s = x.scope d b
  · subst hs
    rw [cutAt, if_neg hnew] at hscope
    rw [cutAt, if_pos List.mem_cons_self]
    exact hscope.unlink (List.mem_filter.2 ⟨hx, x.isAt_scope d b⟩)
      (Multigraph.end_of_touches hv d) hm
  · have hsame : cutAt g.edgesAt (x.scope d b :: scopes) x.id s = cutAt g.edgesAt scopes x.id s := by
      simp [cutAt, hs]
    rw [hsame]
    exact hscope.congr (fun a t => hm.marker s a t hs) fun a => hm.list s a hs

/-- Unlinking an edge, of which one end is the vertex that goes. -/
theorem leads_unlinkEdge (hg : g.Sound) (hx : x ∈ g.edges) (hv : Multigraph.touches x v = true)
    (h : Worn v plain g.edgesAt m) :
    Leads m (unlinkEdge x.id (some x.label) (some x.source) (some x.target) : Run σ Unit)
      fun _ m' => Worn v plain (g.removeEdges [x.id]).edgesAt m' := by
  have hnone : cutAt g.edgesAt [] x.id = g.edgesAt := by
    funext s
    simp [cutAt]
  rw [← hnone] at h
  rw [← cutAt_scopes hg hx]
  exact leads_unlinkEdge_of (P := fun scopes m => Worn v plain (cutAt g.edgesAt scopes x.id) m)
    (fun _ d b _ hnew h => leads_unlinkScope hg hx hv h d b hnew) h

/-- Dropping an edge, of which one end is the vertex that goes. -/
theorem leads_dropEdge (hg : g.Sound) (hx : x ∈ g.edges) (hv : Multigraph.touches x v = true)
    (h : Worn v (g.unlisted v) g.edgesAt m) :
    Leads m (dropEdge x.id : Run σ Unit) fun _ m' =>
      Worn v ((g.removeEdges [x.id]).unlisted v) (g.removeEdges [x.id]).edgesAt m' := by
  have hid := (hg.edges x hx).id.1
  have hedge : g.edge? x.id = some x := (Multigraph.edge?_eq_some hg).2 hx
  refine (leads_dropEdge_of hid x.label x.source x.target ?_ ?_ ?_
    (leads_unlinkEdge hg hx hv (h.setPlain (.listing .edge x.id)))).mono fun _ m2 h2 => ?_
  · simp [h.plain, Multigraph.unlisted, Multigraph.layout, hedge, Blob.string]
  · simp [h.plain, Multigraph.unlisted, Multigraph.layout, hedge, Blob.string]
  · simp [h.plain, Multigraph.unlisted, Multigraph.layout, hedge, Blob.string]
  obtain ⟨m1, h1, rfl⟩ := h2
  have hend := (h1.withoutChildren x.id).setPlain (.element .edge x.id)
  refine ⟨fun key => (hend.plain key).trans ?_, hend.scope⟩
  simp only [Multigraph.unlisted, g.plain_removeEdge x.id _ fun _ => [], PlainKey.about_eq_iff]
  grind

/-- Dropping edges one after the other, all at the vertex that goes. -/
theorem leads_dropEdges {ids : List String} (hg : g.Sound) (hnodup : ids.Nodup)
    (hids : ∀ id ∈ ids, ∃ x ∈ g.edges, Multigraph.touches x v = true ∧ x.id = id)
    (h : Worn v (g.unlisted v) g.edgesAt m) :
    Leads m (ids.forM dropEdge : Run σ Unit) fun _ m' =>
      Worn v ((g.removeEdges ids).unlisted v) (g.removeEdges ids).edgesAt m' := by
  induction ids generalizing g m with
  | nil =>
    rw [removeEdges_nil]
    exact .pure h
  | cons id ids ih =>
    obtain ⟨hnew, hrest⟩ := List.nodup_cons.1 hnodup
    obtain ⟨x, hx, hv, rfl⟩ := hids id (by simp)
    refine Leads.bind (f := fun _ => ids.forM dropEdge) (leads_dropEdge hg hx hv h)
      fun _ m' h' => ?_
    have hall : (g.removeEdges [x.id]).removeEdges ids = g.removeEdges (x.id :: ids) :=
      removeEdges_removeEdges g [x.id] ids
    rw [← hall]
    refine ih (hg.removeEdges [x.id]) hrest (fun i hi => ?_) h'
    obtain ⟨y, hy, hyv, rfl⟩ := hids i (List.mem_cons_of_mem _ hi)
    have hne : y.id ≠ x.id := fun he => hnew (he ▸ hi)
    exact ⟨y, List.mem_filter.2 ⟨hy, by simpa using hne⟩, hyv, rfl⟩

end Edges

/-! ## Dropping the vertex -/

section Vertex

/-- The edges at a scope are found, by the list or by the markers. -/
theorem completes_adjacentIds {links : Scope → List Edge} (h : Worn v plain links m) {s : Scope}
    (hs : s.Valid) (hnames : ∀ x ∈ links s, IsName x.id) :
    Completes m (adjacentIds s.vertex s.direction .edges s.label : Attempt σ _) fun ids m' =>
      (∀ i, i ∈ ids ↔ i ∈ (links s).map (·.id)) ∧ m' = m := by
  refine (completes_adjacentIds_shows hs .edges m).mono fun ids m' hids => ⟨fun i => ?_, hids.2⟩
  rw [hids.1]
  cases hread : (m.postings s).list .edges with
  | some read => rw [Postings.shows_of_list hread, (h.scope s).edgeList read hread]
  | none =>
    rw [Postings.shows_of_none hread, show (m.postings s).marker .edges i = _ from
      (h.scope s).edgeMarker i]
    constructor
    · rintro ⟨-, hthere⟩
      by_contra hnot
      exact hthere (if_neg hnot)
    · intro hi
      obtain ⟨x, hx, rfl⟩ := List.mem_map.1 hi
      exact ⟨hnames x hx, by simp [hi]⟩

/-- All edges at a vertex are found, each once. -/
theorem completes_incidentEdges (hg : g.Sound) (hid : Key.isToken v = true)
    (h : Worn v plain g.edgesAt m) :
    Completes m (incidentEdges v : Attempt σ _) fun ids m' =>
      (ids.Nodup ∧ ∀ i, i ∈ ids ↔ i ∈ g.incident v) ∧ m' = m := by
  have hfind : ∀ d, Completes m (adjacentIds v d .edges none : Attempt σ _) fun ids m' =>
      (∀ i, i ∈ ids ↔ i ∈ (g.edgesAt ⟨v, d, none⟩).map (·.id)) ∧ m' = m := fun d =>
    completes_adjacentIds (s := ⟨v, d, none⟩) h (scope_valid hid d) fun x hx =>
      (hg.edges x (List.mem_of_mem_filter hx)).id
  refine (hfind .outgoing).bind ?_
  rintro leaving _ ⟨hleaving, rfl⟩
  refine (hfind .incoming).bind ?_
  rintro entering _ ⟨hentering, rfl⟩
  have hmem : ∀ i, i ∈ union (union [] leaving) entering ↔ i ∈ g.incident v := by
    intro i
    rw [mem_union, mem_union, hleaving, hentering, Multigraph.mem_incident_iff]
    simp
  exact .pure ⟨⟨nodup_union (nodup_union List.nodup_nil), hmem⟩, rfl⟩

/-- Dropping a vertex, whatever lists are damaged. -/
theorem leads_dropVertex (hg : g.Sound) (hid : Key.isToken v = true)
    (h : Worn v (g.layout fun _ => []).plain g.edgesAt m) :
    Leads m (dropVertex v : Run σ Unit) fun _ m' => Fallen g v m' := by
  refine (Leads.quietly (completes_incidentEdges hg hid h)).bind ?_
  rintro ids _ ⟨⟨hnodup, hids⟩, rfl⟩
  refine Acts.leads_bind (acts_deleteQuietly (r := .plain (.listing .vertex v)) hid _) ?_
  have hincident : ∀ id ∈ ids, ∃ x ∈ g.edges, Multigraph.touches x v = true ∧ x.id = id := by
    intro id hmem
    obtain ⟨x, hx, rfl⟩ := List.mem_map.1 ((hids id).1 hmem)
    exact ⟨x, (List.mem_filter.1 hx).1, (List.mem_filter.1 hx).2, rfl⟩
  refine Leads.bind (leads_dropEdges hg hnodup hincident (h.setPlain _)) fun _ m1 h1 => ?_
  rw [removeEdges_congr g hids] at h1
  have hmarker : ∀ s : Scope, s.vertex = v → ∀ t, m1 (.marker s .vertices t) = none := by
    intro s hs t
    by_contra hthere
    have hjoined := (h1.scope s).joined t hthere
    rw [Multigraph.edgesAt_removed s hs] at hjoined
    simp at hjoined
  refine Acts.leads_bind (acts_clearNeighbors hid hmarker .outgoing) ?_
  refine Acts.leads_bind (acts_clearNeighbors hid hmarker .incoming) ?_
  refine Acts.leads_bind (acts_deleteChildren hid .vertex m1) ?_
  refine (acts_deleteQuietly (r := .plain (.element .vertex v)) hid _).leads.mono fun _ m2 h2 => ?_
  rw [h2.2]
  exact h1.fallen

end Vertex

end PropertyGraph
