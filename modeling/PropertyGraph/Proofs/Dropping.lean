/-
Dropping elements of a graph. Where a store keeps a graph, `dropEdge` and `dropVertex` leave
it with the graph without the element (`acts_dropEdge_graph`, `acts_dropVertex`), whether the
element is there or not, and `dropAll` leaves no key at all (`does_dropAll`). A vertex takes
its edges with it one after the other; they go while its listing is already gone, so the
steps are stated of a layout with some records of vertices hidden.
-/
import PropertyGraph.Proofs.Multigraph

namespace PropertyGraph

open PropertyGraph.Graph

variable {σ : Type} [Backend σ] [LawfulBackend σ]

/-! ## Layouts with hidden records -/

namespace Layout

/-- The layout without some of the records about elements. -/
def hide (L : Layout) (hidden : PlainKey → Prop) [DecidablePred hidden] : Layout :=
  { L with plain := fun key => if hidden key then none else L.plain key }

theorem hide_false (L : Layout) : L.hide (fun _ => False) = L := by
  apply ext
  · intro key
    simp [hide]
  · intro s
    rfl

/-- Hiding records of vertices and removing an edge. -/
theorem withoutElement_hide (L : Layout) (hidden : PlainKey → Prop) [DecidablePred hidden]
    (id : String) :
    (L.hide hidden).withoutElement .edge id = (L.withoutElement .edge id).hide hidden := by
  apply ext
  · intro key
    simp only [withoutElement, hide]
    grind
  · intro s
    rfl

end Layout

/-! ## Lists of neighbours without some edges -/

namespace Multigraph

/-- The lists of neighbours after some edges were unlinked: for each of them at a scope, its far end
was taken out there once, at its first place. -/
def thinned (g : Multigraph) (neighbors : Scope → List String) (gone : List String) :
    Scope → List String :=
  fun s => (neighbors s).diff (((g.edgesAt s).filter (gone.contains ·.id)).map (·.far s.direction))

variable {g : Multigraph} {neighbors : Scope → List String}

theorem thinned_nil : g.thinned neighbors [] = neighbors := by
  funext s
  simp [thinned]

/-- Which edges go is all that counts. -/
theorem thinned_congr {a b : List String} (h : ∀ id, id ∈ a ↔ id ∈ b) :
    g.thinned neighbors a = g.thinned neighbors b := by
  funext s
  simp only [thinned, List.contains_eq_mem, h]

theorem thinned_edge (hg : g.Sound) {e : Edge} (he : e ∈ g.edges) :
    g.thinned neighbors [e.id] = erased neighbors e := by
  funext s
  have hnodup : (g.edgesAt s).Nodup := (List.Nodup.of_map _ hg.edgeIds).filter _
  have hone : (g.edgesAt s).filter ([e.id].contains ·.id) = if e.isAt s then [e] else [] := by
    have hsame : (g.edgesAt s).filter ([e.id].contains ·.id) = (g.edgesAt s).filter (· = e) := by
      refine List.filter_congr fun x hx => ?_
      have hiff : x.id = e.id ↔ x = e := by
        refine ⟨fun h => ?_, congrArg _⟩
        exact List.inj_on_of_nodup_map hg.edgeIds (List.mem_of_mem_filter hx) he h
      simp [hiff]
    rw [hsame, List.filter_eq, List.Nodup.count hnodup]
    by_cases hat : e.isAt s = true
    · simp [edgesAt, he, hat]
    · simp [edgesAt, hat]
  rw [thinned, hone, erased]
  split
  · simp
  · simp

theorem thinned_of_absent {id : String} (h : id ∉ g.ids .edge) :
    g.thinned neighbors [id] = neighbors := by
  funext s
  have hnone : (g.edgesAt s).filter ([id].contains ·.id) = [] := by
    rw [List.filter_eq_nil_iff]
    intro e he
    have hne : e.id ≠ id := fun hid => h (hid ▸ List.mem_map_of_mem (List.mem_of_mem_filter he))
    simpa using hne
  rw [thinned, hnone]
  rfl

/-- Some edges and then others. -/
theorem thinned_thinned (a b : List String) :
    (g.removeEdges a).thinned (g.thinned neighbors a) b = g.thinned neighbors (a ++ b) := by
  funext s
  simp only [thinned, edgesAt_removeEdges, ← List.diff_append, ← List.map_append]
  refine List.Perm.diff_left _ (List.Perm.map _ ?_)
  have hsplit := List.filter_append_perm (a.contains ·.id)
    ((g.edgesAt s).filter ((a ++ b).contains ·.id))
  refine List.Perm.trans (List.Perm.of_eq ?_) hsplit
  simp only [List.filter_filter, List.contains_eq_mem, List.mem_append]
  refine congrArg₂ (· ++ ·) (List.filter_congr fun e _ => ?_) (List.filter_congr fun e _ => ?_)
  · grind
  · grind

theorem diff_append_left {l l' : List String} : (l ++ l').diff l = l' := by
  induction l with
  | nil => simp
  | cons x l ih => simpa using ih

theorem Fits.thinned (hfits : g.Fits neighbors) (gone : List String) :
    (g.removeEdges gone).Fits (g.thinned neighbors gone) := by
  intro s
  have hsplit := List.filter_append_perm (gone.contains ·.id) (g.edgesAt s)
  have hperm := (hfits s).trans (hsplit.symm.map (·.far s.direction))
  rw [List.map_append] at hperm
  rw [Multigraph.thinned, edgesAt_removeEdges]
  exact (hperm.diff_right _).trans (List.Perm.of_eq diff_append_left)

end Multigraph

/-! ## Dropping edges -/

section Edges

variable {g : Multigraph} {neighbors : Scope → List String} (hidden : PlainKey → Prop)
  [DecidablePred hidden]

/-- Dropping an edge takes it out of the graph, and with it whatever was recorded under its
id. -/
theorem acts_dropEdge_hide (hg : g.Sound) (neighbors : Scope → List String)
    (hhidden : ∀ key, hidden key → key.about.1 = .vertex) {id : String}
    (hid : Key.isToken id = true) :
    Acts (dropEdge id : Run σ Unit) ((g.layout neighbors).hide hidden).record ()
      (((g.dropEdge id).layout (g.thinned neighbors [id])).hide hidden).record := by
  have hplain : ∀ key : PlainKey, key.about.1 = .edge →
      ((g.layout neighbors).hide hidden).plain key = (g.layout neighbors).plain key := by
    intro key hkey
    have hnot : ¬ hidden key := fun h => by
      rw [hhidden key h] at hkey
      cases hkey
    simp [Layout.hide, hnot]
  by_cases hmem : id ∈ g.ids .edge
  · obtain ⟨e, he, rfl⟩ := Multigraph.exists_edge hmem
    have hedge : g.edge? e.id = some e := (Multigraph.edge?_eq_some hg).2 he
    have hdrop := acts_dropEdge (σ := σ) (hg.edges e he)
      (L := (g.layout neighbors).hide hidden)
      (by rw [hplain _ rfl]; simp [Multigraph.layout, hedge])
      (by rw [hplain _ rfl]; simp [Multigraph.layout, hedge])
      (by rw [hplain _ rfl]; simp [Multigraph.layout, hedge])
    rw [Multigraph.dropEdge, Multigraph.thinned_edge hg he, Multigraph.layout_removeEdge hg he,
      ← Layout.withoutElement_hide]
    exact hdrop
  · have hnone : g.edge? id = none := Multigraph.edge?_eq_none.2 hmem
    have hdrop := acts_dropEdge_of_absent (σ := σ) hid
      (L := (g.layout neighbors).hide hidden)
      (by rw [hplain _ rfl]; simp [Multigraph.layout, hnone])
      (by rw [hplain _ rfl]; simp [Multigraph.layout, hnone])
      (by rw [hplain _ rfl]; simp [Multigraph.layout, hnone])
    rw [Multigraph.dropEdge, Multigraph.thinned_of_absent hmem,
      Multigraph.layout_removeEdge_of_absent hmem, ← Layout.withoutElement_hide]
    exact hdrop

theorem acts_dropEdge_graph (hg : g.Sound) (neighbors : Scope → List String) {id : String}
    (hid : Key.isToken id = true) :
    Acts (dropEdge id : Run σ Unit) (g.layout neighbors).record ()
      ((g.dropEdge id).layout (g.thinned neighbors [id])).record := by
  have h := acts_dropEdge_hide (σ := σ) (fun _ => False) hg neighbors (fun _ h => h.elim) hid
  simpa only [Layout.hide_false] using h

theorem removeEdges_removeEdges (g : Multigraph) (a b : List String) :
    (g.removeEdges a).removeEdges b = g.removeEdges (a ++ b) := by
  simp only [Multigraph.removeEdges, List.filter_filter, Multigraph.mk.injEq, true_and, and_true]
  constructor
  · apply List.filter_congr
    intro e _
    simp only [List.contains_eq_mem, List.mem_append]
    grind
  · funext kind id key
    simp only [List.mem_append]
    grind

/-- Which edges go is all that counts. -/
theorem removeEdges_congr (g : Multigraph) {a b : List String} (h : ∀ id, id ∈ a ↔ id ∈ b) :
    g.removeEdges a = g.removeEdges b := by
  simp only [Multigraph.removeEdges, h, List.contains_eq_mem]

theorem removeEdges_nil (g : Multigraph) : g.removeEdges [] = g := by
  simp [Multigraph.removeEdges]

/-- Dropping edges one after the other. -/
theorem acts_dropEdges {ids : List String} (hids : ∀ id ∈ ids, Key.isToken id = true)
    (hg : g.Sound) (neighbors : Scope → List String)
    (hhidden : ∀ key, hidden key → key.about.1 = .vertex) :
    Acts (ids.forM dropEdge : Run σ Unit) ((g.layout neighbors).hide hidden).record ()
      (((g.removeEdges ids).layout (g.thinned neighbors ids)).hide hidden).record := by
  induction ids generalizing g neighbors with
  | nil =>
    rw [removeEdges_nil, Multigraph.thinned_nil]
    exact .pure () _
  | cons id ids ih =>
    have hfirst := acts_dropEdge_hide (σ := σ) hidden hg neighbors hhidden (hids id (by simp))
    have hrest := ih (fun i hi => hids i (List.mem_cons_of_mem _ hi))
      (hg.removeEdges [id]) (g.thinned neighbors [id])
    rw [removeEdges_removeEdges, Multigraph.thinned_thinned] at hrest
    exact Acts.bind (f := fun _ => ids.forM dropEdge) hfirst hrest

end Edges

/-! ## Dropping a vertex -/

section Vertex

theorem Multigraph.mem_incident_iff {g : Multigraph} {id i : String} :
    i ∈ g.incident id ↔ i ∈ (g.edgesAt ⟨id, .outgoing, none⟩).map (·.id) ∨
      i ∈ (g.edgesAt ⟨id, .incoming, none⟩).map (·.id) := by
  simp only [incident, edgesAt, touches, Edge.isAt, Edge.near, List.mem_map, List.mem_filter,
    Bool.or_eq_true, beq_self_eq_true, Bool.true_or, Bool.and_true]
  grind

theorem mem_union {seen ids : List String} {id : String} :
    id ∈ union seen ids ↔ id ∈ seen ∨ id ∈ ids := by
  induction ids generalizing seen with
  | nil => simp [union]
  | cons i ids ih =>
    show id ∈ union (if seen.contains i then seen else seen ++ [i]) ids ↔ _
    rw [ih]
    split
    · rename_i h
      have hi : i ∈ seen := by simpa using h
      grind
    · simp only [List.mem_append, List.mem_cons, List.not_mem_nil, or_false, or_assoc]

theorem nodup_union {seen ids : List String} (h : seen.Nodup) : (union seen ids).Nodup := by
  induction ids generalizing seen with
  | nil => exact h
  | cons id ids ih =>
    show (union (if seen.contains id then seen else seen ++ [id]) ids).Nodup
    split
    · exact ih h
    · rename_i hnew
      exact ih (List.nodup_append'.2 ⟨h, List.nodup_singleton _, by simpa using hnew⟩)

variable {g : Multigraph} {neighbors : Scope → List String}

theorem scope_valid {vertex : String} (h : Key.isToken vertex = true) (d : Direction) :
    (⟨vertex, d, none⟩ : Scope).Valid := ⟨h, fun _ hl => by cases hl⟩

/-- The edges at a vertex, from what the store keeps. -/
theorem does_incidentEdges (hg : g.Sound) (neighbors : Scope → List String) {id : String}
    (hid : Key.isToken id = true) :
    ∃ ids, ids.Nodup ∧ (∀ i, i ∈ ids ↔ i ∈ g.incident id) ∧
      Does (incidentEdges id : Attempt σ _) (g.layout neighbors).record ids
        (g.layout neighbors).record := by
  refine ⟨_, nodup_union (nodup_union List.nodup_nil), ?_,
    .bind (does_adjacentIds (scope_valid hid .outgoing) .edges _)
      (.bind (does_adjacentIds (scope_valid hid .incoming) .edges _) (.pure _ _))⟩
  intro i
  rw [mem_union, mem_union, Multigraph.listed_edges hg, Multigraph.listed_edges hg,
    Multigraph.mem_incident_iff]
  simp

omit [Backend σ] [LawfulBackend σ] in
theorem forM_eq_pure {α : Type} {f : α → Run σ Unit} {l : List α} (h : ∀ a ∈ l, f a = pure ()) :
    l.forM f = pure () := by
  induction l with
  | nil => rfl
  | cons a l ih =>
    show (f a >>= fun _ => l.forM f) = pure ()
    rw [h a (by simp), ih fun b hb => h b (List.mem_cons_of_mem _ hb)]
    rfl

theorem lastToken_index (s : Scope) (hs : s.Valid) (a : Adjacency) :
    Key.lastToken (RecordKey.index s a).text = Key.indexToken := by
  rw [Key.lastToken, RecordKey.Valid.tokens_text (r := .index s a) hs]
  simp [RecordKey.tokens]

/-- Where no neighbour of a vertex is marked, there is nothing to clear. -/
theorem acts_clearNeighbors {id : String} (hid : Key.isToken id = true) {m : Records}
    (hmarker : ∀ s, s.vertex = id → ∀ t, m (.marker s .vertices t) = none) (d : Direction) :
    Acts (clearNeighbors id d : Run σ Unit) m () m := by
  intro e he
  have hfirst := collectQuietly_run (KeyPattern.parse_markers (scope_valid hid d) .vertices) rfl
    (by simp [KeyPattern.isExact, KeyPattern.markers]) e
  have hsecond := collectQuietly_run (KeyPattern.parse_labeledMarkers hid d .vertices) rfl
    (by simp [KeyPattern.isExact, KeyPattern.labeledMarkers]) e
  refine ⟨e, ?_, he, .refl e⟩
  rw [clearNeighbors, Run.bind_run, hfirst]
  dsimp only
  rw [forM_eq_pure]
  · show (collectQuietly (Key.labeledMarkerPattern id d .vertices) >>= fun keys => keys.forM _).run e
      = _
    rw [Run.bind_run, hsecond]
    dsimp only
    rw [forM_eq_pure]
    · rfl
    · intro key hkey
      rw [List.mem_filter] at hkey
      obtain ⟨r, hr, rfl⟩ := he.only key (Engine.mem_keys_iff.1 hkey.1)
      have hthere := (he.mem_keys_iff hr).1 hkey.1
      obtain ⟨l, rfl | ⟨t, rfl⟩⟩ := (KeyPattern.labeledMarkers_accepts hr id d .vertices).1 hkey.2
      · rw [Key.token?, Key.token?, hr.tokens_text]
        rfl
      · exact absurd (hmarker _ rfl t) hthere
  · intro key hkey
    rw [List.mem_filter] at hkey
    obtain ⟨r, hr, rfl⟩ := he.only key (Engine.mem_keys_iff.1 hkey.1)
    have hthere := (he.mem_keys_iff hr).1 hkey.1
    rcases (KeyPattern.markers_accepts hr _ .vertices).1 hkey.2 with rfl | ⟨t, rfl⟩
    · rw [lastToken_index _ hr]
      rfl
    · exact absurd (hmarker _ rfl t) hthere

/-- With the edges at a vertex gone, no neighbour is marked there. -/
theorem marker_of_removed (hg : g.Sound) {id : String}
    (hfits : (g.removeEdges (g.incident id)).Fits neighbors) (hidden : PlainKey → Prop)
    [DecidablePred hidden] (s : Scope) (hs : s.vertex = id) (t : String) :
    (((g.removeEdges (g.incident id)).layout neighbors).hide hidden).record (.marker s .vertices t) =
      none := by
  have hnone : (((g.removeEdges (g.incident id)).layout neighbors).hide hidden).listed s .vertices =
      [] :=
    (Multigraph.listed_vertices (hg.removeEdges (g.incident id)) hfits s).trans
      (hfits.eq_nil (Multigraph.edgesAt_removed s hs))
  simp [Layout.record, hnone]

/-- Dropping a vertex takes it and every edge at it out of the graph, and with it whatever was
recorded under its id. -/
theorem acts_dropVertex (hg : g.Sound) (hfits : g.Fits neighbors) {id : String}
    (hid : Key.isToken id = true) :
    Acts (dropVertex id : Run σ Unit) (g.layout neighbors).record ()
      ((g.dropVertex id).layout (g.thinned neighbors (g.incident id))).record := by
  obtain ⟨ids, -, hids, hincident⟩ := does_incidentEdges (σ := σ) hg neighbors hid
  have htokens : ∀ i ∈ ids, Key.isToken i = true := by
    intro i hi
    obtain ⟨e, he, rfl⟩ := List.mem_map.1 ((hids i).1 hi)
    exact (hg.edges e (List.mem_of_mem_filter he)).id.1
  have hedges := acts_dropEdges (σ := σ) (· = .listing .vertex id) htokens hg neighbors
    (by rintro key rfl; rfl)
  rw [removeEdges_congr g hids, Multigraph.thinned_congr hids] at hedges
  have hmarker := marker_of_removed hg (hfits.thinned (g.incident id)) (· = .listing .vertex id)
  rw [Multigraph.dropVertex, Multigraph.layout_removeVertex, Layout.withoutElement_eq]
  refine .bind (.quietly hincident) ?_
  refine .bind (acts_deletePlain (k := .listing .vertex id) hid _) ?_
  refine .bind hedges ?_
  refine .bind (acts_clearNeighbors hid hmarker .outgoing) ?_
  refine .bind (acts_clearNeighbors hid hmarker .incoming) ?_
  refine .bind (acts_withoutChildren hid .vertex _) ?_
  exact acts_deletePlain (k := .element .vertex id) hid _

end Vertex

/-! ## Dropping everything -/

/-- The patterns of a whole graph, as they are read. -/
def graphPatterns : List KeyPattern := [.below "nodes", .below "edges", .below "node", .below "edge"]

theorem parseAll_allPatterns : KeyPattern.parseAll allPatterns = .ok graphPatterns := by
  have hparse := KeyPattern.parse_below
  show List.mapM KeyPattern.parse [Key.join ["nodes", ">"], Key.join ["edges", ">"],
    Key.join ["node", ">"], Key.join ["edge", ">"]] = _
  simp only [List.mapM_cons, List.mapM_nil, hparse "nodes" (by decide),
    hparse "edges" (by decide), hparse "node" (by decide), hparse "edge" (by decide)]
  rfl

theorem graphPatterns_ranged : ∀ p ∈ graphPatterns, p.isEverything = false ∧ p.isExact = false := by
  decide

/-- Every record lies below one of the patterns of a whole graph. -/
theorem exists_below {r : RecordKey} (hr : r.Valid) :
    ∃ p ∈ graphPatterns, p.accepts r.text = true := by
  have hbelow : ∀ root t rest, r.tokens = root :: t :: rest →
      (KeyPattern.below root).accepts r.text = true := by
    intro root t rest h
    rw [hr.accepts_text]
    exact (KeyPattern.matchTokens_tail (l := [root]) hr.token_ne_empty).2 ⟨t, rest, h⟩
  simp only [graphPatterns, List.mem_cons, List.not_mem_nil, or_false, exists_eq_or_imp,
    exists_eq_left]
  cases r with
  | plain key =>
    cases key with
    | element kind id =>
      cases kind with
      | vertex => exact .inr (.inr (.inl (hbelow "node" _ _ rfl)))
      | edge => exact .inr (.inr (.inr (hbelow "edge" _ _ rfl)))
    | listing kind id =>
      cases kind with
      | vertex => exact .inl (hbelow "nodes" _ _ rfl)
      | edge => exact .inr (.inl (hbelow "edges" _ _ rfl))
    | label kind id =>
      cases kind with
      | vertex => exact .inr (.inr (.inl (hbelow "node" _ _ rfl)))
      | edge => exact .inr (.inr (.inr (hbelow "edge" _ _ rfl)))
    | labelEntry id label => exact .inr (.inr (.inl (hbelow "node" _ _ rfl)))
    | property kind id key =>
      cases kind with
      | vertex => exact .inr (.inr (.inl (hbelow "node" _ _ rfl)))
      | edge => exact .inr (.inr (.inr (hbelow "edge" _ _ rfl)))
    | source id => exact .inr (.inr (.inr (hbelow "edge" _ _ rfl)))
    | target id => exact .inr (.inr (.inr (hbelow "edge" _ _ rfl)))
  | marker s a t => exact .inr (.inr (.inl (hbelow "node" _ _ rfl)))
  | index s a => exact .inr (.inr (.inl (hbelow "node" _ _ rfl)))

/-- Dropping the graph leaves no record. -/
theorem does_dropAll (m : Records) :
    Does (dropAll : Attempt σ Unit) m () (fun _ => none) := by
  intro e he
  have hrun := Engine.keysDespite_run parseAll_allPatterns (by decide) graphPatterns_ranged "graph" e
  obtain ⟨rs, hrs, hvalid⟩ := he.exists_records (l := (KeyScan.start _).brings
    ((KeyScan.start _).pending e.keys)) fun key hkey =>
      ((KeyScan.mem_brings_start (by decide) fun p hp => (graphPatterns_ranged p hp).1).1 hkey).1
  have hdelete := (acts_deleteAll (σ := σ) (fun r hr => (hvalid r hr).1) m).congr
    (n := fun _ => none) fun r hr => by
      by_cases hthere : m r = none
      · simp [Records.without, hthere]
      · have hmem : r ∈ rs := by
          rw [← mem_of_text_mem (fun r hr => (hvalid r hr).1) hr, ← hrs,
            KeyScan.mem_brings_start (by decide) fun p hp => (graphPatterns_ranged p hp).1]
          exact ⟨(he.mem_keys_iff hr).2 hthere, exists_below hr⟩
        simp [Records.without, hmem]
  obtain ⟨e', hrun', he', hb⟩ := hdelete e he
  refine ⟨e', ?_, he', hb⟩
  rw [dropAll]
  refine (Attempt.bind_ok hrun _).trans ?_
  rw [hrs]
  exact congrArg (fun p : Unit × Engine σ => (Except.ok p.1, p.2)) hrun'

end PropertyGraph
