/-
New edges and dropped edges where lists of ids came to harm. Readers of a lost list go by the
markers, but an edge that is created starts the list anew, and hides what only the markers told
(`Engine.rebuilding_history`). An edge that is dropped takes the marker of its other end along
unless a list still holds that end, so where the list is lost it hides the end of a parallel edge
(`Engine.parallel_history`). Where the list can be read, and at every other scope, readers find
what they should.
-/
import PropertyGraph.Proofs.RecordOps
import PropertyGraph.Proofs.Postings

namespace PropertyGraph

open PropertyGraph.Graph

variable {σ : Type} [Backend σ] [LawfulBackend σ] {m : Records} {x : Edge}

/-! ## Creating an edge on any records -/

section Creating

/-- Creating a key that is not there. -/
theorem completes_createKey {r : RecordKey} (hr : r.Valid) (hnew : m r = none) (value : String) :
    Completes m (createKey r.text value : Attempt σ Unit) fun _ m' =>
      m' = m.set r (some (.text value)) :=
  (does_createKey hr hnew value).completes.mono fun _ _ h => h.2

/-- The records that are created for an edge beside its links. -/
def Edge.created (id : String) : List PlainKey :=
  [.element .edge id, .label .edge id, .source id, .target id, .listing .edge id]

/-- The records of a new edge: at its scopes it is linked, and nowhere else anything changes. -/
theorem completes_edgeRecords (hx : x.Named)
    (hnew : ∀ key ∈ Edge.created x.id, m (.plain key) = none)
    (hfree : ∀ s, (m.postings s).Free x.id) :
    Completes m (do
      createKey (Key.element .edge x.id) ""
      createKey (Key.label .edge x.id) x.label
      createKey (Key.edgeFrom x.id) x.source
      createKey (Key.edgeTo x.id) x.target
      linkEdge x.id x.label x.source x.target
      createKey (Key.enumeration .edge x.id) ""
      return x.id : Attempt σ String) fun id m' =>
      id = x.id ∧ m'.postings = changedAt x.linkAt x.scopes m.postings := by
  have hid := hx.id.1
  refine (completes_createKey (r := .plain (.element .edge x.id)) hid (hnew _ (by simp [Edge.created])) _).bind ?_
  intro _ m1 h1
  refine (completes_createKey (r := .plain (.label .edge x.id)) hid ?_ _).bind ?_
  · simpa [h1, Records.set] using hnew (.label .edge x.id) (by simp [Edge.created])
  intro _ m2 h2
  refine (completes_createKey (r := .plain (.source x.id)) hid ?_ _).bind ?_
  · simpa [h1, h2, Records.set] using hnew (.source x.id) (by simp [Edge.created])
  intro _ m3 h3
  refine (completes_createKey (r := .plain (.target x.id)) hid ?_ _).bind ?_
  · simpa [h1, h2, h3, Records.set] using hnew (.target x.id) (by simp [Edge.created])
  intro _ m4 h4
  have hsame : m4.postings = m.postings := by
    rw [h4, h3, h2, h1]
    simp only [Records.postings_setPlain]
  refine (completes_linkEdge_postings hx fun s => hsame ▸ hfree s).bind ?_
  intro _ m5 h5
  refine (completes_createKey (r := .plain (.listing .edge x.id)) hid ?_ _).bind ?_
  · simpa [h5.1, h1, h2, h3, h4, Records.set] using hnew (.listing .edge x.id) (by simp [Edge.created])
  intro _ m6 h6
  exact .pure ⟨rfl, by rw [h6, Records.postings_setPlain, h5.2, hsame]⟩

omit [LawfulBackend σ] in
/-- An edge that is created has tokens for its label and its ends. -/
theorem isToken_of_createEdge_ok {label source target id : String} {e : Engine σ}
    (h : ((createEdge label source target).run.run e).1 = .ok id) :
    Key.isToken label = true ∧ Key.isToken source = true ∧ Key.isToken target = true := by
  rcases createEdge_error_or_tokens label source target e with ⟨err, hrun⟩ | htokens
  · rw [hrun] at h
    cases h
  · exact htokens

/-- An edge that is created has ends that are marked as vertices. -/
theorem marked_of_createEdge_ok {label source target id : String} {e : Engine σ} (he : e.Holds m)
    (h : ((createEdge label source target).run.run e).1 = .ok id) :
    m (.plain (.element .vertex source)) ≠ none ∧ m (.plain (.element .vertex target)) ≠ none := by
  obtain ⟨hlabel, hsource, htarget⟩ := isToken_of_createEdge_ok h
  have hrequireSource := he.requireVertex_run hsource
  have hrequireTarget := he.requireVertex_run htarget
  rw [createEdge_valid hlabel hsource htarget] at h
  by_cases hs : m (.plain (.element .vertex source)) = none
  case pos =>
    rw [if_neg (not_not_intro hs)] at hrequireSource
    rw [Attempt.bind_error hrequireSource] at h
    cases h
  rw [if_pos hs] at hrequireSource
  rw [Attempt.bind_ok hrequireSource] at h
  by_cases ht : m (.plain (.element .vertex target)) = none
  case pos =>
    rw [if_neg (not_not_intro ht)] at hrequireTarget
    rw [Attempt.bind_error hrequireTarget] at h
    cases h
  exact ⟨hs, ht⟩

/-- Between vertices that are marked, the records of an edge are written under the next id. -/
theorem createEdge_marked {label source target : String} {e : Engine σ} (he : e.Holds m)
    (hlabel : Key.isToken label = true) (hsource : Key.isToken source = true)
    (htarget : Key.isToken target = true) (hs : m (.plain (.element .vertex source)) ≠ none)
    (ht : m (.plain (.element .vertex target)) ≠ none) :
    (createEdge label source target).run.run e = (do
      createKey (Key.element .edge (e.ids e.issued)) ""
      createKey (Key.label .edge (e.ids e.issued)) label
      createKey (Key.edgeFrom (e.ids e.issued)) source
      createKey (Key.edgeTo (e.ids e.issued)) target
      linkEdge (e.ids e.issued) label source target
      createKey (Key.enumeration .edge (e.ids e.issued)) ""
      return e.ids e.issued : Attempt σ String).run.run { e with issued := e.issued + 1 } := by
  have hrequireSource := he.requireVertex_run hsource
  have hrequireTarget := he.requireVertex_run htarget
  rw [if_pos hs] at hrequireSource
  rw [if_pos ht] at hrequireTarget
  rw [createEdge_valid hlabel hsource htarget, Attempt.bind_ok hrequireSource,
    Attempt.bind_ok hrequireTarget]
  rfl

end Creating

/-! ## A graph of which lists came to harm -/

section Harmed

variable {g : Multigraph} {neighbors : Scope → List String} {s : Scope}

/-- The entries of the edges at a scope. -/
def Multigraph.entriesAt (g : Multigraph) (s : Scope) (a : Adjacency) : List String :=
  (g.edgesAt s).map (·.entry s.direction a)

omit [Backend σ] [LawfulBackend σ] in
/-- The lists at a scope hold the entries of the edges there. -/
theorem Multigraph.listed_perm (hg : g.Sound) (hfits : g.Fits neighbors) (s : Scope)
    (a : Adjacency) : ((g.layout neighbors).listed s a).Perm (g.entriesAt s a) := by
  cases a with
  | edges =>
    rw [listed_edges hg]
    exact .refl _
  | vertices =>
    rw [listed_vertices hg hfits]
    exact hfits s

omit [Backend σ] [LawfulBackend σ] in
theorem Multigraph.isName_of_mem_entriesAt (hg : g.Sound) {a : Adjacency} {t : String}
    (ht : t ∈ g.entriesAt s a) : IsName t := by
  obtain ⟨x, hx, rfl⟩ := List.mem_map.1 ht
  have hnamed := hg.edges x (List.mem_of_mem_filter hx)
  cases a with
  | edges => exact hnamed.id
  | vertices => exact hnamed.far _

omit [Backend σ] [LawfulBackend σ] in
/-- Readers find the entries of the edges at a scope, whatever lists came to harm. -/
theorem Records.Damaged.shows_entries (hg : g.Sound) (hfits : g.Fits neighbors)
    (h : (g.layout neighbors).record.Damaged m) (s : Scope) (a : Adjacency) (t : String) :
    (m.postings s).Shows a t ↔ t ∈ g.entriesAt s a := by
  have hperm := Multigraph.listed_perm hg hfits s a
  rw [h.shows_iff fun t ht => Multigraph.isName_of_mem_entriesAt hg (hperm.mem_iff.1 ht)]
  exact hperm.mem_iff

omit [Backend σ] [LawfulBackend σ] in
/-- Nothing at any scope names an edge that is not in the graph. -/
theorem Records.Damaged.free (hg : g.Sound) (hfits : g.Fits neighbors)
    (h : (g.layout neighbors).record.Damaged m) {id : String} (hid : id ∉ g.ids .edge) (s : Scope) :
    (m.postings s).Free id := by
  have hnot : id ∉ (g.layout neighbors).listed s .edges := by
    intro hmem
    obtain ⟨x, hx, rfl⟩ := List.mem_map.1 ((Multigraph.listed_perm hg hfits s .edges).mem_iff.1 hmem)
    exact hid (List.mem_map_of_mem (List.mem_of_mem_filter hx))
  constructor
  · rw [h.marker_eq, if_neg hnot]
  · cases hlist : (m.postings s).list .edges with
    | none => simp
    | some ids =>
      rw [h.list_eq hlist]
      exact hnot

omit [Backend σ] [LawfulBackend σ] in
/-- Nothing is created yet of an edge that is not in the graph. -/
theorem Records.Damaged.created_none (h : (g.layout neighbors).record.Damaged m) {id : String}
    (hid : id ∉ g.ids .edge) : ∀ key ∈ Edge.created id, m (.plain key) = none := by
  have hnone : g.edge? id = none := Multigraph.edge?_eq_none.2 hid
  intro key hkey
  rw [h.other _ (by simp)]
  simp only [Edge.created, List.mem_cons, List.not_mem_nil, or_false] at hkey
  rcases hkey with rfl | rfl | rfl | rfl | rfl <;>
    simp [Layout.record, Multigraph.layout, hid, hnone]

omit [Backend σ] [LawfulBackend σ] in
/-- Exactly the vertices of the graph are marked. -/
theorem Records.Damaged.marked_iff (h : (g.layout neighbors).record.Damaged m) {id : String} :
    m (.plain (.element .vertex id)) ≠ none ↔ id ∈ g.ids .vertex := by
  rw [h.other _ (by simp)]
  simp [Layout.record, Multigraph.layout]

omit [Backend σ] [LawfulBackend σ] in
/-- The label and the ends of an edge are recorded. -/
theorem Records.Damaged.recorded (hg : g.Sound) (h : (g.layout neighbors).record.Damaged m)
    (hx : x ∈ g.edges) : m (.plain (.label .edge x.id)) = some (.text x.label) ∧
      m (.plain (.source x.id)) = some (.text x.source) ∧
      m (.plain (.target x.id)) = some (.text x.target) := by
  have hedge : g.edge? x.id = some x := (Multigraph.edge?_eq_some hg).2 hx
  simp only [h.other (.plain _) (by simp), Layout.record, Multigraph.layout, hedge, Option.map_some,
    and_self]

omit [Backend σ] [LawfulBackend σ] in
/-- Once an edge is unlinked, the other end of another edge at a scope is hidden only if it is the
end of both and no list tells how many edges lead there. -/
theorem Records.Damaged.shows_unlinked (hg : g.Sound) (hfits : g.Fits neighbors)
    (h : (g.layout neighbors).record.Damaged m) {f : Edge} (hx : x ∈ g.edges) (hf : f ∈ g.edges)
    (hne : f ≠ x) (hat : f.isAt s = true) :
    (changedAt x.unlinkAt x.scopes m.postings s).Shows .vertices (f.far s.direction) ↔
      ¬(x.isAt s = true ∧ x.far s.direction = f.far s.direction ∧
        (m.postings s).list .vertices = none) := by
  have hfs : f ∈ g.edgesAt s := List.mem_filter.2 ⟨hf, hat⟩
  have hshown : (m.postings s).Shows .vertices (f.far s.direction) :=
    (h.shows_entries hg hfits s .vertices _).2 (List.mem_map.2 ⟨f, hfs, rfl⟩)
  rw [Edge.changedAt_scopes]
  by_cases hxs : x.isAt s = true
  case neg => simp [hxs, hshown]
  rw [if_pos hxs, Edge.unlinkAt]
  cases hlist : (m.postings s).list .vertices with
  | none =>
    rw [Postings.shows_unlink_of_none hlist]
    simp [hxs, hshown, Edge.entry, eq_comm]
  | some ids =>
    rw [Postings.shows_unlink_of_list hlist]
    have hids : ids.Perm (x.far s.direction ::
        ((g.removeEdges [x.id]).edgesAt s).map (·.far s.direction)) := by
      rw [h.list_eq hlist]
      exact (Multigraph.listed_perm hg hfits s .vertices).trans
        ((Multigraph.edgesAt_perm_cons hg hx hxs).map _)
    have hstays : f ∈ (g.removeEdges [x.id]).edgesAt s := by
      rw [Multigraph.edgesAt_removeEdge, List.mem_filter]
      refine ⟨hfs, ?_⟩
      simpa using fun heq => hne (List.inj_on_of_nodup_map hg.edgeIds hf hx heq)
    have herased := (hids.erase (x.far s.direction)).mem_iff (a := f.far s.direction)
    rw [List.erase_cons_head] at herased
    simpa [Edge.entry] using herased.2 (List.mem_map_of_mem hstays)

/-- What the store of an engine keeps at a scope. -/
theorem Engine.Holds.contents_index {e : Engine σ} (he : e.Holds m) (hs : s.Valid)
    (a : Adjacency) :
    (e.contents (Key.index s.vertex s.direction a s.label)).bind Blob.ids? =
      (m.postings s).list a := by
  rw [Key.index_eq, he.stored (.index s a) hs]
  rfl

end Harmed

/-! ## Damage after any history -/

section Histories

variable {label source target id : String}

/-- An engine keeps a graph, but for lists that came to harm. Its elements have ids among those
handed out. -/
structure Harmed (ids : Nat → String) (s : Multigraph × Nat) (e : Engine σ) : Prop where
  sound : s.1.Sound
  holds : ∃ neighbors m, s.1.Fits neighbors ∧ (s.1.layout neighbors).record.Damaged m ∧ e.Holds m
  issued : e.issued = s.2
  handedOut : e.ids = ids
  born : ∀ kind id, id ∈ s.1.ids kind → ∃ i < s.2, ids i = id

theorem Tracks.harm {ids : Nat → String} {s : Multigraph × Nat} {e : Engine σ}
    (h : Tracks ids s e) (damage : List Damage) :
    Harmed ids s ((damage.forM Damage.run).run e).2 := by
  obtain ⟨hg, neighbors, hfits, hholds⟩ := h.keeps
  obtain ⟨m, hacts, hdamaged⟩ := acts_damage (σ := σ) damage (s.1.layout neighbors).record
  obtain ⟨e', hrun, he', hb⟩ := hacts _ hholds
  rw [hrun]
  exact ⟨hg, ⟨neighbors, m, hfits, hdamaged, he'⟩, hb.issued.trans h.issued,
    hb.ids.trans h.handedOut, h.born⟩

section

variable {ids : Nat → String} {s : Multigraph × Nat} {e : Engine σ}

/-- Creating an edge between vertices of the graph gives the next id and links it at its scopes. -/
theorem Harmed.createEdge_run (h : Harmed ids s e) (hids : GoodIds ids (s.2 + 1))
    (hlabel : Key.isToken label = true) (hsource : source ∈ s.1.ids .vertex)
    (htarget : target ∈ s.1.ids .vertex) :
    ((createEdge label source target).run.run e).1 = .ok (ids s.2) ∧
    ∃ m m', e.Holds m ∧ ((createEdge label source target).run.run e).2.Holds m' ∧
      m'.postings = changedAt (Edge.linkAt ⟨ids s.2, label, source, target⟩)
        (Edge.scopes ⟨ids s.2, label, source, target⟩) m.postings := by
  obtain ⟨neighbors, m, hfits, hharm, hholds⟩ := h.holds
  have hid : e.ids e.issued = ids s.2 := by rw [h.handedOut, h.issued]
  have hfresh : ids s.2 ∉ s.1.ids .edge := by
    intro hmem
    obtain ⟨i, hi, heq⟩ := h.born .edge _ hmem
    have := hids.injective (by omega) (by omega) heq
    omega
  have hnamed : (⟨ids s.2, label, source, target⟩ : Edge).Named :=
    ⟨(hids.wellFormed s.2 (by omega)).isName, hlabel, h.sound.isName hsource, h.sound.isName htarget⟩
  have hrun := createEdge_marked hholds hlabel (h.sound.isName hsource).1 (h.sound.isName htarget).1
    (hharm.marked_iff.2 hsource) (hharm.marked_iff.2 htarget)
  rw [hid] at hrun
  obtain ⟨m', hgrown, made, hmade, hpost⟩ := completes_edgeRecords hnamed
    (hharm.created_none hfresh) (hharm.free h.sound hfits hfresh) _ hholds.issue
  rw [← hrun] at hgrown hmade
  exact ⟨hmade.trans (congrArg _ hpost.1), m, m', hholds, hgrown, hpost.2⟩

/-- An edge that is created runs between vertices of the graph. -/
theorem Harmed.mem_of_createEdge_ok (h : Harmed ids s e)
    (hcreated : ((createEdge label source target).run.run e).1 = .ok id) :
    Key.isToken label = true ∧ source ∈ s.1.ids .vertex ∧ target ∈ s.1.ids .vertex := by
  obtain ⟨neighbors, m, hfits, hharm, hholds⟩ := h.holds
  obtain ⟨hsource, htarget⟩ := marked_of_createEdge_ok hholds hcreated
  exact ⟨(isToken_of_createEdge_ok hcreated).1, hharm.marked_iff.1 hsource,
    hharm.marked_iff.1 htarget⟩

/-- Readers of an engine that keeps a graph, but for lists that came to harm, find the entries of
its edges. -/
theorem Harmed.adjacentIds_run (h : Harmed ids s e) {p : Scope} (hs : p.Valid) (a : Adjacency) :
    ∃ found, ((adjacentIds p.vertex p.direction a p.label).run.run e).1 = .ok found ∧
      ∀ i, i ∈ found ↔ i ∈ s.1.entriesAt p a := by
  obtain ⟨neighbors, m, hfits, hharm, hholds⟩ := h.holds
  obtain ⟨_, -, found, hfound, hshown, -⟩ := completes_adjacentIds_shows hs a m e hholds
  exact ⟨found, hfound, fun i => (hshown i).trans (hharm.shows_entries h.sound hfits p a i)⟩

end

/-- An edge that is created once lists came to harm: at its scopes, a list that can be read gains
its entry, and one that cannot is replaced by the entry alone. So readers at such a scope find the
new edge only, and what the markers told them before is hidden. Everywhere else they find what they
found before. -/
theorem Engine.rebuilding_history {e : Engine σ} (hempty : ∀ key, e.contents key = none)
    {ops : List RecordOp} (hops : ∀ op ∈ ops, op.Named)
    (hids : GoodIds e.ids ((Multigraph.history e.ids ops (.empty, e.issued)).2 + 1))
    (damage : List Damage)
    (hcreated : ((createEdge label source target).run.run
      ((damage.forM Damage.run).run ((RecordOp.runAll ops).run e).2).2).1 = .ok id)
    {s : Scope} (hs : s.Valid) (a : Adjacency) :
    let damaged := ((damage.forM Damage.run).run ((RecordOp.runAll ops).run e).2).2
    let grown := ((createEdge label source target).run.run damaged).2
    let x : Edge := ⟨id, label, source, target⟩
    ∃ before after,
      ((adjacentIds s.vertex s.direction a s.label).run.run damaged).1 = .ok before ∧
      ((adjacentIds s.vertex s.direction a s.label).run.run grown).1 = .ok after ∧
      ∀ i, i ∈ after ↔
        (i ∈ before ∧ ¬(x.isAt s = true ∧ (damaged.contents
          (Key.index s.vertex s.direction a s.label)).bind Blob.ids? = none)) ∨
        (x.isAt s = true ∧ i = x.entry s.direction a) := by
  intro damaged grown x
  have hharmed := ((Tracks.empty hempty).run hops (hids.mono (by omega))).1.harm damage
  obtain ⟨hlabel, hsource, htarget⟩ := hharmed.mem_of_createEdge_ok hcreated
  obtain ⟨hmade, m, m', hholds, hgrown, hchanged⟩ :=
    hharmed.createEdge_run hids hlabel hsource htarget
  obtain rfl := Except.ok.inj (hcreated.symm.trans hmade)
  obtain ⟨_, -, before, hbefore, hshown, -⟩ := completes_adjacentIds_shows hs a m damaged hholds
  obtain ⟨_, -, after, hafter, hshown', -⟩ := completes_adjacentIds_shows hs a m' grown hgrown
  refine ⟨before, after, hbefore, hafter, fun i => ?_⟩
  rw [hshown', hshown, hholds.contents_index hs a, hchanged, Edge.changedAt_scopes]
  by_cases hat : x.isAt s = true
  · rw [if_pos hat, Edge.linkAt, Postings.shows_link]
    simp [hat, x]
  · rw [if_neg hat]
    simp [hat]

/-- Operations on an empty memory, under the usual ids, with what they make of the empty graph. -/
theorem Tracks.memory {ops : List RecordOp} (hops : ∀ op ∈ ops, op.Named)
    (hids : GoodIds elementId (Multigraph.history elementId ops (.empty, 0)).2) :
    Tracks elementId (Multigraph.history elementId ops (.empty, 0))
      ((RecordOp.runAll ops).run (Engine.ofStore Memory.empty)).2 :=
  ((Tracks.empty (e := Engine.ofStore Memory.empty) fun _ => rfl).run hops hids).1

/-- Three vertices, and an edge from the first to the second. -/
def lostOps : List RecordOp :=
  [.createVertex "person", .createVertex "person", .createVertex "person",
    .createEdge "knows" (elementId 0) (elementId 1)]

/-- The list of the vertices that the first vertex leads to is deleted. -/
def lostList : Damage :=
  ⟨⟨elementId 0, .outgoing, none⟩, .vertices, none, Damage.firstScope_valid,
    Damage.unreadable_gone⟩

theorem rebuilding_lostList :
    let damaged := (([lostList].forM Damage.run).run
      ((RecordOp.runAll lostOps).run (Engine.ofStore Memory.empty)).2).2
    let grown := ((createEdge "knows" (elementId 0) (elementId 2)).run.run damaged).2
    ∃ before after,
      ((adjacentIds (elementId 0) .outgoing .vertices none).run.run damaged).1 = .ok before ∧
      ((adjacentIds (elementId 0) .outgoing .vertices none).run.run grown).1 = .ok after ∧
      elementId 1 ∈ before ∧ elementId 1 ∉ after ∧ elementId 2 ∈ after := by
  intro damaged grown
  have htracks : Tracks elementId (Multigraph.history elementId lostOps (.empty, 0)) _ :=
    .memory (by decide) (by decide)
  have hharmed := htracks.harm [lostList]
  obtain ⟨-, neighbors, hfits, hholds⟩ := htracks.keeps
  have hids : GoodIds elementId ((Multigraph.history elementId lostOps (.empty, 0)).2 + 1) := by
    decide
  have hcreated : ((createEdge "knows" (elementId 0) (elementId 2)).run.run damaged).1 =
      .ok (elementId 4) := (hharmed.createEdge_run hids (by decide) (by decide) (by decide)).1
  obtain ⟨before, after, hbefore, hafter, hmem⟩ := Engine.rebuilding_history
    (e := Engine.ofStore Memory.empty) (fun _ => rfl) (by decide) hids [lostList] hcreated
    (s := ⟨elementId 0, .outgoing, none⟩) lostList.valid .vertices
  obtain ⟨found, hfound, hentries⟩ := hharmed.adjacentIds_run (p := ⟨elementId 0, .outgoing, none⟩)
    lostList.valid .vertices
  obtain rfl := Except.ok.inj (hbefore.symm.trans hfound)
  have hlost : (damaged.contents lostList.record.text).bind Blob.ids? = none :=
    Damage.unreadable_of_mem (List.mem_singleton_self lostList) hholds
  refine ⟨before, after, hbefore, hafter, (hentries _).2 (by decide), ?_, ?_⟩
  · rw [hmem]
    intro h
    rcases h with ⟨-, hkept⟩ | ⟨-, heq⟩
    · exact hkept ⟨by decide, hlost⟩
    · exact absurd heq (by decide)
  · rw [hmem]
    exact .inr ⟨by decide, rfl⟩

/-- An edge that is dropped once lists came to harm: a reader at a scope of an edge that stays
misses its other end only if both edges are at the scope and lead to that end, and no list can be
read there. -/
theorem Engine.parallel_history {e : Engine σ} (hempty : ∀ key, e.contents key = none)
    {ops : List RecordOp} (hops : ∀ op ∈ ops, op.Named)
    (hids : GoodIds e.ids (Multigraph.history e.ids ops (.empty, e.issued)).2)
    (damage : List Damage) {x f : Edge}
    (hx : x ∈ (Multigraph.history e.ids ops (.empty, e.issued)).1.edges)
    (hf : f ∈ (Multigraph.history e.ids ops (.empty, e.issued)).1.edges) (hne : f ≠ x)
    (d : Direction) (labeled : Bool) :
    let damaged := ((damage.forM Damage.run).run ((RecordOp.runAll ops).run e).2).2
    let s := f.scope d labeled
    ∃ ids, ((adjacentIds s.vertex s.direction .vertices s.label).run.run
        ((dropEdge x.id).run damaged).2).1 = .ok ids ∧
      (f.far d ∈ ids ↔ ¬(x.isAt s = true ∧ x.far d = f.far d ∧ (damaged.contents
        (Key.index s.vertex s.direction .vertices s.label)).bind Blob.ids? = none)) := by
  intro damaged s
  obtain ⟨hg, ⟨neighbors, m, hfits, hharm, hholds⟩, -, -, -⟩ :=
    ((Tracks.empty hempty).run hops hids).1.harm damage
  obtain ⟨hlabel, hsource, htarget⟩ := hharm.recorded hg hx
  have hs : s.Valid := (hg.edges f hf).scope_valid d labeled
  obtain ⟨m', hdropped, hchanged⟩ :=
    leads_dropEdge_postings (hg.edges x hx) hlabel hsource htarget damaged hholds
  obtain ⟨_, -, ids, hread, hshown, -⟩ := completes_adjacentIds_shows hs .vertices m' _ hdropped
  refine ⟨ids, hread, ?_⟩
  rw [hshown, hchanged, hholds.contents_index hs .vertices]
  exact hharm.shows_unlinked hg hfits hx hf hne (f.isAt_scope d labeled)

/-- Two vertices, and two edges of one label from the first to the second. -/
def twinOps : List RecordOp :=
  [.createVertex "person", .createVertex "person",
    .createEdge "knows" (elementId 0) (elementId 1), .createEdge "knows" (elementId 0) (elementId 1)]

/-- Of two edges between the same vertices, the one that is dropped takes the other's end along if the
list was deleted before. -/
theorem parallel_lostList :
    let damaged := (([lostList].forM Damage.run).run
      ((RecordOp.runAll twinOps).run (Engine.ofStore Memory.empty)).2).2
    ∃ ids, ((adjacentIds (elementId 0) .outgoing .vertices none).run.run
        ((dropEdge (elementId 2)).run damaged).2).1 = .ok ids ∧ elementId 1 ∉ ids := by
  intro damaged
  have hnamed : ∀ op ∈ twinOps, op.Named := by decide
  have hids : GoodIds elementId (Multigraph.history elementId twinOps (.empty, 0)).2 := by decide
  have htracks := Tracks.memory hnamed hids
  obtain ⟨-, neighbors, hfits, hholds⟩ := htracks.keeps
  have hlost : (damaged.contents lostList.record.text).bind Blob.ids? = none :=
    Damage.unreadable_of_mem (List.mem_singleton_self lostList) hholds
  obtain ⟨ids, hread, hmem⟩ := Engine.parallel_history (e := Engine.ofStore Memory.empty)
    (fun _ => rfl) hnamed hids [lostList]
    (x := ⟨elementId 2, "knows", elementId 0, elementId 1⟩)
    (f := ⟨elementId 3, "knows", elementId 0, elementId 1⟩) (by decide) (by decide) (by decide)
    .outgoing false
  exact ⟨ids, hread, fun hin => hmem.1 hin ⟨by decide, rfl, hlost⟩⟩

end Histories

end PropertyGraph