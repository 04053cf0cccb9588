/-
A drop of a vertex takes everything along, whatever lists of ids are damaged. After any history,
with any lists deleted or overwritten by what is no list of ids, dropping a vertex leaves no key
of it and of the edges at it, no marker and no readable list that names one of them, and every
other record as it was (`Engine.cascade_history`).
-/
import PropertyGraph.Proofs.RecordOps
import PropertyGraph.Proofs.WornGraph

namespace PropertyGraph

open PropertyGraph.Graph

/-! ## What a drop leaves -/

/-- A key about an element: the entry that lists it, its marker, or one below its marker. -/
def Key.IsOf (kind : ElementKind) (id key : String) : Prop :=
  tokens key = [kind.listing, id] ∨ [kind.root, id] <+: tokens key

/-- The elements a record names in its key. -/
def RecordKey.elements : RecordKey → List (ElementKind × String)
  | .plain key => [key.about]
  | .marker s .edges target => [(.vertex, s.vertex), (.edge, target)]
  | .marker s .vertices target => [(.vertex, s.vertex), (.vertex, target)]
  | .index s _ => [(.vertex, s.vertex)]

/-- What a store keeps after a vertex of a graph was dropped, beside what it kept before: nothing
of the vertex and of the edges at it, and all else, lists of ids apart. -/
structure Multigraph.Cascade (g : Multigraph) (v : String) (before after : String → Option Blob) :
    Prop where
  vertex : ∀ key, Key.IsOf .vertex v key → after key = none
  edges : ∀ id ∈ g.incident v, ∀ key, Key.IsOf .edge id key → after key = none
  /-- No marker names what is gone, neither one of an edge nor one of a neighbour. -/
  markers : ∀ s : Scope, s.Valid → ∀ a target, target = v ∨ target ∈ g.incident v →
    after (Key.marker s.vertex s.direction a s.label target) = none
  /-- No list that can be read names it. -/
  lists : ∀ s : Scope, s.Valid → ∀ a value ids,
    after (Key.index s.vertex s.direction a s.label) = some value → value.ids? = some ids →
      ∀ id ∈ ids, id ≠ v ∧ id ∉ g.incident v
  /-- A record that names nothing of it is as it was. -/
  kept : ∀ r : RecordKey, r.Valid → (∀ s a, r ≠ .index s a) →
    (∀ x ∈ r.elements, x ≠ (.vertex, v) ∧ ∀ id ∈ g.incident v, x ≠ (.edge, id)) →
      after r.text = before r.text
  /-- There is no other key, and there was none. -/
  records : ∀ key, before key ≠ none ∨ after key ≠ none → ∃ r : RecordKey, r.Valid ∧ key = r.text

theorem RecordKey.Valid.of_isOf {r : RecordKey} (h : r.Valid) {kind : ElementKind} {id : String}
    (hof : Key.IsOf kind id r.text) :
    r.owner? = some (kind, id) ∨ r = .plain (.listing kind id) ∨ r = .plain (.element kind id) := by
  rw [Key.IsOf, h.tokens_text] at hof
  rcases hof with hlisting | ⟨rest, hrest⟩
  · have hid : Key.isToken id = true := h.isToken_of_mem (by simp [hlisting])
    exact .inr (.inl (RecordKey.text_injective h hid (congrArg Key.join hlisting)))
  · have hid : Key.isToken id = true := h.isToken_of_mem (by simp [← hrest])
    cases rest with
    | nil => exact .inr (.inr (RecordKey.text_injective h hid (congrArg Key.join hrest.symm)))
    | cons t rest =>
      have hbelow : (KeyPattern.children kind id).accepts r.text = true := by
        rw [h.accepts_text]
        exact (KeyPattern.matchTokens_tail (l := [kind.root, id]) h.token_ne_empty).2
          ⟨t, rest, hrest.symm⟩
      exact .inl ((KeyPattern.children_accepts h kind id).1 hbelow)

/-! ## Ids of vertices and of edges -/

namespace Multigraph

/-- No id is that of a vertex and that of an edge. -/
def Apart (g : Multigraph) : Prop := ∀ id ∈ g.ids .vertex, id ∉ g.ids .edge

variable {g : Multigraph}

theorem Apart.empty : Multigraph.empty.Apart := by simp [Apart, Multigraph.empty, Multigraph.ids]

/-- Elements that go leave the others apart. -/
theorem Apart.of_subset {g' : Multigraph} (h : g.Apart) (hsub : ∀ kind, g'.ids kind ⊆ g.ids kind) :
    g'.Apart :=
  fun id hvertex hedge => h id (hsub .vertex hvertex) (hsub .edge hedge)

end Multigraph

section Histories

variable {σ : Type} [Backend σ] [LawfulBackend σ] {ids : Nat → String} {s : Multigraph × Nat}
  {e : Engine σ}

/-- A new id is that of no element, so every operation keeps the ids apart. -/
theorem Tracks.apart_step (h : Tracks ids s e) (op : RecordOp)
    (hids : GoodIds ids (Multigraph.step ids s op).2) (hapart : s.1.Apart) :
    (Multigraph.step ids s op).1.Apart := by
  cases op with
  | createVertex label =>
    simp only [Multigraph.step] at hids ⊢
    split at hids
    case isFalse hlabel => rwa [if_neg hlabel]
    case isTrue hlabel =>
      rw [if_pos hlabel]
      intro id hvertex hedge
      have hold : id ∈ s.1.ids .edge := by simpa [Multigraph.mem_ids_addVertex] using hedge
      rcases Multigraph.mem_ids_addVertex.1 hvertex with hvertex | ⟨-, rfl⟩
      · exact hapart id hvertex hold
      · exact fresh_not_mem h hids .edge hold
  | createEdge label source target =>
    simp only [Multigraph.step] at hids ⊢
    split at hids
    case isFalse hnew => rwa [if_neg hnew]
    case isTrue hnew =>
      rw [if_pos hnew]
      intro id hvertex hedge
      have hold : id ∈ s.1.ids .vertex := by simpa [Multigraph.mem_ids_addEdge] using hvertex
      rcases Multigraph.mem_ids_addEdge.1 hedge with hedge | ⟨-, rfl⟩
      · exact hapart id hold hedge
      · exact fresh_not_mem h hids .vertex hold
  | setProperty kind id key value =>
    simp only [Multigraph.step]
    split
    · exact hapart
    · exact hapart
  | dropEdge id => exact hapart.of_subset fun kind i hi => (Multigraph.mem_ids_removeEdges.1 hi).1
  | dropVertex id =>
    exact hapart.of_subset fun kind i hi =>
      (Multigraph.mem_ids_removeEdges.1 (Multigraph.mem_ids_removeVertex.1 hi).1).1
  | dropAll => exact .empty

theorem Tracks.apart_run (h : Tracks ids s e) {ops : List RecordOp} (hops : ∀ op ∈ ops, op.Named)
    (hids : GoodIds ids (Multigraph.history ids ops s).2) (hapart : s.1.Apart) :
    (Multigraph.history ids ops s).1.Apart := by
  induction ops generalizing s e with
  | nil => exact hapart
  | cons op ops ih =>
    have hstep : GoodIds ids (Multigraph.step ids s op).2 :=
      hids.mono (Multigraph.le_history ids ops _)
    exact ih (h.step (hops op (by simp)) hstep).1 (fun o ho => hops o (List.mem_cons_of_mem _ ho))
      hids (h.apart_step op hstep hapart)

end Histories

/-! ## What is gone and what is kept -/

section Left

variable {v : String} {g : Multigraph} {m m' : Records} {y : Edge}

/-- An edge that stays is none of those at the vertex, nor is the vertex. -/
theorem Multigraph.id_not_gone (hapart : g.Apart) (hv : v ∈ g.ids .vertex)
    (hy : y ∈ (g.removeEdges (g.incident v)).edges) : y.id ≠ v ∧ y.id ∉ g.incident v := by
  obtain ⟨hedge, hnot⟩ := List.mem_filter.1 hy
  have hmem : y.id ∈ g.ids .edge := List.mem_map_of_mem hedge
  exact ⟨fun h => hapart v hv (h ▸ hmem), by simpa using hnot⟩

/-- And neither are its ends. -/
theorem Multigraph.far_not_gone (hg : g.Sound) (hapart : g.Apart)
    (hy : y ∈ (g.removeEdges (g.incident v)).edges) (d : Direction) :
    y.far d ≠ v ∧ y.far d ∉ g.incident v := by
  have hfar : y.far d = y.near d.reverse := by cases d <;> rfl
  rw [hfar]
  refine ⟨near_ne_of_removed hy _, fun hmem => ?_⟩
  obtain ⟨x, hx, hid⟩ := List.mem_map.1 hmem
  have hvertex := hg.ends y (List.mem_of_mem_filter hy) d.reverse
  rw [← hid] at hvertex
  exact hapart _ hvertex (List.mem_map_of_mem (List.mem_of_mem_filter hx))

/-- The edges that stay at a scope are those that were there and do not go. -/
theorem Multigraph.mem_edgesAt_removed {s : Scope} :
    y ∈ (g.removeEdges (g.incident v)).edgesAt s ↔ y ∈ g.edgesAt s ∧ y.id ∉ g.incident v := by
  simp [edgesAt_removeEdges]

/-- Whatever is named at a scope of an edge that stays is not gone. -/
theorem Multigraph.named_not_gone (hg : g.Sound) (hapart : g.Apart) (hv : v ∈ g.ids .vertex)
    {s : Scope} {id : String}
    (hid : id ∈ ((g.removeEdges (g.incident v)).edgesAt s).map (·.id) ∨
      id ∈ ((g.removeEdges (g.incident v)).edgesAt s).map (·.far s.direction)) :
    id ≠ v ∧ id ∉ g.incident v := by
  rcases hid with hid | hid
  · obtain ⟨x, hx, rfl⟩ := List.mem_map.1 hid
    exact id_not_gone hapart hv (List.mem_of_mem_filter hx)
  · obtain ⟨x, hx, rfl⟩ := List.mem_map.1 hid
    exact far_not_gone hg hapart (List.mem_of_mem_filter hx) _

namespace Fallen

theorem marker_not_gone (h : Fallen g v m) (hg : g.Sound) (hapart : g.Apart)
    (hv : v ∈ g.ids .vertex) {s : Scope} {a : Adjacency} {target : String}
    (hthere : m (.marker s a target) ≠ none) : target ≠ v ∧ target ∉ g.incident v := by
  have hs : s.vertex ≠ v := fun hs => hthere (h.own _ (.inl (by simp [RecordKey.owner?, hs])))
  refine Multigraph.named_not_gone hg hapart hv (s := s) ?_
  cases a with
  | edges =>
    rw [(h.scope s hs).edgeMarker] at hthere
    exact .inl (by_contra fun hnot => hthere (if_neg hnot))
  | vertices => exact .inr ((h.scope s hs).joined target hthere)

theorem list_not_gone (h : Fallen g v m) (hg : g.Sound) (hapart : g.Apart)
    (hv : v ∈ g.ids .vertex) {s : Scope} {a : Adjacency} {ids : List String}
    (hlist : m.ids? (.index s a) = some ids) : ∀ id ∈ ids, id ≠ v ∧ id ∉ g.incident v := by
  intro id hid
  have hs : s.vertex ≠ v := by
    intro hs
    rw [Records.ids?, h.own _ (.inl (by simp [RecordKey.owner?, hs]))] at hlist
    cases hlist
  refine Multigraph.named_not_gone hg hapart hv (s := s) ?_
  cases a with
  | edges => exact .inl ((h.scope s hs).edgeList ids hlist ▸ hid)
  | vertices => exact .inr (((h.scope s hs).vertexList ids hlist).mem_iff.1 hid)

/-- No record of an edge at the vertex is left. -/
theorem edge_gone (h : Fallen g v m) {id : String} (hid : id ∈ g.incident v) {r : RecordKey}
    (hr : r.owner? = some (.edge, id) ∨ r = .plain (.listing .edge id) ∨
      r = .plain (.element .edge id)) : m r = none := by
  cases r with
  | plain key =>
    have habout : key.about = (.edge, id) := PlainKey.about_eq_iff.2 (by simpa [or_left_comm] using hr)
    rw [h.plain key (by simp [habout]), g.plain_removeEdges _ _ fun _ => [],
      if_pos (by simpa [habout] using hid)]
  | marker s a t => simp [RecordKey.owner?] at hr
  | index s a => simp [RecordKey.owner?] at hr

/-- The markers of other vertices that name nothing gone are as they were. -/
theorem marker_kept (h : Fallen g v m') (hg : g.Sound)
    (hworn : Worn v (g.layout fun _ => []).plain g.edgesAt m) {s : Scope} (hs : s.vertex ≠ v) :
    (∀ t ∉ g.incident v, m' (.marker s .edges t) = m (.marker s .edges t)) ∧
      ∀ t ≠ v, m' (.marker s .vertices t) = m (.marker s .vertices t) := by
  constructor
  · intro t ht
    rw [(h.scope s hs).edgeMarker, (hworn.scope s).edgeMarker]
    refine if_congr ⟨fun hmem => ?_, fun hmem => ?_⟩ rfl rfl
    · obtain ⟨x, hx, rfl⟩ := List.mem_map.1 hmem
      exact List.mem_map_of_mem (Multigraph.mem_edgesAt_removed.1 hx).1
    · obtain ⟨x, hx, rfl⟩ := List.mem_map.1 hmem
      exact List.mem_map_of_mem (Multigraph.mem_edgesAt_removed.2 ⟨hx, ht⟩)
  · intro t ht
    rw [(h.scope s hs).vertexMarker hs t ht, (hworn.scope s).vertexMarker hs t ht]
    refine if_congr ⟨fun hmem => ?_, fun hmem => ?_⟩ rfl rfl
    · obtain ⟨x, hx, rfl⟩ := List.mem_map.1 hmem
      exact List.mem_map.2 ⟨x, (Multigraph.mem_edgesAt_removed.1 hx).1, rfl⟩
    · obtain ⟨x, hx, rfl⟩ := List.mem_map.1 hmem
      obtain ⟨hedge, hat⟩ := List.mem_filter.1 hx
      simp only [Edge.isAt, Bool.and_eq_true, beq_iff_eq] at hat
      refine List.mem_map.2 ⟨x, Multigraph.mem_edgesAt_removed.2 ⟨hx, fun hin => ?_⟩, rfl⟩
      have hends := Multigraph.end_of_touches (Multigraph.touches_of_mem_incident hg hedge hin)
        s.direction
      exact hends.elim (fun hnear => hs (hat.1.symm.trans hnear)) ht

/-- A record that names nothing gone is as it was. -/
theorem kept (h : Fallen g v m') (hg : g.Sound)
    (hworn : Worn v (g.layout fun _ => []).plain g.edgesAt m) {r : RecordKey}
    (hindex : ∀ s a, r ≠ .index s a)
    (hnames : ∀ x ∈ r.elements, x ≠ (.vertex, v) ∧ ∀ id ∈ g.incident v, x ≠ (.edge, id)) :
    m' r = m r := by
  cases r with
  | plain key =>
    obtain ⟨hvertex, hedge⟩ := hnames key.about (by simp [RecordKey.elements])
    rw [h.plain key hvertex, hworn.plain, g.plain_removeEdges _ _ fun _ => [], if_neg]
    exact fun hand => hedge _ hand.2 (Prod.ext hand.1 rfl)
  | marker s a t =>
    have hs : s.vertex ≠ v := by
      rintro rfl
      cases a <;> exact (hnames _ (by simp [RecordKey.elements])).1 rfl
    obtain ⟨hedges, hvertices⟩ := h.marker_kept hg hworn hs
    cases a with
    | edges => exact hedges t fun hmem => (hnames (.edge, t) (by simp [RecordKey.elements])).2 t hmem rfl
    | vertices =>
      exact hvertices t fun he => (hnames (.vertex, t) (by simp [RecordKey.elements])).1 (by rw [he])
  | index s a => exact absurd rfl (hindex s a)

end Fallen

end Left

/-! ## Dropping a vertex after any history and any damage -/

section Cascades

variable {σ : Type} [Backend σ] [LawfulBackend σ] {v : String} {g : Multigraph}

/-- A store of a graph of which some lists came to harm. -/
theorem Records.Damaged.worn (hg : g.Sound) {neighbors : Scope → List String}
    (hfits : g.Fits neighbors) {m : Records} (h : (g.layout neighbors).record.Damaged m)
    (v : String) : Worn v (g.layout fun _ => []).plain g.edgesAt m where
  plain key := h.other (.plain key) (by simp)
  scope s := by
    have hmarker : ∀ a t, m (.marker s a t) = if t ∈ (g.layout neighbors).listed s a then
        some (.text "") else none := fun a t => h.marker_eq t
    have hlist : ∀ a ids, m.ids? (.index s a) = some ids → ids = (g.layout neighbors).listed s a :=
      fun a ids hids => h.list_eq (s := s) (a := a) hids
    have hedges : (g.layout neighbors).listed s .edges = _ := Multigraph.listed_edges hg s
    have hvertices := Multigraph.listed_vertices hg hfits s
    constructor
    case distinct => exact hg.edgeIds.sublist (List.filter_sublist.map _)
    case edgeMarker => intro t; rw [hmarker, hedges]
    case vertexMarker =>
      intro _ t _
      rw [hmarker, hvertices]
      exact if_congr (hfits s).mem_iff rfl rfl
    case joined =>
      intro t hthere
      rw [hmarker, hvertices] at hthere
      exact (hfits s).mem_iff.1 (by_contra fun hnot => hthere (if_neg hnot))
    case edgeList =>
      intro ids hids
      rw [hlist _ ids hids, hedges]
    case vertexList =>
      intro ids hids
      rw [hlist _ ids hids, hvertices]
      exact hfits s

theorem Fallen.cascade {m m' : Records} (h : Fallen g v m') (hg : g.Sound) (hapart : g.Apart)
    (hv : v ∈ g.ids .vertex) (hworn : Worn v (g.layout fun _ => []).plain g.edgesAt m)
    {e e' : Engine σ} (he : e.Holds m) (he' : e'.Holds m') :
    g.Cascade v e.contents e'.contents := by
  have hof : ∀ kind id key, Key.IsOf kind id key →
      (∀ r : RecordKey, r.owner? = some (kind, id) ∨ r = .plain (.listing kind id) ∨
        r = .plain (.element kind id) → m' r = none) → e'.contents key = none := by
    intro kind id key hkey hnone
    by_contra hthere
    obtain ⟨r, hr, rfl⟩ := he'.only key hthere
    exact hthere ((he'.stored r hr).trans (hnone r (hr.of_isOf hkey)))
  constructor
  case vertex => exact fun key hkey => hof _ _ key hkey h.own
  case edges => exact fun id hid key hkey => hof _ _ key hkey fun r => h.edge_gone hid
  case markers =>
    intro s hs a target htarget
    have hname : IsName target := by
      rcases htarget with rfl | hmem
      · obtain ⟨w, hw, rfl⟩ := List.mem_map.1 hv
        exact (hg.vertices w hw).1
      · obtain ⟨x, hx, rfl⟩ := List.mem_map.1 hmem
        exact (hg.edges x (List.mem_of_mem_filter hx)).id
    have hr : (RecordKey.marker s a target).Valid := ⟨hs, hname⟩
    rw [Key.marker_eq, he'.stored _ hr]
    by_contra hthere
    obtain ⟨hvertex, hedge⟩ := h.marker_not_gone hg hapart hv hthere
    exact htarget.elim hvertex hedge
  case lists =>
    intro s hs a value ids hvalue hread
    rw [Key.index_eq, he'.stored (.index s a) hs] at hvalue
    have hlist : m'.ids? (.index s a) = some ids := by
      rw [Records.ids?, hvalue]
      exact hread
    exact h.list_not_gone hg hapart hv hlist
  case kept =>
    intro r hr hindex hnames
    rw [he'.stored r hr, he.stored r hr]
    exact h.kept hg hworn hindex hnames
  case records => exact fun key hkey => hkey.elim (he.only key) (he'.only key)

/-- Whatever operations run from an empty store, where ids are handed out as they should be, and
whatever lists of ids then come to harm: dropping a vertex takes the edges at it along, and
nothing else. -/
theorem Engine.cascade_history {e : Engine σ} (hempty : ∀ key, e.contents key = none)
    {ops : List RecordOp} (hops : ∀ op ∈ ops, op.Named)
    (hids : GoodIds e.ids (Multigraph.history e.ids ops (.empty, e.issued)).2)
    (damage : List Damage) {v : String}
    (hv : v ∈ (Multigraph.history e.ids ops (.empty, e.issued)).1.ids .vertex) :
    let damaged := ((damage.forM Damage.run).run ((RecordOp.runAll ops).run e).2).2
    (Multigraph.history e.ids ops (.empty, e.issued)).1.Cascade v damaged.contents
      ((dropVertex v).run damaged).2.contents := by
  intro damaged
  obtain ⟨htracks, -⟩ := (Tracks.empty hempty).run hops hids
  have hapart := (Tracks.empty hempty).apart_run hops hids .empty
  obtain ⟨hg, neighbors, hfits, hholds⟩ := htracks.keeps
  obtain ⟨m, hdamage, hdamaged⟩ := acts_damage (σ := σ) damage
    ((Multigraph.history e.ids ops (.empty, e.issued)).1.layout neighbors).record
  obtain ⟨e', hrun, he', -⟩ := hdamage _ hholds
  have hid : Key.isToken v = true := by
    obtain ⟨w, hw, rfl⟩ := List.mem_map.1 hv
    exact (hg.vertices w hw).1.1
  have hworn := hdamaged.worn hg hfits v
  have heq : damaged = e' := congrArg Prod.snd hrun
  obtain ⟨m', hdrop, hfallen⟩ := leads_dropVertex hg hid hworn e' he'
  rw [heq]
  exact hfallen.cascade hg hapart hv hworn he' hdrop

/-- Two vertices joined by parallel edges and back again, one of them with a loop, and a third. -/
def joinedOps : List RecordOp :=
  [.createVertex "person", .createVertex "person", .createVertex "city",
    .createEdge "knows" (elementId 0) (elementId 1), .createEdge "knows" (elementId 0) (elementId 1),
    .createEdge "likes" (elementId 1) (elementId 0), .createEdge "likes" (elementId 0) (elementId 0),
    .createEdge "visits" (elementId 1) (elementId 2),
    .setProperty .vertex (elementId 1) "name" .null]

/-- Of the first of these vertices the list of the edges that leave it is deleted, and of the
second two lists that lead back to the first are overwritten, one of them by a list of numbers. -/
def someDamage : List Damage :=
  [⟨⟨elementId 0, .outgoing, none⟩, .edges, none, Damage.firstScope_valid,
      Damage.unreadable_gone⟩,
    ⟨⟨elementId 1, .incoming, some "knows"⟩, .vertices, some (.text "[1]"),
      ⟨by decide, by decide⟩, by decide +kernel⟩,
    ⟨⟨elementId 1, .incoming, none⟩, .edges, some (.raw [0xff]), ⟨by decide, by decide⟩, rfl⟩]

theorem cascade_someDamage :
    let damaged := ((someDamage.forM Damage.run).run
      ((RecordOp.runAll joinedOps).run (Engine.ofStore Memory.empty)).2).2
    (Multigraph.history elementId joinedOps (.empty, 0)).1.Cascade (elementId 0) damaged.contents
      ((dropVertex (elementId 0)).run damaged).2.contents :=
  Engine.cascade_history (e := Engine.ofStore Memory.empty) (fun _ => rfl) (by decide) (by decide)
    someDamage (by decide)

end Cascades

end PropertyGraph
