/-
The two ways to find what is next to a vertex: the list of ids at a scope, and the markers there,
for when the list was deleted or cannot be read. Markers come in the order of their keys, each
once (`completes_adjacentIds_marked`), so both ways tell the same ids, and the same list of edges
(`Engine.markerScan_history`).
-/
import PropertyGraph.Proofs.AscendingIds
import PropertyGraph.Proofs.DamagedEdges
import PropertyGraph.Proofs.VertexScan

namespace PropertyGraph

open PropertyGraph.Graph

variable {σ : Type} [Backend σ] [LawfulBackend σ] {m : Records} {s : Scope} {a : Adjacency}

/-! ## Markers in order -/

section Markers

omit [Backend σ] [LawfulBackend σ]

/-- The same stands before every name in the keys of the markers at a scope. -/
theorem exists_before_marker (s : Scope) (a : Adjacency) :
    ∃ before, ∀ t, (RecordKey.marker s a t).text.toList = before ++ t.toList := by
  refine ⟨Key.joinChars ((s.tokens a).map String.toList) ++ ['.'], fun t => ?_⟩
  have htokens : (s.tokens a).map String.toList ≠ [] := by
    obtain ⟨v, d, l⟩ := s
    cases l <;> simp [Scope.tokens, Key.family]
  simp only [RecordKey.text, RecordKey.tokens, Key.join, List.map_append, String.toList_ofList]
  rw [Key.joinChars_append htokens (by simp)]
  simp [Key.joinChars]

/-- Markers are in the order of the names, where the names have one length. -/
theorem compare_marker {t t' : String} (h : t.toList.length = t'.toList.length) :
    compare (RecordKey.marker s a t).text (RecordKey.marker s a t').text = .lt ↔
      compare t t' = .lt := by
  obtain ⟨before, hbefore⟩ := exists_before_marker s a
  rw [compare_eq_lt_iff, compare_eq_lt_iff, hbefore, hbefore]
  simpa using around_lt_iff h before []

/-- Names whose markers are in order, as scans bring them. -/
def InOrder (s : Scope) (a : Adjacency) (names : List String) : Prop :=
  names.Pairwise fun t t' =>
    compare (RecordKey.marker s a t).text (RecordKey.marker s a t').text = .lt

theorem InOrder.nodup {names : List String} (h : InOrder s a names) : names.Nodup :=
  h.imp fun hlt heq => by simp [heq] at hlt

/-- Names of one length that ascend are those whose markers a scan brings, if they are the same. -/
theorem InOrder.eq_of_mem_iff {names l : List String} (h : InOrder s a names)
    (hl : l.Pairwise fun t t' => compare t t' = .lt) {n : Nat} (hlength : ∀ t ∈ l, t.toList.length = n)
    (hmem : ∀ t, t ∈ names ↔ t ∈ l) : names = l := by
  refine eq_of_ascending (h.imp_of_mem fun {t t'} ht ht' hlt => ?_) hl hmem
  have hsame := (hlength t ((hmem t).1 ht)).trans (hlength t' ((hmem t').1 ht')).symm
  exact (compare_marker hsame).1 hlt

end Markers

/-- The names that the markers at a scope give are in the order of the markers. -/
theorem Engine.Holds.inOrder_marked {e : Engine σ} (he : e.Holds m) (s : Scope) (a : Adjacency) :
    InOrder s a (((e.keys.filter (KeyPattern.markers s a).accepts).map Key.lastToken).filter
      (· != Key.indexToken)) := by
  rw [List.filter_map]
  refine List.pairwise_map.2 (((e.pairwise_keys.filter _).filter _).imp_of_mem ?_)
  -- the key of each name that is kept is the key of its marker
  have hmarker : ∀ key ∈ (e.keys.filter (KeyPattern.markers s a).accepts).filter
      ((· != Key.indexToken) ∘ Key.lastToken),
      (RecordKey.marker s a (Key.lastToken key)).text = key := by
    intro key hkey
    obtain ⟨hkey, hname⟩ := List.mem_filter.1 hkey
    obtain ⟨hkey, haccepts⟩ := List.mem_filter.1 hkey
    obtain ⟨r, hr, rfl⟩ := he.only key (Engine.mem_keys_iff.1 hkey)
    rcases (KeyPattern.markers_accepts hr s a).1 haccepts with rfl | ⟨t, rfl⟩
    · simp [lastToken_index s hr a] at hname
    · rw [lastToken_marker hr]
  intro key key' hkey hkey' hlt
  rwa [hmarker key hkey, hmarker key' hkey']

/-- Where the list at a scope cannot be read, a reader goes by the markers, in their order. -/
theorem completes_adjacentIds_marked (hs : s.Valid) (hlist : m.ids? (.index s a) = none) :
    Completes m (adjacentIds s.vertex s.direction a s.label : Attempt σ _) fun ids m' =>
      (∀ i, i ∈ ids ↔ IsName i ∧ m (.marker s a i) ≠ none) ∧ InOrder s a ids ∧ m' = m := by
  refine (completes_readIndex (r := .index s a) hs m).bind fun found m' hfound => ?_
  obtain ⟨rfl, rfl⟩ := hfound
  rw [hlist]
  refine .of_run fun e he => ?_
  have hrun := Engine.keysMatching_run (KeyPattern.parse_markers hs a) rfl
    (by simp [KeyPattern.isExact, KeyPattern.markers]) e
  exact ⟨_, Attempt.bind_ok hrun _, he.mem_marked hs a, he.inOrder_marked s a, rfl⟩

/-! ## After a history -/

section Histories

variable {ids : Nat → String} {p : Multigraph × Nat} {e : Engine σ}

/-- In a store that keeps a graph, a reader finds the entries of the edges at a scope; those of
edges in the order the edges were created. -/
theorem Tracks.adjacentIds_run (h : Tracks ids p e) (hs : s.Valid) (a : Adjacency) :
    ∃ listed, ((adjacentIds s.vertex s.direction a s.label).run.run e).1 = .ok listed ∧
      ((e.contents (Key.index s.vertex s.direction a s.label)).bind Blob.ids?).getD [] = listed ∧
      listed.Perm (p.1.entriesAt s a) ∧ (a = .edges → listed = (p.1.edgesAt s).map (·.id)) := by
  obtain ⟨hg, neighbors, hfits, hholds⟩ := h.keeps
  obtain ⟨e', hrun, -⟩ := does_adjacentIds hs a (p.1.layout neighbors) e hholds
  refine ⟨_, congrArg Prod.fst hrun, ?_, Multigraph.listed_perm hg hfits s a, ?_⟩
  · rw [hholds.contents_index hs a, ← Layout.getD_list?]
    congr 1
    show ((p.1.layout neighbors).record (.index s a)).bind Blob.ids? = _
    rw [Layout.record_index]
    cases (p.1.layout neighbors).list? s a with
    | none => rfl
    | some l => exact ids?_idList l
  · rintro rfl
    exact Multigraph.listed_edges hg s

/-- Where a list came to harm, a reader finds the entries of the edges at the scope by their
markers, each once. -/
theorem Harmed.adjacentIds_marked (h : Harmed ids p e) (hs : s.Valid)
    (hlist : (e.contents (Key.index s.vertex s.direction a s.label)).bind Blob.ids? = none) :
    ∃ marked, ((adjacentIds s.vertex s.direction a s.label).run.run e).1 = .ok marked ∧
      (∀ i, i ∈ marked ↔ i ∈ p.1.entriesAt s a) ∧ InOrder s a marked := by
  obtain ⟨neighbors, m, hfits, hharm, hholds⟩ := h.holds
  rw [hholds.contents_index hs a] at hlist
  obtain ⟨_, -, marked, hrun, hmem, horder, -⟩ := completes_adjacentIds_marked hs hlist e hholds
  refine ⟨marked, hrun, fun i => ?_, horder⟩
  rw [hmem, ← hharm.shows_entries h.sound hfits s a i]
  exact (Postings.shows_of_none (p := m.postings s) hlist).symm

/-- The list at a scope and the markers there agree. Whatever operations ran from an empty store,
once the list is deleted or overwritten by what is no list of ids, a reader goes by the markers and
finds the same ids as the list held: each once, where the list may hold the other end of parallel
edges many times, and never what a list is called. Edges it finds in the same order. -/
theorem Engine.markerScan_history {e : Engine σ} (hempty : ∀ key, e.contents key = none)
    {ops : List RecordOp} (hops : ∀ op ∈ ops, op.Named)
    (hids : GoodIds e.ids (Multigraph.history e.ids ops (.empty, e.issued)).2)
    (damage : List Damage) {d : Damage} (hd : d ∈ damage) :
    let e' := ((RecordOp.runAll ops).run e).2
    let damaged := ((damage.forM Damage.run).run e').2
    let s := d.scope
    let list := Key.index s.vertex s.direction d.adjacency s.label
    ∃ listed marked,
      ((adjacentIds s.vertex s.direction d.adjacency s.label).run.run e').1 = .ok listed ∧
      ((e'.contents list).bind Blob.ids?).getD [] = listed ∧
      ((adjacentIds s.vertex s.direction d.adjacency s.label).run.run damaged).1 = .ok marked ∧
      (damaged.contents list).bind Blob.ids? = none ∧
      (∀ i, i ∈ marked ↔ i ∈ listed) ∧ (d.adjacency = .edges → marked = listed) ∧
      marked.Nodup ∧ Key.indexToken ∉ marked := by
  intro e' damaged s list
  have htracks := ((Tracks.empty hempty).run hops hids).1
  have hascending := (Multigraph.Ascending.empty e.ids e.issued).history hids
  have hharmed := htracks.harm damage
  have hlost : (damaged.contents list).bind Blob.ids? = none := by
    obtain ⟨-, neighbors, -, hholds⟩ := htracks.keeps
    exact Damage.unreadable_of_mem hd hholds
  obtain ⟨listed, hread, hkept, hperm, hedges⟩ := htracks.adjacentIds_run d.valid d.adjacency
  obtain ⟨marked, hscan, hmem, horder⟩ := hharmed.adjacentIds_marked d.valid hlost
  refine ⟨listed, marked, hread, hkept, hscan, hlost, fun i => (hmem i).trans hperm.mem_iff.symm,
    fun ha => ?_, horder.nodup, fun hindex => ?_⟩
  · rw [hedges ha]
    refine horder.eq_of_mem_iff (hascending.edgesAt d.scope) (n := 32) (fun t ht => ?_) fun t => ?_
    · obtain ⟨x, hx, rfl⟩ := List.mem_map.1 ht
      have hid : x.id ∈ (Multigraph.history e.ids ops (.empty, e.issued)).1.ids .edge :=
        List.mem_map_of_mem (List.mem_of_mem_filter hx)
      exact hascending.length_id hids hid
    · rw [hmem t, ha]
      rfl
  · exact (Multigraph.isName_of_mem_entriesAt htracks.keeps.sound ((hmem _).1 hindex)).2 rfl

/-- Two edges lead from the first vertex to the second. The list holds the second vertex twice; with
the list deleted, its marker gives it once. -/
theorem markerScan_lostList :
    let kept := ((RecordOp.runAll twinOps).run (Engine.ofStore Memory.empty)).2
    let damaged := (([lostList].forM Damage.run).run kept).2
    ∃ listed marked,
      ((adjacentIds (elementId 0) .outgoing .vertices none).run.run kept).1 = .ok listed ∧
      ((adjacentIds (elementId 0) .outgoing .vertices none).run.run damaged).1 = .ok marked ∧
      listed.Perm [elementId 1, elementId 1] ∧ marked = [elementId 1] := by
  intro kept damaged
  have hnamed : ∀ op ∈ twinOps, op.Named := by decide
  have hids : GoodIds elementId (Multigraph.history elementId twinOps (.empty, 0)).2 := by decide
  obtain ⟨listed, marked, hread, -, hscan, -, hmem, -, hnodup, -⟩ :=
    Engine.markerScan_history (e := Engine.ofStore Memory.empty) (fun _ => rfl) hnamed hids [lostList]
      (List.mem_singleton_self lostList)
  obtain ⟨found, hfound, -, hperm, -⟩ :=
    (Tracks.memory hnamed hids).adjacentIds_run lostList.valid lostList.adjacency
  obtain rfl := Except.ok.inj (hread.symm.trans hfound)
  have hentries : (Multigraph.history elementId twinOps (.empty, 0)).1.entriesAt lostList.scope
      lostList.adjacency = [elementId 1, elementId 1] := by decide
  rw [hentries] at hperm
  refine ⟨listed, marked, hread, hscan, hperm, List.perm_singleton.1 ?_⟩
  refine (List.perm_ext_iff_of_nodup hnodup (List.nodup_singleton _)).2 fun i => ?_
  rw [hmem i, hperm.mem_iff]
  simp

end Histories

end PropertyGraph
