/-
Edges whose creation stopped part-way. Creating an edge may stop at any call; by then its ends
are recorded or not, and at each of its scopes the list of vertices has got an entry for its other
end or not (`Edge.Begun`). Dropping the edge takes one such entry out wherever both ends are
recorded, and cannot tell it from the entry of another edge. So it takes away the entry of an edge
that was there before exactly where its own was not written yet and the two lead to one vertex
(`Engine.halfEdge_history`).
-/
import PropertyGraph.Proofs.Interruption
import PropertyGraph.Proofs.DamagedEdges

namespace PropertyGraph

open PropertyGraph.Graph

variable {σ α : Type} [Backend σ] [LawfulBackend σ] {m m' m'' : Records} {x : Edge}

/-! ## Linking that stops -/

section Linking

/-- What linking an edge at some scopes may have written: markers of its entries, and entries at
the ends of the lists. -/
structure Edge.Links (x : Edge) (scopes : List Scope) (m m' : Records) : Prop where
  other : ∀ r, (∀ s ∈ scopes, ∀ a, r ≠ .marker s a (x.entry s.direction a) ∧ r ≠ .index s a) →
    m' r = m r
  list : ∀ s ∈ scopes, ∀ a, m' (.index s a) = m (.index s a) ∨ m' (.index s a) =
    some (idList ((m.ids? (.index s a)).getD [] ++ [x.entry s.direction a]))

namespace Edge.Links

omit [Backend σ] [LawfulBackend σ]

theorem refl (x : Edge) (scopes : List Scope) (m : Records) : x.Links scopes m m :=
  ⟨fun _ _ => rfl, fun _ _ _ => .inl rfl⟩

theorem mono {scopes scopes' : List Scope} (h : x.Links scopes m m')
    (hsub : ∀ s ∈ scopes, s ∈ scopes') : x.Links scopes' m m' where
  other r hr := h.other r fun s hs => hr s (hsub s hs)
  list s hs a := by
    by_cases hin : s ∈ scopes
    · exact h.list s hin a
    · refine .inl (h.other _ fun s' hs' b => ⟨by simp, ?_⟩)
      rintro heq
      cases heq
      exact hin hs'

/-- Linking at some scopes and then at another one. -/
theorem cons {scopes : List Scope} {s : Scope} (hnew : s ∉ scopes) (h : x.Links scopes m m')
    (hs : x.Links [s] m' m'') : x.Links (s :: scopes) m m'' where
  other r hr := by
    rw [hs.other r (by simpa using hr s (by simp)),
      h.other r fun s' hs' => hr s' (List.mem_cons_of_mem _ hs')]
  list s' hs' a := by
    have hsame : ∀ p : Scope, p ∉ scopes → ∀ b, m' (.index p b) = m (.index p b) := by
      intro p hp b
      refine h.other _ fun s' hs' c => ⟨by simp, ?_⟩
      rintro heq
      cases heq
      exact hp hs'
    by_cases hlast : s' = s
    · subst hlast
      have := hs.list s' (by simp) a
      rwa [Records.ids?_congr (hsame s' hnew a), hsame s' hnew a] at this
    · have hkept : m'' (.index s' a) = m' (.index s' a) := hs.other _ (by simp [hlast])
      rw [hkept]
      exact h.list s' (by simpa [hlast] using hs') a

/-- Marking an entry. -/
theorem mark {s : Scope} (h : x.Links [s] m m') (a : Adjacency) (value : Option Blob) :
    x.Links [s] m (m'.set (.marker s a (x.entry s.direction a)) value) where
  other r hr := by
    rw [Records.set_of_ne _ _ (hr s (by simp) a).1]
    exact h.other r hr
  list s' hs' b := by
    rw [Records.set_of_ne _ _ (by simp)]
    exact h.list s' hs' b

/-- Appending an entry to a list that is as it was. -/
theorem push {s : Scope} (h : x.Links [s] m m') {a : Adjacency}
    (hsame : m' (.index s a) = m (.index s a)) :
    x.Links [s] m (m'.set (.index s a)
      (some (idList ((m'.ids? (.index s a)).getD [] ++ [x.entry s.direction a])))) where
  other r hr := by
    rw [Records.set_of_ne _ _ (hr s (by simp) a).2]
    exact h.other r hr
  list s' hs' b := by
    obtain rfl := List.mem_singleton.1 hs'
    by_cases hb : b = a
    · subst hb
      rw [Records.set_self, Records.ids?_congr hsame]
      exact .inr rfl
    · rw [Records.set_of_ne _ _ (by simp [hb])]
      exact h.list s' hs' b

end Edge.Links

/-- Linking at an end, wherever it stops. -/
theorem endures_linkEnd (hx : x.Named) (d : Direction) (b : Bool) (m : Records) :
    Endures m (linkEnd x.id ⟨x.near d, d, x.far d⟩ (x.scope d b).label : Attempt (Faulty σ) _).run
      fun _ m' _ => x.Links [x.scope d b] m m' := by
  have hs := hx.scope_valid d b
  have hmarker : (RecordKey.marker (x.scope d b) .edges x.id).Valid := ⟨hs, hx.id⟩
  have hneighbor : (RecordKey.marker (x.scope d b) .vertices (x.far d)).Valid := ⟨hs, hx.far d⟩
  let marked := (m.set (.marker (x.scope d b) .edges x.id) (some (.text ""))).set
    (.marker (x.scope d b) .vertices (x.far d)) (some (.text ""))
  have hmarked : x.Links [x.scope d b] m marked := ((Edge.Links.refl x _ m).mark .edges _).mark .vertices _
  have hlisted : ∀ a, marked (.index (x.scope d b) a) = m (.index (x.scope d b) a) :=
    fun a => by simp [marked, Records.set]
  -- once the edge is appended to its list, the list of vertices is still as it was
  have hedges : ∀ m3, m3 = marked ∨ m3 = marked.set (.index (x.scope d b) .edges) (some (idList
      ((marked.ids? (.index (x.scope d b) .edges)).getD [] ++ [x.id]))) →
      x.Links [x.scope d b] m m3 ∧
        m3 (.index (x.scope d b) .vertices) = m (.index (x.scope d b) .vertices) := by
    intro m3 h
    rcases h with rfl | rfl
    · exact ⟨hmarked, hlisted _⟩
    · refine ⟨hmarked.push (a := .edges) (hlisted _), ?_⟩
      rw [Records.set_of_ne _ _ (by simp)]
      exact hlisted _
  refine Endures.andThen (endures_create hmarker m _) (fun _ m1 _ h1 => ?_) fun _ m1 _ h1 => ?_
  · obtain rfl := h1.2.1.of_ok
    refine Endures.andThen (endures_put hneighbor _ _) (fun _ m2 _ h2 => ?_) fun _ m2 _ h2 => ?_
    · obtain rfl := h2.2.of_ok
      refine Endures.andThen (endures_pushIndex (r := .index (x.scope d b) .edges) hs marked x.id true)
        (fun _ m3 _ h3 => ?_) fun _ m3 _ h3 => (hedges m3 h3).1
      obtain ⟨hlinks, hsame⟩ := hedges m3 h3
      refine (endures_pushIndex (r := .index (x.scope d b) .vertices) hs m3 (x.far d) false).mono ?_
      intro _ m4 _ h4
      rcases h4 with rfl | rfl
      · exact hlinks
      · exact hlinks.push (a := .vertices) hsame
    · rw [h2.2.of_error]
      exact (Edge.Links.refl x _ m).mark .edges _
  · rw [h1.2.1.of_error]
    exact .refl x _ m

/-- Linking at both ends, wherever it stops. -/
theorem endures_linkEdge (hx : x.Named) (m : Records) :
    Endures m (linkEdge x.id x.label x.source x.target : Attempt (Faulty σ) _).run
      fun _ m' _ => x.Links x.scopes m m' := by
  have hlink : ∀ {m1 : Records} (d : Direction) (b : Bool) {scopes : List Scope},
      x.scope d b ∉ scopes → x.Links scopes m m1 →
      Endures m1 (linkEnd x.id ⟨x.near d, d, x.far d⟩ (x.scope d b).label : Attempt (Faulty σ) _).run
        fun _ m' _ => x.Links (x.scope d b :: scopes) m m' :=
    fun d b _ hnew h => (endures_linkEnd hx d b _).mono fun _ _ _ hs => h.cons hnew hs
  have hend : ∀ {m1 : Records} (d : Direction) {scopes : List Scope},
      (∀ b, x.scope d b ∉ scopes) → x.Links scopes m m1 →
      Endures m1 (do
        linkEnd x.id ⟨x.near d, d, x.far d⟩ none
        linkEnd x.id ⟨x.near d, d, x.far d⟩ (some x.label) : Attempt (Faulty σ) Unit).run
        fun _ m' _ => x.Links (x.scope d true :: x.scope d false :: scopes) m m' := by
    intro m1 d scopes hnew h
    refine Endures.andThen (hlink d false (hnew false) h) (fun _ m2 _ h2 => ?_) fun _ m2 _ h2 => ?_
    · refine hlink d true ?_ h2
      simp [Edge.scope_inj, hnew]
    · exact h2.mono fun s hs => List.mem_cons_of_mem _ hs
  refine Endures.andThen (hend .outgoing (by simp) (.refl x [] m)) (fun _ m1 _ h1 => ?_) fun _ m1 _ h1 => ?_
  · refine Endures.andThen (hend .incoming ?_ h1) (fun _ _ _ h2 => .pure h2) fun _ _ _ h2 => h2
    simp [Edge.scope_inj]
  · exact h1.mono fun s hs => List.mem_cons_of_mem _ (List.mem_cons_of_mem _ hs)

end Linking

/-! ## Creating that stops -/

section Creating

/-- What creating an edge may have written. Before its second end is recorded no list has an entry
for it; afterwards the lists of vertices at its scopes may have one. -/
inductive Edge.Begun (x : Edge) (m m' : Records) : Prop
  | early (label : ∀ v, m' (.plain (.label .edge x.id)) = some v → Key.isToken v.string = true)
    (source : ∀ v, m' (.plain (.source x.id)) = some v → IsName v.string)
    (target : m' (.plain (.target x.id)) = none)
    (list : ∀ s, m' (.index s .vertices) = m (.index s .vertices))
  | late (named : x.Named) (label : m' (.plain (.label .edge x.id)) = some (.text x.label))
    (source : m' (.plain (.source x.id)) = some (.text x.source))
    (target : m' (.plain (.target x.id)) = some (.text x.target))
    (list : ∀ s, m' (.index s .vertices) = m (.index s .vertices) ∨ x.isAt s = true ∧
      m' (.index s .vertices) = some (idList ((m.ids? (.index s .vertices)).getD [] ++
        [x.far s.direction])))

/-- Before anything is created of an edge. -/
theorem Edge.Begun.of_none (hnew : ∀ key ∈ Edge.created x.id, m (.plain key) = none) : x.Begun m m := by
  simp only [Edge.created, List.forall_mem_cons, List.not_mem_nil, false_imp_iff, implies_true,
    and_true] at hnew
  obtain ⟨-, hlabel, hsource, htarget, -⟩ := hnew
  exact .early (by simp [hlabel]) (by simp [hsource]) htarget fun _ => rfl

/-- As long as the second end is not recorded. -/
theorem Edge.Begun.of_early (hlabel : Key.isToken x.label = true) (hsource : IsName x.source)
    (hnew : ∀ key ∈ Edge.created x.id, m (.plain key) = none)
    (hlabeled : m' (.plain (.label .edge x.id)) = m (.plain (.label .edge x.id)) ∨
      m' (.plain (.label .edge x.id)) = some (.text x.label))
    (hleaves : m' (.plain (.source x.id)) = m (.plain (.source x.id)) ∨
      m' (.plain (.source x.id)) = some (.text x.source))
    (htarget : m' (.plain (.target x.id)) = m (.plain (.target x.id)))
    (hlist : ∀ s, m' (.index s .vertices) = m (.index s .vertices)) : x.Begun m m' := by
  rw [hnew _ (by simp [Edge.created])] at hlabeled hleaves htarget
  refine .early (fun v hv => ?_) (fun v hv => ?_) htarget hlist
  · rcases hlabeled with h | h
    · cases hv.symm.trans h
    · cases hv.symm.trans h
      exact hlabel
  · rcases hleaves with h | h
    · cases hv.symm.trans h
    · cases hv.symm.trans h
      exact hsource

/-- Once both ends are recorded. -/
theorem Edge.Begun.of_late (hx : x.Named)
    (hlabel : m' (.plain (.label .edge x.id)) = some (.text x.label))
    (hsource : m' (.plain (.source x.id)) = some (.text x.source))
    (htarget : m' (.plain (.target x.id)) = some (.text x.target))
    (hlist : ∀ s, m' (.index s .vertices) = m (.index s .vertices))
    (hlinks : x.Links x.scopes m' m'') : x.Begun m m'' := by
  have hplain : ∀ key, m'' (.plain key) = m' (.plain key) := fun key =>
    hlinks.other _ fun _ _ _ => ⟨by simp, by simp⟩
  refine .late hx (by rw [hplain, hlabel]) (by rw [hplain, hsource]) (by rw [hplain, htarget])
    fun s => ?_
  by_cases hs : s ∈ x.scopes
  · have hlisted := hlinks.list s hs .vertices
    rw [Records.ids?_congr (hlist s), hlist s] at hlisted
    exact hlisted.imp_right fun h => ⟨Edge.mem_scopes.1 hs, h⟩
  · refine .inl ((hlinks.other _ fun s' hs' a => ⟨by simp, ?_⟩).trans (hlist s))
    intro heq
    cases heq
    exact hs hs'

/-- What is kept of vertices and edges but for the listing of an edge. -/
theorem Edge.Begun.of_listing (h : x.Begun m m') (value : Option Blob) :
    x.Begun m (m'.set (.plain (.listing .edge x.id)) value) := by
  cases h with
  | early label source target list =>
    exact .early (by simpa [Records.set] using label) (by simpa [Records.set] using source)
      (by simpa [Records.set] using target) fun s => by simpa [Records.set] using list s
  | late named label source target list =>
    exact .late named (by simpa [Records.set] using label) (by simpa [Records.set] using source)
      (by simpa [Records.set] using target) fun s => by simpa [Records.set] using list s

/-- The records of an edge, wherever creating them stops. -/
theorem endures_edgeRecords (hx : x.Named)
    (hnew : ∀ key ∈ Edge.created x.id, m (.plain key) = none) :
    Endures m (do
      createKey (Key.element .edge x.id) ""
      createKey (Key.label .edge x.id) x.label
      createKey (Key.edgeFrom x.id) x.source
      createKey (Key.edgeTo x.id) x.target
      linkEdge x.id x.label x.source x.target
      createKey (Key.enumeration .edge x.id) ""
      return x.id : Attempt (Faulty σ) String).run fun _ m' _ => x.Begun m m' := by
  have hid := hx.id.1
  have hearly := fun m' => @Edge.Begun.of_early m m' x hx.label hx.source hnew
  refine Endures.createKey_andThen (r := .plain (.element .edge x.id)) hid ?_ fun _ _ =>
    hearly _ (.inl rfl) (.inl rfl) rfl fun _ => rfl
  refine Endures.createKey_andThen (r := .plain (.label .edge x.id)) hid ?_ fun _ _ =>
    hearly _ (by simp [Records.set]) (by simp [Records.set]) (by simp [Records.set])
      fun _ => by simp [Records.set]
  refine Endures.createKey_andThen (r := .plain (.source x.id)) hid ?_ fun _ _ =>
    hearly _ (by simp [Records.set]) (by simp [Records.set]) (by simp [Records.set])
      fun _ => by simp [Records.set]
  refine Endures.createKey_andThen (r := .plain (.target x.id)) hid ?_ fun _ _ =>
    hearly _ (by simp [Records.set]) (by simp [Records.set]) (by simp [Records.set])
      fun _ => by simp [Records.set]
  generalize hrecorded : Records.set _ (.plain (.target x.id)) (some (.text x.target)) = m4
  have hlate := fun m' => @Edge.Begun.of_late m m4 m' x hx (by simp [← hrecorded, Records.set])
    (by simp [← hrecorded, Records.set]) (by simp [← hrecorded])
    (by simp [← hrecorded, Records.set])
  refine Endures.andThen (endures_linkEdge hx m4) (fun _ m' _ h => ?_) fun _ m' _ h => hlate m' h
  refine Endures.createKey_andThen (r := .plain (.listing .edge x.id)) hid ?_ fun _ _ => hlate m' h
  exact .pure ((hlate m' h).of_listing _)

/-- A vertex is required by its marker. -/
theorem endures_requireVertex {id : String} (hid : Key.isToken id = true) (m : Records) :
    Endures m (requireVertex id : Attempt (Faulty σ) Unit).run fun outcome m' _ =>
      m' = m ∧ ∀ a, outcome = .ok a → m (.plain (.element .vertex id)) ≠ none := by
  refine Endures.andThen (x := elementExists .vertex id) (Q := fun outcome m' _ => m' = m ∧
    ∀ found, outcome = .ok found → found = (m (.plain (.element .vertex id))).isSome) ?_ ?_ ?_
  · refine Endures.andThen (endures_get (r := .plain (.element .vertex id)) hid m) ?_ ?_
    · intro found m' _ h
      refine .pure ⟨h.1, fun _ hfound => ?_⟩
      rw [← Except.ok.inj hfound, ← h.2.2 found rfl, Option.isSome_map]
    · exact fun _ _ _ h => ⟨h.1, fun _ herror => by cases herror⟩
  · intro found m' _ h
    obtain rfl := h.1
    have hfound := h.2 found rfl
    cases found with
    | true => exact .pure ⟨rfl, fun _ _ => Option.isSome_iff_ne_none.1 hfound.symm⟩
    | false => exact .pure ⟨rfl, fun _ herror => by cases herror⟩
  · exact fun _ _ _ h => ⟨h.1, fun _ herror => by cases herror⟩

/-- Creating an edge stops before anything is written, or comes to the records of the edge. -/
theorem createEdge_cases {e : Engine (Faulty σ)} (he : e.behind.Holds m)
    (label source target : String) :
    (∃ err e' new, (createEdge label source target).run.run e = (.error err, e') ∧
      e'.behind.Holds m ∧ e.Onward new e') ∨
    (Key.isToken label = true ∧ m (.plain (.element .vertex source)) ≠ none ∧
      m (.plain (.element .vertex target)) ≠ none ∧ ∃ e' new, e'.behind.Holds m ∧ e.Onward new e' ∧
      (createEdge label source target).run.run e = (do
        createKey (Key.element .edge (e.ids e.issued)) ""
        createKey (Key.label .edge (e.ids e.issued)) label
        createKey (Key.edgeFrom (e.ids e.issued)) source
        createKey (Key.edgeTo (e.ids e.issued)) target
        linkEdge (e.ids e.issued) label source target
        createKey (Key.enumeration .edge (e.ids e.issued)) ""
        return e.ids e.issued : Attempt (Faulty σ) String).run.run
          { e' with issued := e'.issued + 1 }) := by
  rcases createEdge_error_or_tokens label source target e with ⟨err, hrun⟩ | ⟨hlabel, hsource, htarget⟩
  · exact .inl ⟨err, e, [], hrun, he, .refl e⟩
  rw [createEdge_valid hlabel hsource htarget]
  obtain ⟨_, new1, he1, honward1, rfl, hmarked1⟩ := endures_requireVertex hsource m e he
  cases hrun1 : (requireVertex source).run.run e with
  | mk outcome1 e1 =>
  rw [hrun1] at he1 honward1 hmarked1
  cases outcome1 with
  | error err => exact .inl ⟨err, e1, new1, Attempt.bind_error hrun1 _, he1, honward1⟩
  | ok =>
    obtain ⟨_, new2, he2, honward2, rfl, hmarked2⟩ := endures_requireVertex htarget _ e1 he1
    cases hrun2 : (requireVertex target).run.run e1 with
    | mk outcome2 e2 =>
    rw [hrun2] at he2 honward2 hmarked2
    have honward := honward1.trans honward2
    rw [Attempt.bind_ok hrun1]
    cases outcome2 with
    | error err => exact .inl ⟨err, e2, _, Attempt.bind_error hrun2 _, he2, honward⟩
    | ok =>
      have hid : e2.ids e2.issued = e.ids e.issued := by rw [honward.ids, honward.issued]
      refine .inr ⟨hlabel, hmarked1 _ rfl, hmarked2 _ rfl, e2, _, he2, honward, ?_⟩
      rw [Attempt.bind_ok hrun2, ← hid]
      rfl

/-- Creating an edge, wherever it stops. -/
theorem createEdge_begun {e : Engine (Faulty σ)} (he : e.behind.Holds m)
    (hid : IsName (e.ids e.issued))
    (hvertices : ∀ id, m (.plain (.element .vertex id)) ≠ none → IsName id)
    (hnew : ∀ key ∈ Edge.created (e.ids e.issued), m (.plain key) = none)
    (label source target : String) :
    ∃ m', ((createEdge label source target).run.run e).2.behind.Holds m' ∧
      Edge.Begun ⟨e.ids e.issued, label, source, target⟩ m m' := by
  rcases createEdge_cases he label source target with
    ⟨err, e', _, hrun, he', -⟩ | ⟨hlabel, hsource, htarget, e', _, he', -, hrun⟩
  · rw [hrun]
    exact ⟨m, he', .of_none hnew⟩
  · have hx : Edge.Named ⟨e.ids e.issued, label, source, target⟩ :=
      ⟨hid, hlabel, hvertices _ hsource, hvertices _ htarget⟩
    obtain ⟨m', _, hholds, -, hbegun⟩ := endures_edgeRecords hx hnew
      { e' with issued := e'.issued + 1 } ⟨he'.stored, he'.only⟩
    rw [hrun]
    exact ⟨m', hholds, hbegun⟩

end Creating

/-! ## Dropping what was begun -/

section Dropping

/-- Unlinking an edge of which the other end is not known. -/
theorem leads_unlinkEnd_none {s : Scope} (hs : s.Valid) {edge : String} (hedge : IsName edge)
    (m : Records) :
    Leads m (unlinkEnd edge s.vertex s.direction none s.label : Run σ Unit) fun _ m' =>
      ∀ p, m' (.index p .vertices) = m (.index p .vertices) := by
  have hmarker : (RecordKey.marker s .edges edge).Valid := ⟨hs, hedge⟩
  refine (acts_deleteQuietly hmarker m).leads_bind ?_
  refine (Leads.quietly (completes_removeFromIndex (r := .index s .edges) hs _ edge true)).bind ?_
  intro _ m' h
  refine .pure fun p => ?_
  rw [h.2, Records.takeOut_of_ne _ _ _ (by simp), Records.set_of_ne _ _ (by simp)]

/-- Unlinking an edge whose second end is not known leaves the lists of vertices alone. -/
theorem leads_unlinkEdge_none {edge : String} (hedge : IsName edge) {label source : Option String}
    (hlabel : ∀ l, label = some l → Key.isToken l = true)
    (hsource : ∀ v, source = some v → Key.isToken v = true) (m : Records) :
    Leads m (unlinkEdge edge label source none : Run σ Unit) fun _ m' =>
      ∀ s, m' (.index s .vertices) = m (.index s .vertices) := by
  refine Leads.bind (Q := fun _ m' => ∀ s, m' (.index s .vertices) = m (.index s .vertices)) ?_
    fun _ m' h => .pure h
  cases source with
  | none => exact .pure fun _ => rfl
  | some v =>
    have hv := hsource v rfl
    refine (leads_unlinkEnd_none (s := ⟨v, .outgoing, none⟩) ⟨hv, by simp⟩ hedge m).bind
      fun _ m1 h1 => ?_
    cases label with
    | none => exact .pure h1
    | some l =>
      refine (leads_unlinkEnd_none (s := ⟨v, .outgoing, some l⟩) ⟨hv, by simpa using hlabel⟩ hedge
        m1).mono fun _ m2 h2 s => (h2 s).trans (h1 s)

/-- Dropping an edge whose second end is not recorded leaves the lists of vertices alone. -/
theorem leads_dropEdge_early {id : String} (hid : IsName id)
    (hlabel : ∀ v, m (.plain (.label .edge id)) = some v → Key.isToken v.string = true)
    (hsource : ∀ v, m (.plain (.source id)) = some v → IsName v.string)
    (htarget : m (.plain (.target id)) = none) :
    Leads m (dropEdge id : Run σ Unit) fun _ m' =>
      ∀ s, m' (.index s .vertices) = m (.index s .vertices) := by
  have htokens : ∀ l, (m (.plain (.label .edge id))).map Blob.string = some l →
      Key.isToken l = true := by
    intro l hl
    obtain ⟨v, hv, rfl⟩ := Option.map_eq_some_iff.1 hl
    exact hlabel v hv
  have hends : ∀ t, (m (.plain (.source id))).map Blob.string = some t → Key.isToken t = true := by
    intro t ht
    obtain ⟨v, hv, rfl⟩ := Option.map_eq_some_iff.1 ht
    exact (hsource v hv).1
  refine (leads_dropEdge_of hid.1 _ _ none rfl rfl (by simp [htarget])
    (leads_unlinkEdge_none hid htokens hends _)).mono fun _ m'' h s => ?_
  obtain ⟨m', hm', rfl⟩ := h
  rw [Records.set_of_ne _ _ (by simp)]
  simpa [Records.without, RecordKey.owner?, Records.set] using hm' s

/-- Whether a drop takes an entry at a scope that was never written there: both ends of the edge
are recorded, but the list is as it was. -/
def Edge.Overdraws (x : Edge) (m m' : Records) (s : Scope) : Prop :=
  m' (.plain (.target x.id)) ≠ none ∧ x.isAt s = true ∧ m' (.index s .vertices) = m (.index s .vertices)

open Classical in
/-- What dropping an edge leaves of the lists of vertices that were there before its creation was
begun. -/
theorem Edge.Begun.leads_dropEdge (hid : IsName x.id) (h : x.Begun m m') :
    Leads m' (dropEdge x.id : Run σ Unit) fun _ m'' => ∀ s ids,
      m (.index s .vertices) = some (idList ids) → ∃ left, m''.ids? (.index s .vertices) = some left ∧
        left.Perm (if x.Overdraws m m' s then ids.erase (x.far s.direction) else ids) := by
  have hread : ∀ {n : Records} {s ids}, n (.index s .vertices) = some (idList ids) →
      n.ids? (.index s .vertices) = some ids := by
    intro n s ids hn
    rw [Records.ids?, hn, Option.bind_some, ids?_idList]
  cases h with
  | early label source target list =>
    refine (leads_dropEdge_early hid label source target).mono fun _ m'' h s ids hids => ?_
    have hnot : ¬x.Overdraws m m' s := fun h => h.1 target
    exact ⟨ids, hread ((h s).trans ((list s).trans hids)), by rw [if_neg hnot]⟩
  | late named label source target list =>
    refine (leads_dropEdge_postings named label source target).mono fun _ m'' h s ids hids => ?_
    have hpost : m''.ids? (.index s .vertices) =
        (changedAt x.unlinkAt x.scopes m'.postings s).list .vertices := by
      rw [← h]
      rfl
    rw [Edge.changedAt_scopes] at hpost
    by_cases hat : x.isAt s = true
    case neg =>
      rw [if_neg hat] at hpost
      have hsame := (list s).resolve_right fun h => hat h.1
      have hnot : ¬x.Overdraws m m' s := fun h => hat h.2.1
      exact ⟨ids, hpost.trans (hread (hsame.trans hids)), by rw [if_neg hnot]⟩
    rw [if_pos hat] at hpost
    have htaken : m''.ids? (.index s .vertices) =
        (m'.ids? (.index s .vertices)).map (·.erase (x.far s.direction)) := hpost
    rcases list s with hsame | ⟨-, hpushed⟩
    · rw [hread (hsame.trans hids)] at htaken
      have hover : x.Overdraws m m' s := ⟨by simp [target], hat, hsame⟩
      exact ⟨_, htaken, by rw [if_pos hover]⟩
    · rw [hread hids, Option.getD_some] at hpushed
      rw [hread hpushed] at htaken
      have hnot : ¬x.Overdraws m m' s := by
        intro h
        have hlists := hread (h.2.2.trans hids)
        rw [hread hpushed] at hlists
        simp at hlists
      refine ⟨_, htaken, ?_⟩
      rw [if_neg hnot]
      simpa using (List.perm_append_singleton (x.far s.direction) ids).erase (x.far s.direction)

end Dropping

/-! ## A half-created edge after any history -/

section Histories

variable {g : Multigraph} {neighbors : Scope → List String} {s : Scope} {f : Edge}

omit [Backend σ] [LawfulBackend σ] in
/-- When one entry goes from a list of vertices, the other end of an edge stays in it unless the
entry is of that end and no other edge at the scope leads there. -/
theorem Multigraph.far_mem_erase (hg : g.Sound) (hf : f ∈ g.edges) (hat : f.isAt s = true)
    {ids : List String} (hids : ids.Perm (g.entriesAt s .vertices)) (gone : String) :
    f.far s.direction ∈ ids.erase gone ↔ ¬(gone = f.far s.direction ∧
      ∀ y ∈ g.edges, y.isAt s = true → y.far s.direction = f.far s.direction → y = f) := by
  have hperm : ids.Perm (f.far s.direction ::
      ((g.removeEdges [f.id]).edgesAt s).map (·.far s.direction)) :=
    hids.trans ((edgesAt_perm_cons hg hf hat).map _)
  by_cases hgone : gone = f.far s.direction
  · subst hgone
    have herased := hperm.erase (f.far s.direction)
    rw [List.erase_cons_head] at herased
    rw [herased.mem_iff, List.mem_map]
    simp only [true_and, not_forall]
    constructor
    · intro h
      obtain ⟨y, hy, hfar⟩ := h
      rw [edgesAt_removeEdge, List.mem_filter] at hy
      obtain ⟨hyg, hyat⟩ := List.mem_filter.1 hy.1
      refine ⟨y, hyg, hyat, hfar, fun heq => ?_⟩
      simp [heq] at hy
    · intro h
      obtain ⟨y, hyg, hyat, hfar, hne⟩ := h
      refine ⟨y, ?_, hfar⟩
      rw [edgesAt_removeEdge, List.mem_filter]
      refine ⟨List.mem_filter.2 ⟨hyg, hyat⟩, ?_⟩
      simpa using fun hid => hne (List.inj_on_of_nodup_map hg.edgeIds hyg hf hid)
  · have hmem : f.far s.direction ∈ ids := hperm.mem_iff.2 List.mem_cons_self
    simp only [hgone, false_and, not_false_eq_true, iff_true]
    exact (List.mem_erase_of_ne fun h => hgone h.symm).2 hmem

/-- An edge whose creation stopped at any call, and then a drop of what was created of it: a
reader at a scope of an edge that was there before misses its other end only if both ends of the
new edge were recorded, the new edge is at the scope too and leads to that end, its own entry was
not written there, and no other edge at the scope leads to that end. -/
theorem Engine.halfEdge_history {e : Engine σ} (hempty : ∀ key, e.contents key = none)
    {ops : List RecordOp} (hops : ∀ op ∈ ops, op.Named)
    (hids : GoodIds e.ids ((Multigraph.history e.ids ops (.empty, e.issued)).2 + 1))
    (rules : List FaultRule) (label source target : String) {f : Edge}
    (hf : f ∈ (Multigraph.history e.ids ops (.empty, e.issued)).1.edges) (d : Direction)
    (labeled : Bool) :
    let before := ((RecordOp.runAll ops).run e).2
    let half := ((createEdge label source target).run.run (before.under rules)).2.behind
    let x : Edge := ⟨before.ids before.issued, label, source, target⟩
    let s := f.scope d labeled
    let list := Key.index s.vertex s.direction .vertices s.label
    ∃ ids, ((adjacentIds s.vertex s.direction .vertices s.label).run.run
        ((dropEdge x.id).run half).2).1 = .ok ids ∧
      (f.far d ∈ ids ↔ ¬(half.contents (Key.edgeTo x.id) ≠ none ∧ x.isAt s = true ∧
        half.contents list = before.contents list ∧ x.far d = f.far d ∧
        ∀ y ∈ (Multigraph.history e.ids ops (.empty, e.issued)).1.edges,
          y.isAt s = true → y.far d = f.far d → y = f)) := by
  have htracks := ((Tracks.empty hempty).run hops (hids.mono (by omega))).1
  generalize Multigraph.history e.ids ops (.empty, e.issued) = t at hids hf htracks ⊢
  intro before half x s list
  obtain ⟨hg, neighbors, hfits, hholds⟩ := htracks.keeps
  have hat : f.isAt s = true := f.isAt_scope d labeled
  have hs : s.Valid := (hg.edges f hf).scope_valid d labeled
  have hlisted : (t.1.layout neighbors).record (.index s .vertices) =
      some (idList (neighbors s)) := by
    rw [Layout.record_index, Layout.list?, Multigraph.layout]
    simp [hg.opened f hf s hat, Neighborhood.list]
  have hname : IsName x.id := by
    show IsName (before.ids before.issued)
    rw [htracks.next]
    exact (hids.wellFormed _ (by omega)).isName
  have hnew : ∀ key ∈ Edge.created x.id, (t.1.layout neighbors).record (.plain key) = none := by
    refine (Records.Damaged.refl _).created_none ?_
    show before.ids before.issued ∉ _
    rw [htracks.next]
    exact fresh_not_mem htracks hids .edge
  obtain ⟨m1, hhalf, hbegun⟩ := createEdge_begun (e := before.under rules) hholds hname
    (fun id hid => hg.isName ((Records.Damaged.refl _).marked_iff.1 hid)) hnew label source target
  obtain ⟨m2, hdropped, hlists⟩ := hbegun.leads_dropEdge hname half hhalf
  obtain ⟨left, hleft, hperm⟩ := hlists s (neighbors s) hlisted
  obtain ⟨_, -, ids, hread, hshown, -⟩ := completes_adjacentIds_shows hs .vertices m2 _ hdropped
  refine ⟨ids, hread, ?_⟩
  have hover : x.Overdraws (t.1.layout neighbors).record m1 s ↔
      half.contents (Key.edgeTo x.id) ≠ none ∧ x.isAt s = true ∧
        half.contents list = before.contents list := by
    rw [Edge.Overdraws, ← hhalf.stored (.plain (.target x.id)) hname.1,
      ← hhalf.stored (.index s .vertices) hs, ← hholds.stored (.index s .vertices) hs]
    rfl
  have hmem := Multigraph.far_mem_erase hg hf hat (hfits s) (x.far s.direction)
  rw [hshown, Postings.shows_of_list (p := m2.postings s) hleft, hperm.mem_iff]
  by_cases h : x.Overdraws (t.1.layout neighbors).record m1 s
  · rw [if_pos h]
    refine hmem.trans (not_congr ?_)
    obtain ⟨hrecorded, hxat, hsame⟩ := hover.1 h
    exact ⟨fun hlast => ⟨hrecorded, hxat, hsame, hlast⟩, fun hlast => hlast.2.2.2⟩
  · rw [if_neg h]
    have hthere : f.far d ∈ neighbors s := (hfits s).mem_iff.2
      (List.mem_map.2 ⟨f, List.mem_filter.2 ⟨hf, hat⟩, rfl⟩)
    simp only [hthere, true_iff]
    exact fun hlast => h (hover.2 ⟨hlast.1, hlast.2.1, hlast.2.2.1⟩)

/-! ## An edge that is left half-created -/

/-- Rules that fail every put and nothing else. -/
def failingPuts : List FaultRule := [⟨.put, ">", 0, none, 0⟩]

/-- Other calls than puts are not struck. -/
theorem strike_failingPuts (kind : StoreCall) (hkind : kind ≠ .put) (key : String) :
    FaultRule.strike (FaultRule.isAbout kind key) failingPuts = (none, failingPuts) := by
  cases kind <;> first | rfl | exact absurd rfl hkind

/-- Under these rules an operation gives `a` as if there were none. -/
def Slips (operation : Attempt (Faulty σ) α) (m : Records) (a : α) (m' : Records) : Prop :=
  ∀ e : Engine σ, e.Holds m → ∃ e', operation.run.run (e.under failingPuts) =
    (.ok a, e'.under failingPuts) ∧ e'.Holds m' ∧ e.Beside e'

theorem slips_createKey {r : RecordKey} (hr : r.Valid) (hnew : m r = none) (value : String) :
    Slips (createKey r.text value : Attempt (Faulty σ) Unit) m () (m.set r (some (.text value))) := by
  intro e he
  have hcreate := Engine.guarded_passed (strike_failingPuts .create (by simp) r.text)
    (Engine.create_run (e := e) (by rw [he.stored r hr, hnew]) (.text value))
  exact ⟨_, Attempt.bind_ok hcreate _, he.write hr (.text value), ⟨rfl, rfl, rfl⟩⟩

theorem slips_requireVertex {id : String} (hid : Key.isToken id = true)
    (hmarked : m (.plain (.element .vertex id)) ≠ none) :
    Slips (requireVertex id : Attempt (Faulty σ) Unit) m () m := by
  intro e he
  have hget := Engine.guarded_passed
    (strike_failingPuts .get (by simp) (Key.element .vertex id))
    (Engine.get_run (Key.element .vertex id) e)
  refine ⟨e, ?_, he, .refl e⟩
  have hthere : ((LawfulBackend.entries e.store).get? (Key.element .vertex id)).isSome = true := by
    rw [← he.stored (.plain (.element .vertex id)) hid] at hmarked
    rw [Option.isSome_iff_ne_none]
    exact fun hnone => hmarked (by rw [Engine.contents, ← Key.element_eq, hnone]; rfl)
  rw [requireVertex, elementExists, bind_assoc]
  refine (Attempt.bind_ok hget _).trans ?_
  rw [pure_bind, hthere]
  rfl

/-- Linking stops once the edge is marked at its first end. -/
theorem linkEdge_failingPuts (hx : x.Named)
    (hfree : m (.marker (x.scope .outgoing false) .edges x.id) = none)
    (hput : FaultRule.strike (FaultRule.isAbout .put
      (Key.marker x.source .outgoing .vertices none x.target)) failingPuts =
      (some ⟨.put, ">", 0, none, 0⟩, failingPuts)) {e : Engine σ} (he : e.Holds m) :
    ∃ (err : Error) (e' : Engine σ), (linkEdge x.id x.label x.source x.target).run.run
        (e.under failingPuts) = (.error err, e'.under failingPuts) ∧
      e'.Holds (m.set (.marker (x.scope .outgoing false) .edges x.id) (some (.text ""))) := by
  have hmarker : (RecordKey.marker (x.scope .outgoing false) .edges x.id).Valid :=
    ⟨hx.scope_valid .outgoing false, hx.id⟩
  have hcreate := Engine.guarded_passed
    (strike_failingPuts .create (by simp) (Key.marker x.source .outgoing .edges none x.id))
    (Engine.create_run ((he.stored _ hmarker).trans hfree) (.text ""))
  have hend : (linkEnd x.id ⟨x.source, .outgoing, x.target⟩ none).run.run (e.under failingPuts) = _ :=
    (Attempt.bind_ok hcreate _).trans (Attempt.bind_error (Engine.guarded_failed hput _ _) _)
  exact ⟨_, _, Attempt.bind_error (Attempt.bind_error hend _) _, he.write hmarker (.text "")⟩

/-- An edge gets its ends recorded, and an entry in no list. -/
theorem createEdge_failingPuts {e : Engine σ} (he : e.Holds m) {id label source target : String}
    (hx : Edge.Named ⟨id, label, source, target⟩) (hid : e.ids e.issued = id)
    (hsource : m (.plain (.element .vertex source)) ≠ none)
    (htarget : m (.plain (.element .vertex target)) ≠ none)
    (hnew : ∀ key ∈ Edge.created id, m (.plain key) = none)
    (hfree : m (.marker ⟨source, .outgoing, none⟩ .edges id) = none)
    (hput : FaultRule.strike (FaultRule.isAbout .put
      (Key.marker source .outgoing .vertices none target)) failingPuts =
      (some ⟨.put, ">", 0, none, 0⟩, failingPuts)) :
    ∃ m', ((createEdge label source target).run.run (e.under failingPuts)).2.behind.Holds m' ∧
      m' (.plain (.target id)) ≠ none ∧ ∀ s a, m' (.index s a) = m (.index s a) := by
  have htoken : Key.isToken id = true := hx.id.1
  obtain ⟨e1, hrun1, he1, hb1⟩ := slips_requireVertex hx.source.1 hsource e he
  obtain ⟨e2, hrun2, he2, hb2⟩ := slips_requireVertex hx.target.1 htarget e1 he1
  have hfresh : e2.ids e2.issued = id := by rw [hb2.ids, hb1.ids, hb2.issued, hb1.issued, hid]
  obtain ⟨e3, hrun3, he3, -⟩ := slips_createKey (r := .plain (.element .edge id)) htoken
    (hnew _ (by simp [Edge.created])) "" _ he2.issue
  obtain ⟨e4, hrun4, he4, -⟩ := slips_createKey (r := .plain (.label .edge id)) htoken
    (by simpa [Records.set] using hnew (.label .edge id) (by simp [Edge.created])) label e3 he3
  obtain ⟨e5, hrun5, he5, -⟩ := slips_createKey (r := .plain (.source id)) htoken
    (by simpa [Records.set] using hnew (.source id) (by simp [Edge.created])) source e4 he4
  obtain ⟨e6, hrun6, he6, -⟩ := slips_createKey (r := .plain (.target id)) htoken
    (by simpa [Records.set] using hnew (.target id) (by simp [Edge.created])) target e5 he5
  obtain ⟨err, e7, hrun7, he7⟩ := linkEdge_failingPuts hx
    (by simpa [Records.set, Edge.scope, Edge.near] using hfree) hput he6
  have hrecords : (do
      createKey (Key.element .edge id) ""
      createKey (Key.label .edge id) label
      createKey (Key.edgeFrom id) source
      createKey (Key.edgeTo id) target
      linkEdge id label source target
      createKey (Key.enumeration .edge id) ""
      return id : Attempt (Faulty σ) String).run.run
        (Engine.under { e2 with issued := e2.issued + 1 } failingPuts) =
      (.error err, e7.under failingPuts) :=
    (Attempt.bind_ok hrun3 _).trans <| (Attempt.bind_ok hrun4 _).trans <|
      (Attempt.bind_ok hrun5 _).trans <| (Attempt.bind_ok hrun6 _).trans (Attempt.bind_error hrun7 _)
  have hrun : (createEdge label source target).run.run (e.under failingPuts) =
      (.error err, e7.under failingPuts) := by
    rw [createEdge_valid hx.label hx.source.1 hx.target.1, Attempt.bind_ok hrun1,
      Attempt.bind_ok hrun2, Engine.freshId_bind, show (e2.under failingPuts).ids
        (e2.under failingPuts).issued = id from hfresh]
    exact hrecords
  rw [hrun]
  refine ⟨_, he7, ?_, fun s a => ?_⟩
  · simp [Records.set]
  · simp [Records.set]

/-- Two vertices, and an edge from the first to the second. -/
def onceOps : List RecordOp :=
  [.createVertex "person", .createVertex "person", .createEdge "knows" (elementId 0) (elementId 1)]

/-- An edge that is left half-created beside another one, and is dropped, takes the other's end. -/
theorem halfEdge_failingPuts :
    let before := ((RecordOp.runAll onceOps).run (Engine.ofStore Memory.empty)).2
    let half := ((createEdge "likes" (elementId 0) (elementId 1)).run.run
      (before.under failingPuts)).2.behind
    ∃ ids, ((adjacentIds (elementId 0) .outgoing .vertices none).run.run
        ((dropEdge (elementId 3)).run half).2).1 = .ok ids ∧ elementId 1 ∉ ids := by
  have hnamed : ∀ op ∈ onceOps, op.Named := by decide
  have hids : GoodIds elementId ((Multigraph.history elementId onceOps (.empty, 0)).2 + 1) := by
    decide
  have htracks := Tracks.memory hnamed (hids.mono (by omega))
  obtain ⟨ids, hread, hmem⟩ := Engine.halfEdge_history (e := Engine.ofStore Memory.empty)
    (fun _ => rfl) hnamed hids failingPuts "likes" (elementId 0) (elementId 1)
    (f := ⟨elementId 2, "knows", elementId 0, elementId 1⟩) (by decide) .outgoing false
  -- that the state tracks the history is all that is used of it, and it is never computed
  obtain ⟨before, hbefore⟩ : ∃ before,
    ((RecordOp.runAll onceOps).run (Engine.ofStore Memory.empty)).2 = before := ⟨_, rfl⟩
  rw [hbefore] at htracks hread hmem ⊢
  obtain ⟨hg, neighbors, hfits, hholds⟩ := htracks.keeps
  have hdamaged := Records.Damaged.refl
    ((Multigraph.history elementId onceOps (.empty, 0)).1.layout neighbors).record
  have hfresh : elementId 3 ∉ (Multigraph.history elementId onceOps (.empty, 0)).1.ids .edge := by
    decide
  have hname : ∀ i < 4, IsName (elementId i) := fun i hi => (hids.wellFormed i hi).isName
  have hx : Edge.Named ⟨elementId 3, "likes", elementId 0, elementId 1⟩ :=
    ⟨hname 3 (by omega), by decide, hname 0 (by omega), hname 1 (by omega)⟩
  have hid := show _ = elementId 3 from htracks.next
  have hfree := (hdamaged.free hg hfits hfresh ⟨elementId 0, .outgoing, none⟩).1
  obtain ⟨m', hhalf, hrecorded, hlists⟩ := createEdge_failingPuts hholds hx hid
    (hdamaged.marked_iff.2 (by decide)) (hdamaged.marked_iff.2 (by decide))
    (hdamaged.created_none hfresh) hfree (by decide)
  have hmarked := hhalf.stored (.plain (.target (elementId 3))) (hname 3 (by omega)).1
  intro _ half
  have hsame : half.contents lostList.record.text = before.contents lostList.record.text :=
    (hhalf.stored lostList.record lostList.valid).trans <|
      (hlists _ _).trans (hholds.stored lostList.record lostList.valid).symm
  have hlast : ∀ y ∈ (Multigraph.history elementId onceOps (.empty, 0)).1.edges,
      y.isAt ⟨elementId 0, .outgoing, none⟩ = true → y.far .outgoing = elementId 1 →
      y = ⟨elementId 2, "knows", elementId 0, elementId 1⟩ := by decide
  simp only [hid] at hread hmem
  exact ⟨ids, hread, fun hin => hmem.1 hin ⟨ne_of_eq_of_ne hmarked hrecorded, by decide, hsame, rfl,
    hlast⟩⟩

end Histories

end PropertyGraph
