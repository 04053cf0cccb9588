/-
What is kept at a scope, whatever became of the lists there: the markers, and the lists as far as
they can be read. A reader takes the list if there is one and the markers otherwise
(`completes_adjacentIds_shows`). Linking and unlinking an edge change what is kept at its four
scopes and nowhere else (`completes_linkEdge_postings`, `leads_unlinkEdge_postings`). Where a list
cannot be read, the one starts it anew and the other takes the marker along.
-/
import PropertyGraph.Proofs.DamagedLists

namespace PropertyGraph

open PropertyGraph.Graph

/-! ## What is kept at a scope -/

/-- The markers at a scope and the lists there, as far as they can be read. -/
@[ext]
structure Postings where
  marker : Adjacency → String → Option Blob
  list : Adjacency → Option (List String)

/-- What the records keep at a scope. -/
def Records.postings (m : Records) (s : Scope) : Postings where
  marker a t := m (.marker s a t)
  list a := m.ids? (.index s a)

/-- The id that stands for an edge at its scopes in a direction: its own among edges, that of its
other end among vertices. -/
def Edge.entry (x : Edge) (d : Direction) : Adjacency → String
  | .edges => x.id
  | .vertices => x.far d

namespace Postings

variable {p : Postings} {a : Adjacency} {id : String}

/-- What a reader finds: the ids of the list, or the marked names if no list can be read. -/
def Shows (p : Postings) (a : Adjacency) (id : String) : Prop :=
  match p.list a with
  | some ids => id ∈ ids
  | none => IsName id ∧ p.marker a id ≠ none

theorem shows_of_list {ids : List String} (h : p.list a = some ids) : p.Shows a id ↔ id ∈ ids := by
  rw [Shows, h]

theorem shows_of_none (h : p.list a = none) :
    p.Shows a id ↔ IsName id ∧ p.marker a id ≠ none := by
  rw [Shows, h]

/-- Linking marks the entries of an edge and appends them to the lists. A list that cannot be read
starts anew. -/
def link (p : Postings) (entry : Adjacency → String) : Postings where
  marker a t := if t = entry a then some (.text "") else p.marker a t
  list a := some ((p.list a).getD [] ++ [entry a])

/-- Unlinking takes an edge out of its list and one entry of the other end out of the other list.
The marker of an entry goes, unless a list still holds it. -/
def unlink (p : Postings) (entry : Adjacency → String) : Postings where
  marker a t :=
    if t = entry a ∧ ¬((p.list a).map (remaining · (entry a) (a = .edges))).any (·.contains (entry a))
    then none else p.marker a t
  list a := (p.list a).map (remaining · (entry a) (a = .edges))

variable {entry : Adjacency → String}

/-- After linking, a reader finds what the list held before and the entry. -/
theorem shows_link :
    (p.link entry).Shows a id ↔ (p.Shows a id ∧ p.list a ≠ none) ∨ id = entry a := by
  cases h : p.list a with
  | none => simp [Shows, link, h]
  | some ids => simp [Shows, link, h]

/-- After unlinking, a list has lost one entry of the other end; without a list nobody finds that
end any more. -/
theorem shows_unlink_of_list {ids : List String} (h : p.list .vertices = some ids) :
    (p.unlink entry).Shows .vertices id ↔ id ∈ ids.erase (entry .vertices) := by
  simp [Shows, unlink, h, remaining]

theorem shows_unlink_of_none (h : p.list .vertices = none) :
    (p.unlink entry).Shows .vertices id ↔ p.Shows .vertices id ∧ id ≠ entry .vertices := by
  by_cases he : id = entry .vertices
  · simp [Shows, unlink, h, he]
  · simp [Shows, unlink, h, he]

end Postings

/-! ## Changes at the scopes of an edge -/

/-- What is kept at each scope once it is changed at some of them. -/
def changedAt (change : Scope → Postings → Postings) (scopes : List Scope)
    (p : Scope → Postings) : Scope → Postings :=
  fun s => if s ∈ scopes then change s (p s) else p s

theorem changedAt_nil (change : Scope → Postings → Postings) (p : Scope → Postings) :
    changedAt change [] p = p := by
  funext s
  simp [changedAt]

theorem changedAt_cons {change : Scope → Postings → Postings} {scopes : List Scope} {s : Scope}
    (hnew : s ∉ scopes) (p : Scope → Postings) :
    changedAt change [s] (changedAt change scopes p) = changedAt change (s :: scopes) p := by
  funext s'
  by_cases h : s' = s
  · subst h
    simp [changedAt, hnew]
  · simp [changedAt, h]

namespace Edge

variable {x : Edge}

/-- What becomes of what is kept at a scope when the edge is linked there. -/
def linkAt (x : Edge) (s : Scope) (p : Postings) : Postings := p.link (x.entry s.direction)

/-- What becomes of it when the edge is unlinked there. -/
def unlinkAt (x : Edge) (s : Scope) (p : Postings) : Postings := p.unlink (x.entry s.direction)

/-- The scopes of an edge, the last it comes to first. -/
def scopes (x : Edge) : List Scope :=
  [x.scope .incoming true, x.scope .incoming false, x.scope .outgoing true, x.scope .outgoing false]

theorem mem_scopes {s : Scope} : s ∈ x.scopes ↔ x.isAt s = true := by
  constructor
  · intro h
    simp only [scopes, List.mem_cons, List.not_mem_nil, or_false] at h
    rcases h with rfl | rfl | rfl | rfl <;> exact x.isAt_scope _ _
  · intro h
    have hs := isAt_iff.1 h
    cases hd : s.direction <;> rw [hd] at hs <;> rcases hs with hs | hs <;> simp [scopes, hs]

theorem changedAt_scopes (x : Edge) (change : Scope → Postings → Postings)
    (p : Scope → Postings) (s : Scope) :
    changedAt change x.scopes p s = if x.isAt s then change s (p s) else p s := by
  simp only [changedAt, mem_scopes]

end Edge

section Changes

variable {m m' : Records} {s : Scope}

/-- Records at no scope are none of what is kept there. -/
theorem Records.postings_congr (hmarker : ∀ s a t, m' (.marker s a t) = m (.marker s a t))
    (hindex : ∀ s a, m' (.index s a) = m (.index s a)) : m'.postings = m.postings := by
  funext s
  ext1
  · funext a t
    exact hmarker s a t
  · funext a
    exact ids?_congr (hindex s a)

theorem Records.postings_setPlain (m : Records) (key : PlainKey) (value : Option Blob) :
    (m.set (.plain key) value).postings = m.postings :=
  postings_congr (fun _ _ _ => set_of_ne _ _ (by simp)) fun _ _ => set_of_ne _ _ (by simp)

/-- Nothing at a scope lies below the marker of an edge. -/
theorem Records.postings_withoutChildren (m : Records) (id : String) :
    (m.without fun r => r.owner? = some (.edge, id)).postings = m.postings :=
  postings_congr (fun _ _ _ => by simp [without, RecordKey.owner?])
    fun _ _ => by simp [without, RecordKey.owner?]

/-- A list of which every occurrence of an id was taken out does not hold it. -/
theorem any_contains_remaining (l : Option (List String)) (id : String) :
    (l.map (remaining · id true)).any (·.contains id) = false := by
  cases l <;> simp [remaining]

/-- Unlinking as seen by scopes. -/
theorem Records.Unlinked.postings {x : Edge} (h : m.Unlinked s x.id (x.far s.direction) m') :
    m'.postings = changedAt x.unlinkAt [s] m.postings := by
  funext s'
  by_cases hs : s' = s
  · subst hs
    ext1
    · funext a t
      cases a with
      | edges =>
        have hgone := any_contains_remaining (m.ids? (.index s' .edges)) x.id
        simp only [Records.postings, changedAt, List.mem_singleton, ite_true, Edge.unlinkAt,
          Postings.unlink, Edge.entry, decide_true, hgone, h.edgeMarker]
        simp
      | vertices => simp [Records.postings, changedAt, Edge.unlinkAt, Postings.unlink, Edge.entry,
          h.vertexMarker, h.vertexList]
    · funext a
      cases a with
      | edges => simp [Records.postings, changedAt, Edge.unlinkAt, Postings.unlink, Edge.entry,
          h.edgeList]
      | vertices => simp [Records.postings, changedAt, Edge.unlinkAt, Postings.unlink, Edge.entry,
          h.vertexList]
  · ext1
    · funext a t
      simpa [Records.postings, changedAt, hs] using h.marker s' a t hs
    · funext a
      simpa [Records.postings, changedAt, hs] using h.list s' a hs

end Changes

variable {σ : Type} [Backend σ] [LawfulBackend σ] {m : Records} {s : Scope} {x : Edge}

/-! ## Reading -/

section Reading

omit [Backend σ] [LawfulBackend σ] in
theorem lastToken_marker {s : Scope} {a : Adjacency} {t : String}
    (h : (RecordKey.marker s a t).Valid) : Key.lastToken (RecordKey.marker s a t).text = t := by
  rw [Key.lastToken, h.tokens_text]
  simp [RecordKey.tokens]

/-- The names that the markers at a scope give. -/
theorem Engine.Holds.mem_marked {e : Engine σ} (he : e.Holds m) {s : Scope} (hs : s.Valid)
    (a : Adjacency) (i : String) :
    i ∈ ((e.keys.filter (KeyPattern.markers s a).accepts).map Key.lastToken).filter
        (· != Key.indexToken) ↔ IsName i ∧ m (.marker s a i) ≠ none := by
  simp only [List.mem_filter, List.mem_map, bne_iff_ne]
  constructor
  · rintro ⟨⟨key, ⟨hkey, hacc⟩, rfl⟩, hne⟩
    obtain ⟨r, hr, rfl⟩ := he.only key (Engine.mem_keys_iff.1 hkey)
    rcases (KeyPattern.markers_accepts hr s a).1 hacc with rfl | ⟨t, rfl⟩
    · exact absurd (lastToken_index s hr a) hne
    · rw [lastToken_marker hr]
      exact ⟨hr.2, (he.mem_keys_iff hr).1 hkey⟩
  · rintro ⟨hname, hthere⟩
    have hr : (RecordKey.marker s a i).Valid := ⟨hs, hname⟩
    exact ⟨⟨_, ⟨(he.mem_keys_iff hr).2 hthere, (KeyPattern.markers_accepts hr s a).2 (.inr ⟨i, rfl⟩)⟩,
      lastToken_marker hr⟩, hname.2⟩

/-- Reading the neighbours at a scope gives what is shown there. -/
theorem completes_adjacentIds_shows (hs : s.Valid) (a : Adjacency) (m : Records) :
    Completes m (adjacentIds s.vertex s.direction a s.label : Attempt σ _) fun ids m' =>
      (∀ i, i ∈ ids ↔ (m.postings s).Shows a i) ∧ m' = m := by
  refine (completes_readIndex (r := .index s a) hs m).bind fun found m' hfound => ?_
  obtain ⟨rfl, rfl⟩ := hfound
  cases hread : m'.ids? (.index s a) with
  | some ids => exact .pure ⟨fun i => (Postings.shows_of_list hread).symm, rfl⟩
  | none =>
    refine .of_run fun e he => ?_
    have hrun := Engine.keysMatching_run (KeyPattern.parse_markers hs a) rfl
      (by simp [KeyPattern.isExact, KeyPattern.markers]) e
    exact ⟨_, Attempt.bind_ok hrun _, fun i =>
      (he.mem_marked hs a i).trans (Postings.shows_of_none (p := m'.postings s) hread).symm, rfl⟩

end Reading

/-! ## Unlinking and dropping an edge -/

section Unlinking

/-- Unlinking an edge at both ends: what holds as it goes from scope to scope holds at last. -/
theorem leads_unlinkEdge_of {P : List Scope → Records → Prop}
    (hstep : ∀ m d b scopes, x.scope d b ∉ scopes → P scopes m →
      Leads m (unlinkEnd x.id (x.near d) d (some (x.far d)) (x.scope d b).label : Run σ Unit)
        fun _ m' => P (x.scope d b :: scopes) m')
    (h : P [] m) :
    Leads m (unlinkEdge x.id (some x.label) (some x.source) (some x.target) : Run σ Unit)
      fun _ m' => P x.scopes m' := by
  have hend : ∀ {m : Records} (d : Direction) (scopes : List Scope),
      P scopes m → (∀ b, x.scope d b ∉ scopes) →
      Leads m (do
        unlinkEnd x.id (x.near d) d (some (x.far d)) none
        unlinkEnd x.id (x.near d) d (some (x.far d)) (some x.label) : Run σ Unit) fun _ m' =>
        P (x.scope d true :: x.scope d false :: scopes) m' := by
    intro m d scopes h hnew
    refine Leads.bind (hstep m d false scopes (hnew false) h) fun _ m' h' => ?_
    refine hstep m' d true _ ?_ h'
    simp [Edge.scope_inj, hnew]
  refine Leads.bind (hend .outgoing [] h (by simp)) fun _ m' h' => ?_
  refine Leads.bind (hend .incoming _ h' ?_) fun _ m'' h'' => .pure h''
  simp [Edge.scope_inj]

/-- Unlinking an edge changes what is kept at its scopes. -/
theorem leads_unlinkEdge_postings (hx : x.Named) (m : Records) :
    Leads m (unlinkEdge x.id (some x.label) (some x.source) (some x.target) : Run σ Unit)
      fun _ m' => m'.postings = changedAt x.unlinkAt x.scopes m.postings := by
  refine leads_unlinkEdge_of (P := fun scopes m' =>
    m'.postings = changedAt x.unlinkAt scopes m.postings) (fun m1 d b scopes hnew h => ?_)
    (changedAt_nil _ _).symm
  refine (leads_unlinkEnd (hx.scope_valid d b) hx.id (hx.far d) m1).mono fun _ m' hm => ?_
  rw [Records.Unlinked.postings hm, h, changedAt_cons hnew]

/-- Dropping an edge unlinks it as far as its label and ends are recorded, and removes the records
about it. -/
theorem leads_dropEdge_of {id : String} (hid : Key.isToken id = true)
    (label source target : Option String)
    (hlabel : (m (.plain (.label .edge id))).map Blob.string = label)
    (hsource : (m (.plain (.source id))).map Blob.string = source)
    (htarget : (m (.plain (.target id))).map Blob.string = target) {Q : Records → Prop}
    (hunlink : Leads (m.set (.plain (.listing .edge id)) none)
      (unlinkEdge id label source target : Run σ Unit) fun _ m' => Q m') :
    Leads m (dropEdge id : Run σ Unit) fun _ m'' => ∃ m', Q m' ∧
      m'' = (m'.without fun r => r.owner? = some (.edge, id)).set (.plain (.element .edge id)) none := by
  subst hlabel hsource htarget
  refine Acts.leads_bind (.quietly (does_readText (r := .plain (.label .edge id)) hid m)) ?_
  refine Acts.leads_bind (.quietly (does_readText (r := .plain (.source id)) hid m)) ?_
  refine Acts.leads_bind (.quietly (does_readText (r := .plain (.target id)) hid m)) ?_
  refine Acts.leads_bind (acts_deleteQuietly (r := .plain (.listing .edge id)) hid m) ?_
  refine Leads.bind hunlink fun _ m1 h1 => ?_
  refine Acts.leads_bind (acts_deleteChildren hid .edge m1) ?_
  exact (acts_deleteQuietly (r := .plain (.element .edge id)) hid _).leads.mono fun _ _ h2 =>
    ⟨m1, h1, h2.2⟩

/-- Dropping an edge of which label and ends are recorded. -/
theorem leads_dropEdge_postings (hx : x.Named)
    (hlabel : m (.plain (.label .edge x.id)) = some (.text x.label))
    (hsource : m (.plain (.source x.id)) = some (.text x.source))
    (htarget : m (.plain (.target x.id)) = some (.text x.target)) :
    Leads m (dropEdge x.id : Run σ Unit) fun _ m' =>
      m'.postings = changedAt x.unlinkAt x.scopes m.postings := by
  have hunlink := leads_unlinkEdge_postings (σ := σ) hx (m.set (.plain (.listing .edge x.id)) none)
  refine (leads_dropEdge_of hx.id.1 x.label x.source x.target (by rw [hlabel]; rfl)
    (by rw [hsource]; rfl) (by rw [htarget]; rfl) hunlink).mono fun _ m'' h => ?_
  obtain ⟨m', hm', rfl⟩ := h
  rw [Records.postings_setPlain, Records.postings_withoutChildren, hm', Records.postings_setPlain]

end Unlinking

/-! ## Linking an edge -/

section Linking

open Engine

theorem completes_create {r : RecordKey} (hr : r.Valid) (hnew : m r = none) (value : Blob) :
    Completes m (call (Backend.create r.text value) : Attempt σ Nat) fun _ m' =>
      m' = m.set r (some value) := by
  intro e he
  have hfree : e.contents r.text = none := by rw [he.stored r hr, hnew]
  rw [Engine.create_run hfree]
  exact ⟨_, he.write hr value, _, rfl, rfl⟩

theorem completes_put {r : RecordKey} (hr : r.Valid) (m : Records) (value : Blob) :
    Completes m (call (Backend.put r.text value) : Attempt σ Nat) fun _ m' =>
      m' = m.set r (some value) := by
  intro e he
  rw [Engine.put_run]
  exact ⟨_, he.write hr value, _, rfl, rfl⟩

/-- Appending to a list of ids, which starts anew if it cannot be read. -/
theorem completes_pushIndex {r : RecordKey} (hr : r.Valid) {id : String} {distinct : Bool}
    (hnew : distinct = true → id ∉ (m.ids? r).getD []) :
    Completes m (pushIndex r.text id distinct : Attempt σ Unit) fun _ m' =>
      m' = m.set r (some (idList ((m.ids? r).getD [] ++ [id]))) := by
  refine (completes_readIndex hr m).bind ?_
  rintro _ m ⟨rfl, rfl⟩
  have hskip : (distinct && ((m.ids? r).getD []).contains id) = false := by
    cases distinct with
    | false => rfl
    | true => simpa using hnew rfl
  simp only [hskip]
  exact (Does.completes (.update_bind hr fun _ => .pure () _)).mono fun _ _ h => h.2

/-- The records in the order in which linking writes them. -/
theorem Records.postings_linked (m : Records) (x : Edge) (s : Scope) :
    ((((m.set (.marker s .edges x.id) (some (.text ""))).set
      (.marker s .vertices (x.far s.direction)) (some (.text ""))).set
      (.index s .edges) (some (idList ((m.ids? (.index s .edges)).getD [] ++ [x.id])))).set
      (.index s .vertices)
        (some (idList ((m.ids? (.index s .vertices)).getD [] ++ [x.far s.direction])))).postings =
      changedAt x.linkAt [s] m.postings := by
  funext s'
  by_cases hs : s' = s
  · subst hs
    ext1
    · funext a t
      by_cases ht : t = x.entry s'.direction a
      · cases a <;> simp_all [Records.postings, changedAt, Edge.linkAt, Postings.link, Edge.entry,
          Records.set]
      · cases a <;> simp_all [Records.postings, changedAt, Edge.linkAt, Postings.link, Edge.entry,
          Records.set]
    · funext a
      cases a <;> simp [Records.postings, changedAt, Edge.linkAt, Postings.link, Edge.entry,
        Records.set, Records.ids?, ids?_idList]
  · ext1
    · funext a t
      simp [Records.postings, changedAt, Records.set, hs]
    · funext a
      simp [Records.postings, changedAt, Records.set, Records.ids?, hs]

/-- Nothing at a scope names an edge yet. -/
def Postings.Free (p : Postings) (edge : String) : Prop :=
  p.marker .edges edge = none ∧ edge ∉ (p.list .edges).getD []

theorem completes_linkEnd (hx : x.Named) (d : Direction) (b : Bool)
    (hfree : (m.postings (x.scope d b)).Free x.id) :
    Completes m (linkEnd x.id ⟨x.near d, d, x.far d⟩ (x.scope d b).label : Attempt σ Unit)
      fun _ m' => (∀ key, m' (.plain key) = m (.plain key)) ∧
        m'.postings = changedAt x.linkAt [x.scope d b] m.postings := by
  have hs := hx.scope_valid d b
  have hmarker : (RecordKey.marker (x.scope d b) .edges x.id).Valid := ⟨hs, hx.id⟩
  have hneighbor : (RecordKey.marker (x.scope d b) .vertices (x.far d)).Valid := ⟨hs, hx.far d⟩
  refine (completes_create hmarker hfree.1 _).bind ?_
  rintro - _ rfl
  refine (completes_put hneighbor _ _).bind ?_
  rintro - _ rfl
  refine (completes_pushIndex (r := .index (x.scope d b) .edges) hs fun _ => ?_).bind ?_
  · rw [Records.ids?_set_of_ne _ _ (by simp), Records.ids?_set_of_ne _ _ (by simp)]
    exact hfree.2
  rintro - _ rfl
  refine (completes_pushIndex (r := .index (x.scope d b) .vertices) hs (by simp)).mono ?_
  rintro - _ rfl
  have hlists := m.postings_linked x (x.scope d b)
  refine ⟨fun key => by simp [Records.set], ?_⟩
  simp only [Records.ids?_set_of_ne, ne_eq, reduceCtorEq, RecordKey.index.injEq, and_false,
    not_false_eq_true]
  exact hlists

/-- Linking a new edge changes what is kept at its scopes. -/
theorem completes_linkEdge_postings (hx : x.Named) (hfree : ∀ s, (m.postings s).Free x.id) :
    Completes m (linkEdge x.id x.label x.source x.target : Attempt σ Unit) fun _ m' =>
      (∀ key, m' (.plain key) = m (.plain key)) ∧
        m'.postings = changedAt x.linkAt x.scopes m.postings := by
  let Linked (scopes : List Scope) (m' : Records) : Prop :=
    (∀ key, m' (.plain key) = m (.plain key)) ∧ m'.postings = changedAt x.linkAt scopes m.postings
  have hlink : ∀ {m1 : Records} (d : Direction) (b : Bool) (scopes : List Scope),
      x.scope d b ∉ scopes → Linked scopes m1 →
      Completes m1 (linkEnd x.id ⟨x.near d, d, x.far d⟩ (x.scope d b).label : Attempt σ Unit)
        fun _ m' => Linked (x.scope d b :: scopes) m' := by
    intro m1 d b scopes hnew h
    have hsame : m1.postings (x.scope d b) = m.postings (x.scope d b) := by
      rw [h.2, changedAt, if_neg hnew]
    refine (completes_linkEnd hx d b (hsame ▸ hfree _)).mono fun _ m' hm => ?_
    exact ⟨fun key => (hm.1 key).trans (h.1 key), by rw [hm.2, h.2, changedAt_cons hnew]⟩
  have hend : ∀ {m1 : Records} (d : Direction) (scopes : List Scope),
      Linked scopes m1 → (∀ b, x.scope d b ∉ scopes) →
      Completes m1 (do
        linkEnd x.id ⟨x.near d, d, x.far d⟩ none
        linkEnd x.id ⟨x.near d, d, x.far d⟩ (some x.label) : Attempt σ Unit) fun _ m' =>
        Linked (x.scope d true :: x.scope d false :: scopes) m' := by
    intro m1 d scopes h hnew
    refine Completes.bind (hlink d false scopes (hnew false) h) fun _ m' h' => ?_
    refine hlink d true _ ?_ h'
    simp [Edge.scope_inj, hnew]
  have hnone : Linked [] m := ⟨fun _ => rfl, (changedAt_nil _ _).symm⟩
  refine Completes.bind (hend .outgoing [] hnone (by simp)) fun _ m' h' => ?_
  refine Completes.bind (hend .incoming _ h' ?_) fun _ m'' h'' => .pure h''
  simp [Edge.scope_inj]

end Linking

/-! ## Lists that came to harm -/

section Harmed

omit [Backend σ] [LawfulBackend σ]

variable {L : Layout} {a : Adjacency}

/-- A list that came to harm and can still be read is as it was. -/
theorem Records.Damaged.list_eq (h : L.record.Damaged m) {ids : List String}
    (hids : (m.postings s).list a = some ids) : ids = L.listed s a := by
  rcases h.list s a with hsame | hnone
  · rw [← L.getD_list?]
    cases hkept : L.list? s a with
    | none => simp [postings, ids?, hsame, L.record_index, hkept] at hids
    | some old => simpa [postings, ids?, hsame, L.record_index, hkept, ids?_idList, eq_comm] using hids
  · simp [postings, hnone] at hids

theorem Records.Damaged.marker_eq (h : L.record.Damaged m) (t : String) :
    (m.postings s).marker a t = if t ∈ L.listed s a then some (.text "") else none :=
  h.other (.marker s a t) (by simp)

/-- A reader finds what was listed, by the list or by the markers. -/
theorem Records.Damaged.shows_iff (h : L.record.Damaged m) (hnames : ∀ t ∈ L.listed s a, IsName t)
    (t : String) : (m.postings s).Shows a t ↔ t ∈ L.listed s a := by
  cases hlist : (m.postings s).list a with
  | some ids => rw [Postings.shows_of_list hlist, h.list_eq hlist]
  | none =>
    rw [Postings.shows_of_none hlist, h.marker_eq]
    constructor
    · intro hmarked
      by_contra hnot
      exact hmarked.2 (if_neg hnot)
    · intro ht
      exact ⟨hnames t ht, by simp [ht]⟩

end Harmed

end PropertyGraph
