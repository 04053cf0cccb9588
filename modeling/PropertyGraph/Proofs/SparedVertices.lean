/-
What is kept of vertices themselves: that they are there, their labels, and what finds them.
Whatever fails, only creating and dropping a vertex touch these records, and only its own. All
other operations spare them (`Spares`), provided that where names should be recorded there are
names, which every operation sees to (`Records.Legible`).
-/
import PropertyGraph.Proofs.Interruption
import PropertyGraph.Proofs.Postings
import PropertyGraph.Proofs.RecordOps

namespace PropertyGraph

open PropertyGraph.Graph

variable {σ α β : Type}

/-! ## Records of vertices -/

/-- The vertex of which a record says that it is there, what its label is, or where to find it. -/
def RecordKey.vertex? : RecordKey → Option String
  | .plain (.element .vertex id) | .plain (.listing .vertex id) | .plain (.label .vertex id)
  | .plain (.labelEntry id _) => some id
  | _ => none

/-- Where names are recorded, a value is made of names. -/
def RecordKey.Carries : RecordKey → Blob → Prop
  | .plain (.source id), v | .plain (.target id), v => IsName id ∧ IsName v.string
  | .plain (.label .edge _), v => Key.isToken v.string = true
  | .marker s _ _, _ => IsName s.vertex
  | .index s _, v => IsName s.vertex ∧ ∀ ids, v.ids? = some ids → ∀ id ∈ ids, IsName id
  | _, _ => True

namespace Records

variable {m m' m'' : Records} {r : RecordKey}

/-- All records carry what they should. -/
def Legible (m : Records) : Prop := ∀ r v, m r = some v → r.Carries v

/-- Legible records in which all that is kept of vertices themselves is as before. -/
structure Spared (m m' : Records) : Prop where
  legible : m'.Legible
  vertex : ∀ r, r.vertex? ≠ none → m' r = m r

/-- Records that were there before or are gone. -/
theorem Legible.of_gone (hm : m.Legible) (h : ∀ r, m' r = m r ∨ m' r = none) : m'.Legible := by
  intro r v hv
  rcases h r with hsame | hnone
  · exact hm r v (hsame ▸ hv)
  · cases hnone.symm.trans hv

theorem Legible.set (hm : m.Legible) {value : Option Blob} (hv : ∀ v, value = some v → r.Carries v) :
    (m.set r value).Legible := by
  intro r' v h
  by_cases hr : r' = r
  · subst hr
    exact hv v (by rwa [set_self] at h)
  · rw [set_of_ne m value hr] at h
    exact hm r' v h

theorem Spared.refl (hm : m.Legible) : m.Spared m := ⟨hm, fun _ _ => rfl⟩

theorem Spared.trans (h : m.Spared m') (h' : m'.Spared m'') : m.Spared m'' :=
  ⟨h'.legible, fun r hr => (h'.vertex r hr).trans (h.vertex r hr)⟩

theorem Spared.set (hm : m.Legible) (hr : r.vertex? = none) {value : Option Blob}
    (hv : ∀ v, value = some v → r.Carries v) : m.Spared (m.set r value) where
  legible := hm.set hv
  vertex r' hr' := by
    refine set_of_ne m value ?_
    rintro rfl
    exact hr' hr

end Records

variable [Backend σ] [LawfulBackend σ]

/-- Whatever fails, an operation on legible records spares the vertices and gives a value with a
property. -/
def Spares (operation : Run (Faulty σ) α) (post : α → Prop) : Prop :=
  ∀ m : Records, m.Legible → Endures m operation fun a m' _ => post a ∧ m.Spared m'

/-- The value, if an operation gives one, has a property. -/
def IfOk (post : α → Prop) (outcome : Except Error α) : Prop := ∀ a, outcome = .ok a → post a

/-! ## Sequences -/

namespace Spares

section Sequences

variable {p : α → Prop} {q : β → Prop}

theorem pure {a : α} (h : p a) : Spares (pure a : Run (Faulty σ) α) p :=
  fun _ hm => .pure ⟨h, .refl hm⟩

theorem bind {x : Run (Faulty σ) α} {f : α → Run (Faulty σ) β} (hx : Spares x p)
    (hf : ∀ a, p a → Spares (f a) q) : Spares (x >>= f) q := by
  intro m hm
  refine Endures.bind (hx m hm) fun a m' _ h => (hf a h.1 m' h.2.legible).mono fun b m'' _ h' => ?_
  exact ⟨h'.1, h.2.trans h'.2⟩

theorem forM {f : α → Run (Faulty σ) Unit} {l : List α}
    (hf : ∀ a ∈ l, Spares (f a) fun _ => True) : Spares (l.forM f) fun _ => True := by
  induction l with
  | nil => exact .pure trivial
  | cons a l ih =>
    exact .bind (hf a List.mem_cons_self) fun _ _ => ih fun b hb => hf b (List.mem_cons_of_mem _ hb)

/-- An operation that may fail, before another one. -/
theorem andThen {x : Attempt (Faulty σ) α} {f : α → Attempt (Faulty σ) β} (hx : Spares x.run (IfOk p))
    (hf : ∀ a, p a → Spares (f a).run (IfOk q)) : Spares (x >>= f).run (IfOk q) := by
  intro m hm
  refine Endures.andThen (hx m hm) (fun a m' _ h => ?_) fun err _ _ h => ⟨fun _ hb => (by cases hb), h.2⟩
  exact (hf a (h.1 a rfl) m' h.2.legible).mono fun b m'' _ h' => ⟨h'.1, h.2.trans h'.2⟩

/-- An operation that may fail and gives a value without doing anything. -/
theorem ok {a : α} (h : p a) : Spares (Pure.pure a : Attempt (Faulty σ) α).run (IfOk p) :=
  .pure fun _ ha => Except.ok.inj ha ▸ h

/-- Where a failure is noted, a value stands in for the missing one. -/
theorem quietly {key : String} {instead : α} {x : Attempt (Faulty σ) α} (hx : Spares x.run (IfOk p))
    (hinstead : p instead) : Spares (Engine.quietly key instead x) p := by
  intro m hm
  exact (hx m hm).quietly (fun a _ _ h => ⟨h.1 a rfl, h.2⟩) fun _ _ _ h => ⟨hinstead, h.2⟩

end Sequences

/-! ## Calls -/

section Calls

open Engine

variable {r : RecordKey}

/-- An operation that only reads. -/
theorem of_reading {x : Attempt (Faulty σ) α} {P : Records → α → Prop} {p : α → Prop}
    (hx : ∀ m, Endures m x.run fun outcome m' _ => m' = m ∧ ∀ a, outcome = .ok a → P m a)
    (h : ∀ m : Records, m.Legible → ∀ a, P m a → p a) : Spares x.run (IfOk p) := by
  intro m hm
  refine (hx m).mono fun outcome m' _ hread => ?_
  rw [hread.1]
  exact ⟨fun a ha => h m hm a (hread.2 a ha), .refl hm⟩

/-- An operation that writes one record. -/
theorem of_written {x : Attempt (Faulty σ) α} {value : Option Blob} (hr : r.vertex? = none)
    (hv : ∀ v, value = some v → r.Carries v)
    (hx : ∀ m, Endures m x.run fun outcome m' _ => Written m r value outcome m') :
    Spares x.run (IfOk fun _ => True) := by
  intro m hm
  refine (hx m).mono fun outcome m' _ h => ⟨fun _ _ => trivial, ?_⟩
  rcases h with ⟨_, -, rfl⟩ | ⟨_, -, rfl⟩
  · exact .refl hm
  · exact .set hm hr hv

theorem put (hr : r.Valid) (hv : r.vertex? = none) {value : Blob} (hc : r.Carries value) :
    Spares (call (Backend.put r.text value) : Attempt (Faulty σ) _).run (IfOk fun _ => True) :=
  of_written hv (fun _ h => Option.some.inj h ▸ hc) fun m => (endures_put hr m value).mono
    fun _ _ _ h => h.2

theorem update (hr : r.Valid) (hv : r.vertex? = none) {value : Blob} (hc : r.Carries value) :
    Spares (call (Backend.update r.text value) : Attempt (Faulty σ) _).run (IfOk fun _ => True) :=
  of_written hv (fun _ h => Option.some.inj h ▸ hc) fun m => (endures_update hr m value).mono
    fun _ _ _ h => h.2

theorem create (hr : r.Valid) (hv : r.vertex? = none) {value : Blob} (hc : r.Carries value) :
    Spares (call (Backend.create r.text value) : Attempt (Faulty σ) _).run (IfOk fun _ => True) :=
  of_written hv (fun _ h => Option.some.inj h ▸ hc) fun m => (endures_create hr m value).mono
    fun _ _ _ h => h.2.1

theorem createKey (hr : r.Valid) (hv : r.vertex? = none) {value : String}
    (hc : r.Carries (.text value)) :
    Spares (createKey r.text value : Attempt (Faulty σ) Unit).run (IfOk fun _ => True) :=
  of_written hv (fun _ h => Option.some.inj h ▸ hc) fun m => (endures_createKey hr m value).mono
    fun _ _ _ h => h.2.1

theorem deleteQuietly (hr : r.Valid) (hv : r.vertex? = none) :
    Spares (deleteQuietly r.text : Run (Faulty σ) Unit) fun _ => True :=
  .quietly (of_written hv (fun _ h => by cases h) fun m => (endures_delete hr m).mono fun _ _ _ h => h.2)
    trivial

/-- The text of a record, which carries what it should. -/
theorem readText (hr : r.Valid) :
    Spares (readText r.text : Attempt (Faulty σ) _).run
      (IfOk fun text? => ∀ text, text? = some text → ∃ v : Blob, v.string = text ∧ r.Carries v) := by
  refine of_reading (endures_readText hr) fun m hm text? h text htext => ?_
  obtain ⟨v, hv, hstring⟩ := Option.map_eq_some_iff.1 (h.symm.trans htext)
  exact ⟨v, hstring, hm r v hv⟩

/-- What keys a pattern finds: those of records that match, each with a value that it may carry. -/
def Found (p : KeyPattern) (keys : List String) : Prop :=
  ∀ key ∈ keys, ∃ (r : RecordKey) (v : Blob), key = r.text ∧ r.Valid ∧ p.accepts r.text = true ∧
    r.Carries v

omit [Backend σ] [LawfulBackend σ] in
theorem Found.of_records {m : Records} (hm : m.Legible) {p : KeyPattern} {rs : List RecordKey}
    (hrs : m.Found p rs) : Found p (rs.map RecordKey.text) := by
  intro key hkey
  obtain ⟨r, hr, rfl⟩ := List.mem_map.1 hkey
  obtain ⟨hvalid, hthere, haccepts⟩ := (hrs r).1 hr
  obtain ⟨v, hv⟩ := Option.ne_none_iff_exists'.1 hthere
  exact ⟨r, v, rfl, hvalid, haccepts, hm r v hv⟩

section

variable {pattern : String} {p : KeyPattern} (hread : KeyPattern.parse pattern = .ok p)
  (heverything : p.isEverything = false) (hexact : p.isExact = false)

include hread heverything hexact

theorem keysMatching : Spares (keysMatching pattern : Attempt (Faulty σ) _).run (IfOk (Found p)) := by
  refine of_reading (endures_keysMatching hread heverything hexact) fun m hm keys h => ?_
  obtain ⟨rs, rfl, hrs⟩ := h
  exact .of_records hm hrs

theorem collectQuietly : Spares (collectQuietly pattern : Run (Faulty σ) _) (Found p) := by
  intro m hm
  refine (endures_collectQuietly hread heverything hexact m).mono fun keys m' _ h => ?_
  obtain ⟨rfl, rs, rfl, hrs⟩ := h
  refine ⟨?_, .refl hm⟩
  rcases hrs with hrs | ⟨rfl, -⟩
  · exact .of_records hm hrs
  · intro key hkey
    cases hkey

end

end Calls

/-! ## Lists of ids -/

section Lists

open Engine

variable {s : Scope}

/-- The ids in a list are names, and so is the vertex of the list. -/
theorem readIndex (hs : s.Valid) (a : Adjacency) :
    Spares (readIndex (RecordKey.index s a).text : Attempt (Faulty σ) _).run
      (IfOk fun ids? => ∀ ids, ids? = some ids → IsName s.vertex ∧ ∀ id ∈ ids, IsName id) := by
  refine of_reading (endures_readIndex (r := .index s a) hs) fun m hm ids? h ids hids => ?_
  obtain ⟨v, hv, hlist⟩ := Option.bind_eq_some_iff.1 (h.symm.trans hids)
  have hcarries : RecordKey.Carries (.index s a) v := hm _ v hv
  exact ⟨hcarries.1, hcarries.2 ids hlist⟩

theorem carries_idList {a : Adjacency} (hs : IsName s.vertex) {ids : List String}
    (hids : ∀ id ∈ ids, IsName id) : RecordKey.Carries (.index s a) (idList ids) := by
  refine ⟨hs, fun found hfound => ?_⟩
  rw [ids?_idList] at hfound
  exact Option.some.inj hfound ▸ hids

theorem pushIndex (hs : s.Valid) (hvertex : IsName s.vertex) (a : Adjacency) {id : String}
    (hid : IsName id) (distinct : Bool) :
    Spares (pushIndex (RecordKey.index s a).text id distinct : Attempt (Faulty σ) _).run
      (IfOk fun _ => True) := by
  refine .andThen (readIndex hs a) fun ids? hids => ?_
  have hnames : ∀ i ∈ ids?.getD [] ++ [id], IsName i := by
    intro i hi
    rcases List.mem_append.1 hi with hi | hi
    · cases ids? with
      | none => cases hi
      | some ids => exact (hids ids rfl).2 i hi
    · exact List.mem_singleton.1 hi ▸ hid
  dsimp only
  split
  · exact .ok trivial
  · exact .andThen (update (r := .index s a) hs rfl (carries_idList hvertex hnames)) fun _ _ => .ok trivial

theorem removeFromIndex (hs : s.Valid) (a : Adjacency) (id : String) (all : Bool) :
    Spares (removeFromIndex (RecordKey.index s a).text id all : Attempt (Faulty σ) _).run
      (IfOk fun _ => True) := by
  refine .andThen (readIndex hs a) fun ids? hids => ?_
  cases ids? with
  | none => exact .ok trivial
  | some ids =>
    obtain ⟨hvertex, hnames⟩ := hids ids rfl
    have hleft : ∀ i ∈ (if all then ids.filter (· != id) else ids.erase id), IsName i := by
      intro i hi
      split at hi
      · exact hnames i (List.mem_of_mem_filter hi)
      · exact hnames i (List.mem_of_mem_erase hi)
    dsimp only
    generalize (if all then ids.filter (· != id) else ids.erase id) = left at hleft ⊢
    split
    · exact .andThen (update (r := .index s a) hs rfl (carries_idList hvertex hleft)) fun _ _ =>
        .ok trivial
    · exact .ok trivial

/-- The ids next to a vertex are names. -/
theorem adjacentIds (hs : s.Valid) (a : Adjacency) :
    Spares (adjacentIds s.vertex s.direction a s.label : Attempt (Faulty σ) _).run
      (IfOk fun ids => ∀ id ∈ ids, IsName id) := by
  refine .andThen (readIndex hs a) fun ids? hids => ?_
  cases ids? with
  | some ids => exact .ok (hids ids rfl).2
  | none =>
    refine .andThen (keysMatching (KeyPattern.parse_markers hs a) rfl
      (by simp [KeyPattern.isExact, KeyPattern.markers])) fun keys hkeys => .ok fun id hid => ?_
    obtain ⟨hid, hne⟩ := List.mem_filter.1 hid
    obtain ⟨key, hkey, rfl⟩ := List.mem_map.1 hid
    obtain ⟨r, -, rfl, hr, haccepts, -⟩ := hkeys key hkey
    rcases (KeyPattern.markers_accepts hr s a).1 haccepts with rfl | ⟨t, rfl⟩
    · rw [lastToken_index s hr] at hne
      simp at hne
    · rw [lastToken_marker hr]
      exact hr.2

end Lists

/-! ## Edges -/

section Edges

variable {edge : String}

/-- The ids of the edges at a vertex are names. -/
theorem incidentEdges {id : String} (hid : Key.isToken id = true) :
    Spares (incidentEdges id : Attempt (Faulty σ) _).run (IfOk fun ids => ∀ i ∈ ids, IsName i) := by
  refine .andThen (adjacentIds (scope_valid hid .outgoing) .edges) fun leaving hleaving => ?_
  refine .andThen (adjacentIds (scope_valid hid .incoming) .edges) fun entering hentering => ?_
  refine .ok fun i hi => ?_
  rw [mem_union, mem_union] at hi
  rcases hi with (hi | hi) | hi
  · cases hi
  · exact hleaving i hi
  · exact hentering i hi

theorem linkEnd {s : Scope} (hs : s.Valid) (hvertex : IsName s.vertex) (hedge : IsName edge)
    {other : String} (hother : IsName other) :
    Spares (linkEnd edge ⟨s.vertex, s.direction, other⟩ s.label : Attempt (Faulty σ) Unit).run
      (IfOk fun _ => True) := by
  refine .andThen (create (r := .marker s .edges edge) ⟨hs, hedge⟩ rfl hvertex) fun _ _ => ?_
  refine .andThen (put (r := .marker s .vertices other) ⟨hs, hother⟩ rfl hvertex) fun _ _ => ?_
  exact .andThen (pushIndex hs hvertex .edges hedge true) fun _ _ =>
    pushIndex hs hvertex .vertices hother false

theorem linkEdge {x : Edge} (hx : x.Named) :
    Spares (linkEdge x.id x.label x.source x.target : Attempt (Faulty σ) Unit).run
      (IfOk fun _ => True) := by
  have hend : ∀ d, Spares (do
      Graph.linkEnd x.id ⟨x.near d, d, x.far d⟩ none
      Graph.linkEnd x.id ⟨x.near d, d, x.far d⟩ (some x.label) : Attempt (Faulty σ) Unit).run
      (IfOk fun _ => True) := by
    intro d
    refine .andThen (linkEnd (hx.scope_valid d false) (hx.near d) hx.id (hx.far d)) fun _ _ => ?_
    exact linkEnd (hx.scope_valid d true) (hx.near d) hx.id (hx.far d)
  refine .andThen (hend .outgoing) fun _ _ => ?_
  exact .andThen (hend .incoming) fun _ _ => .ok trivial

/-- The records of an edge. -/
theorem edgeRecords {x : Edge} (hx : x.Named) :
    Spares (do
      Graph.createKey (Key.element .edge x.id) ""
      Graph.createKey (Key.label .edge x.id) x.label
      Graph.createKey (Key.edgeFrom x.id) x.source
      Graph.createKey (Key.edgeTo x.id) x.target
      Graph.linkEdge x.id x.label x.source x.target
      Graph.createKey (Key.enumeration .edge x.id) ""
      return x.id : Attempt (Faulty σ) String).run (IfOk fun _ => True) := by
  have hid := hx.id.1
  refine .andThen (createKey (r := .plain (.element .edge x.id)) hid rfl trivial) fun _ _ => ?_
  refine .andThen (createKey (r := .plain (.label .edge x.id)) hid rfl hx.label) fun _ _ => ?_
  refine .andThen (createKey (r := .plain (.source x.id)) hid rfl ⟨hx.id, hx.source⟩) fun _ _ => ?_
  refine .andThen (createKey (r := .plain (.target x.id)) hid rfl ⟨hx.id, hx.target⟩) fun _ _ => ?_
  refine .andThen (linkEdge hx) fun _ _ => ?_
  exact .andThen (createKey (r := .plain (.listing .edge x.id)) hid rfl trivial) fun _ _ => .ok trivial

theorem unlinkEnd {s : Scope} (hs : s.Valid) (hedge : IsName edge) {other : Option String}
    (hother : ∀ v, other = some v → IsName v) :
    Spares (unlinkEnd edge s.vertex s.direction other s.label : Run (Faulty σ) Unit) fun _ => True := by
  refine .bind (deleteQuietly (r := .marker s .edges edge) ⟨hs, hedge⟩ rfl) fun _ _ => ?_
  refine .bind (.quietly (removeFromIndex hs .edges edge true) trivial) fun _ _ => ?_
  cases other with
  | none => exact .pure trivial
  | some v =>
    refine .bind (.quietly (removeFromIndex hs .vertices v false) trivial) fun stillLinked _ => ?_
    cases stillLinked with
    | true => exact .pure trivial
    | false => exact deleteQuietly (r := .marker s .vertices v) ⟨hs, hother v rfl⟩ rfl

/-- Unlinking an edge as far as its label and ends are known. -/
theorem unlinkEdge {label source target : Option String}
    (hlabel : ∀ l, label = some l → Key.isToken l = true)
    (hsource : ∀ v, source = some v → IsName edge ∧ IsName v)
    (htarget : ∀ v, target = some v → IsName edge ∧ IsName v) :
    Spares (unlinkEdge edge label source target : Run (Faulty σ) Unit) fun _ => True := by
  refine .forM fun e he => ?_
  have hends : (∀ v, e.vertex = some v → IsName edge ∧ IsName v) ∧ ∀ v, e.other = some v → IsName v := by
    simp only [edgeEnds, List.mem_cons, List.not_mem_nil, or_false] at he
    rcases he with rfl | rfl
    · exact ⟨hsource, fun v hv => (htarget v hv).2⟩
    · exact ⟨htarget, fun v hv => (hsource v hv).2⟩
  obtain ⟨vertex, direction, other⟩ := e
  cases vertex with
  | none => exact .pure trivial
  | some v =>
    obtain ⟨hedge, hv⟩ := hends.1 v rfl
    refine .bind (unlinkEnd (s := ⟨v, direction, none⟩) (scope_valid hv.1 direction) hedge hends.2)
      fun _ _ => ?_
    cases label with
    | none => exact .pure trivial
    | some l =>
      exact unlinkEnd (s := ⟨v, direction, some l⟩) ⟨hv.1, fun _ h => Option.some.inj h ▸ hlabel l rfl⟩
        hedge hends.2

/-- Deleting everything below the marker of an edge. -/
theorem deleteChildren {id : String} (hid : Key.isToken id = true) :
    Spares (deleteChildren .edge id : Run (Faulty σ) Unit) fun _ => True := by
  refine .bind (collectQuietly (KeyPattern.parse_children hid) rfl
    (by simp [KeyPattern.isExact, KeyPattern.children])) fun keys hkeys => .forM fun key hkey => ?_
  obtain ⟨r, -, rfl, hr, haccepts, -⟩ := hkeys key hkey
  have howner := (KeyPattern.children_accepts hr .edge id).1 haccepts
  refine deleteQuietly hr ?_
  cases r with
  | plain key => cases key <;> simp_all [RecordKey.owner?, RecordKey.vertex?]
  | marker | index => rfl

theorem dropEdge {id : String} (hid : Key.isToken id = true) :
    Spares (dropEdge id : Run (Faulty σ) Unit) fun _ => True := by
  refine .bind (.quietly (readText (r := .plain (.label .edge id)) hid) (by simp)) fun label hlabel => ?_
  refine .bind (.quietly (readText (r := .plain (.source id)) hid) (by simp)) fun source hsource => ?_
  refine .bind (.quietly (readText (r := .plain (.target id)) hid) (by simp)) fun target htarget => ?_
  refine .bind (deleteQuietly (r := .plain (.listing .edge id)) hid rfl) fun _ _ => ?_
  refine .bind (unlinkEdge (fun l hl => ?_) (fun v hv => ?_) fun v hv => ?_) fun _ _ => ?_
  · obtain ⟨value, rfl, hcarries⟩ := hlabel l hl
    exact hcarries
  · obtain ⟨value, rfl, hcarries⟩ := hsource v hv
    exact hcarries
  · obtain ⟨value, rfl, hcarries⟩ := htarget v hv
    exact hcarries
  · exact .bind (deleteChildren hid) fun _ _ => deleteQuietly (r := .plain (.element .edge id)) hid rfl

end Edges

/-! ## Neighbours and properties -/

section Neighbors

/-- Taking a vertex out of the records of a neighbour. -/
theorem forgetNeighbor {s : Scope} (hs : s.Valid) {gone : String} (hgone : IsName gone) :
    Spares (forgetNeighbor s.vertex s.direction s.label gone : Run (Faulty σ) Unit) fun _ => True :=
  .bind (deleteQuietly (r := .marker s .vertices gone) ⟨hs, hgone⟩ rfl) fun _ _ =>
    .bind (.quietly (removeFromIndex hs .vertices gone true) trivial) fun _ _ => .pure trivial

theorem clearNeighbors {id : String} (hid : Key.isToken id = true) (d : Direction) :
    Spares (clearNeighbors id d : Run (Faulty σ) Unit) fun _ => True := by
  refine .bind (collectQuietly (KeyPattern.parse_markers (scope_valid hid d) .vertices) rfl
    (by simp [KeyPattern.isExact, KeyPattern.markers])) fun keys hkeys => ?_
  refine .bind (.forM fun key hkey => ?_) fun _ _ => ?_
  · obtain ⟨r, v, rfl, hr, haccepts, hcarries⟩ := hkeys key hkey
    rcases (KeyPattern.markers_accepts hr _ .vertices).1 haccepts with rfl | ⟨t, rfl⟩
    · rw [lastToken_index _ hr]
      exact .pure trivial
    · rw [lastToken_marker hr]
      dsimp only
      split
      · exact forgetNeighbor (s := ⟨t, d.reverse, none⟩) (scope_valid hr.2.1 _) hcarries
      · exact .pure trivial
  refine .bind (collectQuietly (KeyPattern.parse_labeledMarkers hid d .vertices) rfl
    (by simp [KeyPattern.isExact, KeyPattern.labeledMarkers])) fun keys hkeys => .forM fun key hkey => ?_
  obtain ⟨r, v, rfl, hr, haccepts, hcarries⟩ := hkeys key hkey
  obtain ⟨l, rfl | ⟨t, rfl⟩⟩ := (KeyPattern.labeledMarkers_accepts hr id d .vertices).1 haccepts
  · rw [Key.token?, Key.token?, hr.tokens_text]
    exact .pure trivial
  · rw [Key.token?, Key.token?, hr.tokens_text]
    have hscope : Scope.Valid ⟨t, d.reverse, some l⟩ := ⟨hr.2.1, hr.1.label⟩
    show Spares (if t != Key.indexToken then Graph.forgetNeighbor t d.reverse (some l) id
      else Pure.pure ()) _
    split
    · exact forgetNeighbor hscope hcarries
    · exact .pure trivial

theorem setProperty (kind : ElementKind) {id : String} (hid : Key.isToken id = true) (key : String)
    (value : Json) :
    Spares (setProperty kind id key value : Attempt (Faulty σ) Unit).run (IfOk fun _ => True) := by
  by_cases hkey : IsPropertyKey key
  · have hcheck := Validation.propertyKey_eq_ok.2 hkey
    rw [Graph.setProperty, hcheck]
    refine .andThen (p := fun _ => True) (.ok trivial) fun _ _ => ?_
    exact .andThen (update (r := .plain (.property kind id key)) ⟨hid, hkey.1⟩ (by cases kind <;> rfl)
      trivial) fun _ _ => .ok trivial
  · intro m hm e he
    obtain ⟨err, hrun⟩ := setProperty_refused hkey kind id value e
    rw [hrun]
    exact ⟨m, [], he, .refl e, fun _ _ => trivial, .refl hm⟩

end Neighbors

end Spares

end PropertyGraph
