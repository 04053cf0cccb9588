/-
Whole edges and whole elements in a layout. An edge is linked at four scopes: at each end,
among all edges and among those of its label. Linking and unlinking change the lists at these
scopes and at no other (`does_linkEdge`, `acts_unlinkEdge`), and dropping an edge removes
every record about it besides (`acts_dropEdge`).
-/
import PropertyGraph.Proofs.Layout

namespace PropertyGraph

open PropertyGraph.Graph

/-- An edge with its ends. -/
structure Edge where
  id : String
  label : String
  source : String
  target : String
deriving DecidableEq

namespace Edge

/-- The end an edge runs from in a direction, seen from there. -/
def near (e : Edge) : Direction → String
  | .outgoing => e.source
  | .incoming => e.target

/-- The other end. -/
def far (e : Edge) : Direction → String
  | .outgoing => e.target
  | .incoming => e.source

/-- Whether an edge is among those of a scope. -/
def isAt (e : Edge) (s : Scope) : Bool :=
  e.near s.direction == s.vertex && (s.label == none || s.label == some e.label)

/-- The names of an edge can stand in keys. -/
structure Named (e : Edge) : Prop where
  id : IsName e.id
  label : Key.isToken e.label = true
  source : IsName e.source
  target : IsName e.target

theorem Named.near {e : Edge} (h : e.Named) (d : Direction) : IsName (e.near d) := by
  cases d
  · exact h.source
  · exact h.target

theorem Named.far {e : Edge} (h : e.Named) (d : Direction) : IsName (e.far d) := by
  cases d
  · exact h.target
  · exact h.source

/-- A scope an edge is at: in a direction, among all edges or those of its label. -/
def scope (e : Edge) (d : Direction) (labeled : Bool) : Scope :=
  ⟨e.near d, d, if labeled then some e.label else none⟩

theorem Named.scope_valid {e : Edge} (h : e.Named) (d : Direction) (labeled : Bool) :
    (e.scope d labeled).Valid where
  vertex := (h.near d).1
  label l hl := by
    cases labeled with
    | true =>
      simp only [scope, ite_true, Option.some.injEq] at hl
      rw [← hl]
      exact h.label
    | false => simp [scope] at hl

theorem isAt_iff {e : Edge} {s : Scope} :
    e.isAt s = true ↔ s = e.scope s.direction false ∨ s = e.scope s.direction true := by
  obtain ⟨v, d, l⟩ := s
  simp only [isAt, scope, Bool.and_eq_true, beq_iff_eq, Bool.or_eq_true, Scope.mk.injEq, true_and,
    Bool.false_eq_true, ite_false, ite_true]
  grind

theorem isAt_scope (e : Edge) (d : Direction) (labeled : Bool) :
    e.isAt (e.scope d labeled) = true := by
  cases labeled <;> simp [isAt, scope]

theorem scope_inj {e : Edge} {d d' : Direction} {b b' : Bool} :
    e.scope d b = e.scope d' b' ↔ d = d' ∧ b = b' := by
  cases b <;> cases b' <;> simp [scope]
  · grind
  · grind

end Edge

/-- The element a record is about. -/
def PlainKey.about : PlainKey → ElementKind × String
  | .element kind id | .listing kind id | .label kind id | .property kind id _ => (kind, id)
  | .labelEntry id _ => (.vertex, id)
  | .source id | .target id => (.edge, id)

namespace Layout

/-- The layout with an edge linked wherever it is at. -/
def linkEdge (L : Layout) (e : Edge) : Layout :=
  { L with adjacent := fun s =>
      if e.isAt s then
        some ⟨L.listed s .edges ++ [e.id], L.listed s .vertices ++ [e.far s.direction]⟩
      else L.adjacent s }

/-- The layout with an edge unlinked wherever it is at. -/
def unlinkEdge (L : Layout) (e : Edge) : Layout :=
  { L with adjacent := fun s =>
      if e.isAt s then
        (L.adjacent s).map fun n =>
          ⟨n.edges.filter (· != e.id), n.vertices.erase (e.far s.direction)⟩
      else L.adjacent s }

/-- The layout without any record about an element; what other vertices know of it stays. -/
def withoutElement (L : Layout) (kind : ElementKind) (id : String) : Layout where
  plain key := if key.about = (kind, id) then none else L.plain key
  adjacent s := if kind = .vertex ∧ s.vertex = id then none else L.adjacent s

theorem ext {L L' : Layout} (hp : ∀ key, L.plain key = L'.plain key)
    (ha : ∀ s, L.adjacent s = L'.adjacent s) : L = L' := by
  obtain ⟨p, a⟩ := L
  obtain ⟨p', a'⟩ := L'
  obtain rfl : p = p' := funext hp
  obtain rfl : a = a' := funext ha
  rfl

/-- Changing the lists at the four scopes of an edge one after the other, each by what is kept
there, changes them at every scope the edge is at. -/
theorem change_scopes (value : Layout → Scope → Option Neighborhood) {e : Edge}
    (hvalue : ∀ L s s' n, s' ≠ s → value (L.setAdjacent s n) s' = value L s') (L : Layout) :
    let change (L : Layout) (d : Direction) (b : Bool) : Layout :=
      L.setAdjacent (e.scope d b) (value L (e.scope d b))
    change (change (change (change L .outgoing false) .outgoing true) .incoming false)
        .incoming true =
      { L with adjacent := fun s => if e.isAt s then value L s else L.adjacent s } := by
  have hne : ∀ d d' b b', ¬(d = d' ∧ b = b') → e.scope d b ≠ e.scope d' b' := fun _ _ _ _ h he =>
    h (Edge.scope_inj.1 he)
  intro change
  apply ext
  · intro key
    rfl
  · intro s
    have hset : ∀ (L : Layout) s n, (L.setAdjacent s n).adjacent =
        fun s' => if s' = s then n else L.adjacent s' := fun _ _ _ => rfl
    simp only [change, hset]
    have h12 := hne .outgoing .outgoing true false (by simp)
    have h13 := hne .incoming .outgoing false false (by simp)
    have h23 := hne .incoming .outgoing false true (by simp)
    have h14 := hne .incoming .outgoing true false (by simp)
    have h24 := hne .incoming .outgoing true true (by simp)
    have h34 := hne .incoming .incoming true false (by simp)
    rw [hvalue _ _ _ _ h34, hvalue _ _ _ _ h24, hvalue _ _ _ _ h14, hvalue _ _ _ _ h23,
      hvalue _ _ _ _ h13, hvalue _ _ _ _ h12]
    by_cases hat : e.isAt s = true
    · have hs := Edge.isAt_iff.1 hat
      rw [if_pos hat]
      cases hd : s.direction <;> rw [hd] at hs <;> rcases hs with hs | hs <;>
        simp [hs, Edge.scope_inj]
    · have hs : ∀ d b, s ≠ e.scope d b := fun d b h => hat (h ▸ e.isAt_scope d b)
      rw [if_neg (hs _ _), if_neg (hs _ _), if_neg (hs _ _), if_neg (hs _ _), if_neg hat]

/-- What linking an edge makes of the lists at a scope. -/
def linked (e : Edge) (L : Layout) (s : Scope) : Option Neighborhood :=
  some ⟨L.listed s .edges ++ [e.id], L.listed s .vertices ++ [e.far s.direction]⟩

/-- What unlinking an edge makes of the lists at a scope. -/
def unlinked (e : Edge) (L : Layout) (s : Scope) : Option Neighborhood :=
  (L.adjacent s).map fun n => ⟨n.edges.filter (· != e.id), n.vertices.erase (e.far s.direction)⟩

theorem linked_setAdjacent (e : Edge) (L : Layout) (s s' : Scope) (n : Option Neighborhood)
    (h : s' ≠ s) : linked e (L.setAdjacent s n) s' = linked e L s' := by
  simp only [linked, listed_setAdjacent_of_ne L h]

theorem unlinked_setAdjacent (e : Edge) (L : Layout) (s s' : Scope) (n : Option Neighborhood)
    (h : s' ≠ s) : unlinked e (L.setAdjacent s n) s' = unlinked e L s' := by
  simp [unlinked, setAdjacent, h]

theorem listed_link_of_ne (L : Layout) {s s' : Scope} (h : s' ≠ s) (edge other : String)
    (a : Adjacency) : (L.link s edge other).listed s' a = L.listed s' a :=
  L.listed_setAdjacent_of_ne h _ a

end Layout

variable {σ : Type} [Backend σ] [LawfulBackend σ]

/-- Linking a new edge at both ends. -/
theorem does_linkEdge {e : Edge} (he : e.Named) {L : Layout}
    (hnew : ∀ s, e.id ∉ L.listed s .edges) :
    Does (linkEdge e.id e.label e.source e.target : Attempt σ _) L.record ()
      (L.linkEdge e).record := by
  have hlink : ∀ (L : Layout) (d : Direction) (b : Bool), e.id ∉ L.listed (e.scope d b) .edges →
      Does (linkEnd e.id ⟨(e.scope d b).vertex, (e.scope d b).direction, e.far d⟩
        (e.scope d b).label : Attempt σ _) L.record ()
        (L.link (e.scope d b) e.id (e.far d)).record :=
    fun L d b h => does_linkEnd (he.scope_valid d b) he.id (he.far d) h
  have hne : ∀ d d' b b', ¬(d = d' ∧ b = b') → e.scope d b ≠ e.scope d' b' := fun _ _ _ _ h h' =>
    h (Edge.scope_inj.1 h')
  have hall : L.linkEdge e = (((L.link (e.scope .outgoing false) e.id e.target).link
      (e.scope .outgoing true) e.id e.target).link (e.scope .incoming false) e.id e.source).link
      (e.scope .incoming true) e.id e.source :=
    (Layout.change_scopes (Layout.linked e) (Layout.linked_setAdjacent e) L).symm
  rw [hall]
  have hsource : Does (do
      linkEnd e.id ⟨e.source, .outgoing, e.target⟩ none
      linkEnd e.id ⟨e.source, .outgoing, e.target⟩ (some e.label) : Attempt σ Unit) L.record ()
      ((L.link (e.scope .outgoing false) e.id e.target).link
        (e.scope .outgoing true) e.id e.target).record := by
    refine .bind (hlink L .outgoing false (hnew _)) (hlink _ .outgoing true ?_)
    rw [Layout.listed_link_of_ne _ (hne _ _ _ _ (by simp))]
    exact hnew _
  refine .bind hsource ?_
  have htarget : Does (do
      linkEnd e.id ⟨e.target, .incoming, e.source⟩ none
      linkEnd e.id ⟨e.target, .incoming, e.source⟩ (some e.label) : Attempt σ Unit)
      ((L.link (e.scope .outgoing false) e.id e.target).link
        (e.scope .outgoing true) e.id e.target).record ()
      ((((L.link (e.scope .outgoing false) e.id e.target).link
      (e.scope .outgoing true) e.id e.target).link (e.scope .incoming false) e.id e.source).link
      (e.scope .incoming true) e.id e.source).record := by
    refine .bind (hlink _ .incoming false ?_) (hlink _ .incoming true ?_)
    · rw [Layout.listed_link_of_ne _ (hne _ _ _ _ (by simp)),
        Layout.listed_link_of_ne _ (hne _ _ _ _ (by simp))]
      exact hnew _
    · rw [Layout.listed_link_of_ne _ (hne _ _ _ _ (by simp)),
        Layout.listed_link_of_ne _ (hne _ _ _ _ (by simp)),
        Layout.listed_link_of_ne _ (hne _ _ _ _ (by simp))]
      exact hnew _
  exact .bind htarget (.pure () _)

/-- Unlinking an edge whose label and ends are known. -/
theorem acts_unlinkEdge {e : Edge} (he : e.Named) (L : Layout) :
    Acts (unlinkEdge e.id (some e.label) (some e.source) (some e.target) : Run σ _) L.record ()
      (L.unlinkEdge e).record := by
  have hunlink : ∀ (L : Layout) (d : Direction) (b : Bool),
      Acts (unlinkEnd e.id (e.scope d b).vertex (e.scope d b).direction (some (e.far d))
        (e.scope d b).label : Run σ _) L.record ()
        (L.unlink (e.scope d b) e.id (e.far d)).record :=
    fun L d b => acts_unlinkEnd (he.scope_valid d b) he.id (he.far d) L
  have hall : L.unlinkEdge e = (((L.unlink (e.scope .outgoing false) e.id e.target).unlink
      (e.scope .outgoing true) e.id e.target).unlink (e.scope .incoming false) e.id e.source).unlink
      (e.scope .incoming true) e.id e.source :=
    (Layout.change_scopes (Layout.unlinked e) (Layout.unlinked_setAdjacent e) L).symm
  rw [hall]
  have hend : ∀ (L : Layout) (d : Direction), Acts (do
      unlinkEnd e.id (e.near d) d (some (e.far d)) none
      unlinkEnd e.id (e.near d) d (some (e.far d)) (some e.label) : Run σ Unit) L.record ()
      ((L.unlink (e.scope d false) e.id (e.far d)).unlink (e.scope d true) e.id (e.far d)).record :=
    fun L d => .bind (hunlink L d false) (hunlink _ d true)
  exact .bind (hend L .outgoing) (.bind (hend _ .incoming) (.pure () _))

/-! ## Dropping an edge -/

namespace Layout

/-- The records about an element go one after the other: the listing, then what is below the
marker, then the marker. -/
theorem withoutElement_eq (L : Layout) (kind : ElementKind) (id : String) :
    L.withoutElement kind id =
      ((L.setPlain (.listing kind id) none).withoutChildren kind id).setPlain
        (.element kind id) none := by
  apply ext
  · intro key
    simp only [withoutElement, setPlain, withoutChildren]
    cases key <;> simp [PlainKey.about, RecordKey.owner?]
  · intro s
    rfl

end Layout

theorem acts_deletePlain {k : PlainKey} (hk : k.Valid) (L : Layout) :
    Acts (deleteQuietly (RecordKey.plain k).text : Run σ Unit) L.record ()
      (L.setPlain k none).record := by
  rw [L.record_setPlain]
  exact acts_deleteQuietly (r := .plain k) hk _

theorem acts_withoutChildren {id : String} (hid : Key.isToken id = true) (kind : ElementKind)
    (L : Layout) :
    Acts (deleteChildren kind id : Run σ Unit) L.record () (L.withoutChildren kind id).record := by
  rw [L.record_withoutChildren]
  exact acts_deleteChildren hid kind _

theorem does_readPlain {k : PlainKey} (hk : k.Valid) (L : Layout) {value : Option String}
    (h : L.plain k = value.map .text) :
    Does (readText (RecordKey.plain k).text : Attempt σ _) L.record value L.record := by
  have hread := does_readText (σ := σ) (r := .plain k) hk L.record
  have hvalue : (L.record (.plain k)).map Blob.string = value := by
    show (L.plain k).map Blob.string = value
    rw [h]
    cases value <;> rfl
  rwa [hvalue] at hread

/-- What a drop does that finds an edge, or nothing, under an id. -/
theorem acts_dropEdge_of {id : String} (hid : Key.isToken id = true) {L L' : Layout}
    (label source target : Option String)
    (hlabel : L.plain (.label .edge id) = label.map .text)
    (hsource : L.plain (.source id) = source.map .text)
    (htarget : L.plain (.target id) = target.map .text)
    (hunlink : Acts (unlinkEdge id label source target : Run σ Unit)
      (L.setPlain (.listing .edge id) none).record ()
      (L'.setPlain (.listing .edge id) none).record) :
    Acts (dropEdge id : Run σ Unit) L.record () (L'.withoutElement .edge id).record := by
  rw [L'.withoutElement_eq]
  refine .bind (.quietly (does_readPlain (k := .label .edge id) hid L hlabel)) ?_
  refine .bind (.quietly (does_readPlain (k := .source id) hid L hsource)) ?_
  refine .bind (.quietly (does_readPlain (k := .target id) hid L htarget)) ?_
  refine .bind (acts_deletePlain (k := .listing .edge id) hid L) ?_
  refine .bind hunlink ?_
  refine .bind (acts_withoutChildren hid .edge _) ?_
  exact acts_deletePlain (k := .element .edge id) hid _

/-- Dropping an edge unlinks it and removes every record about it. -/
theorem acts_dropEdge {e : Edge} (he : e.Named) {L : Layout}
    (hlabel : L.plain (.label .edge e.id) = some (.text e.label))
    (hsource : L.plain (.source e.id) = some (.text e.source))
    (htarget : L.plain (.target e.id) = some (.text e.target)) :
    Acts (dropEdge e.id : Run σ Unit) L.record ()
      ((L.unlinkEdge e).withoutElement .edge e.id).record :=
  acts_dropEdge_of he.id.1 (some e.label) (some e.source) (some e.target) hlabel hsource htarget (acts_unlinkEdge he _)

/-- Dropping an edge that is not there removes what else is recorded under its id. -/
theorem acts_dropEdge_of_absent {id : String} (hid : Key.isToken id = true) {L : Layout}
    (hlabel : L.plain (.label .edge id) = none) (hsource : L.plain (.source id) = none)
    (htarget : L.plain (.target id) = none) :
    Acts (dropEdge id : Run σ Unit) L.record () (L.withoutElement .edge id).record :=
  acts_dropEdge_of hid none none none hlabel hsource htarget
    (.pure () _)

/-! ## Reading the lists -/

/-- The ids next to a vertex are those of the list, where a list that is not kept counts as
empty. -/
theorem does_adjacentIds {s : Scope} (hs : s.Valid) (a : Adjacency) (L : Layout) :
    Does (adjacentIds s.vertex s.direction a s.label : Attempt σ _) L.record (L.listed s a)
      L.record := by
  have hread := does_readIndex (σ := σ) (r := .index s a) hs (L.record_index s a)
  refine .bind hread ?_
  cases hlist : L.list? s a with
  | some ids =>
    have hlisted : L.listed s a = ids := by rw [← L.getD_list?, hlist]; rfl
    rw [hlisted]
    exact .pure ids _
  | none =>
    have hlisted : L.listed s a = [] := by rw [← L.getD_list?, hlist]; rfl
    intro e he
    have hnone : e.keys.filter (KeyPattern.markers s a).accepts = [] := by
      rw [List.filter_eq_nil_iff]
      intro key hkey hacc
      obtain ⟨r, hr, rfl⟩ := he.only key (Engine.mem_keys_iff.1 hkey)
      have hthere := (he.mem_keys_iff hr).1 hkey
      rcases (KeyPattern.markers_accepts hr s a).1 hacc with rfl | ⟨t, rfl⟩
      · exact hthere (by rw [L.record_index, hlist]; rfl)
      · exact hthere (by simp [Layout.record, hlisted])
    have hrun := Engine.keysMatching_run (KeyPattern.parse_markers hs a) rfl
      (by simp [KeyPattern.isExact, KeyPattern.markers]) e
    rw [hnone] at hrun
    refine ⟨e, ?_, he, .refl e⟩
    rw [hlisted]
    exact Attempt.bind_ok hrun _

end PropertyGraph
