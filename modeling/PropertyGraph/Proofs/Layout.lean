/-
How a store lays out the edges at its vertices. A `Layout` has one entry for every record
about an element, and for every scope the two lists kept there; markers are the members of
the lists. Linking an edge at a scope appends to both lists (`does_linkEnd`), unlinking takes
the edge and one entry of its other end away (`acts_unlinkEnd`), and both leave the markers
as the lists say.
-/
import PropertyGraph.Proofs.Acts
import PropertyGraph.Proofs.IdList

namespace PropertyGraph

open PropertyGraph.Graph

/-- The lists kept at a scope: of the edges, and of the vertices at their other ends, which
has an entry for every edge. -/
structure Neighborhood where
  edges : List String
  vertices : List String

/-- One of the lists. -/
def Neighborhood.list (n : Neighborhood) : Adjacency → List String
  | .edges => n.edges
  | .vertices => n.vertices

/-- What a store keeps of a graph. -/
structure Layout where
  plain : PlainKey → Option Blob
  adjacent : Scope → Option Neighborhood

namespace Layout

/-- The list at a scope; one that is not kept counts as empty. -/
def listed (L : Layout) (s : Scope) (a : Adjacency) : List String :=
  match L.adjacent s with
  | some n => n.list a
  | none => []

/-- The records of a layout. -/
def record (L : Layout) : Records
  | .plain key => L.plain key
  | .marker s a target => if target ∈ L.listed s a then some (.text "") else none
  | .index s a => (L.adjacent s).map fun n => idList (n.list a)

/-- The layout with another value for a record about an element. -/
def setPlain (L : Layout) (key : PlainKey) (value : Option Blob) : Layout :=
  { L with plain := fun k => if k = key then value else L.plain k }

/-- The layout with other lists at a scope. -/
def setAdjacent (L : Layout) (s : Scope) (n : Option Neighborhood) : Layout :=
  { L with adjacent := fun s' => if s' = s then n else L.adjacent s' }

/-- The layout with an edge linked at a scope. -/
def link (L : Layout) (s : Scope) (edge other : String) : Layout :=
  L.setAdjacent s (some ⟨L.listed s .edges ++ [edge], L.listed s .vertices ++ [other]⟩)

/-- The layout with an edge unlinked at a scope. -/
def unlink (L : Layout) (s : Scope) (edge other : String) : Layout :=
  L.setAdjacent s ((L.adjacent s).map fun n =>
    ⟨n.edges.filter (· != edge), n.vertices.erase other⟩)

/-- The layout without the records below the marker of an element. -/
def withoutChildren (L : Layout) (kind : ElementKind) (id : String) : Layout where
  plain key := if (RecordKey.plain key).owner? = some (kind, id) then none else L.plain key
  adjacent s := if kind = .vertex ∧ s.vertex = id then none else L.adjacent s

theorem record_setPlain (L : Layout) (key : PlainKey) (value : Option Blob) :
    (L.setPlain key value).record = L.record.set (.plain key) value := by
  funext r
  cases r with
  | plain k =>
    by_cases h : k = key
    · simp [record, setPlain, h]
    · rw [Records.set_of_ne _ _ (by simpa using h)]
      simp [record, setPlain, h]
  | marker s a t => rfl
  | index s a => rfl

theorem listed_withoutChildren (L : Layout) (kind : ElementKind) (id : String) (s : Scope)
    (a : Adjacency) :
    (L.withoutChildren kind id).listed s a =
      if kind = .vertex ∧ s.vertex = id then [] else L.listed s a := by
  by_cases h : kind = .vertex ∧ s.vertex = id
  · simp [listed, withoutChildren, h]
  · simp only [listed, withoutChildren, if_neg h]

theorem record_withoutChildren (L : Layout) (kind : ElementKind) (id : String) :
    (L.withoutChildren kind id).record =
      L.record.without fun r => r.owner? = some (kind, id) := by
  have howner : ∀ s : Scope, (ElementKind.vertex = kind ∧ s.vertex = id) ↔
      (kind = .vertex ∧ s.vertex = id) := fun s => and_congr_left fun _ => eq_comm
  funext r
  cases r with
  | plain key => rfl
  | marker s a t =>
    simp only [record, listed_withoutChildren, Records.without, RecordKey.owner?,
      Option.some.injEq, Prod.mk.injEq, howner]
    split
    · simp
    · rfl
  | index s a =>
    simp only [record, withoutChildren, Records.without, RecordKey.owner?, Option.some.injEq,
      Prod.mk.injEq, howner]
    split
    · rfl
    · rfl

theorem listed_setAdjacent_self (L : Layout) (s : Scope) (n : Neighborhood) (a : Adjacency) :
    (L.setAdjacent s (some n)).listed s a = n.list a := by
  simp [listed, setAdjacent]

theorem listed_setAdjacent_of_ne (L : Layout) {s s' : Scope} (h : s' ≠ s)
    (n : Option Neighborhood) (a : Adjacency) :
    (L.setAdjacent s n).listed s' a = L.listed s' a := by
  simp [listed, setAdjacent, h]

end Layout

variable {σ : Type} [Backend σ] [LawfulBackend σ]

/-! ## Lists of ids -/

section Lists

open Engine

variable {m : Records} {r : RecordKey} {l : Option (List String)}

theorem does_readIndex (hr : r.Valid) (hm : m r = l.map idList) :
    Does (readIndex r.text : Attempt σ _) m l m := by
  refine .get_bind hr fun entry hentry => ?_
  rw [hm] at hentry
  cases entry with
  | none =>
    cases l with
    | none => exact .pure _ m
    | some ids => cases hentry
  | some entry =>
    cases l with
    | none => cases hentry
    | some ids =>
      have hvalue : entry.value = idList ids := by simpa using hentry
      simp only [hvalue, ids?_idList]
      exact .pure _ m

theorem does_pushIndex (hr : r.Valid) (hm : m r = l.map idList) {id : String} {distinct : Bool}
    (hnew : distinct = true → id ∉ l.getD []) :
    Does (pushIndex r.text id distinct : Attempt σ _) m ()
      (m.set r (some (idList (l.getD [] ++ [id])))) := by
  have hskip : (distinct && (l.getD []).contains id) = false := by
    cases distinct with
    | false => rfl
    | true => simpa using hnew rfl
  refine .bind (does_readIndex hr hm) ?_
  simp only [hskip]
  exact .update_bind hr fun _ => .pure _ _

/-- What stays of a list of ids. -/
def remaining (ids : List String) (id : String) (all : Bool) : List String :=
  if all then ids.filter (· != id) else ids.erase id

theorem remaining_of_length {ids : List String} {id : String} {all : Bool}
    (h : (remaining ids id all).length = ids.length) : remaining ids id all = ids := by
  have hsub : (remaining ids id all).Sublist ids := by
    unfold remaining
    split
    · exact List.filter_sublist
    · exact List.erase_sublist
  exact hsub.eq_of_length h

theorem does_removeFromIndex (hr : r.Valid) (hm : m r = l.map idList) (id : String) (all : Bool) :
    Does (removeFromIndex r.text id all : Attempt σ _) m
      ((l.map (remaining · id all)).any (·.contains id))
      (m.set r (l.map fun ids => idList (remaining ids id all))) := by
  refine .bind (does_readIndex hr hm) ?_
  cases l with
  | none =>
    have hset : m.set r none = m := Records.set_eq_self hm
    simp only [Option.map_none, hset]
    exact .pure _ m
  | some ids =>
    show Does (do
      if (remaining ids id all).length != ids.length then
        let _ ← call (Backend.update r.text (idList (remaining ids id all)))
      return (remaining ids id all).contains id : Attempt σ Bool) m _ _
    by_cases hlen : (remaining ids id all).length = ids.length
    · have hset : m.set r (some (idList (remaining ids id all))) = m :=
        Records.set_eq_self (by rw [remaining_of_length hlen]; exact hm)
      simp only [hlen, bne_self_eq_false, Option.map_some, hset, Option.any_some]
      exact .pure _ m
    · have hne : ((remaining ids id all).length != ids.length) = true := by simpa using hlen
      simp only [hne, ite_true, Option.map_some, Option.any_some]
      exact .update_bind hr fun _ => .pure _ _

end Lists

/-! ## Linking at a scope -/

section Scopes

variable {L : Layout} {s : Scope}

/-- The list of a kind at a scope, if it is kept. -/
def Layout.list? (L : Layout) (s : Scope) (a : Adjacency) : Option (List String) :=
  (L.adjacent s).map (·.list a)

theorem Layout.getD_list? (L : Layout) (s : Scope) (a : Adjacency) :
    (L.list? s a).getD [] = L.listed s a := by
  simp only [list?, listed]
  cases L.adjacent s <;> rfl

theorem Layout.record_index (L : Layout) (s : Scope) (a : Adjacency) :
    L.record (.index s a) = (L.list? s a).map idList := by
  simp [record, list?, Function.comp_def]

/-- Linking in the order the records are written. -/
theorem Layout.record_link (L : Layout) (s : Scope) (edge other : String) :
    (L.link s edge other).record =
      (((L.record.set (.marker s .edges edge) (some (.text ""))).set
        (.marker s .vertices other) (some (.text ""))).set
        (.index s .edges) (some (idList (L.listed s .edges ++ [edge])))).set
        (.index s .vertices) (some (idList (L.listed s .vertices ++ [other]))) := by
  funext r
  cases r with
  | plain key => rfl
  | marker s' a t =>
    by_cases h : s' = s
    · subst h
      have hlisted : ∀ a, (L.link s' edge other).listed s' a =
          (⟨L.listed s' .edges ++ [edge], L.listed s' .vertices ++ [other]⟩ :
            Neighborhood).list a := L.listed_setAdjacent_self s' _
      cases a with
      | edges =>
        by_cases ht : t = edge
        · simp [Records.set, record, hlisted, Neighborhood.list, ht]
        · simp [Records.set, record, hlisted, Neighborhood.list, ht]
      | vertices =>
        by_cases ht : t = other
        · simp [Records.set, record, hlisted, Neighborhood.list, ht]
        · simp [Records.set, record, hlisted, Neighborhood.list, ht]
    · simp [Records.set, record, link, listed_setAdjacent_of_ne _ h, h]
  | index s' a =>
    by_cases h : s' = s
    · subst h
      cases a <;> simp [Records.set, record, link, setAdjacent, Neighborhood.list]
    · simp [Records.set, record, link, setAdjacent, h]

/-- Linking an edge that is not there yet. -/
theorem does_linkEnd (hs : s.Valid) {edge other : String} (hedge : IsName edge)
    (hother : IsName other) (hnew : edge ∉ L.listed s .edges) :
    Does (linkEnd edge ⟨s.vertex, s.direction, other⟩ s.label : Attempt σ _) L.record ()
      (L.link s edge other).record := by
  have hmarker : (RecordKey.marker s .edges edge).Valid := ⟨hs, hedge⟩
  have hneighbor : (RecordKey.marker s .vertices other).Valid := ⟨hs, hother⟩
  have hedges : (RecordKey.index s .edges).Valid := hs
  have hvertices : (RecordKey.index s .vertices).Valid := hs
  have hfresh : L.record (.marker s .edges edge) = none := by simp [Layout.record, hnew]
  rw [L.record_link, ← L.getD_list? s .edges, ← L.getD_list? s .vertices]
  simp only [linkEnd, Key.marker_eq, Key.index_eq]
  refine .create_bind hmarker hfresh fun _ => ?_
  refine .put_bind hneighbor fun _ => ?_
  refine .bind (does_pushIndex hedges ?_ fun _ => ?_) (does_pushIndex hvertices ?_ ?_)
  · simpa [Records.set] using L.record_index s .edges
  · rwa [L.getD_list?]
  · simpa [Records.set] using L.record_index s .vertices
  · simp

theorem Layout.list?_unlink (L : Layout) (s : Scope) (edge other : String) :
    (L.unlink s edge other).list? s .edges = (L.list? s .edges).map (remaining · edge true) ∧
      (L.unlink s edge other).list? s .vertices =
        (L.list? s .vertices).map (remaining · other false) := by
  simp [list?, unlink, setAdjacent, Neighborhood.list, remaining, Function.comp_def]

theorem Layout.record_marker (L : Layout) (s : Scope) (a : Adjacency) (target : String) :
    L.record (.marker s a target) =
      if (L.list? s a).any (·.contains target) then some (.text "") else none := by
  simp only [record, ← getD_list?]
  cases L.list? s a <;> simp

theorem Layout.list?_unlink_of_ne (L : Layout) {s s' : Scope} (h : s' ≠ s) (edge other : String)
    (a : Adjacency) : (L.unlink s edge other).list? s' a = L.list? s' a := by
  simp [list?, unlink, setAdjacent, h]

/-- The marker of the edge goes. -/
theorem Layout.record_unlink_edge (L : Layout) (s : Scope) (edge other t : String) :
    (L.unlink s edge other).record (.marker s .edges t) =
      if t = edge then none else L.record (.marker s .edges t) := by
  rw [record_marker, record_marker, (L.list?_unlink s edge other).1]
  cases L.list? s .edges with
  | none => simp
  | some ids =>
    by_cases ht : t = edge
    · simp [remaining, ht]
    · simp [remaining, ht]

/-- The marker of the other end goes with its last entry. -/
theorem Layout.record_unlink_vertex (L : Layout) (s : Scope) (edge other t : String) :
    (L.unlink s edge other).record (.marker s .vertices t) =
      if t = other ∧ ((L.list? s .vertices).map (remaining · other false)).any
        (·.contains other) = false then none else L.record (.marker s .vertices t) := by
  rw [record_marker, record_marker, (L.list?_unlink s edge other).2]
  cases L.list? s .vertices with
  | none => simp
  | some ids =>
    by_cases ht : t = other
    · subst ht
      by_cases hmem : t ∈ ids.erase t
      · simp [remaining, hmem, List.mem_of_mem_erase hmem]
      · simp [remaining, hmem]
    · simp [remaining, ht, List.mem_erase_of_ne ht]

/-- Unlinking in the order the records are deleted. -/
theorem Layout.record_unlink (L : Layout) (s : Scope) (edge other : String) :
    (L.unlink s edge other).record =
      let m := ((L.record.set (.marker s .edges edge) none).set
        (.index s .edges) ((L.list? s .edges).map fun ids => idList (remaining ids edge true))).set
        (.index s .vertices)
          ((L.list? s .vertices).map fun ids => idList (remaining ids other false))
      if ((L.list? s .vertices).map (remaining · other false)).any (·.contains other) then m
      else m.set (.marker s .vertices other) none := by
  obtain ⟨hedges, hvertices⟩ := L.list?_unlink s edge other
  -- Only records at the scope change; each is looked up on both sides.
  funext r
  cases r with
  | plain key =>
    dsimp only
    split <;> rfl
  | marker s' a t =>
    by_cases h : s' = s
    · subst h
      cases a with
      | edges =>
        rw [L.record_unlink_edge]
        dsimp only
        split <;> split <;> simp_all [Records.set]
      | vertices =>
        rw [L.record_unlink_vertex]
        dsimp only
        split <;> split <;> simp_all [Records.set]
    · rw [record_marker, L.list?_unlink_of_ne h, ← record_marker]
      dsimp only
      split <;> simp [Records.set, h]
  | index s' a =>
    by_cases h : s' = s
    · subst h
      rw [record_index]
      cases a with
      | edges =>
        rw [hedges]
        dsimp only
        split <;> simp [Records.set, Function.comp_def]
      | vertices =>
        rw [hvertices]
        dsimp only
        split <;> simp [Records.set, Function.comp_def]
    · rw [record_index, L.list?_unlink_of_ne h, ← record_index]
      dsimp only
      split <;> simp [Records.set, h]

theorem acts_unlinkEnd (hs : s.Valid) {edge other : String} (hedge : IsName edge)
    (hother : IsName other) (L : Layout) :
    Acts (unlinkEnd edge s.vertex s.direction (some other) s.label : Run σ _) L.record ()
      (L.unlink s edge other).record := by
  have hmarker : (RecordKey.marker s .edges edge).Valid := ⟨hs, hedge⟩
  have hneighbor : (RecordKey.marker s .vertices other).Valid := ⟨hs, hother⟩
  have hedges : (RecordKey.index s .edges).Valid := hs
  have hvertices : (RecordKey.index s .vertices).Valid := hs
  rw [L.record_unlink]
  refine .bind (acts_deleteQuietly hmarker _) ?_
  refine .bind (.quietly (does_removeFromIndex hedges (l := L.list? s .edges) ?_ edge true)) ?_
  · simpa [Records.set] using L.record_index s .edges
  refine .bind (.quietly (does_removeFromIndex hvertices (l := L.list? s .vertices) ?_ other false)) ?_
  · simpa [Records.set] using L.record_index s .vertices
  cases ((L.list? s .vertices).map (remaining · other false)).any (·.contains other) with
  | true => exact .pure () _
  | false => exact acts_deleteQuietly hneighbor _

end Scopes

end PropertyGraph
