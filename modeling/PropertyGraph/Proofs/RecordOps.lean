/-
Histories of operations on a graph. A `RecordOp` creates, sets or drops by name;
`Multigraph.step` says what graph it makes of a graph, where ids are handed out in a given
order. A store that starts empty keeps, after any operations with token arguments, exactly
what the graph built by the same operations is laid out as (`Engine.contents_history`): each
operation keeps that relation (`Tracks.run`).
-/
import PropertyGraph.Proofs.Dropping

namespace PropertyGraph

open PropertyGraph.Graph

/-! ## Ids -/

/-- An id as it is handed out: 32 hexadecimal digits in lower case. -/
def IsElementId (id : String) : Prop :=
  id.toList.length = 32 ∧ ∀ c ∈ id.toList, c ∈ "0123456789abcdef".toList

instance (id : String) : Decidable (IsElementId id) :=
  decidable_of_iff (id.toList.length = 32 ∧ id.toList.all ("0123456789abcdef".toList.contains ·) = true)
    (by simp only [IsElementId, List.all_eq_true, List.contains_iff_mem])

/-- The first `n` ids are ids as they are handed out, and ascend. -/
structure GoodIds (ids : Nat → String) (n : Nat) : Prop where
  wellFormed : ∀ i < n, IsElementId (ids i)
  ascending : ∀ j < n, ∀ i < j, compare (ids i) (ids j) = .lt

instance (ids : Nat → String) (n : Nat) : Decidable (GoodIds ids n) :=
  decidable_of_iff ((∀ i < n, IsElementId (ids i)) ∧ ∀ j < n, ∀ i < j, compare (ids i) (ids j) = .lt)
    ⟨fun h => ⟨h.1, h.2⟩, fun h => ⟨h.wellFormed, h.ascending⟩⟩

theorem GoodIds.mono {ids : Nat → String} {m n : Nat} (h : GoodIds ids n) (hmn : m ≤ n) :
    GoodIds ids m :=
  ⟨fun i hi => h.wellFormed i (Nat.lt_of_lt_of_le hi hmn),
    fun j hj => h.ascending j (Nat.lt_of_lt_of_le hj hmn)⟩

theorem GoodIds.injective {ids : Nat → String} {n : Nat} (h : GoodIds ids n) {i j : Nat}
    (hi : i < n) (hj : j < n) (he : ids i = ids j) : i = j := by
  rcases Nat.lt_trichotomy i j with hij | hij | hij
  · have := h.ascending j hj i hij
    simp [he] at this
  · exact hij
  · have := h.ascending i hi j hij
    simp [he] at this

theorem IsElementId.isName {id : String} (h : IsElementId id) : IsName id := by
  have hhex : ∀ c ∈ "0123456789abcdef".toList, Key.isSeparator c = false := by
    have hall : "0123456789abcdef".toList.all (!Key.isSeparator ·) = true := by decide
    simpa only [List.all_eq_true, Bool.not_eq_true'] using hall
  have hne : id.isEmpty = false := by
    rw [Bool.eq_false_iff]
    intro he
    rw [String.isEmpty_iff] at he
    have := h.1
    simp [he] at this
  constructor
  · have hnone : id.toList.any Key.isSeparator = false := by
      rw [List.any_eq_false]
      intro c hc
      simp [hhex c (h.2 c hc)]
    simp [Key.isToken, hne, hnone]
  · rintro rfl
    exact absurd h.1 (by decide)

/-! ## Operations -/

/-- An operation on the records of a graph. -/
inductive RecordOp where
  | createVertex (label : String)
  | createEdge (label source target : String)
  | setProperty (kind : ElementKind) (id key : String) (value : Json)
  | dropEdge (id : String)
  | dropVertex (id : String)
  | dropAll

namespace RecordOp

/-- The id of what is set or dropped is a token. The other arguments are looked at by the
operations themselves. -/
def Named : RecordOp → Prop
  | .setProperty _ id _ _ | .dropEdge id | .dropVertex id => Key.isToken id = true
  | .createVertex _ | .createEdge _ _ _ | .dropAll => True

instance : (op : RecordOp) → Decidable op.Named
  | .setProperty _ _ _ _ | .dropEdge _ | .dropVertex _ => inferInstanceAs (Decidable (_ = true))
  | .createVertex _ | .createEdge _ _ _ | .dropAll => inferInstanceAs (Decidable True)

variable {σ : Type} [Backend σ]

/-- Runs an operation; a refusal has no effect on what comes after it. -/
def run : RecordOp → Run σ Unit
  | .createVertex label => do
    let _ ← Engine.outcome (Graph.createVertex label)
  | .createEdge label source target => do
    let _ ← Engine.outcome (Graph.createEdge label source target)
  | .setProperty kind id key value => do
    let _ ← Engine.outcome (Graph.setProperty kind id key value)
  | .dropEdge id => Graph.dropEdge id
  | .dropVertex id => Graph.dropVertex id
  | .dropAll => do
    let _ ← Engine.outcome Graph.dropAll

/-- Runs operations one after the other. -/
def runAll (ops : List RecordOp) : Run σ Unit := ops.forM run

end RecordOp

/-- The keys a property may be set under. -/
def IsPropertyKey (key : String) : Prop :=
  Key.isToken key = true ∧ key ≠ Key.idToken ∧ key ≠ Key.labelToken

instance (key : String) : Decidable (IsPropertyKey key) := inferInstanceAs (Decidable (_ ∧ _))

/-- What graph an operation makes of a graph, and how many ids are handed out then. A label
that is no token, an end that is not there and a key that is reserved or no token are
refused. -/
def Multigraph.step (ids : Nat → String) (s : Multigraph × Nat) : RecordOp → Multigraph × Nat
  | .createVertex label =>
    if Key.isToken label then (s.1.addVertex ⟨ids s.2, label⟩, s.2 + 1) else s
  | .createEdge label source target =>
    if Key.isToken label ∧ source ∈ s.1.ids .vertex ∧ target ∈ s.1.ids .vertex then
      (s.1.addEdge ⟨ids s.2, label, source, target⟩, s.2 + 1)
    else s
  | .setProperty kind id key value =>
    if IsPropertyKey key then (s.1.setProperty kind id key value, s.2) else s
  | .dropEdge id => (s.1.dropEdge id, s.2)
  | .dropVertex id => (s.1.dropVertex id, s.2)
  | .dropAll => (.empty, s.2)

/-- What graph operations make of a graph, one after the other. -/
def Multigraph.history (ids : Nat → String) (ops : List RecordOp) (s : Multigraph × Nat) :
    Multigraph × Nat :=
  ops.foldl (Multigraph.step ids) s

theorem Multigraph.le_step (ids : Nat → String) (s : Multigraph × Nat) (op : RecordOp) :
    s.2 ≤ (Multigraph.step ids s op).2 := by
  cases op <;> simp only [step] <;> try split
  all_goals simp

theorem Multigraph.le_history (ids : Nat → String) (ops : List RecordOp) (s : Multigraph × Nat) :
    s.2 ≤ (Multigraph.history ids ops s).2 := by
  induction ops generalizing s with
  | nil => exact Nat.le_refl _
  | cons op ops ih => exact Nat.le_trans (le_step ids s op) (ih _)

/-! ## What is refused -/

namespace Validation

theorem require_eq_ok {condition : Bool} {cause : Refusal} :
    require condition cause = .ok () ↔ condition = true := by
  cases condition <;> simp [require]

theorem not_isEmpty_of_isToken {s : String} (h : Key.isToken s = true) : (!s.isEmpty) = true := by
  rw [Bool.not_eq_true', Bool.eq_false_iff]
  intro he
  exact Key.ne_empty_of_isToken h (String.isEmpty_iff.1 he)

/-- Two requirements one after the other. -/
theorem both_eq_ok {x y : Except Error Unit} : (do x; y) = .ok () ↔ x = .ok () ∧ y = .ok () := by
  cases x with
  | error err => simp [Bind.bind, Except.bind]
  | ok a => simp [Bind.bind, Except.bind]

theorem label_eq_ok {label : String} :
    Validation.label label = .ok () ↔ Key.isToken label = true := by
  rw [Validation.label, both_eq_ok, require_eq_ok, require_eq_ok]
  exact and_iff_right_of_imp not_isEmpty_of_isToken

theorem endpoint_eq_ok {id : String} :
    Validation.endpoint id = .ok () ↔ Key.isToken id = true := by
  rw [Validation.endpoint, both_eq_ok, require_eq_ok, Validation.id, require_eq_ok]
  exact and_iff_right_of_imp not_isEmpty_of_isToken

theorem propertyKey_eq_ok {key : String} :
    Validation.propertyKey key = .ok () ↔ IsPropertyKey key := by
  rw [Validation.propertyKey, both_eq_ok, both_eq_ok, require_eq_ok, require_eq_ok,
    require_eq_ok, IsPropertyKey, Bool.and_eq_true, bne_iff_ne, bne_iff_ne]
  constructor
  · rintro ⟨-, hreserved, htoken⟩
    exact ⟨htoken, hreserved⟩
  · rintro ⟨htoken, hreserved⟩
    exact ⟨not_isEmpty_of_isToken htoken, hreserved, htoken⟩

end Validation

variable {σ α : Type}

/-- An operation that starts with a check that fails ends there. -/
theorem Attempt.check_refused {x : Except Error Unit} (h : x ≠ .ok ()) (f : Unit → Attempt σ α)
    (e : Engine σ) :
    ∃ err, ((MonadExcept.ofExcept x : Attempt σ Unit) >>= f).run.run e = (.error err, e) := by
  cases x with
  | ok a => exact absurd rfl h
  | error err => exact ⟨err, rfl⟩

theorem createVertex_refused [Backend σ] {label : String} (h : ¬Key.isToken label = true)
    (e : Engine σ) : ∃ err, (createVertex label).run.run e = (.error err, e) :=
  Attempt.check_refused (mt Validation.label_eq_ok.1 h) _ e

theorem setProperty_refused [Backend σ] {key : String} (h : ¬IsPropertyKey key)
    (kind : ElementKind) (id : String) (value : Json) (e : Engine σ) :
    ∃ err, (setProperty kind id key value).run.run e = (.error err, e) :=
  Attempt.check_refused (mt Validation.propertyKey_eq_ok.1 h) _ e

/-- The state an operation leaves, whatever becomes of its outcome. -/
theorem RecordOp.run_of_outcome {operation : Attempt σ α} {e e' : Engine σ}
    {outcome : Except Error α} (h : operation.run.run e = (outcome, e')) :
    ((do let _ ← Engine.outcome operation : Run σ Unit).run e).2 = e' :=
  congrArg Prod.snd h

variable [Backend σ] [LawfulBackend σ]

/-! ## The relation every operation keeps -/

/-- An engine keeps a graph, whose elements have ids among those handed out. -/
structure Tracks (ids : Nat → String) (s : Multigraph × Nat) (e : Engine σ) : Prop where
  keeps : e.Keeps s.1
  issued : e.issued = s.2
  handedOut : e.ids = ids
  born : ∀ kind id, id ∈ s.1.ids kind → ∃ i < s.2, ids i = id

section Creating

theorem does_createPlain {k : PlainKey} (hk : k.Valid) {L : Layout} (hnew : L.plain k = none)
    (value : String) :
    Does (createKey (RecordKey.plain k).text value : Attempt σ Unit) L.record ()
      (L.setPlain k (some (.text value))).record := by
  rw [L.record_setPlain]
  exact does_createKey (r := .plain k) hk hnew value

variable {g : Multigraph} {neighbors : Scope → List String}

/-- The records of a new vertex. -/
theorem does_vertexRecords {v : Vertex} (hid : IsName v.id) (hlabel : Key.isToken v.label = true)
    (hnew : v.id ∉ g.ids .vertex) :
    Does (do
      createKey (Key.element .vertex v.id) v.id
      createKey (Key.label .vertex v.id) v.label
      createKey (Key.labelEntry v.id v.label) ""
      createKey (Key.enumeration .vertex v.id) ""
      return v.id : Attempt σ String) (g.layout neighbors).record v.id
      ((g.addVertex v).layout neighbors).record := by
  have hnone : g.vertex? v.id = none := Multigraph.vertex?_eq_none.2 hnew
  have hentry : v ∉ g.vertices := fun h => hnew (List.mem_map_of_mem h)
  rw [Multigraph.layout_addVertex hnew]
  refine .bind (does_createPlain (k := .element .vertex v.id) hid.1 ?_ _) ?_
  · simp [Multigraph.layout, hnew]
  refine .bind (does_createPlain (k := .label .vertex v.id) hid.1 ?_ _) ?_
  · simp [Multigraph.layout, Layout.setPlain, hnone]
  refine .bind (does_createPlain (k := .labelEntry v.id v.label) ⟨hid.1, hlabel⟩ ?_ _) ?_
  · simp [Multigraph.layout, Layout.setPlain, hentry]
  refine .bind (does_createPlain (k := .listing .vertex v.id) hid.1 ?_ _) (.pure _ _)
  · simp [Multigraph.layout, Layout.setPlain, hnew]

/-- The records of a new edge. -/
theorem does_edgeRecords (hg : g.Sound) (hfits : g.Fits neighbors) {e : Edge} (he : e.Named)
    (hnew : e.id ∉ g.ids .edge) :
    Does (do
      createKey (Key.element .edge e.id) ""
      createKey (Key.label .edge e.id) e.label
      createKey (Key.edgeFrom e.id) e.source
      createKey (Key.edgeTo e.id) e.target
      linkEdge e.id e.label e.source e.target
      createKey (Key.enumeration .edge e.id) ""
      return e.id : Attempt σ String) (g.layout neighbors).record e.id
      ((g.addEdge e).layout (Multigraph.appended neighbors e)).record := by
  have hnone : g.edge? e.id = none := Multigraph.edge?_eq_none.2 hnew
  have hlisted : ∀ s, e.id ∉ (g.layout neighbors).listed s .edges := by
    intro s hs
    rw [Multigraph.listed_edges hg] at hs
    obtain ⟨x, hx, hid⟩ := List.mem_map.1 hs
    exact hnew (hid ▸ List.mem_map_of_mem (List.mem_of_mem_filter hx))
  rw [Multigraph.layout_addEdge hg hfits hnew]
  refine .bind (does_createPlain (k := .element .edge e.id) he.id.1 ?_ _) ?_
  · simp [Multigraph.layout, hnew]
  refine .bind (does_createPlain (k := .label .edge e.id) he.id.1 ?_ _) ?_
  · simp [Multigraph.layout, Layout.setPlain, hnone]
  refine .bind (does_createPlain (k := .source e.id) he.id.1 ?_ _) ?_
  · simp [Multigraph.layout, Layout.setPlain, hnone]
  refine .bind (does_createPlain (k := .target e.id) he.id.1 ?_ _) ?_
  · simp [Multigraph.layout, Layout.setPlain, hnone]
  refine .bind (does_linkEdge he hlisted) ?_
  refine .bind (does_createPlain (k := .listing .edge e.id) he.id.1 ?_ _) (.pure _ _)
  · simp [Multigraph.layout, Layout.setPlain, Layout.linkEdge, hnew]

/-- A vertex is required by its marker. -/
theorem Engine.Holds.requireVertex_run {m : Records} {e : Engine σ} (he : e.Holds m) {id : String}
    (hid : Key.isToken id = true) :
    (requireVertex id).run.run e =
      (if m (.plain (.element .vertex id)) ≠ none then .ok ()
        else .error (.refused (.endpointMissing id)), e) := by
  have hstored := he.stored (.plain (.element .vertex id)) hid
  have hget := Engine.get_run (Key.element .vertex id) e
  rw [requireVertex, elementExists, bind_assoc]
  refine (Attempt.bind_ok hget _).trans ?_
  rw [← hstored, Engine.contents, Key.element_eq]
  cases (LawfulBackend.entries e.store).get? (RecordKey.plain (.element .vertex id)).text with
  | none => rfl
  | some entry => rfl

theorem requireVertex_run {e : Engine σ} (he : e.Holds (g.layout neighbors).record) {id : String}
    (hid : Key.isToken id = true) :
    (requireVertex id).run.run e =
      (if id ∈ g.ids .vertex then .ok () else .error (.refused (.endpointMissing id)), e) := by
  rw [he.requireVertex_run hid]
  simp [Layout.record, Multigraph.layout]

end Creating

section Steps

variable {ids : Nat → String} {s : Multigraph × Nat} {e : Engine σ}

/-- After an operation that hands out no id. -/
theorem Tracks.of_keeps (h : Tracks ids s e) {g : Multigraph} {e' : Engine σ} (hg : e'.Keeps g)
    (hb : e.Beside e') (hborn : ∀ kind id, id ∈ g.ids kind → id ∈ s.1.ids kind) :
    Tracks ids (g, s.2) e' :=
  ⟨hg, hb.issued.trans h.issued, hb.ids.trans h.handedOut,
    fun kind id hid => h.born kind id (hborn kind id hid)⟩

/-- The engine after an id was handed out. -/
theorem Engine.Holds.issue {m : Records} (h : e.Holds m) :
    ({ e with issued := e.issued + 1 } : Engine σ).Holds m := ⟨h.stored, h.only⟩

/-- The id that is handed out next. -/
theorem Tracks.next (h : Tracks ids s e) : e.ids e.issued = ids s.2 := by
  rw [h.handedOut, h.issued]

theorem fresh_not_mem (h : Tracks ids s e) (hids : GoodIds ids (s.2 + 1)) (kind : ElementKind) :
    ids s.2 ∉ s.1.ids kind := by
  intro hmem
  obtain ⟨i, hi, hid⟩ := h.born kind _ hmem
  have := hids.injective (i := i) (j := s.2) (by omega) (by omega) hid
  omega

/-- Creating a vertex. -/
theorem createVertex_run (h : Tracks ids s e) {label : String} (hlabel : Key.isToken label = true)
    (hids : GoodIds ids (s.2 + 1)) :
    ∃ e', (createVertex label).run.run e = (.ok (ids s.2), e') ∧
      Tracks ids (s.1.addVertex ⟨ids s.2, label⟩, s.2 + 1) e' ∧ e'.log = e.log := by
  obtain ⟨neighbors, hfits, hholds⟩ := h.keeps.holds
  have hname := (hids.wellFormed s.2 (by omega)).isName
  have hnew := fresh_not_mem h hids .vertex
  obtain ⟨e', hrun, hholds', hb⟩ := does_vertexRecords (σ := σ) (v := ⟨ids s.2, label⟩) hname hlabel
    hnew _ hholds.issue
  refine ⟨e', ?_, ⟨⟨h.keeps.sound.addVertex hname hlabel hnew, neighbors, hfits, hholds'⟩,
    ?_, hb.ids.trans h.handedOut, ?_⟩, hb.log⟩
  · have hid := h.next.symm
    rw [hid] at hrun ⊢
    refine (Attempt.ofExcept_ok_bind (Validation.label_eq_ok.2 hlabel) _ e).trans ?_
    exact (Engine.freshId_bind _ e).trans hrun
  · rw [hb.issued]
    exact congrArg (· + 1) h.issued
  · intro kind id hid
    rcases Multigraph.mem_ids_addVertex.1 hid with hid | ⟨-, rfl⟩
    · obtain ⟨i, hi, he⟩ := h.born kind id hid
      exact ⟨i, by omega, he⟩
    · exact ⟨s.2, by omega, rfl⟩

omit [LawfulBackend σ] in
/-- Creating an edge with token arguments starts by looking for its ends. -/
theorem createEdge_valid {label source target : String} (hlabel : Key.isToken label = true)
    (hsource : Key.isToken source = true) (htarget : Key.isToken target = true) (e : Engine σ) :
    (createEdge label source target).run.run e = (do
      requireVertex source
      requireVertex target
      let id ← (Engine.freshId : Run σ String)
      createKey (Key.element .edge id) ""
      createKey (Key.label .edge id) label
      createKey (Key.edgeFrom id) source
      createKey (Key.edgeTo id) target
      linkEdge id label source target
      createKey (Key.enumeration .edge id) ""
      return id : Attempt σ String).run.run e := by
  refine (Attempt.ofExcept_ok_bind (Validation.label_eq_ok.2 hlabel) _ e).trans ?_
  refine (Attempt.ofExcept_ok_bind (Validation.endpoint_eq_ok.2 hsource) _ e).trans ?_
  exact Attempt.ofExcept_ok_bind (Validation.endpoint_eq_ok.2 htarget) _ e

omit [LawfulBackend σ] in
/-- Arguments of a new edge that are no tokens are refused, and nothing changes. -/
theorem createEdge_error_or_tokens (label source target : String) (e : Engine σ) :
    (∃ err, (createEdge label source target).run.run e = (.error err, e)) ∨
      Key.isToken label = true ∧ Key.isToken source = true ∧ Key.isToken target = true := by
  by_cases hlabel : Key.isToken label = true
  case neg => exact .inl (Attempt.check_refused (mt Validation.label_eq_ok.1 hlabel) _ e)
  by_cases hsource : Key.isToken source = true
  case neg =>
    obtain ⟨err, hrun⟩ := Attempt.check_refused (mt Validation.endpoint_eq_ok.1 hsource) _ e
    exact .inl ⟨err, (Attempt.ofExcept_ok_bind (Validation.label_eq_ok.2 hlabel) _ e).trans hrun⟩
  by_cases htarget : Key.isToken target = true
  case neg =>
    obtain ⟨err, hrun⟩ := Attempt.check_refused (mt Validation.endpoint_eq_ok.1 htarget) _ e
    refine .inl ⟨err, (Attempt.ofExcept_ok_bind (Validation.label_eq_ok.2 hlabel) _ e).trans ?_⟩
    exact (Attempt.ofExcept_ok_bind (Validation.endpoint_eq_ok.2 hsource) _ e).trans hrun
  exact .inr ⟨hlabel, hsource, htarget⟩

/-- Creating an edge between two vertices. -/
theorem createEdge_run (h : Tracks ids s e) {label source target : String}
    (hlabel : Key.isToken label = true) (hsource : source ∈ s.1.ids .vertex)
    (htarget : target ∈ s.1.ids .vertex) (hids : GoodIds ids (s.2 + 1)) :
    ∃ e', (createEdge label source target).run.run e = (.ok (ids s.2), e') ∧
      Tracks ids (s.1.addEdge ⟨ids s.2, label, source, target⟩, s.2 + 1) e' ∧
      e'.log = e.log := by
  obtain ⟨neighbors, hfits, hholds⟩ := h.keeps.holds
  have hname := (hids.wellFormed s.2 (by omega)).isName
  have hnew := fresh_not_mem h hids .edge
  have hnamed : (⟨ids s.2, label, source, target⟩ : Edge).Named :=
    ⟨hname, hlabel, h.keeps.sound.isName hsource, h.keeps.sound.isName htarget⟩
  have hends : ∀ d, (⟨ids s.2, label, source, target⟩ : Edge).near d ∈ s.1.ids .vertex := by
    intro d
    cases d
    · exact hsource
    · exact htarget
  obtain ⟨e', hrun, hholds', hb⟩ := does_edgeRecords (σ := σ) h.keeps.sound hfits hnamed hnew _
    hholds.issue
  refine ⟨e', ?_, ⟨⟨h.keeps.sound.addEdge hnamed hnew hends, _, hfits.addEdge _, hholds'⟩,
    ?_, hb.ids.trans h.handedOut, ?_⟩, hb.log⟩
  · have hid := h.next.symm
    have hrequireSource := requireVertex_run hholds (h.keeps.sound.isName hsource).1
    have hrequireTarget := requireVertex_run hholds (h.keeps.sound.isName htarget).1
    rw [if_pos hsource] at hrequireSource
    rw [if_pos htarget] at hrequireTarget
    rw [hid] at hrun ⊢
    rw [createEdge_valid hlabel (h.keeps.sound.isName hsource).1 (h.keeps.sound.isName htarget).1]
    refine (Attempt.bind_ok hrequireSource _).trans ?_
    refine (Attempt.bind_ok hrequireTarget _).trans ?_
    exact (Engine.freshId_bind _ e).trans hrun
  · rw [hb.issued]
    exact congrArg (· + 1) h.issued
  · intro kind id hid
    rcases Multigraph.mem_ids_addEdge.1 hid with hid | ⟨-, rfl⟩
    · obtain ⟨i, hi, he⟩ := h.born kind id hid
      exact ⟨i, by omega, he⟩
    · exact ⟨s.2, by omega, rfl⟩

/-- An edge without a label that is a token, or at a vertex that is not there, is refused, and
nothing changes. -/
theorem createEdge_refused (h : Tracks ids s e) {label source target : String}
    (hnot : ¬(Key.isToken label = true ∧ source ∈ s.1.ids .vertex ∧ target ∈ s.1.ids .vertex)) :
    ∃ err, (createEdge label source target).run.run e = (.error err, e) := by
  obtain ⟨neighbors, hfits, hholds⟩ := h.keeps.holds
  rcases createEdge_error_or_tokens label source target e with hrefused | ⟨hlabel, hsource, htarget⟩
  · exact hrefused
  have hrequireSource := requireVertex_run hholds hsource
  have hrequireTarget := requireVertex_run hholds htarget
  rw [createEdge_valid hlabel hsource htarget]
  by_cases hs : source ∈ s.1.ids .vertex
  · have ht : target ∉ s.1.ids .vertex := fun ht => hnot ⟨hlabel, hs, ht⟩
    rw [if_pos hs] at hrequireSource
    rw [if_neg ht] at hrequireTarget
    exact ⟨_, (Attempt.bind_ok hrequireSource _).trans (Attempt.bind_error hrequireTarget _)⟩
  · rw [if_neg hs] at hrequireSource
    exact ⟨_, Attempt.bind_error hrequireSource _⟩

/-- Setting a property that may be set. -/
theorem does_setProperty {kind : ElementKind} {id key : String} (hid : Key.isToken id = true)
    (hkey : IsPropertyKey key) (value : Json) (L : Layout) :
    Does (setProperty kind id key value : Attempt σ Unit) L.record ()
      (L.setPlain (.property kind id key) (some (.text value.text))).record := by
  rw [L.record_setPlain, setProperty, Validation.propertyKey_eq_ok.2 hkey]
  exact .update_bind (r := .plain (.property kind id key)) ⟨hid, hkey.1⟩ fun _ => .pure _ _

/-- The empty graph keeps nothing. -/
theorem record_empty (neighbors : Scope → List String) :
    (Multigraph.empty.layout neighbors).record = fun _ => none := by
  funext r
  cases r with
  | plain key =>
    have hids : ∀ kind, Multigraph.empty.ids kind = [] := by
      intro kind
      cases kind <;> rfl
    cases key with
    | label kind id => cases kind <;> rfl
    | element kind id => cases kind <;> simp [Layout.record, Multigraph.layout, hids]
    | listing kind id => simp [Layout.record, Multigraph.layout, hids]
    | labelEntry id label => simp [Layout.record, Multigraph.layout, Multigraph.empty]
    | property | source | target => rfl
  | marker s a t => simp [Layout.record, Layout.listed, Multigraph.layout, Multigraph.empty]
  | index s a => simp [Layout.record, Multigraph.layout, Multigraph.empty]

theorem fits_empty : Multigraph.empty.Fits fun _ => [] := by
  intro s
  simp [Multigraph.edgesAt, Multigraph.empty]

/-! ## What becomes of the graph -/

section Changes

variable {g : Multigraph}

theorem Engine.Keeps.setProperty (h : e.Keeps g) (kind : ElementKind) {id key : String}
    (hid : Key.isToken id = true) (hkey : IsPropertyKey key) (value : Json) :
    ∃ e', (Graph.setProperty kind id key value).run.run e = (.ok (), e') ∧
      e'.Keeps (g.setProperty kind id key value) ∧ e.Beside e' := by
  refine h.acts (h.sound.setProperty kind hid hkey.1 value) fun neighbors hfits =>
    ⟨neighbors, hfits, ?_⟩
  rw [Multigraph.layout_setProperty]
  exact does_setProperty hid hkey value _

theorem Engine.Keeps.dropEdge (h : e.Keeps g) {id : String} (hid : Key.isToken id = true) :
    ∃ e', (Graph.dropEdge id).run e = ((), e') ∧ e'.Keeps (g.dropEdge id) ∧ e.Beside e' :=
  h.acts (h.sound.removeEdges [id]) fun neighbors hfits =>
    ⟨_, hfits.thinned [id], acts_dropEdge_graph h.sound neighbors hid⟩

theorem Engine.Keeps.dropVertex (h : e.Keeps g) {id : String} (hid : Key.isToken id = true) :
    ∃ e', (Graph.dropVertex id).run e = ((), e') ∧ e'.Keeps (g.dropVertex id) ∧ e.Beside e' :=
  h.acts (h.sound.dropVertex id) fun _ hfits =>
    ⟨_, hfits.thinned (g.incident id), acts_dropVertex h.sound hfits hid⟩

theorem Engine.Keeps.dropAll (h : e.Keeps g) :
    ∃ e', (Graph.dropAll).run.run e = (.ok (), e') ∧ e'.Keeps .empty ∧ e.Beside e' := by
  refine h.acts .empty fun _ _ => ⟨fun _ => [], fits_empty, ?_⟩
  rw [record_empty]
  exact does_dropAll _

end Changes

/-- Every operation on ids that are tokens keeps the relation. -/
theorem Tracks.step (h : Tracks ids s e) {op : RecordOp} (hop : op.Named)
    (hids : GoodIds ids (Multigraph.step ids s op).2) :
    Tracks ids (Multigraph.step ids s op) (op.run.run e).2 ∧ (op.run.run e).2.log = e.log := by
  cases op with
  | createVertex label =>
    simp only [Multigraph.step] at hids ⊢
    by_cases hlabel : Key.isToken label = true
    · rw [if_pos hlabel] at hids ⊢
      obtain ⟨e', hrun, htracks, hlog⟩ := createVertex_run h hlabel hids
      rw [RecordOp.run, RecordOp.run_of_outcome hrun]
      exact ⟨htracks, hlog⟩
    · rw [if_neg hlabel]
      obtain ⟨err, hrun⟩ := createVertex_refused hlabel e
      rw [RecordOp.run, RecordOp.run_of_outcome hrun]
      exact ⟨h, rfl⟩
  | createEdge label source target =>
    simp only [Multigraph.step] at hids ⊢
    by_cases hnew : Key.isToken label = true ∧ source ∈ s.1.ids .vertex ∧ target ∈ s.1.ids .vertex
    · rw [if_pos hnew] at hids ⊢
      obtain ⟨e', hrun, htracks, hlog⟩ := createEdge_run h hnew.1 hnew.2.1 hnew.2.2 hids
      rw [RecordOp.run, RecordOp.run_of_outcome hrun]
      exact ⟨htracks, hlog⟩
    · rw [if_neg hnew]
      obtain ⟨err, hrun⟩ := createEdge_refused h hnew
      rw [RecordOp.run, RecordOp.run_of_outcome hrun]
      exact ⟨h, rfl⟩
  | setProperty kind id key value =>
    simp only [Multigraph.step]
    by_cases hkey : IsPropertyKey key
    · rw [if_pos hkey]
      obtain ⟨e', hrun, hkeeps, hb⟩ := h.keeps.setProperty kind hop hkey value
      rw [RecordOp.run, RecordOp.run_of_outcome hrun]
      exact ⟨h.of_keeps hkeeps hb fun _ _ hid => hid, hb.log⟩
    · rw [if_neg hkey]
      obtain ⟨err, hrun⟩ := setProperty_refused hkey kind id value e
      rw [RecordOp.run, RecordOp.run_of_outcome hrun]
      exact ⟨h, rfl⟩
  | dropEdge id =>
    obtain ⟨e', hrun, hkeeps, hb⟩ := h.keeps.dropEdge hop
    rw [RecordOp.run, hrun]
    exact ⟨h.of_keeps hkeeps hb fun _ _ hid => (Multigraph.mem_ids_removeEdges.1 hid).1, hb.log⟩
  | dropVertex id =>
    obtain ⟨e', hrun, hkeeps, hb⟩ := h.keeps.dropVertex hop
    rw [RecordOp.run, hrun]
    refine ⟨h.of_keeps hkeeps hb fun _ _ hid => ?_, hb.log⟩
    exact (Multigraph.mem_ids_removeEdges.1 (Multigraph.mem_ids_removeVertex.1 hid).1).1
  | dropAll =>
    obtain ⟨e', hrun, hkeeps, hb⟩ := h.keeps.dropAll
    rw [RecordOp.run, RecordOp.run_of_outcome hrun]
    refine ⟨h.of_keeps hkeeps hb fun kind _ hid => ?_, hb.log⟩
    cases kind <;> simp [Multigraph.ids, Multigraph.empty] at hid

/-- And so do operations one after the other. -/
theorem Tracks.run (h : Tracks ids s e) {ops : List RecordOp} (hops : ∀ op ∈ ops, op.Named)
    (hids : GoodIds ids (Multigraph.history ids ops s).2) :
    Tracks ids (Multigraph.history ids ops s) ((RecordOp.runAll ops).run e).2 ∧
      ((RecordOp.runAll ops).run e).2.log = e.log := by
  induction ops generalizing s e with
  | nil => exact ⟨h, rfl⟩
  | cons op ops ih =>
    have hle : (Multigraph.step ids s op).2 ≤ (Multigraph.history ids (op :: ops) s).2 :=
      Multigraph.le_history ids ops _
    obtain ⟨hfirst, hlog⟩ := h.step (hops op (by simp)) (hids.mono hle)
    obtain ⟨hrest, hlog'⟩ := ih hfirst (fun o ho => hops o (List.mem_cons_of_mem _ ho)) hids
    exact ⟨hrest, hlog'.trans hlog⟩

/-- An engine over an empty store keeps the empty graph. -/
theorem Tracks.empty (hempty : ∀ key, e.contents key = none) :
    Tracks e.ids (Multigraph.empty, e.issued) e where
  keeps := by
    refine ⟨.empty, fun _ => [], fits_empty, ?_⟩
    rw [record_empty]
    exact ⟨fun r _ => hempty r.text, fun key hkey => absurd (hempty key) hkey⟩
  issued := rfl
  handedOut := rfl
  born kind id hid := by cases kind <;> simp [Multigraph.ids, Multigraph.empty] at hid

end Steps

end PropertyGraph
