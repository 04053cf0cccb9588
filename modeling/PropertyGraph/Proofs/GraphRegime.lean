/-
Operations on a graph in a regime: whatever fails and whatever the store holds, each keeps to
the names and errors of the regime. Only creating an edge needs refusals, for an end that is not
there (`Regime.Ensures.createEdge`); dropping needs nothing of what it meets.
-/
import PropertyGraph.Proofs.Regime
import PropertyGraph.Proofs.RecordOps
import PropertyGraph.Stream.Expansion

namespace PropertyGraph.Regime

open PropertyGraph.Graph

variable {σ : Type} {R : Regime} [Backend σ] [FallibleBackend σ]

/-! ## Lists of ids -/

theorem names_family {vertex : String} (hvertex : R.name vertex) (direction : Direction)
    (adjacency : Adjacency) {label : Option String} (hlabel : ∀ l, label = some l → R.name l) :
    ∀ t ∈ Key.family vertex direction adjacency label, R.name t := by
  intro t ht
  simp only [Key.family, List.mem_append, List.mem_cons, List.not_mem_nil, or_false,
    Option.mem_toList] at ht
  rcases ht with (rfl | rfl | rfl) | ht
  · exact name_of_isToken (by decide)
  · exact hvertex
  · exact name_of_isToken (Key.isToken_segment _ _)
  · exact hlabel t ht

/-- The key of a list of ids begins as the records of vertices do, whatever its vertex is. -/
theorem not_end_index (vertex : String) (direction : Direction) (adjacency : Adjacency)
    (label : Option String) (id last : String) :
    Key.tokens (Key.index vertex direction adjacency label) ≠ ["edge", id, last] := by
  intro h
  have hchars : (Key.index vertex direction adjacency label).toList =
      "node".toList ++ '.' :: Key.joinChars ((vertex :: Key.segment direction adjacency ::
        (label.toList ++ [Key.indexToken])).map String.toList) := by
    simp [Key.index, Key.family, Key.join, Key.joinChars]
  rw [Key.tokens_eq, hchars, Key.cut_append_dot (by decide)] at h
  have hnode : String.ofList "node".toList = "edge" := (List.cons.inj h).1
  exact absurd hnode (by decide)

section Index

variable {vertex : String} {direction : Direction} {adjacency : Adjacency} {label : Option String}

theorem key_index (hvertex : R.name vertex) (hlabel : ∀ l, label = some l → R.name l) :
    R.Key (Key.index vertex direction adjacency label) := by
  refine key_join (by simp) fun t ht => ?_
  rcases List.mem_append.1 ht with ht | ht
  · exact names_family hvertex direction adjacency hlabel t ht
  · rw [List.mem_singleton.1 ht]
    exact name_of_isToken (by decide)

theorem record_idList {ids : List String} (hids : ∀ id ∈ ids, R.name id) :
    R.Record (Key.index vertex direction adjacency label) (idList ids) where
  index := by
    intro _ _ _ _ _ found hfound
    rw [ids?_idList] at hfound
    cases hfound
    exact hids
  ends id h := by
    rcases h with h | h <;> exact (not_end_index _ _ _ _ _ _ h).elim

/-- The names in a list of ids. -/
theorem Record.names {value : Blob} (h : R.Record (Key.index vertex direction adjacency label) value)
    (hvertex : R.name vertex) (hlabel : ∀ l, label = some l → R.name l) {ids : List String}
    (hids : value.ids? = some ids) : ∀ id ∈ ids, R.name id := by
  rcases R.names with ⟨hall, -⟩ | htokens
  · exact fun id _ => hall id
  · refine h.index vertex direction adjacency label ?_ ids hids
    refine Key.tokens_join_of_ne_nil (by simp) fun t ht => Key.dot_not_mem_of_isToken ?_
    rcases List.mem_append.1 ht with ht | ht
    · exact (htokens t).1 (names_family hvertex direction adjacency hlabel t ht)
    · rw [List.mem_singleton.1 ht]
      decide

end Index

theorem Ensures.readIndex (key : String) :
    R.Ensures (readIndex key : Attempt σ _) fun found => ∀ ids, found = some ids →
      R.Key key ∧ ∃ value : Blob, value.ids? = some ids ∧ R.Record key value := by
  refine .bind (.get key) fun found hfound => ?_
  cases found with
  | none => exact .pure (by simp)
  | some entry =>
    cases hids : entry.value.ids? with
    | none =>
      simp only [hids]
      exact .bind (.lift (.note _)) fun _ _ => .pure (by simp)
    | some ids =>
      simp only [hids]
      refine .pure fun ids' h => ?_
      cases h
      exact ⟨(hfound entry rfl).1, entry.value, hids, (hfound entry rfl).2⟩

theorem Ensures.pushIndex {vertex : String} (hvertex : R.name vertex) (direction : Direction)
    (adjacency : Adjacency) {label : Option String} (hlabel : ∀ l, label = some l → R.name l)
    {id : String} (hid : R.name id) (distinct : Bool) :
    R.Ensures (pushIndex (Key.index vertex direction adjacency label) id distinct : Attempt σ _)
      fun _ => True := by
  refine .bind (.readIndex _) fun found hfound => ?_
  have hids : ∀ x ∈ found.getD [], R.name x := by
    cases found with
    | none => simp
    | some ids =>
      obtain ⟨-, value, hvalue, hrecord⟩ := hfound ids rfl
      exact hrecord.names hvertex hlabel hvalue
  dsimp only
  split
  · exact .pure trivial
  · refine .map (.update (key_index hvertex hlabel) (record_idList fun x hx => ?_)) fun _ _ => trivial
    rcases List.mem_append.1 hx with hx | hx
    · exact hids x hx
    · rwa [List.mem_singleton.1 hx]

theorem Ensures.removeFromIndex (vertex : String) (direction : Direction) (adjacency : Adjacency)
    (label : Option String) (id : String) (all : Bool) :
    R.Ensures (removeFromIndex (Key.index vertex direction adjacency label) id all : Attempt σ _)
      fun _ => True := by
  refine .bind (.readIndex _) fun found hfound => ?_
  cases found with
  | none => exact .pure trivial
  | some ids =>
    obtain ⟨hkey, value, hvalue, hrecord⟩ := hfound ids rfl
    have hleft : ∀ x ∈ (if all then ids.filter (· != id) else ids.erase id), x ∈ ids := by
      intro x hx
      split at hx
      · exact List.mem_of_mem_filter hx
      · exact List.mem_of_mem_erase hx
    dsimp only
    generalize (if all then ids.filter (· != id) else ids.erase id) = left at hleft ⊢
    have hnew : R.Record (Key.index vertex direction adjacency label) (idList left) := by
      refine ⟨fun v d a l htokens found hfound x hx => ?_, fun id h => ?_⟩
      · rw [ids?_idList] at hfound
        cases hfound
        exact hrecord.index v d a l htokens ids hvalue x (hleft x hx)
      · rcases h with h | h <;> exact (not_end_index _ _ _ _ _ _ h).elim
    split
    · exact .bind (.update hkey hnew) fun _ _ => .pure trivial
    · exact .pure trivial

theorem Always.deleteQuietly (key : String) :
    R.Always (deleteQuietly key : Run σ Unit) fun _ => True :=
  .quietly (.delete key) trivial

/-! ## Neighbours -/

theorem Key.name_lastToken {key : String} (h : R.Key key) : R.name (PropertyGraph.Key.lastToken key) := by
  rw [PropertyGraph.Key.lastToken, List.getLastD_eq_getLast?,
    List.getLast?_eq_some_getLast (Key.tokens_ne_nil key)]
  exact h _ (List.getLast_mem _)

theorem Key.name_token? {key t : String} (h : R.Key key) {i : Nat}
    (ht : PropertyGraph.Key.token? key i = some t) : R.name t :=
  h t (List.mem_of_getElem? ht)

theorem Ensures.adjacentIds {vertex : String} (hvertex : R.name vertex) (direction : Direction)
    (adjacency : Adjacency) {label : Option String} (hlabel : ∀ l, label = some l → R.name l) :
    R.Ensures (adjacentIds vertex direction adjacency label : Attempt σ _) fun ids =>
      ∀ id ∈ ids, R.name id := by
  refine .bind (.readIndex _) fun found hfound => ?_
  cases found with
  | some ids =>
    obtain ⟨-, value, hvalue, hrecord⟩ := hfound ids rfl
    exact .pure (hrecord.names hvertex hlabel hvalue)
  | none =>
    have hpattern : R.Pattern (Key.markerPattern vertex direction adjacency label) := by
      refine pattern_of_names (vertex :: label.toList) ?_ fun htokens => ?_
      · intro s hs
        rcases List.mem_cons.1 hs with rfl | hs
        · exact hvertex
        · exact hlabel s (by simpa using hs)
      · have hscope : Scope.Valid ⟨vertex, direction, label⟩ :=
          ⟨htokens vertex (by simp), fun l hl => htokens l (by simp [show label = some l from hl])⟩
        exact ⟨_, KeyPattern.parse_markers hscope adjacency⟩
    refine .map (.keysMatching hpattern) fun keys hkeys id hid => ?_
    obtain ⟨key, hkey, rfl⟩ := List.mem_map.1 (List.mem_of_mem_filter hid)
    exact (hkeys key hkey).name_lastToken

theorem names_union {seen ids : List String} (hseen : ∀ id ∈ seen, R.name id)
    (hids : ∀ id ∈ ids, R.name id) : ∀ id ∈ union seen ids, R.name id := by
  intro id hid
  rcases mem_union.1 hid with h | h
  · exact hseen id h
  · exact hids id h

theorem Ensures.neighbors {vertex : String} (hvertex : R.name vertex) (direction : Direction)
    (adjacency : Adjacency) {labels seen : List String} (hlabels : ∀ l ∈ labels, R.name l)
    (hseen : ∀ id ∈ seen, R.name id) :
    R.Ensures (neighbors vertex direction adjacency labels seen : Attempt σ _) fun ids =>
      ∀ id ∈ ids, R.name id := by
  refine .foldlM (q := fun ids => ∀ id ∈ ids, R.name id) (fun found hfound scope hscope => ?_) hseen
  refine .map (.adjacentIds hvertex direction adjacency fun l hl => ?_) fun ids hids =>
    names_union hfound hids
  subst hl
  split at hscope
  · simp at hscope
  · exact hlabels l (by simpa using hscope)

/-! ## Linking and unlinking -/

theorem key_marker {vertex : String} (hvertex : R.name vertex) (direction : Direction)
    (adjacency : Adjacency) {label : Option String} (hlabel : ∀ l, label = some l → R.name l)
    {target : String} (htarget : R.name target) :
    R.Key (Key.marker vertex direction adjacency label target) ∧
      R.Record (Key.marker vertex direction adjacency label target) (.text "") := by
  have hts : ∀ t ∈ Key.family vertex direction adjacency label ++ [target], R.name t := by
    intro t ht
    rcases List.mem_append.1 ht with ht | ht
    · exact names_family hvertex direction adjacency hlabel t ht
    · rwa [List.mem_singleton.1 ht]
  have hids : (Blob.text "").ids? = none := rfl
  refine ⟨key_join (by simp) hts, record_join (by simp) hts ?_ ?_⟩
  · intro _ _ _ _ _ ids h
    rw [hids] at h
    cases h
  · intro id h
    simp [Key.family] at h

theorem Ensures.linkEnd {edge : String} (hedge : R.name edge) {e : EdgeEnd String}
    (hvertex : R.name e.vertex) (hother : R.name e.other) {label : Option String}
    (hlabel : ∀ l, label = some l → R.name l) :
    R.Ensures (linkEnd edge e label : Attempt σ _) fun _ => True := by
  have hmarker := key_marker hvertex e.direction .edges hlabel hedge
  have hneighbor := key_marker hvertex e.direction .vertices hlabel hother
  refine .bind (.create hmarker.1 hmarker.2) fun _ _ => ?_
  refine .bind (.put hneighbor.1 hneighbor.2) fun _ _ => ?_
  exact .bind (.pushIndex hvertex _ _ hlabel hedge _) fun _ _ =>
    .pushIndex hvertex _ _ hlabel hother _

theorem Ensures.linkEdge {edge label source target : String} (hedge : R.name edge)
    (hlabel : R.name label) (hsource : R.name source) (htarget : R.name target) :
    R.Ensures (linkEdge edge label source target : Attempt σ _) fun _ => True := by
  refine .forM fun e he => ?_
  have hends : R.name e.vertex ∧ R.name e.other := by
    simp only [edgeEnds, List.mem_cons, List.not_mem_nil, or_false] at he
    rcases he with rfl | rfl
    · exact ⟨hsource, htarget⟩
    · exact ⟨htarget, hsource⟩
  refine .bind (.linkEnd hedge hends.1 hends.2 (by simp)) fun _ _ => ?_
  exact .linkEnd hedge hends.1 hends.2 (by simpa using hlabel)

theorem Always.unlinkEnd (edge vertex : String) (direction : Direction) (other label : Option String) :
    R.Always (unlinkEnd edge vertex direction other label : Run σ Unit) fun _ => True := by
  refine .bind (.deleteQuietly _) fun _ _ => ?_
  refine .bind (.quietly (.removeFromIndex _ _ _ _ _ _) trivial) fun _ _ => ?_
  cases other with
  | none => exact .pure trivial
  | some other =>
    refine .bind (.quietly (.removeFromIndex _ _ _ _ _ _) trivial) fun stillLinked _ => ?_
    cases stillLinked with
    | true => exact .pure trivial
    | false => exact .deleteQuietly _

theorem Always.unlinkEdge (edge : String) (label source target : Option String) :
    R.Always (unlinkEdge edge label source target : Run σ Unit) fun _ => True := by
  refine .forM (fun e => ?_) _
  obtain ⟨vertex, direction, other⟩ := e
  cases vertex with
  | none => exact .pure trivial
  | some vertex =>
    refine .bind (.unlinkEnd _ _ _ _ _) fun _ _ => ?_
    cases label with
    | none => exact .pure trivial
    | some label => exact .unlinkEnd _ _ _ _ _

/-! ## Reading -/

theorem Ensures.elementExists (kind : ElementKind) (id : String) :
    R.Ensures (elementExists kind id : Attempt σ _) fun _ => True :=
  .map (.get _) fun _ _ => trivial

theorem Ensures.readText (key : String) :
    R.Ensures (readText key : Attempt σ _) fun text? => ∀ text, text? = some text →
      ∃ value : Blob, value.string = text ∧ R.Record key value := by
  refine .map (.get _) fun found hfound text htext => ?_
  obtain ⟨entry, rfl, rfl⟩ := Option.map_eq_some_iff.1 htext
  exact ⟨_, rfl, (hfound entry rfl).2⟩

theorem Ensures.getLabel (kind : ElementKind) (id : String) :
    R.Ensures (getLabel kind id : Attempt σ _) fun _ => True :=
  (Ensures.readText _).mono fun _ _ => trivial

theorem outcome_readJson (entry : Entry) : R.Outcome (fun _ => True) (readJson entry) := by
  rw [readJson]
  cases entry.value.json? with
  | some j => trivial
  | none => exact R.backend _ rfl

theorem Ensures.getProperty (kind : ElementKind) (id key : String) :
    R.Ensures (getProperty kind id key : Attempt σ _) fun _ => True := by
  refine .bind (.get _) fun found _ => ?_
  cases found with
  | none => exact .pure trivial
  | some entry => exact .map (.ofExcept (outcome_readJson entry)) fun _ _ => trivial

theorem Ensures.properties {kind : ElementKind} {id : String} (hid : R.name id) :
    R.Ensures (properties kind id : Attempt σ _) fun _ => True := by
  have hpattern : R.Pattern (Key.propertyPattern kind id) := by
    refine pattern_of_names [id] (by simpa using hid) fun htokens => ?_
    exact ⟨_, KeyPattern.parse_properties (htokens id List.mem_cons_self)⟩
  refine .foldKeys (fun found item _ hitem => ?_) trivial (by simpa using hpattern)
  refine .bind (.ofExcept hitem) fun key _ => .bind (.get key) fun entry _ => ?_
  cases entry with
  | none => exact .pure trivial
  | some entry => exact .map (.ofExcept (outcome_readJson entry)) fun _ _ => trivial

theorem Ensures.readNamed (kind : ElementKind) (id key : String) :
    R.Ensures (readNamed kind id key : Attempt σ _) fun _ => True := by
  rw [Graph.readNamed]
  split
  · exact .pure trivial
  · split
    · exact .map (.getLabel _ _) fun _ _ => trivial
    · exact .getProperty _ _ _

theorem Ensures.readProperties {kind : ElementKind} {id : String} (hid : R.name id)
    (keys : List String) : R.Ensures (readProperties kind id keys : Attempt σ _) fun _ => True := by
  rw [Graph.readProperties]
  split
  · exact .properties hid
  · refine .foldlM (q := fun _ => True) (fun found _ key _ => ?_) trivial
    refine .bind (.readNamed _ _ _) fun value _ => ?_
    cases value <;> exact .pure trivial

/-- The name in the record of an end of an edge. -/
theorem Record.name_end {id last : String} (hlast : last = "incoming" ∨ last = "outgoing")
    (hid : R.name id) {value : Blob} (h : R.Record (Key.join ["edge", id, last]) value) :
    R.name value.string := by
  rcases R.names with ⟨hall, -⟩ | htokens
  · exact hall _
  · have hjoin : Key.tokens (Key.join ["edge", id, last]) = ["edge", id, last] := by
      refine Key.tokens_join_of_ne_nil (by simp) fun t ht => Key.dot_not_mem_of_isToken ?_
      simp only [List.mem_cons, List.not_mem_nil, or_false] at ht
      rcases ht with rfl | rfl | rfl
      · decide
      · exact (htokens t).1 hid
      · rcases hlast with rfl | rfl <;> decide
    refine h.ends id ?_
    rw [hjoin]
    rcases hlast with rfl | rfl <;> simp

/-- The ends of an edge, as far as they are recorded, are names. -/
theorem Ensures.edgeEndpoints {id : String} (hid : R.name id) :
    R.Ensures (edgeEndpoints id : Attempt σ _) fun ends =>
      (∀ v, ends.source = some v → R.name v) ∧ ∀ v, ends.target = some v → R.name v := by
  refine .bind (.readText _) fun source hsource => .bind (.readText _) fun target htarget => ?_
  have hends : (∀ v, source = some v → R.name v) ∧ ∀ v, target = some v → R.name v := by
    constructor
    · intro v hv
      obtain ⟨value, rfl, hrecord⟩ := hsource v hv
      exact hrecord.name_end (.inl rfl) hid
    · intro v hv
      obtain ⟨value, rfl, hrecord⟩ := htarget v hv
      exact hrecord.name_end (.inr rfl) hid
  dsimp only
  split
  · exact .bind (.lift (.note _)) fun _ _ => .pure hends
  · exact .pure hends

theorem Ensures.scanElements (kind : ElementKind) :
    R.Ensures (scanElements kind : Attempt σ _) R.Scan := by
  refine .keys fun p hp => ?_
  rw [List.mem_singleton.1 hp]
  exact .inl ⟨_, KeyPattern.parse_listing kind⟩

theorem Ensures.scanLabel {label : String} (hlabel : R.name label) :
    R.Ensures (scanLabel label : Attempt σ _) R.Scan := by
  refine .keys fun p hp => ?_
  rw [List.mem_singleton.1 hp]
  refine pattern_of_names [label] (by simpa using hlabel) fun htokens => ?_
  exact ⟨_, KeyPattern.parse_labelEntries (htokens label List.mem_cons_self)⟩

/-! ## Creating and setting -/

/-- The names in a record about an element. -/
def Plain (R : Regime) : PlainKey → Prop
  | .element _ id | .listing _ id | .label _ id | .source id | .target id => R.name id
  | .labelEntry id l => R.name id ∧ R.name l
  | .property _ id key => R.name id ∧ R.name key

theorem names_plain {k : PlainKey} (h : R.Plain k) : ∀ t ∈ k.tokens, R.name t := by
  have hroot : ∀ kind : ElementKind, R.name kind.root ∧ R.name kind.listing := fun kind =>
    ⟨name_of_isToken (Key.isToken_root kind), name_of_isToken (Key.isToken_listing kind)⟩
  have hwords : ∀ w ∈ ["node", "edge", "property", "incoming", "outgoing", Key.labelToken],
      R.name w := fun w hw => name_of_isToken (by revert w; decide)
  cases k <;> simp only [PlainKey.tokens, Plain, List.mem_cons, List.not_mem_nil, or_false] at h ⊢ <;>
    grind

/-- A value may stand in a record about an element, if it is a name where the record is of an end
of an edge. -/
theorem record_plain {k : PlainKey} (h : R.Plain k) (value : Blob)
    (hends : ∀ id, k = .source id ∨ k = .target id → R.name value.string) :
    R.Key (RecordKey.plain k).text ∧ R.Record (RecordKey.plain k).text value := by
  have hne : k.tokens ≠ [] := (RecordKey.plain k).tokens_ne_nil
  have hts := names_plain h
  refine ⟨key_join hne hts, record_join hne hts ?_ ?_⟩
  · intro v d a l htokens
    cases k <;> cases l <;> simp [PlainKey.tokens, PropertyGraph.Key.family] at htokens
  · intro id htokens
    cases k with
    | source => exact hends _ (.inl rfl)
    | target => exact hends _ (.inr rfl)
    | _ => simp [PlainKey.tokens, PropertyGraph.Key.labelToken] at htokens

theorem Ensures.createPlain {k : PlainKey} (h : R.Plain k) {value : String}
    (hends : ∀ id, k = .source id ∨ k = .target id → R.name value) :
    R.Ensures (createKey (RecordKey.plain k).text value : Attempt σ _) fun _ => True :=
  have hrecord := record_plain h (.text value) hends
  .map (.create hrecord.1 hrecord.2) fun _ _ => trivial

/-- A check that some arguments pass, unless any error may come. -/
theorem outcome_check {x : Except Error Unit} {p : Prop} (hx : x = .ok () ↔ p)
    (h : p ∨ ∀ err, R.fault err) : R.Outcome (fun _ => p) x := by
  cases x with
  | ok => exact hx.1 rfl
  | error err =>
    rcases h with h | h
    · cases hx.2 h
    · exact h err

theorem Ensures.createVertex {label : String} (h : Key.isToken label = true ∨ ∀ err, R.fault err) :
    R.Ensures (createVertex label : Attempt σ _) R.name := by
  refine .bind (.ofExcept (outcome_check Validation.label_eq_ok h)) fun _ hlabel => ?_
  refine .bind (.lift .freshId) fun id hid => ?_
  refine .bind (.createPlain (k := .element .vertex id) hid (by simp)) fun _ _ => ?_
  refine .bind (.createPlain (k := .label .vertex id) hid (by simp)) fun _ _ => ?_
  refine .bind (.createPlain (k := .labelEntry id label) ⟨hid, name_of_isToken hlabel⟩
    (by simp)) fun _ _ => ?_
  exact .bind (.createPlain (k := .listing .vertex id) hid (by simp)) fun _ _ => .pure hid

/-- What creating an edge does once its ends were found. -/
theorem Ensures.edgeRecords {label source target : String} (hlabel : R.name label)
    (hsource : R.name source) (htarget : R.name target) :
    R.Ensures (do
      let id ← (Engine.freshId : Run σ String)
      createKey (Key.element .edge id) ""
      createKey (Key.label .edge id) label
      createKey (Key.edgeFrom id) source
      createKey (Key.edgeTo id) target
      Graph.linkEdge id label source target
      createKey (Key.enumeration .edge id) ""
      return id : Attempt σ String) R.name := by
  refine .bind (.lift .freshId) fun id hid => ?_
  refine .bind (.createPlain (k := .element .edge id) hid (by simp)) fun _ _ => ?_
  refine .bind (.createPlain (k := .label .edge id) hid (by simp)) fun _ _ => ?_
  refine .bind (.createPlain (k := .source id) hid fun _ _ => hsource) fun _ _ => ?_
  refine .bind (.createPlain (k := .target id) hid fun _ _ => htarget) fun _ _ => ?_
  refine .bind (.linkEdge hid hlabel hsource htarget) fun _ _ => ?_
  exact .bind (.createPlain (k := .listing .edge id) hid (by simp)) fun _ _ => .pure hid

/-- An end that is missing is refused, where refusals may come. -/
theorem Ensures.requireVertex (hrefused : ∀ cause, R.fault (.refused cause)) (id : String) :
    R.Ensures (requireVertex id : Attempt σ _) fun _ => True := by
  refine .bind (.elementExists _ _) fun found _ => ?_
  cases found with
  | true => exact .pure trivial
  | false => exact .throw (hrefused _)

theorem Ensures.createEdge (hrefused : ∀ cause, R.fault (.refused cause)) {label source target : String}
    (h : (Key.isToken label = true ∧ Key.isToken source = true ∧ Key.isToken target = true) ∨
      ∀ err, R.fault err) :
    R.Ensures (createEdge label source target : Attempt σ _) R.name := by
  refine .bind (.ofExcept (outcome_check Validation.label_eq_ok (h.imp_left (·.1)))) fun _ hlabel => ?_
  refine .bind (.ofExcept (outcome_check Validation.endpoint_eq_ok (h.imp_left (·.2.1))))
    fun _ hsource => ?_
  refine .bind (.ofExcept (outcome_check Validation.endpoint_eq_ok (h.imp_left (·.2.2))))
    fun _ htarget => ?_
  refine .bind (.requireVertex hrefused _) fun _ _ => .bind (.requireVertex hrefused _) fun _ _ => ?_
  exact .edgeRecords (name_of_isToken hlabel) (name_of_isToken hsource) (name_of_isToken htarget)

theorem Ensures.setProperty {kind : ElementKind} {id key : String} (hid : R.name id)
    (h : IsPropertyKey key ∨ ∀ err, R.fault err) (value : Json) :
    R.Ensures (setProperty kind id key value : Attempt σ _) fun _ => True := by
  refine .bind (.ofExcept (outcome_check Validation.propertyKey_eq_ok h)) fun _ hkey => ?_
  have hrecord := record_plain (R := R) (k := .property kind id key)
    ⟨hid, name_of_isToken hkey.1⟩ (.text value.text) (by simp)
  exact .map (.update hrecord.1 hrecord.2) fun _ _ => trivial

/-! ## Dropping -/

theorem pattern_lenient (pattern : String) : R.lenient.Pattern pattern := .inr fun _ => trivial

theorem Always.collectQuietly (pattern : String) :
    R.Always (collectQuietly pattern : Run σ _) fun _ => True :=
  .quietly (.keysDespite _ fun p _ => pattern_lenient p) trivial

theorem Always.deleteChildren (kind : ElementKind) (id : String) :
    R.Always (deleteChildren kind id : Run σ Unit) fun _ => True :=
  .bind (.collectQuietly _) fun _ _ => .forM (fun _ => .deleteQuietly _) _

theorem Always.dropEdge (id : String) : R.Always (dropEdge id : Run σ Unit) fun _ => True := by
  have hread : ∀ key, R.lenient.Ensures (Graph.readText key : Attempt σ _) fun _ => True :=
    fun key => (Ensures.readText key).mono fun _ _ => trivial
  refine .bind (.quietly (.getLabel _ _) trivial) fun label _ => ?_
  refine .bind (.quietly (hread _) trivial) fun source _ => ?_
  refine .bind (.quietly (hread _) trivial) fun target _ => ?_
  refine .bind (.deleteQuietly _) fun _ _ => ?_
  refine .bind (.unlinkEdge _ _ _ _) fun _ _ => ?_
  exact .bind (.deleteChildren _ _) fun _ _ => .deleteQuietly _

theorem Always.forgetNeighbor (neighbor : String) (direction : Direction) (label : Option String)
    (gone : String) :
    R.Always (forgetNeighbor neighbor direction label gone : Run σ Unit) fun _ => True :=
  .bind (.deleteQuietly _) fun _ _ =>
    .bind (.quietly (.removeFromIndex _ _ _ _ _ _) trivial) fun _ _ => .pure trivial

theorem Always.clearNeighbors (id : String) (direction : Direction) :
    R.Always (clearNeighbors id direction : Run σ Unit) fun _ => True := by
  refine .bind (.collectQuietly _) fun keys _ => .bind (.forM (fun key => ?_) _) fun _ _ =>
    .bind (.collectQuietly _) fun labeled _ => .forM (fun key => ?_) _
  · dsimp only
    split
    · exact .forgetNeighbor _ _ _ _
    · exact .pure trivial
  · split
    · split
      · exact .forgetNeighbor _ _ _ _
      · exact .pure trivial
    · exact .pure trivial

/-- Where any error may come, ids may be read next to anything. -/
theorem Ensures.adjacentIds_lenient (vertex : String) (direction : Direction)
    (adjacency : Adjacency) (label : Option String) :
    R.lenient.Ensures (Graph.adjacentIds vertex direction adjacency label : Attempt σ _)
      fun _ => True := by
  refine .bind (.readIndex _) fun found _ => ?_
  cases found with
  | some ids => exact .pure trivial
  | none => exact .map (.keysMatching (pattern_lenient _)) fun _ _ => trivial

theorem Always.dropVertex (id : String) : R.Always (dropVertex id : Run σ Unit) fun _ => True := by
  have hincident : R.lenient.Ensures (incidentEdges id : Attempt σ _) fun _ => True :=
    .bind (.adjacentIds_lenient _ _ _ _) fun _ _ =>
      .map (.adjacentIds_lenient _ _ _ _) fun _ _ => trivial
  refine .bind (.quietly hincident trivial) fun incident _ => ?_
  refine .bind (.deleteQuietly _) fun _ _ => .bind (.forM .dropEdge _) fun _ _ => ?_
  refine .bind (.clearNeighbors _ _) fun _ _ => .bind (.clearNeighbors _ _) fun _ _ => ?_
  exact .bind (.deleteChildren _ _) fun _ _ => .deleteQuietly _

theorem Ensures.dropAll : R.Ensures (dropAll : Attempt σ Unit) fun _ => True := by
  refine .bind (.keysDespite _ fun p hp => .inl ?_) fun doomed _ =>
    .lift (.forM (fun _ => .deleteQuietly _) _)
  simp only [allPatterns, List.mem_cons, List.not_mem_nil, or_false] at hp
  rcases hp with rfl | rfl | rfl | rfl
  · exact ⟨_, KeyPattern.parse_below "nodes" (by decide)⟩
  · exact ⟨_, KeyPattern.parse_below "edges" (by decide)⟩
  · exact ⟨_, KeyPattern.parse_below "node" (by decide)⟩
  · exact ⟨_, KeyPattern.parse_below "edge" (by decide)⟩

end PropertyGraph.Regime
