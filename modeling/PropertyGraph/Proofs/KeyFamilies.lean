/-
The families of keys. Every record has its key from one of the naming functions
(`RecordKey.key`). Names that are tokens, and may be any, keep all keys apart; each pattern that
the engine scans for can be read, and selects one family of keys out of all of them; and what was
put into a key is read back from its tokens (`RecordKey.families`).
-/
import PropertyGraph.Proofs.RecordKey

namespace PropertyGraph

namespace RecordKey

/-! ## Names and parts -/

/-- The key of a record, by the function that names it. -/
def key : RecordKey → String
  | .plain (.element kind id) => Key.element kind id
  | .plain (.listing kind id) => Key.enumeration kind id
  | .plain (.label kind id) => Key.label kind id
  | .plain (.labelEntry id label) => Key.labelEntry id label
  | .plain (.property kind id key) => Key.property kind id key
  | .plain (.source id) => Key.edgeFrom id
  | .plain (.target id) => Key.edgeTo id
  | .marker s a target => Key.marker s.vertex s.direction a s.label target
  | .index s a => Key.index s.vertex s.direction a s.label

/-- The id of the element a record is about. -/
def id : RecordKey → String
  | .plain (.element _ id) | .plain (.listing _ id) | .plain (.label _ id)
  | .plain (.labelEntry id _) | .plain (.property _ id _) | .plain (.source id)
  | .plain (.target id) => id
  | .marker s _ _ | .index s _ => s.vertex

/-- What the key of a record ends with: an id, a label, a property key, or a word of its own. -/
def last : RecordKey → String
  | .plain (.element _ id) | .plain (.listing _ id) => id
  | .plain (.label _ _) => Key.labelToken
  | .plain (.labelEntry _ label) => label
  | .plain (.property _ _ key) => key
  | .plain (.source _) => "incoming"
  | .plain (.target _) => "outgoing"
  | .marker _ _ target => target
  | .index _ _ => Key.indexToken

/-- The label by which a record is found: of a vertex, or of the edges at a scope. -/
def label? : RecordKey → Option String
  | .plain (.labelEntry _ label) => some label
  | .marker s _ _ | .index s _ => s.label
  | .plain _ => none

theorem key_eq_text (r : RecordKey) : r.key = r.text := by
  cases r with
  | plain k => cases k <;> rfl
  | marker s a t => rfl
  | index s a => rfl

variable {r r' : RecordKey}

theorem Valid.tokens_key (h : r.Valid) : Key.tokens r.key = r.tokens := by
  rw [key_eq_text, h.tokens_text]

/-! ## Reading parts back -/

theorem Valid.token?_id (h : r.Valid) : Key.token? r.key 1 = some r.id := by
  rw [Key.token?, h.tokens_key]
  cases r with
  | plain k => cases k <;> rfl
  | marker s a t => rfl
  | index s a => rfl

theorem Valid.lastToken_key (h : r.Valid) : Key.lastToken r.key = r.last := by
  rw [Key.lastToken, h.tokens_key]
  cases r with
  | plain k => cases k <;> rfl
  | marker s a t => simp [tokens, last]
  | index s a => simp [tokens, last]

theorem Valid.token?_label (h : r.Valid) {l : String} (hl : r.label? = some l) :
    Key.token? r.key 3 = some l := by
  rw [Key.token?, h.tokens_key]
  cases r with
  | plain k =>
    cases k with
    | labelEntry id label => exact hl
    | element | listing | label | property | source | target => cases hl
  | marker s a t =>
    obtain ⟨v, d, label⟩ := s
    obtain rfl : label = some l := hl
    rfl
  | index s a =>
    obtain ⟨v, d, label⟩ := s
    obtain rfl : label = some l := hl
    rfl

/-- At the scope of a label, the neighbour stands behind the label. -/
theorem Valid.token?_neighbor {s : Scope} (hs : s.label ≠ none) (a : Adjacency)
    (hr : r = .index s a ∨ ∃ t, r = .marker s a t) (h : r.Valid) :
    Key.token? r.key 4 = some r.last := by
  obtain ⟨v, d, label⟩ := s
  obtain ⟨l, rfl⟩ := Option.ne_none_iff_exists'.1 hs
  rw [Key.token?, h.tokens_key]
  rcases hr with rfl | ⟨t, rfl⟩
  · rfl
  · rfl

end RecordKey

/-! ## What patterns select -/

/-- A pattern can be read, and of the keys of all records it accepts those of a family. -/
def KeyPattern.Selects (pattern : String) (family : RecordKey → Prop) : Prop :=
  ∃ p, parse pattern = .ok p ∧ ∀ r : RecordKey, r.Valid → (p.accepts r.key = true ↔ family r)

namespace KeyPattern

theorem selects_of_parse {pattern : String} {p : KeyPattern} {family : RecordKey → Prop}
    (hparse : parse pattern = .ok p)
    (haccepts : ∀ r : RecordKey, r.Valid → (p.accepts r.text = true ↔ family r)) :
    Selects pattern family :=
  ⟨p, hparse, fun r hr => by rw [r.key_eq_text]; exact haccepts r hr⟩

theorem properties_accepts {r : RecordKey} (h : r.Valid) (kind : ElementKind) (id : String) :
    (properties kind id).accepts r.text = true ↔ ∃ key, r = .plain (.property kind id key) := by
  rw [h.accepts_text]
  show matchTokens false ([kind.root, id, "property"].map .literal ++ [.any]) r.tokens = true ↔ _
  rw [matchTokens_any h.token_ne_empty]
  have hlabel : Key.labelToken ≠ "property" := by decide
  have hsegment : ∀ d a, Key.segment d a ≠ "property" := fun d a => (Key.property_ne_segment d a).symm
  cases r with
  | plain k =>
    cases k <;> simp [RecordKey.tokens, PlainKey.tokens, hlabel]
  | marker s a t =>
    obtain ⟨v, d, l⟩ := s
    cases l <;> simp [RecordKey.tokens, Scope.tokens, Key.family, hsegment]
  | index s a =>
    obtain ⟨v, d, l⟩ := s
    cases l <;> simp [RecordKey.tokens, Scope.tokens, Key.family, hsegment]

/-- A key goes on behind the key of an element just if its tokens go on behind the tokens of it. -/
theorem exists_rest_iff {r : RecordKey} (h : r.Valid) (kind : ElementKind) {id : String}
    (hid : Key.isToken id = true) :
    (∃ rest, r.text = Key.element kind id ++ "." ++ rest) ↔
      ∃ t rest, r.tokens = [kind.root, id] ++ t :: rest := by
  have hchars : ∀ rest : List Char, (Key.element kind id).toList ++ '.' :: rest =
      kind.root.toList ++ '.' :: (id.toList ++ '.' :: rest) := by
    intro rest
    simp [Key.element, Key.join, Key.joinChars]
  constructor
  · rintro ⟨rest, htext⟩
    have hcut := Key.cut_append_dot (Key.dot_not_mem_of_isToken hid) rest.toList
    have htokens : Key.tokens r.text = kind.root :: id :: Key.tokens rest := by
      have hlist : r.text.toList = kind.root.toList ++ '.' :: (id.toList ++ '.' :: rest.toList) := by
        rw [htext, ← hchars]
        simp
      rw [Key.tokens_eq, hlist,
        Key.cut_append_dot (Key.dot_not_mem_of_isToken (Key.isToken_root kind)), hcut]
      simp [Key.tokens_eq]
    obtain ⟨t, others, hrest⟩ := List.exists_cons_of_ne_nil (Key.tokens_ne_nil rest)
    exact ⟨t, others, by rw [← h.tokens_text, htokens, hrest]; rfl⟩
  · rintro ⟨t, others, htokens⟩
    refine ⟨Key.join (t :: others), String.toList_inj.1 ?_⟩
    have hdot : (".").toList = ['.'] := rfl
    rw [RecordKey.text, htokens, String.toList_append, String.toList_append, hdot,
      List.append_assoc, List.singleton_append, hchars]
    simp only [Key.join, List.map_append, List.map_cons, List.map_nil, String.toList_ofList]
    rw [List.cons_append, List.cons_append, List.nil_append, Key.joinChars_cons (by simp),
      Key.joinChars_cons (by simp)]

/-- Below an element lie the keys that go on behind its own. -/
theorem children_selects (kind : ElementKind) {id : String} (hid : Key.isToken id = true) :
    Selects (Key.elementChildren kind id) fun r =>
      ∃ rest, r.key = Key.element kind id ++ "." ++ rest := by
  refine selects_of_parse (parse_children hid) fun r hr => ?_
  rw [r.key_eq_text, exists_rest_iff hr kind hid, hr.accepts_text]
  exact matchTokens_tail (l := [kind.root, id]) hr.token_ne_empty

end KeyPattern

/-! ## All families -/

/-- Different records have different keys; each pattern selects its family out of all keys; and
the tokens of a key give back what was put into it. -/
theorem RecordKey.families :
    (∀ r r' : RecordKey, r.Valid → r'.Valid → r.key = r'.key → r = r') ∧
    ((∀ kind, KeyPattern.Selects (Key.enumerationPattern kind) fun r =>
        ∃ id, r = .plain (.listing kind id)) ∧
      (∀ kind id, Key.isToken id = true → KeyPattern.Selects (Key.elementChildren kind id) fun r =>
        ∃ rest, r.key = Key.element kind id ++ "." ++ rest) ∧
      (∀ label, Key.isToken label = true → KeyPattern.Selects (Key.labelScan label) fun r =>
        ∃ id, r = .plain (.labelEntry id label)) ∧
      (∀ kind id, Key.isToken id = true → KeyPattern.Selects (Key.propertyPattern kind id) fun r =>
        ∃ key, r = .plain (.property kind id key)) ∧
      (∀ (s : Scope) a, s.Valid →
        KeyPattern.Selects (Key.markerPattern s.vertex s.direction a s.label) fun r =>
          r = .index s a ∨ ∃ target, r = .marker s a target) ∧
      ∀ vertex d a, Key.isToken vertex = true →
        KeyPattern.Selects (Key.labeledMarkerPattern vertex d a) fun r =>
          ∃ label, r = .index ⟨vertex, d, some label⟩ a ∨
            ∃ target, r = .marker ⟨vertex, d, some label⟩ a target) ∧
    (∀ r : RecordKey, r.Valid → Key.token? r.key 1 = some r.id ∧ Key.lastToken r.key = r.last ∧
      ∀ label, r.label? = some label → Key.token? r.key 3 = some label) ∧
    ∀ (s : Scope) a (r : RecordKey), s.label ≠ none →
      (r = .index s a ∨ ∃ target, r = .marker s a target) → r.Valid → Key.token? r.key 4 = some r.last := by
  refine ⟨fun r r' hr hr' hkey => ?_, ⟨fun kind => ?_, fun kind id hid => ?_, fun label hlabel => ?_,
    fun kind id hid => ?_, fun s a hs => ?_, fun vertex d a hvertex => ?_⟩, fun r hr => ?_,
    fun s a r hs hr hvalid => hvalid.token?_neighbor hs a hr⟩
  · rw [r.key_eq_text, r'.key_eq_text] at hkey
    exact text_injective hr hr' hkey
  · exact KeyPattern.selects_of_parse (KeyPattern.parse_listing kind) fun r hr =>
      KeyPattern.listing_accepts hr kind
  · exact KeyPattern.children_selects kind hid
  · exact KeyPattern.selects_of_parse (KeyPattern.parse_labelEntries hlabel) fun r hr =>
      KeyPattern.labelEntries_accepts hr label
  · exact KeyPattern.selects_of_parse (KeyPattern.parse_properties hid) fun r hr =>
      KeyPattern.properties_accepts hr kind id
  · exact KeyPattern.selects_of_parse (KeyPattern.parse_markers hs a) fun r hr =>
      KeyPattern.markers_accepts hr s a
  · exact KeyPattern.selects_of_parse (KeyPattern.parse_labeledMarkers hvertex d a) fun r hr =>
      KeyPattern.labeledMarkers_accepts hr vertex d a
  · exact ⟨hr.token?_id, hr.lastToken_key, fun label hl => hr.token?_label hl⟩

/-- A label that is called as a list of ids is: the entry of an edge among those of this label, and
the list of all edges, have different keys, and the pattern of all edges selects the list alone. -/
theorem RecordKey.families_indexLabel :
    let listed : RecordKey := .marker ⟨"v", .outgoing, some Key.indexToken⟩ .edges "outE"
    let list : RecordKey := .index ⟨"v", .outgoing, none⟩ .edges
    listed.key ≠ list.key ∧ Key.token? listed.key 3 = some Key.indexToken ∧
      Key.token? listed.key 4 = some "outE" ∧
      ∃ p, KeyPattern.parse (Key.markerPattern "v" .outgoing .edges none) = .ok p ∧
        p.accepts list.key = true ∧ ¬ p.accepts listed.key = true := by
  have hlisted : (RecordKey.marker ⟨"v", .outgoing, some Key.indexToken⟩ .edges "outE").Valid :=
    ⟨⟨by decide, by decide⟩, by decide, by decide⟩
  have hlist : (RecordKey.index ⟨"v", .outgoing, none⟩ .edges).Valid := ⟨by decide, by decide⟩
  obtain ⟨hinjective, ⟨-, -, -, -, hmarkers, -⟩, hparts, hneighbor⟩ := RecordKey.families
  obtain ⟨p, hparse, hselects⟩ := hmarkers ⟨"v", .outgoing, none⟩ .edges hlist
  refine ⟨fun hkey => ?_, (hparts _ hlisted).2.2 _ rfl,
    hneighbor _ _ _ (by simp) (.inr ⟨_, rfl⟩) hlisted, p, hparse, (hselects _ hlist).2 (.inl rfl),
    fun haccepts => ?_⟩
  · cases hinjective _ _ hlisted hlist hkey
  · simpa using (hselects _ hlisted).1 haccepts

end PropertyGraph
