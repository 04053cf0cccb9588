/-
The keys of a graph as data. A `RecordKey` says what a record is about; `RecordKey.text`
is the key the store keeps it under. Names that are tokens give different records
different keys (`RecordKey.text_injective`), and each pattern the engine scans for
matches exactly one family of records (`RecordKey.children_accepts` and its companions).
-/
import PropertyGraph.Key.Name
import PropertyGraph.Proofs.KeyTokens

namespace PropertyGraph

/-- A place where edges meet a vertex: the vertex, the way the edges run from it, and the
label they have, or none for the place of all edges. -/
structure Scope where
  vertex : String
  direction : Direction
  label : Option String
deriving DecidableEq

/-- A record about an element itself. -/
inductive PlainKey where
  | element (kind : ElementKind) (id : String)
  | listing (kind : ElementKind) (id : String)
  | label (kind : ElementKind) (id : String)
  | labelEntry (id label : String)
  | property (kind : ElementKind) (id key : String)
  | source (id : String)
  | target (id : String)
deriving DecidableEq

/-- A record of a graph: about an element, or about a neighbour at a scope. -/
inductive RecordKey where
  | plain (key : PlainKey)
  | marker (scope : Scope) (adjacency : Adjacency) (target : String)
  | index (scope : Scope) (adjacency : Adjacency)
deriving DecidableEq

/-- A name of a neighbour: a token other than the one lists of ids stand under. -/
def IsName (s : String) : Prop := Key.isToken s = true ∧ s ≠ Key.indexToken

/-- The vertex of a scope, and its label if it has one, are tokens. -/
structure Scope.Valid (s : Scope) : Prop where
  vertex : Key.isToken s.vertex = true
  label : ∀ l, s.label = some l → Key.isToken l = true

/-- The tokens before the last of the records at a scope. -/
def Scope.tokens (s : Scope) (adjacency : Adjacency) : List String :=
  Key.family s.vertex s.direction adjacency s.label

/-- The tokens of the key of a record. -/
def PlainKey.tokens : PlainKey → List String
  | .element kind id => [kind.root, id]
  | .listing kind id => [kind.listing, id]
  | .label kind id => [kind.root, id, Key.labelToken]
  | .labelEntry id l => ["node", id, Key.labelToken, l]
  | .property kind id key => [kind.root, id, "property", key]
  | .source id => ["edge", id, "incoming"]
  | .target id => ["edge", id, "outgoing"]

/-- The names in a record are tokens. -/
def PlainKey.Valid : PlainKey → Prop
  | .element _ id | .listing _ id | .label _ id | .source id | .target id =>
    Key.isToken id = true
  | .labelEntry id l => Key.isToken id = true ∧ Key.isToken l = true
  | .property _ id key => Key.isToken id = true ∧ Key.isToken key = true

namespace RecordKey

/-- The tokens of the key of a record. -/
def tokens : RecordKey → List String
  | .plain key => key.tokens
  | .marker scope adjacency target => scope.tokens adjacency ++ [target]
  | .index scope adjacency => scope.tokens adjacency ++ [Key.indexToken]

/-- The key of a record. -/
def text (r : RecordKey) : String := Key.join r.tokens

/-- The names in a record are tokens, and no neighbour is called as a list of ids is. -/
def Valid : RecordKey → Prop
  | .plain key => key.Valid
  | .marker scope _ target => scope.Valid ∧ IsName target
  | .index scope _ => scope.Valid

end RecordKey

namespace Key

/-! ## The names of the engine's keys -/

theorem element_eq (kind : ElementKind) (id : String) :
    element kind id = (RecordKey.plain (.element kind id)).text := rfl

theorem enumeration_eq (kind : ElementKind) (id : String) :
    enumeration kind id = (RecordKey.plain (.listing kind id)).text := rfl

theorem property_eq (kind : ElementKind) (id key : String) :
    property kind id key = (RecordKey.plain (.property kind id key)).text := rfl

theorem marker_eq (vertex : String) (direction : Direction) (adjacency : Adjacency)
    (label : Option String) (target : String) :
    marker vertex direction adjacency label target =
      (RecordKey.marker ⟨vertex, direction, label⟩ adjacency target).text := rfl

theorem index_eq (vertex : String) (direction : Direction) (adjacency : Adjacency)
    (label : Option String) :
    index vertex direction adjacency label =
      (RecordKey.index ⟨vertex, direction, label⟩ adjacency).text := rfl

theorem dot_not_mem_listing (kind : ElementKind) : '.' ∉ kind.listing.toList := by
  cases kind <;> decide

theorem isToken_segment (direction : Direction) (adjacency : Adjacency) :
    isToken (segment direction adjacency) = true := by
  cases direction <;> cases adjacency <;> decide

theorem isToken_root (kind : ElementKind) : isToken kind.root = true := by
  cases kind <;> decide

theorem isToken_listing (kind : ElementKind) : isToken kind.listing = true := by
  cases kind <;> decide

end Key

namespace ElementKind

@[simp]
theorem root_inj {k k' : ElementKind} : k.root = k'.root ↔ k = k' := by
  cases k <;> cases k' <;> simp [root]

@[simp]
theorem listing_inj {k k' : ElementKind} : k.listing = k'.listing ↔ k = k' := by
  cases k <;> cases k' <;> simp [listing]

@[simp]
theorem node_eq_root {k : ElementKind} : "node" = k.root ↔ .vertex = k := by
  cases k <;> simp [root]

@[simp]
theorem edge_eq_root {k : ElementKind} : "edge" = k.root ↔ .edge = k := by
  cases k <;> simp [root]

@[simp]
theorem root_ne_listing {k k' : ElementKind} : k.root ≠ k'.listing := by
  cases k <;> cases k' <;> decide

@[simp]
theorem node_ne_listing {k : ElementKind} : "node" ≠ k.listing := by cases k <;> decide

@[simp]
theorem edge_ne_listing {k : ElementKind} : "edge" ≠ k.listing := by cases k <;> decide

@[simp]
theorem root_eq_node {k : ElementKind} : k.root = "node" ↔ k = .vertex := by
  cases k <;> simp [root]

@[simp]
theorem listing_ne_node {k : ElementKind} : k.listing ≠ "node" := by cases k <;> decide

end ElementKind

namespace Key

@[simp]
theorem segment_inj {d d' : Direction} {a a' : Adjacency} :
    segment d a = segment d' a' ↔ d = d' ∧ a = a' := by
  cases d <;> cases a <;> cases d' <;> cases a' <;> simp [segment]

@[simp]
theorem labelToken_ne_segment (d : Direction) (a : Adjacency) : labelToken ≠ segment d a := by
  cases d <;> cases a <;> decide

@[simp]
theorem property_ne_segment (d : Direction) (a : Adjacency) : "property" ≠ segment d a := by
  cases d <;> cases a <;> decide

end Key

/-- The tokens of a scope determine it. -/
@[simp]
theorem Scope.tokens_inj {s s' : Scope} {a a' : Adjacency} :
    s.tokens a = s'.tokens a' ↔ s = s' ∧ a = a' := by
  obtain ⟨v, d, l⟩ := s
  obtain ⟨v', d', l'⟩ := s'
  cases l <;> cases l' <;> simp [tokens, Key.family]
  · grind
  · grind

/-! ## Reading a record key back -/

theorem Scope.Valid.isToken_of_mem {s : Scope} (h : s.Valid) {adjacency : Adjacency} {t : String}
    (ht : t ∈ s.tokens adjacency) : Key.isToken t = true := by
  simp only [Scope.tokens, Key.family, List.mem_append, List.mem_cons, List.not_mem_nil,
    or_false, Option.mem_toList] at ht
  rcases ht with (rfl | rfl | rfl) | ht
  · decide
  · exact h.vertex
  · exact Key.isToken_segment _ _
  · exact h.label t ht

theorem PlainKey.Valid.isToken_of_mem {key : PlainKey} (h : key.Valid) {t : String}
    (ht : t ∈ key.tokens) : Key.isToken t = true := by
  have hroot := Key.isToken_root
  have hlisting := Key.isToken_listing
  have hlabel : Key.isToken Key.labelToken = true := by decide
  have hwords : ∀ w ∈ ["node", "edge", "property", "incoming", "outgoing"],
      Key.isToken w = true := by decide
  cases key <;> simp only [tokens, Valid, List.mem_cons, List.not_mem_nil, or_false] at h ht <;>
    grind

namespace RecordKey

theorem Valid.isToken_of_mem {r : RecordKey} (h : r.Valid) {t : String} (ht : t ∈ r.tokens) :
    Key.isToken t = true := by
  cases r with
  | plain key => exact PlainKey.Valid.isToken_of_mem h ht
  | marker scope adjacency target =>
    simp only [tokens, List.mem_append, List.mem_singleton] at ht
    rcases ht with ht | rfl
    · exact h.1.isToken_of_mem ht
    · exact h.2.1
  | index scope adjacency =>
    simp only [tokens, List.mem_append, List.mem_singleton] at ht
    rcases ht with ht | rfl
    · exact Scope.Valid.isToken_of_mem h ht
    · decide

theorem Valid.token_ne_empty {r : RecordKey} (h : r.Valid) : ∀ t ∈ r.tokens, t ≠ "" :=
  fun _ ht => Key.ne_empty_of_isToken (h.isToken_of_mem ht)

theorem tokens_ne_nil (r : RecordKey) : r.tokens ≠ [] := by
  cases r with
  | plain key => cases key <;> simp [tokens, PlainKey.tokens]
  | marker scope adjacency target => simp [tokens]
  | index scope adjacency => simp [tokens]

theorem Valid.tokens_text {r : RecordKey} (h : r.Valid) : Key.tokens r.text = r.tokens :=
  Key.tokens_join_of_ne_nil r.tokens_ne_nil fun _ ht =>
    Key.dot_not_mem_of_isToken (h.isToken_of_mem ht)

/-- The family of neighbours of a token. -/
def segment? : String → Option (Direction × Adjacency)
  | "outE" => some (.outgoing, .edges)
  | "inE" => some (.incoming, .edges)
  | "outV" => some (.outgoing, .vertices)
  | "inV" => some (.incoming, .vertices)
  | _ => none

theorem segment?_segment (direction : Direction) (adjacency : Adjacency) :
    segment? (Key.segment direction adjacency) = some (direction, adjacency) := by
  cases direction <;> cases adjacency <;> rfl

/-- The record at a scope, by the last token of its key. -/
def ofLast (scope : Scope) (adjacency : Adjacency) (last : String) : RecordKey :=
  if last = Key.indexToken then .index scope adjacency else .marker scope adjacency last

/-- The record whose key has these tokens. -/
def ofTokens? : List String → Option RecordKey
  | ["node", id] => some (.plain (.element .vertex id))
  | ["edge", id] => some (.plain (.element .edge id))
  | ["nodes", id] => some (.plain (.listing .vertex id))
  | ["edges", id] => some (.plain (.listing .edge id))
  | ["node", id, _] => some (.plain (.label .vertex id))
  | ["edge", id, last] =>
    if last = "incoming" then some (.plain (.source id))
    else if last = "outgoing" then some (.plain (.target id))
    else some (.plain (.label .edge id))
  | ["edge", id, _, last] => some (.plain (.property .edge id last))
  | ["node", id, family, last] =>
    match segment? family with
    | some (direction, adjacency) => some (ofLast ⟨id, direction, none⟩ adjacency last)
    | none =>
      if family = Key.labelToken then some (.plain (.labelEntry id last))
      else some (.plain (.property .vertex id last))
  | ["node", id, family, label, last] =>
    (segment? family).map fun (direction, adjacency) =>
      ofLast ⟨id, direction, some label⟩ adjacency last
  | _ => none

/-- Tokens determine the record they spell. -/
theorem Valid.ofTokens?_tokens {r : RecordKey} (h : r.Valid) : ofTokens? r.tokens = some r := by
  cases r with
  | plain key =>
    cases key with
    | element kind id => cases kind <;> rfl
    | listing kind id => cases kind <;> rfl
    | label kind id => cases kind <;> rfl
    | labelEntry id label => rfl
    | property kind id key => cases kind <;> rfl
    | source id => rfl
    | target id => rfl
  | marker scope adjacency target =>
    obtain ⟨vertex, direction, label⟩ := scope
    have hne : target ≠ Key.indexToken := h.2.2
    cases label <;>
      simp [tokens, Scope.tokens, Key.family, ofTokens?, segment?_segment, ofLast, hne]
  | index scope adjacency =>
    obtain ⟨vertex, direction, label⟩ := scope
    cases label <;>
      simp [tokens, Scope.tokens, Key.family, ofTokens?, segment?_segment, ofLast]

/-- Different records have different keys. -/
theorem text_injective {r r' : RecordKey} (h : r.Valid) (h' : r'.Valid)
    (he : r.text = r'.text) : r = r' := by
  have ht : r.tokens = r'.tokens := by rw [← h.tokens_text, he, h'.tokens_text]
  have hs : some r = some r' := by rw [← h.ofTokens?_tokens, ht, h'.ofTokens?_tokens]
  exact Option.some.inj hs

/-! ## The families patterns match -/

/-- A pattern matches the key of a record as it matches its tokens. -/
theorem Valid.accepts_text {r : RecordKey} (h : r.Valid) (p : KeyPattern) :
    p.accepts r.text = KeyPattern.matchTokens p.tail p.slots r.tokens := by
  rw [KeyPattern.accepts, h.tokens_text]

/-- The element below whose marker a record lies; the marker itself and the listing lie
below none. -/
def owner? : RecordKey → Option (ElementKind × String)
  | .plain (.element ..) | .plain (.listing ..) => none
  | .plain (.label kind id) | .plain (.property kind id _) => some (kind, id)
  | .plain (.labelEntry id _) => some (.vertex, id)
  | .plain (.source id) | .plain (.target id) => some (.edge, id)
  | .marker scope _ _ | .index scope _ => some (.vertex, scope.vertex)

end RecordKey

namespace KeyPattern

/-- The pattern of every record below the marker of an element. -/
def children (kind : ElementKind) (id : String) : KeyPattern :=
  ⟨[.literal kind.root, .literal id], true⟩

/-- The pattern of the listing of a kind. -/
def listing (kind : ElementKind) : KeyPattern := ⟨[.literal kind.listing, .any], false⟩

/-- The pattern of the entries of a label. -/
def labelEntries (label : String) : KeyPattern :=
  ⟨[.literal "node", .any, .literal Key.labelToken, .literal label], false⟩

/-- The pattern of the records at a scope. -/
def markers (s : Scope) (adjacency : Adjacency) : KeyPattern :=
  ⟨(s.tokens adjacency).map .literal ++ [.any], false⟩

/-- The pattern of the records at the scopes of all labels. -/
def labeledMarkers (vertex : String) (direction : Direction) (adjacency : Adjacency) :
    KeyPattern :=
  ⟨[.literal "node", .literal vertex, .literal (Key.segment direction adjacency), .any, .any],
    false⟩

/-- The pattern of the properties of an element. -/
def properties (kind : ElementKind) (id : String) : KeyPattern :=
  ⟨[.literal kind.root, .literal id, .literal "property", .any], false⟩

/-- The pattern of everything below a first token. -/
def below (root : String) : KeyPattern := ⟨[.literal root], true⟩

theorem parse_children {kind : ElementKind} {id : String} (h : Key.isToken id = true) :
    parse (Key.elementChildren kind id) = .ok (children kind id) := by
  refine parse_text (p := children kind id) ?_ (.inr rfl)
  simpa [children, Slot.IsNamed, Key.isToken_root] using h

theorem parse_listing (kind : ElementKind) :
    parse (Key.enumerationPattern kind) = .ok (listing kind) := by
  refine parse_text (p := listing kind) ?_ (.inl (by simp [listing]))
  simp [listing, Slot.IsNamed, Key.isToken_listing]

theorem parse_labelEntries {label : String} (h : Key.isToken label = true) :
    parse (Key.labelScan label) = .ok (labelEntries label) := by
  refine parse_text (p := labelEntries label) ?_ (.inl (by simp [labelEntries]))
  have hnode : Key.isToken "node" = true := by decide
  have hword : Key.isToken Key.labelToken = true := by decide
  simp [labelEntries, Slot.IsNamed, hnode, hword, h]

theorem text_markers (s : Scope) (adjacency : Adjacency) :
    (markers s adjacency).text = Key.markerPattern s.vertex s.direction adjacency s.label := by
  simp [markers, text, Key.markerPattern, Scope.tokens, Slot.text, Function.comp_def]

theorem parse_markers {s : Scope} (h : s.Valid) (adjacency : Adjacency) :
    parse (Key.markerPattern s.vertex s.direction adjacency s.label) =
      .ok (markers s adjacency) := by
  rw [← text_markers]
  refine parse_text ?_ (.inl (by simp [markers]))
  intro slot hslot
  simp only [markers, List.mem_append, List.mem_map, List.mem_singleton] at hslot
  rcases hslot with ⟨t, ht, rfl⟩ | rfl
  · exact h.isToken_of_mem ht
  · trivial

theorem parse_labeledMarkers {vertex : String} (h : Key.isToken vertex = true)
    (direction : Direction) (adjacency : Adjacency) :
    parse (Key.labeledMarkerPattern vertex direction adjacency) =
      .ok (labeledMarkers vertex direction adjacency) := by
  refine parse_text (p := labeledMarkers vertex direction adjacency) ?_
    (.inl (by simp [labeledMarkers]))
  have hnode : Key.isToken "node" = true := by decide
  simp [labeledMarkers, Slot.IsNamed, hnode, h, Key.isToken_segment]

theorem parse_properties {kind : ElementKind} {id : String} (h : Key.isToken id = true) :
    parse (Key.propertyPattern kind id) = .ok (properties kind id) := by
  refine parse_text (p := properties kind id) ?_ (.inl (by simp [properties]))
  have hword : Key.isToken "property" = true := by decide
  simp [properties, Slot.IsNamed, Key.isToken_root, hword, h]

theorem parse_below (root : String) (h : Key.isToken root = true) :
    parse (Key.join [root, ">"]) = .ok (below root) := by
  refine parse_text (p := below root) ?_ (.inr rfl)
  simpa [below, Slot.IsNamed] using h

/-! ## What the families hold -/

/-- Literals and a final wildcard match what goes on behind the literals. -/
theorem matchTokens_below {l ts : List String} :
    matchTokens true (l.map .literal) ts = true ↔ ∃ t rest, ts = l ++ t :: rest ∧ t ≠ "" := by
  induction l generalizing ts with
  | nil =>
    cases ts with
    | nil => simp [matchTokens]
    | cons t ts => simp [matchTokens]
  | cons lit l ih =>
    cases ts with
    | nil => simp [matchTokens]
    | cons t ts =>
      simp only [List.map_cons, matchTokens, Bool.and_eq_true, ih, Slot.accepts, beq_iff_eq,
        List.cons_append, List.cons.injEq]
      grind

theorem matchTokens_tail {l ts : List String} (h : ∀ t ∈ ts, t ≠ "") :
    matchTokens true (l.map .literal) ts = true ↔ ∃ t rest, ts = l ++ t :: rest := by
  rw [matchTokens_below]
  refine exists_congr fun t => exists_congr fun rest => and_iff_left_of_imp ?_
  rintro rfl
  exact h t (by simp)

theorem matchTokens_any {lits ts : List String} (h : ∀ t ∈ ts, t ≠ "") :
    matchTokens false (lits.map .literal ++ [.any]) ts = true ↔ ∃ t, ts = lits ++ [t] := by
  induction lits generalizing ts with
  | nil =>
    match ts with
    | [] => simp [matchTokens]
    | [t] => simpa [matchTokens, Slot.accepts] using h t
    | t :: u :: ts => simp [matchTokens]
  | cons l lits ih =>
    cases ts with
    | nil => simp [matchTokens]
    | cons t ts =>
      have ih := ih fun u hu => h u (List.mem_cons_of_mem _ hu)
      simp only [List.map_cons, List.cons_append, matchTokens, Bool.and_eq_true, ih,
        Slot.accepts, beq_iff_eq, List.cons.injEq]
      grind

theorem children_accepts {r : RecordKey} (h : r.Valid) (kind : ElementKind) (id : String) :
    (children kind id).accepts r.text = true ↔ r.owner? = some (kind, id) := by
  rw [h.accepts_text]
  show matchTokens true ([kind.root, id].map .literal) r.tokens = true ↔ _
  rw [matchTokens_tail h.token_ne_empty]
  cases r with
  | plain key => cases key <;> simp [RecordKey.tokens, PlainKey.tokens, RecordKey.owner?]
  | marker s a t => simp [RecordKey.tokens, Scope.tokens, Key.family, RecordKey.owner?]
  | index s a => simp [RecordKey.tokens, Scope.tokens, Key.family, RecordKey.owner?]

theorem listing_accepts {r : RecordKey} (h : r.Valid) (kind : ElementKind) :
    (listing kind).accepts r.text = true ↔ ∃ id, r = .plain (.listing kind id) := by
  rw [h.accepts_text]
  show matchTokens false ([kind.listing].map .literal ++ [.any]) r.tokens = true ↔ _
  rw [matchTokens_any h.token_ne_empty]
  cases r with
  | plain key =>
    cases key <;> simp [RecordKey.tokens, PlainKey.tokens]
  | marker s a t => simp [RecordKey.tokens, Scope.tokens, Key.family]
  | index s a => simp [RecordKey.tokens, Scope.tokens, Key.family]

theorem labelEntries_accepts {r : RecordKey} (h : r.Valid) (label : String) :
    (labelEntries label).accepts r.text = true ↔ ∃ id, r = .plain (.labelEntry id label) := by
  rw [h.accepts_text]
  have hempty := h.token_ne_empty
  have hproperty : Key.labelToken ≠ "property" := by decide
  cases r with
  | plain key =>
    cases key <;>
      simp_all [labelEntries, matchTokens, Slot.accepts, RecordKey.tokens, PlainKey.tokens]
    exact eq_comm
  | marker s a t =>
    obtain ⟨vertex, direction, l⟩ := s
    cases l <;>
      simp_all [labelEntries, matchTokens, Slot.accepts, RecordKey.tokens, Scope.tokens,
        Key.family]
  | index s a =>
    obtain ⟨vertex, direction, l⟩ := s
    cases l <;>
      simp_all [labelEntries, matchTokens, Slot.accepts, RecordKey.tokens, Scope.tokens,
        Key.family]

theorem markers_accepts {r : RecordKey} (h : r.Valid) (s : Scope) (a : Adjacency) :
    (markers s a).accepts r.text = true ↔ r = .index s a ∨ ∃ t, r = .marker s a t := by
  rw [h.accepts_text]
  show matchTokens false ((s.tokens a).map .literal ++ [.any]) r.tokens = true ↔ _
  rw [matchTokens_any h.token_ne_empty]
  cases r with
  | plain key =>
    simp only [reduceCtorEq, exists_false, or_false, iff_false, not_exists]
    intro t ht
    obtain ⟨vertex, direction, l⟩ := s
    cases l <;> cases key <;>
      simp [RecordKey.tokens, PlainKey.tokens, Scope.tokens, Key.family] at ht
  | marker s' a' t => simp [RecordKey.tokens]
  | index s' a' => simp [RecordKey.tokens]

theorem labeledMarkers_accepts {r : RecordKey} (h : r.Valid) (vertex : String)
    (direction : Direction) (a : Adjacency) :
    (labeledMarkers vertex direction a).accepts r.text = true ↔
      ∃ l, r = .index ⟨vertex, direction, some l⟩ a ∨
        ∃ t, r = .marker ⟨vertex, direction, some l⟩ a t := by
  rw [h.accepts_text]
  have hempty := h.token_ne_empty
  cases r with
  | plain key =>
    cases key <;>
      simp [labeledMarkers, matchTokens, Slot.accepts, RecordKey.tokens, PlainKey.tokens]
  | marker s a' t =>
    obtain ⟨v, d, l⟩ := s
    cases l <;>
      simp_all [labeledMarkers, matchTokens, Slot.accepts, RecordKey.tokens, Scope.tokens,
        Key.family]
    grind
  | index s a' =>
    obtain ⟨v, d, l⟩ := s
    cases l <;>
      simp_all [labeledMarkers, matchTokens, Slot.accepts, RecordKey.tokens, Scope.tokens,
        Key.family]
    grind

end KeyPattern

end PropertyGraph
