/-
What a stream has in hand. Between two pulls a stream keeps ids that it found and has not yet
brought: items of an expansion, the element a task starts from, the keys of a page. Meanwhile
elements may go. Whatever state a stream was left in, a piece of work finds only elements that
are there, and leaves properties behind only at ids that the stream had in hand
(`Stream.advance_handles`).
-/
import PropertyGraph.Proofs.Walking

namespace PropertyGraph

open PropertyGraph.Graph

/-! ## Ids in hand -/

/-- An element by its kind and its id. -/
abbrev ElementRef := ElementKind × String

/-- The element an item stands for. -/
def Item.element? : Item → Option ElementRef
  | .ok t => t.element?
  | .error _ => none

/-- The elements a task starts from. -/
def Task.inHand : Task → List ElementRef
  | .adjacent v _ _ _ | .bothEdges v _ => [(.vertex, v)]
  | .edgeVertex id _ => [(.edge, id)]
  | .properties t _ => t.element?.toList
  | .select _ | .selectOne _ _ | .addVertex _ | .addEdge _ _ _ | .selectLabel _ => []

/-- The element a key lists. -/
def Listing.element? (listing : Listing) (key : String) : Option ElementRef :=
  (listing.item? key).bind Traverser.element?

/-- The elements on the page at hand, without the keys that the scan passes over. -/
def Listing.inHand (listing : Listing) (k : KeyScan) : List ElementRef :=
  (k.page.filter k.wants).filterMap listing.element?

/-- The elements an expansion brings without another look at the store. Ids that are still to be
looked up are not in hand. -/
def Expansion.inHand : Expansion → List ElementRef
  | .items l => l.filterMap Item.element?
  | .task t => t.inHand
  | .probe _ _ => []
  | .scan listing stream => listing.inHand stream.scan

def Stage.inHand : Stage → List ElementRef
  | .expand _ (some x) => x.inHand
  | .expand _ none | .filter _ | .limit _ | .sink _ => []

/-- The elements a stream has found and not yet brought. -/
def Stream.inHand : Stream → List ElementRef
  | .given items => items.filterMap Item.element?
  | .through stage source => stage.inHand ++ inHand source

/-- The properties a stage sets. -/
def Stage.settings : Stage → List (String × Json)
  | .filter (.setting key value) => [(key, value)]
  | .expand _ _ | .filter _ | .limit _ | .sink _ => []

/-- The properties a stream sets at the elements that come by. -/
def Stream.settings : Stream → List (String × Json)
  | .given _ => []
  | .through stage source => stage.settings ++ settings source

def Leaves.inHand : Leaves → List ElementRef
  | .stage st => st.inHand
  | .stream s => s.inHand

namespace Multigraph

/-- An element is there. -/
def Has (g : Multigraph) (x : ElementRef) : Prop := x.2 ∈ g.ids x.1

/-- A property of an element that is not there. -/
def Leftover (g : Multigraph) (x : ElementRef) (key : String) (value : Json) : Prop :=
  g.property x.1 x.2 key = some value ∧ ¬g.Has x

variable {g : Multigraph} {x : ElementRef} {key : String} {value : Json}

theorem Sound.isToken_of_has (hg : g.Sound) (h : g.Has x) : Key.isToken x.2 = true := by
  obtain ⟨kind, id⟩ := x
  cases kind with
  | vertex =>
    obtain ⟨v, hv, rfl⟩ := List.mem_map.1 h
    exact (hg.vertices v hv).1.1
  | edge =>
    obtain ⟨e, he, rfl⟩ := List.mem_map.1 h
    exact (hg.edges e he).id.1

theorem Leftover.of_addVertex {v : Vertex} (h : (g.addVertex v).Leftover x key value) :
    g.Leftover x key value :=
  ⟨h.1, fun hx => h.2 (mem_ids_addVertex.2 (.inl hx))⟩

theorem Leftover.of_addEdge {e : Edge} (h : (g.addEdge e).Leftover x key value) :
    g.Leftover x key value :=
  ⟨h.1, fun hx => h.2 (mem_ids_addEdge.2 (.inl hx))⟩

/-- What goes takes its properties along. -/
theorem Leftover.of_removeEdges {gone : List String} (h : (g.removeEdges gone).Leftover x key value) :
    g.Leftover x key value := by
  obtain ⟨hvalue, hnot⟩ := h
  simp only [removeEdges] at hvalue
  split at hvalue
  · cases hvalue
  · rename_i hstays
    exact ⟨hvalue, fun hx => hnot (mem_ids_removeEdges.2 ⟨hx, hstays⟩)⟩

theorem Leftover.of_removeVertex {gone : String} (h : (g.removeVertex gone).Leftover x key value) :
    g.Leftover x key value := by
  obtain ⟨hvalue, hnot⟩ := h
  simp only [removeVertex] at hvalue
  split at hvalue
  · cases hvalue
  · rename_i hstays
    exact ⟨hvalue, fun hx => hnot (mem_ids_removeVertex.2 ⟨hx, hstays⟩)⟩

theorem Leftover.of_dropVertex {id : String} (h : (g.dropVertex id).Leftover x key value) :
    g.Leftover x key value :=
  h.of_removeVertex.of_removeEdges

/-- A property that is set is left over only if its element is not there. -/
theorem Leftover.of_setProperty {y : ElementRef} {k : String} {v : Json}
    (h : (g.setProperty y.1 y.2 k v).Leftover x key value) :
    g.Leftover x key value ∨ x = y ∧ key = k ∧ value = v ∧ ¬g.Has y := by
  obtain ⟨hvalue, hnot⟩ := h
  simp only [setProperty] at hvalue
  split at hvalue
  · rename_i hset
    obtain ⟨hkind, hid, rfl⟩ := hset
    obtain rfl : x = y := Prod.ext hkind hid
    exact .inr ⟨rfl, rfl, (Option.some.inj hvalue).symm, hnot⟩
  · exact .inl ⟨hvalue, hnot⟩

end Multigraph

/-! ## What a piece of work comes to -/

/-- What a piece of work comes to, between two graphs: what is in hand behind it was in hand before
or is there, and of the properties set on the way only those of elements in hand that were not there
are left over. Where an item comes nothing went, and nothing new is in hand. -/
structure Handles (settings : List (String × Json)) (g : Multigraph) (held : List ElementRef)
    (event : Event) (g' : Multigraph) (held' : List ElementRef) : Prop where
  found : ∀ x ∈ held', x ∈ held ∨ g'.Has x
  leftover : ∀ x key value, g'.Leftover x key value →
    g.Leftover x key value ∨ x ∈ held ∧ ¬g.Has x ∧ (key, value) ∈ settings
  item : ∀ t, event = .item (.ok t) →
    (∀ x, t.element? = some x → x ∈ held ∨ g.Has x) ∧ held' ⊆ held ∧ g'.ids = g.ids

namespace Handles

variable {settings : List (String × Json)} {g g' g'' : Multigraph} {held held' : List ElementRef}
  {event event' : Event} {t t' : Traverser}

/-- Nothing is changed and nothing is found. -/
theorem still (hsub : held' ⊆ held)
    (hitem : ∀ t x, event = .item (.ok t) → t.element? = some x → x ∈ held ∨ g.Has x) :
    Handles settings g held event g held' where
  found _ hx := .inl (hsub hx)
  leftover _ _ _ h := .inl h
  item t ht := ⟨fun x => hitem t x ht, hsub, rfl⟩

/-- Nothing comes of it yet. -/
theorem skipping (hheld : ∀ x ∈ held', x ∈ held ∨ g'.Has x)
    (hleftover : ∀ x key value, g'.Leftover x key value → g.Leftover x key value)
    (hevent : ∀ t, event ≠ .item (.ok t)) : Handles settings g held event g' held' where
  found := hheld
  leftover x key value h := .inl (hleftover x key value h)
  item t ht := absurd ht (hevent t)

/-- What else is in hand stays there. -/
theorem beside (h : Handles settings g held event g' held') (others : List ElementRef) :
    Handles settings g (held ++ others) event g' (held' ++ others) where
  found x hx := by
    rcases List.mem_append.1 hx with hx | hx
    · exact (h.found x hx).imp_left (List.mem_append_left _)
    · exact .inl (List.mem_append_right _ hx)
  leftover x key value hx :=
    (h.leftover x key value hx).imp_right fun ⟨hmem, hrest⟩ => ⟨List.mem_append_left _ hmem, hrest⟩
  item t ht := by
    obtain ⟨hfound, hsub, hids⟩ := h.item t ht
    exact ⟨fun x hx => (hfound x hx).imp_left (List.mem_append_left _),
      List.append_subset.2 ⟨List.subset_append_of_subset_left _ hsub, List.subset_append_right _ _⟩,
      hids⟩

theorem widen {settings' : List (String × Json)} {wider : List ElementRef}
    (h : Handles settings g held event g' held') (hset : settings ⊆ settings') (hheld : held ⊆ wider) :
    Handles settings' g wider event g' held' where
  found x hx := (h.found x hx).imp_left (@hheld x)
  leftover x key value hx :=
    (h.leftover x key value hx).imp_right fun ⟨hmem, hnot, hmine⟩ => ⟨hheld hmem, hnot, hset hmine⟩
  item t ht := by
    obtain ⟨hfound, hsub, hids⟩ := h.item t ht
    exact ⟨fun x hx => (hfound x hx).imp_left (@hheld x), List.Subset.trans hsub hheld, hids⟩

/-- An item is passed over, or an error comes in its place. -/
theorem hush (h : Handles settings g held event g' held') {less : List ElementRef}
    (hless : less ⊆ held') (hevent : ∀ t, event' ≠ .item (.ok t)) :
    Handles settings g held event' g' less where
  found x hx := h.found x (hless hx)
  leftover := h.leftover
  item t ht := absurd ht (hevent t)

/-- An item is handed on, or a value in its place. -/
theorem hand (h : Handles settings g held (.item (.ok t)) g' held')
    (ht : ∀ x, t'.element? = some x → t.element? = some x) :
    Handles settings g held (.item (.ok t')) g' held' where
  found := h.found
  leftover := h.leftover
  item u hu := by
    cases hu
    obtain ⟨hfound, hrest⟩ := h.item t rfl
    exact ⟨fun x hx => hfound x (ht x hx), hrest⟩

/-- The element of an item is taken in hand. -/
theorem take (h : Handles settings g held (.item (.ok t)) g' held') {taken : List ElementRef}
    (htaken : ∀ x ∈ taken, t.element? = some x) :
    Handles settings g held .skip g' (taken ++ held') where
  found x hx := by
    obtain ⟨hfound, -, hids⟩ := h.item t rfl
    rcases List.mem_append.1 hx with hx | hx
    · refine (hfound x (htaken x hx)).imp_right fun hg => ?_
      rw [Multigraph.Has, hids]
      exact hg
    · exact h.found x hx
  leftover := h.leftover
  item t ht := by cases ht

/-- A property is set at the element of an item. -/
theorem set (h : Handles settings g held (.item (.ok t)) g' held') {x : ElementRef} {key : String}
    {value : Json} (hx : t.element? = some x) (hset : (key, value) ∈ settings) :
    Handles settings g held (.item (.ok t)) (g'.setProperty x.1 x.2 key value) held' where
  found y hy := h.found y hy
  leftover y k v hy := by
    rcases hy.of_setProperty with hy | ⟨rfl, rfl, rfl, hnot⟩
    · exact h.leftover y k v hy
    · -- an item that was found is there, since nothing went meanwhile
      obtain ⟨hfound, -, hids⟩ := h.item t rfl
      rw [Multigraph.Has, hids] at hnot
      exact .inr ⟨(hfound y hx).resolve_right hnot, hnot, hset⟩
  item u hu := h.item u hu

/-- Something goes that an item stands for. -/
theorem drop (h : Handles settings g held (.item (.ok t)) g' held')
    (hdrop : ∀ x key value, g''.Leftover x key value → g'.Leftover x key value) :
    Handles settings g held .skip g'' held' where
  found x hx := .inl ((h.item t rfl).2.1 hx)
  leftover x key value hx := h.leftover x key value (hdrop x key value hx)
  item t ht := by cases ht

end Handles

/-! ## Arguments that were checked -/

/-- The labels and ids a task starts from are tokens. -/
def Task.Checked : Task → Prop
  | .selectOne _ id => Key.isToken id = true
  | .selectLabel l => Key.isToken l = true
  | .adjacent _ _ _ labels | .bothEdges _ labels => ∀ l ∈ labels, Key.isToken l = true
  | .select _ | .addVertex _ | .addEdge _ _ _ | .edgeVertex _ _ | .properties _ _ => True

/-- The pattern of the keys a listing is read from. -/
inductive Listing.Of : Listing → KeyPattern → Prop
  | elements (kind : ElementKind) : Of (.elements kind) (.listing kind)
  | labeled {l : String} (h : Key.isToken l = true) : Of .labeled (.labelEntries l)

/-- A scan for the keys a listing is read from. -/
structure Listing.Scanned (listing : Listing) (k : KeyScan) : Prop where
  patterns : ∃ p, listing.Of p ∧ k.patterns = [p]
  distinct : k.distinct = false
  sound : k.Sound

def Expansion.Checked : Expansion → Prop
  | .items _ => True
  | .task t => t.Checked
  | .probe _ ids => ∀ id ∈ ids, Key.isToken id = true
  | .scan listing stream => listing.Scanned stream.scan

/-- The ids of a selection are tokens. -/
def Selection.Checked : Selection → Prop
  | .all => True
  | .one id => Key.isToken id = true
  | .many ids => ∀ id ∈ ids, Key.isToken id = true

/-- A step with arguments that were checked. -/
def Step.Checked : Step → Prop
  | .vertices ids | .edges ids => ids.Checked
  | .verticesWithLabel l => Key.isToken l = true
  | .root | .addVertex _ | .addEdge _ _ _ | .dropGraph => True
  | step => step.Walks

def Expander.Checked : Expander → Prop
  | .step of => of.Checked
  | .properties _ => True

def Stage.Checked : Stage → Prop
  | .expand expander current => expander.Checked ∧ ∀ x, current = some x → x.Checked
  | .filter (.setting key _) => IsPropertyKey key
  | .filter _ | .limit _ | .sink _ => True

/-- A stream whose stages stand for steps with arguments that were checked. -/
def Stream.Checked : Stream → Prop
  | .given _ => True
  | .through stage source => stage.Checked ∧ Checked source

def Leaves.Checked : Leaves → Prop
  | .stage st => st.Checked
  | .stream s => s.Checked

/-! ## Tasks -/

section Tasks

variable {σ : Type} [Backend σ] [LawfulBackend σ] {ids : Nat → String} {g : Multigraph} {n : Nat}
  {e : Engine σ}

theorem Tracks.of_log (h : Tracks ids (g, n) e) (log : List Notice) :
    Tracks ids (g, n) { e with log := log } :=
  ⟨h.keeps.of_store rfl, h.issued, h.handedOut, h.born⟩

theorem Tracks.of_reads {α : Type} {operation : Attempt σ α} (h : Tracks ids (g, n) e)
    (hreads : Reads operation) : Tracks ids (g, n) (operation.run.run e).2 := by
  obtain ⟨log, hrun⟩ := hreads.state e
  rw [hrun]
  exact h.of_log log

/-- The marker of an element is stored while the element is there. -/
theorem Engine.Keeps.contents_element (h : e.Keeps g) (kind : ElementKind) {id : String}
    (hid : Key.isToken id = true) : e.contents (Key.element kind id) ≠ none ↔ g.Has (kind, id) := by
  obtain ⟨-, neighbors, -, hholds⟩ := h
  rw [Key.element_eq, hholds.stored (.plain (.element kind id)) hid]
  cases kind <;> simp [Layout.record, Multigraph.layout, Multigraph.Has]

/-- Looking up an id finds whether the element is there. -/
theorem elementExists_run (h : e.Keeps g) (kind : ElementKind) {id : String}
    (hid : Key.isToken id = true) :
    ∃ found, (elementExists kind id).run.run e = (.ok found, e) ∧ (found = true ↔ g.Has (kind, id)) := by
  refine ⟨_, Attempt.bind_ok (Engine.get_run (Key.element kind id) e) _, ?_⟩
  rw [← h.contents_element kind hid, Engine.contents, ne_eq, Option.map_eq_none_iff, ← ne_eq,
    Option.isSome_iff_ne_none]

/-- Opening the scan of a listing. -/
theorem Listing.open_run {listing : Listing} {p : KeyPattern} (h : listing.Of p) {pattern : String}
    (hparse : KeyPattern.parse pattern = .ok p) (e : Engine σ) :
    (Engine.call (Backend.keys [pattern]) : Attempt σ KeyStream).run.run e =
      (.ok (.ofScan (.start [p])), e) ∧ listing.Scanned (.start [p]) := by
  have hp : p.isEverything = false ∧ p.isExact = false := by
    cases h with
    | elements => exact ⟨rfl, rfl⟩
    | labeled => exact ⟨rfl, rfl⟩
  refine ⟨Engine.keys_run (KeyPattern.parseAll_singleton hparse) e, ⟨p, h, rfl⟩, ?_, ?_⟩
  · simp [KeyScan.start, KeyScan.ranges, hp.1]
  · exact KeyScan.sound_start (by simp) (by simpa using hp)

/-- What a task finds: an expansion that brings what is there. -/
def Finds (g : Multigraph) (x : Expansion) : Prop := x.Checked ∧ ∀ y ∈ x.inHand, g.Has y

theorem finds_vertices {ws : List String} (h : ∀ w ∈ ws, g.Has (.vertex, w)) :
    Finds g (.items (ws.map fun id => .ok (.vertex id))) := by
  refine ⟨trivial, fun y hy => ?_⟩
  obtain ⟨w, hw, rfl⟩ : ∃ w ∈ ws, y = (.vertex, w) := by
    simpa [Expansion.inHand, Item.element?, Traverser.element?, List.filterMap_map, eq_comm] using hy
  exact h w hw

theorem finds_edges {ws : List String} (h : ∀ w ∈ ws, g.Has (.edge, w)) :
    Finds g (.items (ws.map fun id => .ok (.edge id))) := by
  refine ⟨trivial, fun y hy => ?_⟩
  obtain ⟨w, hw, rfl⟩ : ∃ w ∈ ws, y = (.edge, w) := by
    simpa [Expansion.inHand, Item.element?, Traverser.element?, List.filterMap_map, eq_comm] using hy
  exact h w hw

theorem has_of_mem_edgesBy {v : String} {d : Direction} {labels seen : List String}
    (hseen : ∀ id ∈ seen, g.Has (.edge, id)) :
    ∀ id ∈ union seen ((g.edgesBy v d labels).map (·.id)), g.Has (.edge, id) := by
  intro id hid
  rcases mem_union.1 hid with hid | hid
  · exact hseen id hid
  · obtain ⟨x, hx, rfl⟩ := List.mem_map.1 hid
    exact List.mem_map_of_mem (Multigraph.mem_edgesBy.1 hx).1

/-- A task that walks or selects finds what is there, and changes nothing. -/
theorem Task.begin_finds {t : Task} (ht : t.Checked) (h : Tracks ids (g, n) e)
    (htokens : ∀ x ∈ t.inHand, Key.isToken x.2 = true) (hadds : ∀ label, t ≠ .addVertex label)
    (hlinks : ∀ label source target, t ≠ .addEdge label source target) :
    Tracks ids (g, n) (t.begin.run.run e).2 ∧
      ∀ x, (t.begin.run.run e).1 = .ok x → Finds g x := by
  have hfinds : ∀ {x}, t.begin.run.run e = (.ok x, e) → Finds g x →
      Tracks ids (g, n) (t.begin.run.run e).2 ∧
        ∀ x, (t.begin.run.run e).1 = .ok x → Finds g x := by
    intro x hrun hx
    rw [hrun]
    exact ⟨h, fun _ hok => Except.ok.inj hok ▸ hx⟩
  have hg := h.keeps
  cases t with
  | select kind =>
    obtain ⟨hopen, hscanned⟩ :=
      Listing.open_run (.elements kind) (KeyPattern.parse_listing kind) e
    exact hfinds (Attempt.bind_ok hopen _) ⟨hscanned, by
      simp [Expansion.inHand, Listing.inHand, KeyStream.ofScan, KeyScan.start]⟩
  | selectLabel l =>
    obtain ⟨hopen, hscanned⟩ :=
      Listing.open_run (.labeled ht) (KeyPattern.parse_labelEntries ht) e
    exact hfinds (Attempt.bind_ok hopen _) ⟨hscanned, by
      simp [Expansion.inHand, Listing.inHand, KeyStream.ofScan, KeyScan.start]⟩
  | selectOne kind id =>
    obtain ⟨found, hrun, hiff⟩ := elementExists_run hg kind ht
    cases found with
    | true =>
      refine hfinds (x := .items [.ok (.ofElement kind id)]) (Attempt.bind_ok hrun _) ⟨trivial, ?_⟩
      have hhas := hiff.1 rfl
      cases kind <;> simpa [Expansion.inHand, Item.element?, Traverser.ofElement, Traverser.element?] using hhas
    | false => exact hfinds (x := .items []) (Attempt.bind_ok hrun _) ⟨trivial, by simp [Expansion.inHand]⟩
  | adjacent v d adjacency labels =>
    have hv : Key.isToken v = true := htokens (.vertex, v) (by simp [Task.inHand])
    cases adjacency with
    | edges =>
      exact hfinds (Attempt.bind_ok (edges_run hg hv ht d []) _)
        (finds_edges (has_of_mem_edgesBy (by simp)))
    | vertices =>
      obtain ⟨ws, hrun, -, hmem⟩ := vertices_run hg hv ht d
      refine hfinds (Attempt.bind_ok hrun _) (finds_vertices fun w hw => ?_)
      obtain ⟨x, hx, rfl⟩ := (hmem w).1 hw
      have hends := hg.sound.ends x (Multigraph.mem_edgesBy.1 hx).1 d.reverse
      cases d <;> exact hends
  | bothEdges v labels =>
    have hv : Key.isToken v = true := htokens (.vertex, v) (by simp [Task.inHand])
    exact hfinds ((Attempt.bind_ok (edges_run hg hv ht .outgoing []) _).trans
      (Attempt.bind_ok (edges_run hg hv ht .incoming _) _))
      (finds_edges (has_of_mem_edgesBy (has_of_mem_edgesBy (by simp))))
  | edgeVertex id ends =>
    have hid : Key.isToken id = true := htokens (.edge, id) (by simp [Task.inHand])
    refine hfinds (Attempt.bind_ok (edgeEndpoints_run hg hid) _) (finds_vertices fun w hw => ?_)
    rcases mem_endsOf hw with hw | hw
    · obtain ⟨x, hx, rfl⟩ := Option.map_eq_some_iff.1 hw
      exact hg.sound.ends x (List.mem_of_find?_eq_some hx) .outgoing
    · obtain ⟨x, hx, rfl⟩ := Option.map_eq_some_iff.1 hw
      exact hg.sound.ends x (List.mem_of_find?_eq_some hx) .incoming
  | properties t keys =>
    refine ⟨h.of_reads (.bind (reads_requireElement _ t) fun _ => .map _ (reads_readProperties _ _ _)), ?_⟩
    have hgives : Gives (Task.begin (.properties t keys) : Attempt σ _) (Finds g) := by
      refine .bind fun element => .bind fun fields => .pure ⟨trivial, fun y hy => ?_⟩
      obtain ⟨i, hi, hy⟩ := List.mem_filterMap.1 hy
      obtain ⟨field, -, rfl⟩ := List.mem_map.1 hi
      cases hy
    exact hgives e
  | addVertex label => exact absurd rfl (hadds label)
  | addEdge label source target => exact absurd rfl (hlinks label source target)

/-- Beginning a task creates one element or none, leaves no property behind, and finds what is
there. -/
theorem Task.begin_handles {t : Task} (ht : t.Checked) (h : Tracks ids (g, n) e)
    (hids : GoodIds ids (n + 1)) (htokens : ∀ x ∈ t.inHand, Key.isToken x.2 = true) :
    ∃ g' n', Tracks ids (g', n') (t.begin.run.run e).2 ∧ n' ≤ n + 1 ∧
      (∀ x key value, g'.Leftover x key value → g.Leftover x key value) ∧
      ∀ x, (t.begin.run.run e).1 = .ok x → Finds g' x := by
  have hrefused : ∀ {err}, t.begin.run.run e = (.error err, e) → ∃ g' n',
      Tracks ids (g', n') (t.begin.run.run e).2 ∧ n' ≤ n + 1 ∧
      (∀ x key value, g'.Leftover x key value → g.Leftover x key value) ∧
      ∀ x, (t.begin.run.run e).1 = .ok x → Finds g' x := by
    intro err hrun
    rw [hrun]
    exact ⟨g, n, h, Nat.le_succ n, fun _ _ _ hx => hx, fun x hx => by cases hx⟩
  cases t with
  | addVertex label =>
    by_cases hlabel : Key.isToken label = true
    · obtain ⟨e', hrun, htracks, -⟩ := createVertex_run h hlabel hids
      have hbegin : (Task.begin (.addVertex label)).run.run e =
          (.ok (.items [.ok (.vertex (ids n))]), e') := Attempt.bind_ok hrun _
      have hnew : ∀ w ∈ [ids n], (g.addVertex ⟨ids n, label⟩).Has (.vertex, w) := by
        simp [Multigraph.Has, Multigraph.mem_ids_addVertex]
      rw [hbegin]
      refine ⟨_, n + 1, htracks, Nat.le_refl _, fun _ _ _ hx => hx.of_addVertex, fun x hx => ?_⟩
      cases hx
      exact finds_vertices hnew
    · obtain ⟨err, hrun⟩ := createVertex_refused hlabel e
      exact hrefused (Attempt.bind_error hrun _)
  | addEdge label source target =>
    by_cases hnew : Key.isToken label = true ∧ source ∈ g.ids .vertex ∧ target ∈ g.ids .vertex
    · obtain ⟨e', hrun, htracks, -⟩ := createEdge_run h hnew.1 hnew.2.1 hnew.2.2 hids
      have hbegin : (Task.begin (.addEdge label source target)).run.run e =
          (.ok (.items [.ok (.edge (ids n))]), e') := Attempt.bind_ok hrun _
      have hlinked : ∀ w ∈ [ids n], (g.addEdge ⟨ids n, label, source, target⟩).Has (.edge, w) := by
        simp [Multigraph.Has, Multigraph.mem_ids_addEdge]
      rw [hbegin]
      refine ⟨_, n + 1, htracks, Nat.le_refl _, fun _ _ _ hx => hx.of_addEdge, fun x hx => ?_⟩
      cases hx
      exact finds_edges hlinked
    · obtain ⟨err, hrun⟩ := createEdge_refused h hnew
      exact hrefused (Attempt.bind_error hrun _)
  | _ =>
    obtain ⟨htracks, hfinds⟩ := Task.begin_finds ht h htokens (by simp) (by simp)
    exact ⟨g, n, htracks, Nat.le_succ n, fun _ _ _ hx => hx, hfinds⟩

end Tasks

/-! ## Expansions -/

section Expansions

variable {σ : Type} [Backend σ] [LawfulBackend σ] {ids : Nat → String} {g : Multigraph} {n : Nat}
  {e : Engine σ}

/-- A stored key of a listing lists an element that is there. -/
theorem Listing.Of.has {listing : Listing} {p : KeyPattern} (h : listing.Of p) (hg : e.Keeps g)
    {key : String} (hkey : key ∈ e.keys) (haccepts : p.accepts key = true) {y : ElementRef}
    (hy : listing.element? key = some y) : g.Has y := by
  obtain ⟨-, neighbors, -, hholds⟩ := hg
  obtain ⟨r, hr, rfl⟩ := hholds.only key (Engine.mem_keys_iff.1 hkey)
  have hthere := (hholds.mem_keys_iff hr).1 hkey
  cases h with
  | elements kind =>
    obtain ⟨id, rfl⟩ := (KeyPattern.listing_accepts hr kind).1 haccepts
    have htokens : Key.tokens (RecordKey.plain (.listing kind id)).text = [kind.listing, id] :=
      hr.tokens_text
    obtain rfl : (kind, id) = y := by
      cases kind <;> simpa [Listing.element?, Listing.item?, listedId, Key.lastToken, htokens,
        Traverser.ofElement, Traverser.element?] using hy
    by_contra hnot
    exact hthere (if_neg hnot)
  | @labeled l hl =>
    obtain ⟨id, rfl⟩ := (KeyPattern.labelEntries_accepts hr l).1 haccepts
    have htokens : Key.tokens (RecordKey.plain (.labelEntry id l)).text =
        ["node", id, Key.labelToken, l] := hr.tokens_text
    obtain rfl : (.vertex, id) = y := by
      simpa [Listing.element?, Listing.item?, labeledId?, Key.token?, htokens, Traverser.element?]
        using hy
    have hv : ⟨id, l⟩ ∈ g.vertices := by
      by_contra hnot
      exact hthere (if_neg hnot)
    exact List.mem_map_of_mem hv

omit [Backend σ] [LawfulBackend σ] in
theorem Listing.mem_inHand {listing : Listing} {k : KeyScan} {p : KeyPattern}
    (hpatterns : k.patterns = [p]) (hdistinct : k.distinct = false) {y : ElementRef} :
    y ∈ listing.inHand k ↔
      ∃ key ∈ k.page, p.accepts key = true ∧ listing.element? key = some y := by
  simp [Listing.inHand, KeyScan.wants, hpatterns, hdistinct, and_assoc]

omit [Backend σ] [LawfulBackend σ] in
theorem Listing.Scanned.advances {listing : Listing} {k k' : KeyScan} {event : ScanEvent}
    {keys : List String} (hk : listing.Scanned k) (hkeys : keys.Pairwise fun a b => compare a b = .lt)
    (h : KeyScan.Advances keys k event k') : listing.Scanned k' := by
  obtain ⟨⟨p, hof, hpatterns⟩, hdistinct, hsound⟩ := hk
  obtain ⟨hpatterns', hdistinct'⟩ := h.keeps hdistinct
  exact ⟨⟨p, hof, hpatterns'.trans hpatterns⟩, hdistinct'.trans hdistinct, h.sound hkeys hsound⟩

/-- A piece of work on the scan of a listing: what is found on a new page is there, and a key
that comes was on the page. -/
theorem Listing.Scanned.advance {listing : Listing} {k : KeyScan} (h : listing.Scanned k)
    (hg : e.Keeps g) :
    listing.Scanned (k.advance e.fetch).2 ∧
      (∀ y ∈ listing.inHand (k.advance e.fetch).2, y ∈ listing.inHand k ∨ g.Has y) ∧
      ∀ key, (k.advance e.fetch).1 = .key key →
        listing.inHand (k.advance e.fetch).2 ⊆ listing.inHand k ∧
          ∀ y, listing.element? key = some y → y ∈ listing.inHand k := by
  have hadv := KeyScan.advance_advances e.serves_fetch h.sound
  generalize (k.advance e.fetch).1 = event at hadv ⊢
  generalize (k.advance e.fetch).2 = k' at hadv ⊢
  refine ⟨h.advances e.pairwise_keys hadv, ?_⟩
  obtain ⟨⟨p, hof, hpatterns⟩, hdistinct, -⟩ := h
  have hrest : ∀ key rest, k.page = key :: rest →
      listing.inHand { k with page := rest } ⊆ listing.inHand k := by
    intro key rest hpage y hy
    obtain ⟨key', hkey', haccepts, hy⟩ :=
      (Listing.mem_inHand (k := { k with page := rest }) hpatterns hdistinct).1 hy
    refine (Listing.mem_inHand hpatterns hdistinct).2 ⟨key', ?_, haccepts, hy⟩
    rw [hpage]
    exact List.mem_cons_of_mem _ hkey'
  cases hadv with
  | key key rest hpage hwanted =>
    have hkept : ({ k with page := rest } : KeyScan).remember key = { k with page := rest } := by
      simp [KeyScan.remember, hdistinct]
    rw [hkept]
    have hsub := hrest key rest hpage
    refine ⟨fun y hy => .inl (hsub hy), ?_⟩
    rintro _ ⟨⟩
    refine ⟨hsub, fun y hy => List.mem_filterMap.2 ⟨key, ?_, hy⟩⟩
    simp [hpage, hwanted]
  | pass key rest hpage hwanted =>
    exact ⟨fun y hy => .inl (hrest key rest hpage hy), fun _ h => by cases h⟩
  | fetch r stems hpage hahead =>
    refine ⟨fun y hy => .inr ?_, fun _ h => by cases h⟩
    rw [Listing.mem_inHand (by exact hpatterns) (by exact hdistinct)] at hy
    obtain ⟨key, hkey, haccepts, hy⟩ := hy
    exact hof.has hg (List.mem_filter.1 (List.mem_of_mem_take hkey)).1 haccepts hy
  | done hpage hahead =>
    exact ⟨fun y hy => .inl hy, fun _ h => by cases h⟩

/-- A piece of work on an expansion. -/
theorem Expansion.advance_handles {x : Expansion} (hx : x.Checked) (h : Tracks ids (g, n) e)
    (hids : GoodIds ids (n + 1)) (htokens : ∀ y ∈ x.inHand, Key.isToken y.2 = true) :
    ∃ g' n', Tracks ids (g', n') (x.advance.run e).2 ∧ n' ≤ n + 1 ∧
      (x.advance.run e).1.2.Checked ∧
      Handles [] g x.inHand (x.advance.run e).1.1 g' (x.advance.run e).1.2.inHand := by
  cases x with
  | items l =>
    cases l with
    | nil =>
      exact ⟨g, n, h, Nat.le_succ n, trivial, .still (List.Subset.refl _) fun _ _ h => by cases h⟩
    | cons i l =>
      refine ⟨g, n, h, Nat.le_succ n, trivial, .still ?_ ?_⟩
      · exact List.filterMap_subset _ (List.subset_cons_self _ _)
      · rintro t y ⟨⟩ hy
        exact .inl (List.mem_filterMap.2 ⟨.ok t, by simp, hy⟩)
  | task t =>
    obtain ⟨g', n', htracks, hn, hleftover, hfinds⟩ := Task.begin_handles hx h hids htokens
    refine ⟨g', n', ?_⟩
    simp only [Expansion.advance, Run.bind_run, Engine.outcome]
    generalize t.begin.run.run e = r at htracks hfinds
    obtain ⟨outcome, e'⟩ := r
    cases outcome with
    | ok x =>
      obtain ⟨hchecked, hthere⟩ := hfinds x rfl
      exact ⟨htracks, hn, hchecked, .skipping (fun y hy => .inr (hthere y hy)) hleftover (by rintro _ ⟨⟩)⟩
    | error err =>
      exact ⟨htracks, hn, trivial, .skipping (fun y hy => by cases hy) hleftover (by rintro _ ⟨⟩)⟩
  | probe kind l =>
    cases l with
    | nil =>
      exact ⟨g, n, h, Nat.le_succ n, trivial, .still (List.Subset.refl _) fun _ _ h => by cases h⟩
    | cons id l =>
      obtain ⟨found, hrun, hiff⟩ := elementExists_run h.keeps kind (hx id (by simp))
      have hrest : (Expansion.probe kind l).Checked := fun i hi => hx i (List.mem_cons_of_mem _ hi)
      simp only [Expansion.advance, Run.bind_run, Engine.outcome, hrun]
      refine ⟨g, n, ?_⟩
      cases found with
      | true =>
        refine ⟨h, Nat.le_succ n, hrest, .still (List.Subset.refl _) ?_⟩
        rintro t y ⟨⟩ hy
        have hhas := hiff.1 rfl
        cases kind <;> cases hy <;> exact .inr hhas
      | false => exact ⟨h, Nat.le_succ n, hrest, .still (List.Subset.refl _) fun _ _ h => by cases h⟩
  | scan listing stream =>
    obtain ⟨hscanned, hinHand, hkey⟩ := Listing.Scanned.advance hx h.keeps
    simp only [Expansion.advance, Run.bind_run, Engine.advance_run]
    refine ⟨g, n, ?_⟩
    have hskip : ∀ {event : Event}, (∀ t, event ≠ .item (.ok t)) →
        Handles [] g (listing.inHand stream.scan) event g
          (listing.inHand (stream.scan.advance e.fetch).2) :=
      fun hevent => .skipping hinHand (fun _ _ _ h => h) hevent
    generalize (stream.scan.advance e.fetch).1 = event at hkey ⊢
    cases event with
    | key key =>
      obtain ⟨hsub, helement⟩ := hkey key rfl
      dsimp only
      cases hitem : listing.item? key with
      | some t =>
        refine ⟨h, Nat.le_succ n, hscanned, .still hsub ?_⟩
        rintro u y ⟨⟩ hy
        exact .inl (helement y (by rw [Listing.element?, hitem]; exact hy))
      | none => exact ⟨h, Nat.le_succ n, hscanned, hskip (by rintro _ ⟨⟩)⟩
    | failed err => exact ⟨h, Nat.le_succ n, hscanned, hskip (by rintro _ ⟨⟩)⟩
    | skip => exact ⟨h, Nat.le_succ n, hscanned, hskip (by rintro _ ⟨⟩)⟩
    | done =>
      exact ⟨h, Nat.le_succ n, trivial, .skipping (fun y hy => by cases hy) (fun _ _ _ h => h)
        (by rintro _ ⟨⟩)⟩

end Expansions

/-! ## Stages -/

section Stages

variable {σ : Type} [Backend σ] [LawfulBackend σ] {ids : Nat → String} {g : Multigraph} {n : Nat}
  {e : Engine σ}

theorem Traverser.element?_of_known {t : Traverser} (h : t.Known .value) : t.element? = none := by
  cases t with
  | value => rfl
  | graph | vertex | edge => exact h.elim

omit [LawfulBackend σ] in
/-- A filter hands on the element it got, or none. -/
theorem Filter.gives_apply (f : Filter) (t : Traverser) :
    Gives (f.apply t : Attempt σ _) fun found =>
      ∀ t', found = some t' → ∀ x, t'.element? = some x → t.element? = some x := by
  have hvalue : ∀ {t' : Traverser}, t'.Known .value → ∀ x, t'.element? = some x → t.element? = some x := by
    intro t' ht x hx
    rw [Traverser.element?_of_known ht] at hx
    cases hx
  intro e found hrun t' ht x hx
  cases f with
  | having key value => exact gives_having key value t e found hrun t' ht ▸ hx
  | setting key value => exact gives_setting key value t e found hrun t' ht ▸ hx
  | ids => exact hvalue (gives_ids t e found hrun t' ht) x hx
  | labels => exact hvalue (gives_labels t e found hrun t' ht) x hx
  | valueMaps keys => exact hvalue (gives_valueMaps keys t e found hrun t' ht) x hx

/-- A filter that takes an item sets a property at its element, or only reads. -/
theorem Filter.apply_handles {f : Filter} (hf : (Stage.filter f).Checked)
    {settings : List (String × Json)} (hset : (Stage.filter f).settings ⊆ settings)
    {g₀ : Multigraph} {held held' : List ElementRef} {t : Traverser} (h : Tracks ids (g, n) e)
    (hs : Handles settings g₀ held (.item (.ok t)) g held')
    (htoken : ∀ x, t.element? = some x → Key.isToken x.2 = true) :
    ∃ g', Tracks ids (g', n) ((f.apply t).run.run e).2 ∧
      Handles settings g₀ held (.item (.ok t)) g' held' := by
  by_cases hsets : ∃ key value, f = .setting key value
  case neg => exact ⟨g, h.of_reads (reads_apply (fun key value hf => hsets ⟨key, value, hf⟩) t), hs⟩
  case pos =>
    obtain ⟨key, value, rfl⟩ := hsets
    cases helement : t.element? with
    | none =>
      have hrefused : ∃ log, ((apply (.setting key value) t : Attempt σ _).run.run e).2 =
          { e with log := log } := by
        rw [apply, requireElement, helement]
        exact ⟨_, rfl⟩
      obtain ⟨log, hlog⟩ := hrefused
      rw [hlog]
      exact ⟨g, h.of_log log, hs⟩
    | some x =>
      obtain ⟨e', hrun, hkeeps, hb⟩ := setting_run hf helement (htoken x helement) h.keeps
      rw [hrun]
      exact ⟨_, h.of_keeps hkeeps hb fun _ _ hid => hid, hs.set helement (hset (by simp [Stage.settings]))⟩

/-- What a sink takes in goes with its properties, or nothing does. -/
theorem Sink.absorb_handles (s : Sink) {t : Traverser} (h : Tracks ids (g, n) e)
    (htoken : ∀ x, t.element? = some x → Key.isToken x.2 = true) :
    ∃ g', Tracks ids (g', n) ((s.absorb t).run.run e).2 ∧
      ∀ x key value, g'.Leftover x key value → g.Leftover x key value := by
  have hnoted : ∀ {r : Except Error Sink × Engine σ} (log : List Notice),
      r.2 = { e with log := log } → ∃ g', Tracks ids (g', n) r.2 ∧
        ∀ x key value, g'.Leftover x key value → g.Leftover x key value := by
    intro r log hr
    rw [hr]
    exact ⟨g, h.of_log log, fun _ _ _ hx => hx⟩
  cases s with
  | count total => exact hnoted e.log rfl
  | drop =>
    cases t with
    | vertex id =>
      obtain ⟨e', hrun, hkeeps, hb⟩ := h.keeps.dropVertex (htoken (.vertex, id) rfl)
      have hafter : ((Sink.drop.absorb (.vertex id)).run.run e).2 = e' := congrArg Prod.snd hrun
      rw [hafter]
      refine ⟨_, h.of_keeps hkeeps hb fun kind i hi => ?_, fun _ _ _ hx => hx.of_dropVertex⟩
      exact (Multigraph.mem_ids_removeEdges.1 (Multigraph.mem_ids_removeVertex.1 hi).1).1
    | edge id =>
      obtain ⟨e', hrun, hkeeps, hb⟩ := h.keeps.dropEdge (htoken (.edge, id) rfl)
      have hafter : ((Sink.drop.absorb (.edge id)).run.run e).2 = e' := congrArg Prod.snd hrun
      rw [hafter]
      exact ⟨_, h.of_keeps hkeeps hb fun _ _ hi => (Multigraph.mem_ids_removeEdges.1 hi).1,
        fun _ _ _ hx => hx.of_removeEdges⟩
    | graph | value => exact hnoted _ rfl
  | dropGraph =>
    cases t with
    | graph =>
      obtain ⟨e', hrun, hkeeps, hb⟩ := h.keeps.dropAll
      have hafter : ((Sink.dropGraph.absorb .graph).run.run e).2 = e' :=
        congrArg Prod.snd (Attempt.bind_ok hrun _)
      rw [hafter]
      refine ⟨_, h.of_keeps hkeeps hb fun kind id hid => ?_, ?_⟩
      · cases kind <;> cases hid
      · rintro x key value ⟨⟨⟩, -⟩
    | vertex | edge | value => exact hnoted _ rfl

/-- What a piece of work on a stream comes to, from a graph with so many ids handed out. -/
def Stream.Handled (ids : Nat → String) (g : Multigraph) (n : Nat) (s : Stream)
    (r : (Event × Stream) × Engine σ) : Prop :=
  ∃ g' n', Tracks ids (g', n') r.2 ∧ n' ≤ n + 1 ∧ r.1.2.Checked ∧ r.1.2.settings ⊆ s.settings ∧
    Handles s.settings g s.inHand r.1.1 g' r.1.2.inHand

/-- A stage that has work of its own. -/
theorem Stage.work_handles {stage : Stage} {source : Stream} (hstage : stage.Checked)
    (hsource : source.Checked) {work : Run σ (Event × Leaves)} (hwork : stage.work? = some work)
    (h : Tracks ids (g, n) e) (hids : GoodIds ids (n + 1))
    (htokens : ∀ y ∈ stage.inHand, Key.isToken y.2 = true) :
    Stream.Handled ids g n (.through stage source)
      (((work.run e).1.1, (work.run e).1.2.over source), (work.run e).2) := by
  cases stage with
  | expand expander current =>
    cases current with
    | none => cases hwork
    | some x =>
      cases hwork
      obtain ⟨hexpander, hcurrent⟩ := hstage
      obtain ⟨g', n', htracks, hn, hchecked, hhandles⟩ :=
        Expansion.advance_handles (hcurrent x rfl) h hids htokens
      simp only [Run.bind_run]
      generalize x.advance.run e = r at htracks hchecked hhandles
      obtain ⟨⟨event, x'⟩, e'⟩ := r
      have hnext : (Stage.expand expander (some x')).Checked :=
        ⟨hexpander, fun y hy => Option.some.inj hy ▸ hchecked⟩
      have hbeside := (hhandles.beside source.inHand).widen (List.nil_subset source.settings)
        (List.Subset.refl _)
      refine ⟨g', n', ?_⟩
      cases event with
      | item i => exact ⟨htracks, hn, ⟨hnext, hsource⟩, List.Subset.refl _, hbeside⟩
      | skip => exact ⟨htracks, hn, ⟨hnext, hsource⟩, List.Subset.refl _, hbeside⟩
      | done =>
        refine ⟨htracks, hn, ⟨⟨hexpander, by simp⟩, hsource⟩, List.Subset.refl _, ?_⟩
        exact hbeside.hush (List.subset_append_right _ _) (by rintro _ ⟨⟩)
  | limit left =>
    cases left with
    | zero =>
      cases hwork
      exact ⟨g, n, h, Nat.le_succ n, trivial, List.nil_subset _,
        .still (List.nil_subset _) fun _ _ h => by cases h⟩
    | succ left => cases hwork
  | filter => cases hwork
  | sink => cases hwork

/-- What an item is expanded to: at most its element is in hand. -/
def Takes (t : Traverser) (e : Engine σ) (r : Expansion × Engine σ) : Prop :=
  (∃ log, r.2 = { e with log := log }) ∧ r.1.Checked ∧ ∀ y ∈ r.1.inHand, t.element? = some y

omit [Backend σ] [LawfulBackend σ] in
theorem takes_failed (t : Traverser) (e : Engine σ) (log : List Notice) (err : Error) :
    Takes t e (.failed err, { e with log := log }) :=
  ⟨⟨log, rfl⟩, trivial, fun _ hy => by cases hy⟩

omit [Backend σ] [LawfulBackend σ] in
theorem Expansion.fromGraph_takes (name : String) (t : Traverser) {x : Expansion} (hx : x.Checked)
    (hnone : x.inHand = []) (e : Engine σ) : Takes t e ((fromGraph name t x).run e) := by
  cases t with
  | graph => exact ⟨⟨e.log, rfl⟩, hx, fun y hy => absurd (hnone ▸ hy) (by simp)⟩
  | vertex | edge | value => exact takes_failed _ e _ _

theorem Expansion.selecting_checked (kind : ElementKind) {s : Selection} (hs : s.Checked) :
    (selecting kind s).Checked ∧ (selecting kind s).inHand = [] := by
  cases s with
  | all => exact ⟨trivial, rfl⟩
  | one | many => exact ⟨hs, rfl⟩

omit [Backend σ] [LawfulBackend σ] in
theorem Expander.expand_takes {expander : Expander} (hexpander : expander.Checked) (t : Traverser)
    (e : Engine σ) : Takes t e ((expander.expand t).run e) := by
  cases expander with
  | properties keys =>
    exact ⟨⟨e.log, rfl⟩, trivial, fun y hy => Option.mem_toList.1 hy⟩
  | step of =>
    cases of with
    | root => exact ⟨⟨e.log, rfl⟩, trivial, fun _ hy => by cases hy⟩
    | vertices s =>
      exact Expansion.fromGraph_takes _ t (Expansion.selecting_checked .vertex hexpander).1
        (Expansion.selecting_checked .vertex hexpander).2 e
    | edges s =>
      exact Expansion.fromGraph_takes _ t (Expansion.selecting_checked .edge hexpander).1
        (Expansion.selecting_checked .edge hexpander).2 e
    | addVertex label =>
      exact Expansion.fromGraph_takes _ t (x := .task (.addVertex label)) trivial rfl e
    | addEdge label source target =>
      exact Expansion.fromGraph_takes _ t (x := .task (.addEdge label source target)) trivial rfl e
    | verticesWithLabel l =>
      exact Expansion.fromGraph_takes _ t (x := .task (.selectLabel l)) hexpander rfl e
    | adjacent | bothEdges =>
      cases t with
      | vertex id =>
        refine ⟨⟨e.log, rfl⟩, hexpander, fun y hy => ?_⟩
        rw [List.mem_singleton.1 hy]
        rfl
      | graph | edge | value => exact takes_failed _ e _ _
    | edgeVertex ends =>
      cases t with
      | edge id =>
        refine ⟨⟨e.log, rfl⟩, trivial, fun y hy => ?_⟩
        rw [List.mem_singleton.1 hy]
        rfl
      | graph | vertex | value => exact takes_failed _ e _ _
    | _ => exact takes_failed _ e _ _

/-- A stage that waits for its source. -/
theorem Stage.react_handles {stage : Stage} {source source' : Stream} (hstage : stage.Checked)
    (hwork : (stage.work? : Option (Run σ _)) = none) {event : Event}
    (h : Stream.Handled ids g n source ((event, source'), e))
    (htoken : ∀ t x, event = .item (.ok t) → t.element? = some x → Key.isToken x.2 = true) :
    Stream.Handled ids g n (.through stage source)
      ((((stage.react event).run e).1.1, ((stage.react event).run e).1.2.over source'),
        ((stage.react event).run e).2) := by
  obtain ⟨g', n', htracks, hn, hsource, hsettings, hhandles⟩ := h
  have hnone : stage.inHand = [] := by
    cases stage with
    | expand expander current =>
      cases current with
      | none => rfl
      | some x => cases hwork
    | filter | limit | sink => rfl
  have hs := hhandles.widen (List.subset_append_right stage.settings source.settings)
    (List.subset_append_right stage.inHand source.inHand)
  have hstay : ∀ {s : Stage} {event' : Event} {g'' : Multigraph} {e' : Engine σ},
      Tracks ids (g'', n') e' → s.Checked → s.settings = stage.settings →
      Handles (stage.settings ++ source.settings) g (stage.inHand ++ source.inHand) event' g''
        (s.inHand ++ source'.inHand) →
      Stream.Handled ids g n (.through stage source) ((event', .through s source'), e') := by
    intro s event' g'' e' htracks' hchecked hsets hs'
    refine ⟨g'', n', htracks', hn, ⟨hchecked, hsource⟩, ?_, hs'⟩
    show s.settings ++ source'.settings ⊆ stage.settings ++ source.settings
    rw [hsets]
    exact List.append_subset.2 ⟨List.subset_append_left _ _,
      List.subset_append_of_subset_right _ hsettings⟩
  have hsame : Handles (stage.settings ++ source.settings) g (stage.inHand ++ source.inHand) event g'
      (stage.inHand ++ source'.inHand) := by
    simpa only [hnone, List.nil_append] using hs
  have hleave : ∀ {items : List Item} {event' : Event}, items.filterMap Item.element? = [] →
      (∀ t, event' ≠ .item (.ok t)) →
      Stream.Handled ids g n (.through stage source) ((event', .given items), e) := by
    intro items event' hitems hevent
    refine ⟨g', n', htracks, hn, trivial, List.nil_subset _, hs.hush ?_ hevent⟩
    show items.filterMap Item.element? ⊆ source'.inHand
    rw [hitems]
    exact List.nil_subset _
  cases event with
  | skip => cases stage <;> exact hstay htracks hstage rfl hsame
  | done =>
    cases stage with
    | sink s => exact hleave (by cases s <;> rfl) (by rintro _ ⟨⟩)
    | expand | filter | limit => exact hleave rfl (by rintro _ ⟨⟩)
  | item item =>
    cases item with
    | error err =>
      cases stage with
      | sink => exact hleave rfl (by rintro _ ⟨⟩)
      | expand | filter => exact hstay htracks hstage rfl hsame
      | limit left => exact hstay (s := .limit (left - 1)) htracks trivial rfl hsame
    | ok t =>
      have ht := htoken t
      cases stage with
      | expand expander current =>
        obtain ⟨⟨log, hlog⟩, hchecked, htakes⟩ := Expander.expand_takes hstage.1 t e
        simp only [Stage.react, Run.bind_run]
        generalize (expander.expand t).run e = r at hlog hchecked htakes
        obtain ⟨x, e'⟩ := r
        obtain rfl : e' = { e with log := log } := hlog
        refine hstay (htracks.of_log log) (s := .expand expander (some x)) ⟨hstage.1, ?_⟩ rfl ?_
        · rintro y ⟨⟩
          exact hchecked
        · exact hs.take htakes
      | filter f =>
        obtain ⟨g'', htracks', hs'⟩ := Filter.apply_handles hstage
          (List.subset_append_left _ source.settings) htracks hs fun x => htoken t x rfl
        have hgives := Filter.gives_apply f t e
        simp only [Stage.react, Run.bind_run, Engine.outcome]
        generalize (f.apply t).run.run e = r at htracks' hgives
        obtain ⟨outcome, e'⟩ := r
        rcases outcome with err | (_ | t')
        case ok.some => exact hstay htracks' hstage rfl (hs'.hand (hgives _ rfl t' rfl))
        case ok.none => exact hstay htracks' hstage rfl (hs'.hush (List.Subset.refl _) (by rintro _ ⟨⟩))
        case error => exact hstay htracks' hstage rfl (hs'.hush (List.Subset.refl _) (by rintro _ ⟨⟩))
      | limit left => exact hstay (s := .limit (left - 1)) htracks trivial rfl hsame
      | sink s =>
        obtain ⟨g'', htracks', hdrop⟩ := Sink.absorb_handles s htracks fun x => htoken t x rfl
        simp only [Stage.react, Run.bind_run, Engine.outcome]
        generalize (s.absorb t).run.run e = r at htracks'
        obtain ⟨outcome, e'⟩ := r
        cases outcome with
        | ok s' => exact hstay (s := .sink s') htracks' trivial rfl (hs.drop hdrop)
        | error err =>
          refine ⟨g'', n', htracks', hn, trivial, List.nil_subset _, ?_⟩
          exact (hs.drop hdrop).hush (List.nil_subset _) (by rintro _ ⟨⟩)

/-- A piece of work on a stream, whatever became of the graph since it was left. -/
theorem Stream.advance_handles {s : Stream} (hs : s.Checked) (h : Tracks ids (g, n) e)
    (hids : GoodIds ids (n + 1)) (htokens : ∀ x ∈ s.inHand, Key.isToken x.2 = true) :
    Stream.Handled ids g n s (s.advance.run e) := by
  induction s with
  | given items =>
    cases items with
    | nil =>
      exact ⟨g, n, h, Nat.le_succ n, trivial, List.Subset.refl _,
        .still (List.Subset.refl _) fun _ _ h => by cases h⟩
    | cons i items =>
      refine ⟨g, n, h, Nat.le_succ n, trivial, List.Subset.refl _, .still ?_ ?_⟩
      · exact List.filterMap_subset _ (List.subset_cons_self _ _)
      · rintro t y ⟨⟩ hy
        exact .inl (List.mem_filterMap.2 ⟨.ok t, by simp, hy⟩)
  | through stage source ih =>
    have hsource : ∀ x ∈ source.inHand, Key.isToken x.2 = true :=
      fun x hx => htokens x (List.mem_append_right _ hx)
    cases hwork : (stage.work? : Option (Run σ (Event × Leaves))) with
    | some work =>
      rw [Stream.advance_work hwork]
      exact Stage.work_handles hs.1 hs.2 hwork h hids
        fun x hx => htokens x (List.mem_append_left _ hx)
    | none =>
      have hhandled := ih hs.2 hsource
      generalize hrun : source.advance.run e = r at hhandled
      obtain ⟨⟨event, source'⟩, e'⟩ := r
      rw [Stream.advance_react hwork hrun]
      refine Stage.react_handles hs.1 hwork hhandled ?_
      rintro t x rfl hx
      obtain ⟨_, _, _, -, -, -, hhandles⟩ := hhandled
      rcases (hhandles.item t rfl).1 x hx with hx | hx
      · exact hsource x hx
      · exact h.keeps.sound.isToken_of_has hx

end Stages

end PropertyGraph
