/-
A query that only reads, over complete lists. `Engine.evaluatePlan` takes the steps of a plan one after
the other: each makes a whole list of items out of the whole list before it, and asks the store
what it needs for each item. A stream under way does the same piece by piece: whatever the store
holds, it brings the items of those lists in their order, the errors in their places, and changes
nothing but the log (`Chain.items?_evaluate`).

A stream delivers a list where each of its pieces of work finds the next part of it, whatever the
log holds (`Delivers`). Every stage keeps that, with the list its step makes
(`Step.Queries.delivers`).
-/
import PropertyGraph.Proofs.Walking

namespace PropertyGraph

open PropertyGraph.Graph

variable {σ : Type}

/-! ## Steps over complete lists -/

namespace Item

/-- Puts a list in the place of each item; errors stay in theirs. -/
def splice (items : List Item) (f : Traverser → List Item) : List Item :=
  items.flatMap fun
    | .ok t => f t
    | .error err => [.error err]

/-- A list that was asked for: its members in order, or the error. -/
def each : Except Error (List Traverser) → List Item
  | .ok ts => ts.map .ok
  | .error err => [.error err]

/-- The number of items, or only the first error. -/
def count (items : List Item) : List Item :=
  match items.mapM id with
  | .ok ts => [.ok (.value (.nat ts.length))]
  | .error err => [.error err]

/-- An item of another type than a step takes. -/
def mismatch (step expected : String) (found : Traverser) : List Item :=
  [.error (.broken (.traverserMismatch step expected found.type.name))]

end Item

section Evaluation

variable [Backend σ] (e : Engine σ)

/-- An element, if it is there. -/
def Engine.lookUp (kind : ElementKind) (id : String) : List Item :=
  Item.each (e.answer do return if ← elementExists kind id then [.ofElement kind id] else [])

/-- The elements a selection takes. -/
def Engine.selected (kind : ElementKind) : Selection → List Item
  | .all => Item.each (e.answer do return (← elementIds kind).map (.ofElement kind))
  | .one id => e.lookUp kind id
  | .many ids => ids.flatMap (e.lookUp kind)

/-- What a step makes of a complete list. Steps that write are left out. -/
def Engine.evaluate (step : Step) (items : List Item) : List Item :=
  match step with
  | .root => Item.splice items fun _ => [.ok .graph]
  | .vertices ids => Item.splice items fun
    | .graph => e.selected .vertex ids
    | other => Item.mismatch "V" "graph" other
  | .edges ids => Item.splice items fun
    | .graph => e.selected .edge ids
    | other => Item.mismatch "E" "graph" other
  | .verticesWithLabel l => Item.splice items fun
    | .graph => Item.each (e.answer do return (← verticesWithLabel l).map .vertex)
    | other => Item.mismatch "V" "graph" other
  | .adjacent direction adjacency labels => Item.splice items fun
    | .vertex id => Item.each (e.answer do
        let ids ← neighbors id direction adjacency labels []
        return ids.map (.ofElement (match adjacency with | .vertices => .vertex | .edges => .edge)))
    | other => Item.mismatch (Expansion.adjacentName direction adjacency) "vertex" other
  | .bothEdges labels => Item.splice items fun
    | .vertex id => Item.each (e.answer do
        let leaving ← neighbors id .outgoing .edges labels []
        return (← neighbors id .incoming .edges labels leaving).map .edge)
    | other => Item.mismatch "bothE" "vertex" other
  | .edgeVertex ends => Item.splice items fun
    | .edge id => Item.each (e.answer do return (endsOf (← edgeEndpoints id) ends).map .vertex)
    | other => Item.mismatch "outV/inV/bothV/otherV" "edge" other
  | .has key value => Item.splice items fun t => Item.each (e.answer do
      let (kind, id) ← requireElement "has" t
      return if ← Filter.holds kind id key value then [t] else [])
  | .id => Item.splice items fun t => Item.each (e.answer do
      let (_, id) ← requireElement "id" t
      return [.value (.str id)])
  | .label => Item.splice items fun t => Item.each (e.answer do
      let (kind, id) ← requireElement "label" t
      return (← getLabel kind id).toList.map fun l => .value (.str l))
  | .properties keys => Item.splice items fun t => Item.each (e.answer do
      let (kind, id) ← requireElement "properties" t
      return (← readProperties kind id keys).map fun (key, value) =>
        .value (Json.object [("key", .str key), ("value", value)]))
  | .valueMap keys => Item.splice items fun t => Item.each (e.answer do
      let (kind, id) ← requireElement "valueMap" t
      return [.value (.obj (← readProperties kind id keys))])
  | .limit n => items.take n
  | .count => Item.count items
  | .addVertex _ | .addEdge .. | .property .. | .drop | .dropGraph => []

/-- What a plan comes to: its steps one after the other, from the graph on. -/
def Engine.evaluatePlan (plan : Plan) : List Item :=
  plan.steps.foldl (fun items planned => e.evaluate planned.step items) [.ok .graph]

end Evaluation

/-- A step that only reads. A label that vertices are found by is a token. -/
def Step.Queries : Step → Prop
  | .addVertex _ | .addEdge .. | .property .. | .drop | .dropGraph => False
  | .verticesWithLabel l => Key.isToken l = true
  | .root | .vertices _ | .edges _ | .adjacent .. | .bothEdges _ | .edgeVertex _ | .has .. | .id
  | .label | .properties _ | .valueMap _ | .limit _ | .count => True

/-! ## Delivering a list -/

/-- Piece by piece, whatever the log holds, these items come, and nothing but the log changes. -/
inductive Delivers {S : Type} (e : Engine σ) (advance : S → Run σ (Event × S)) : S → List Item → Prop
  | done {s s' : S} (h : e.Finds (advance s) (.done, s')) : Delivers e advance s []
  | skip {s s' : S} {items : List Item} (h : e.Finds (advance s) (.skip, s'))
    (rest : Delivers e advance s' items) : Delivers e advance s items
  | item {s s' : S} {i : Item} {items : List Item} (h : e.Finds (advance s) (.item i, s'))
    (rest : Delivers e advance s' items) : Delivers e advance s (i :: items)

variable [Backend σ] {e : Engine σ}

/-- A stream that delivers items has a run with them. -/
theorem Delivers.runs {s : Stream} {items : List Item} (h : Delivers e Stream.advance s items)
    (log : List Notice) :
    ∃ trace log', s.Runs { e with log := log } trace { e with log := log' } ∧
      trace.map (·.1) = items := by
  induction h generalizing log with
  | done h =>
    obtain ⟨log', hrun⟩ := h log
    exact ⟨[], log', .done hrun, rfl⟩
  | skip h _ ih =>
    obtain ⟨log', hrun⟩ := h log
    obtain ⟨trace, log'', hruns, rfl⟩ := ih log'
    exact ⟨trace, log'', .skip hrun hruns, rfl⟩
  | item h _ ih =>
    obtain ⟨log', hrun⟩ := h log
    obtain ⟨trace, log'', hruns, rfl⟩ := ih log'
    exact ⟨_ :: trace, log'', .item hrun hruns, rfl⟩

theorem delivers_given (items : List Item) : Delivers e Stream.advance (.given items) items := by
  induction items with
  | nil => exact .done (.pure e _)
  | cons i items ih => exact .item (.pure e _) ih

namespace Stream

variable {stage : Stage} {source source' : Stream} {event event' : Event} {left : Leaves}

theorem finds_work {work : Run σ (Event × Leaves)} (h : stage.work? = some work)
    (hw : e.Finds work (event, left)) :
    e.Finds (Stream.through stage source).advance (event, left.over source) := by
  intro log
  obtain ⟨log', hrun⟩ := hw log
  refine ⟨log', ?_⟩
  rw [advance_work h, hrun]

theorem finds_react (hwork : (stage.work? : Option (Run σ _)) = none)
    (hs : e.Finds source.advance (event, source')) (hr : e.Finds (stage.react event) (event', left)) :
    e.Finds (Stream.through stage source).advance (event', left.over source') := by
  intro log
  obtain ⟨log', hs⟩ := hs log
  obtain ⟨log'', hr⟩ := hr log'
  refine ⟨log'', ?_⟩
  rw [advance_react hwork hs, hr]

end Stream

/-! ## Stages -/

section Stages

variable {expander : Expander} {source : Stream} {items : List Item}

/-- The expansion under way comes first. -/
theorem Delivers.current {x : Expansion} {l : List Item} (hx : Delivers e Expansion.advance x l)
    (hrest : Delivers e Stream.advance (.through (.expand expander none) source) items) :
    Delivers e Stream.advance (.through (.expand expander (some x)) source) (l ++ items) := by
  induction hx with
  | done h => exact .skip (Stream.finds_work rfl (h.bind (.pure e _))) hrest
  | skip h _ ih => exact .skip (Stream.finds_work rfl (h.bind (.pure e _))) ih
  | item h _ ih => exact .item (Stream.finds_work rfl (h.bind (.pure e _))) ih

/-- Each item is expanded in its place. -/
theorem Delivers.expand (hs : Delivers e Stream.advance source items) {f : Traverser → List Item}
    (hx : ∀ t, ∃ x, e.Finds (expander.expand t) x ∧ Delivers e Expansion.advance x (f t)) :
    Delivers e Stream.advance (.through (.expand expander none) source) (Item.splice items f) := by
  induction hs with
  | done h => exact .done (Stream.finds_react rfl h (.pure e _))
  | skip h _ ih => exact .skip (Stream.finds_react rfl h (.pure e _)) ih
  | @item s s' i items h _ ih =>
    cases i with
    | error err => exact .item (Stream.finds_react rfl h (.pure e _)) ih
    | ok t =>
      obtain ⟨x, hexpand, hdelivers⟩ := hx t
      exact .skip (Stream.finds_react rfl h (hexpand.bind (.pure e _))) (hdelivers.current ih)

/-- A filter puts what it makes of an item in its place. -/
theorem Delivers.filter (hs : Delivers e Stream.advance source items) {f : Filter}
    {answer : Traverser → Except Error (Option Traverser)}
    (hf : ∀ t, e.Finds (f.apply t).run (answer t)) :
    Delivers e Stream.advance (.through (.filter f) source)
      (Item.splice items fun t => Item.each ((answer t).map Option.toList)) := by
  induction hs with
  | done h => exact .done (Stream.finds_react rfl h (.pure e _))
  | skip h _ ih => exact .skip (Stream.finds_react rfl h (.pure e _)) ih
  | @item s s' i items h _ ih =>
    cases i with
    | error err => exact .item (Stream.finds_react rfl h (.pure e _)) ih
    | ok t =>
      have hanswer := hf t
      rw [Item.splice, List.flatMap_cons]
      cases ht : answer t with
      | error err =>
        rw [ht] at hanswer
        simp only [ht]
        exact .item (Stream.finds_react rfl h (hanswer.bind (.pure e _))) ih
      | ok found =>
        rw [ht] at hanswer
        simp only [ht]
        cases found with
        | none => exact .skip (Stream.finds_react rfl h (hanswer.bind (.pure e _))) ih
        | some t' => exact .item (Stream.finds_react rfl h (hanswer.bind (.pure e _))) ih

/-- A limit takes what comes first. -/
theorem Delivers.limit (hs : Delivers e Stream.advance source items) (n : Nat) :
    Delivers e Stream.advance (.through (.limit n) source) (items.take n) := by
  induction hs generalizing n with
  | done h =>
    cases n with
    | zero => exact .done (Stream.finds_work rfl (.pure e _))
    | succ n => exact .done (Stream.finds_react rfl h (.pure e _))
  | skip h _ ih =>
    cases n with
    | zero => exact .done (Stream.finds_work rfl (.pure e _))
    | succ n => exact .skip (Stream.finds_react rfl h (.pure e _)) (ih (n + 1))
  | item h _ ih =>
    cases n with
    | zero => exact .done (Stream.finds_work rfl (.pure e _))
    | succ n => exact .item (Stream.finds_react rfl h (.pure e _)) (ih n)

/-- A count takes in every item, and brings an error instead of its number. -/
theorem Delivers.count (hs : Delivers e Stream.advance source items) (total : Nat) :
    Delivers e Stream.advance (.through (.sink (.count total)) source)
      (match items.mapM id with
        | .ok ts => [.ok (.value (.nat (total + ts.length)))]
        | .error err => [.error err]) := by
  induction hs generalizing total with
  | done h => exact .skip (Stream.finds_react rfl h (.pure e _)) (delivers_given _)
  | skip h _ ih => exact .skip (Stream.finds_react rfl h (.pure e _)) (ih total)
  | @item s s' i items h _ ih =>
    rw [List.mapM_cons]
    cases i with
    | error err => exact .item (Stream.finds_react rfl h (.pure e _)) (delivers_given [])
    | ok t =>
      have habsorb : e.Finds ((Stage.sink (.count total)).react (.item (.ok t)))
          (.skip, .stage (.sink (.count (total + 1)))) :=
        Engine.Finds.bind (a := .ok (.count (total + 1))) (.pure e _) (.pure e _)
      have hrest := ih (total + 1)
      cases hall : items.mapM id with
      | error err =>
        rw [hall] at hrest
        exact .skip (Stream.finds_react rfl h habsorb) hrest
      | ok ts =>
        rw [hall] at hrest
        dsimp only at hrest
        rw [Nat.add_assoc, Nat.add_comm 1] at hrest
        exact .skip (Stream.finds_react rfl h habsorb) hrest

end Stages

/-! ## Expansions -/

section Expansions

theorem delivers_items (l : List Item) : Delivers e Expansion.advance (.items l) l := by
  induction l with
  | nil => exact .done (.pure e _)
  | cons i l ih => exact .item (.pure e _) ih

/-- A task delivers what its beginning leads to. -/
theorem delivers_task {t : Task} {x : Expansion} {l : List Item}
    (ht : e.Finds t.begin.run (.ok x)) (h : Delivers e Expansion.advance x l) :
    Delivers e Expansion.advance (.task t) l := .skip (ht.bind (.pure e _)) h

theorem delivers_failed {t : Task} {err : Error} (ht : e.Finds t.begin.run (.error err)) :
    Delivers e Expansion.advance (.task t) [.error err] :=
  .item (ht.bind (.pure e _)) (delivers_items [])

/-- A task that reads its items at once. -/
theorem delivers_each {t : Task} {answer : Except Error (List Traverser)}
    (ht : e.Finds t.begin.run (answer.map fun ts => .items (ts.map .ok))) :
    Delivers e Expansion.advance (.task t) (Item.each answer) := by
  cases answer with
  | ok ts => exact delivers_task ht (delivers_items _)
  | error err => exact delivers_failed ht

/-- A task that makes its items out of what it reads. -/
theorem delivers_found {α : Type} {t : Task} {x : Attempt σ α} (hx : Reads x)
    {g : α → List Traverser} (ht : t.begin = (fun a => .items ((g a).map .ok)) <$> x) :
    Delivers e Expansion.advance (.task t) (Item.each (e.answer (g <$> x))) := by
  refine delivers_each ?_
  have hfinds := (hx.map fun a => Expansion.items ((g a).map .ok)).finds e
  rw [Reads.answer_map _ hx] at hfinds ⊢
  rw [ht]
  cases h : e.answer x <;> rw [h] at hfinds <;> exact hfinds

variable [LawfulBackend σ]

theorem reads_elementExists (kind : ElementKind) (id : String) :
    Reads (elementExists kind id : Attempt σ _) := .map _ (.get _)

theorem lookUp_eq (kind : ElementKind) (id : String) :
    e.lookUp kind id = match e.answer (elementExists kind id) with
      | .ok true => [.ok (.ofElement kind id)]
      | .ok false => []
      | .error err => [.error err] := by
  have hanswer := Reads.answer_map (fun found => if found = true then [Traverser.ofElement kind id] else [])
    (reads_elementExists kind id) e
  rw [Engine.lookUp, show (do return if ← elementExists kind id then [.ofElement kind id] else [] :
    Attempt σ (List Traverser)) = _ <$> elementExists kind id from rfl, hanswer]
  rcases e.answer (elementExists kind id) with _ | _ | _ <;> rfl

theorem delivers_probe (kind : ElementKind) (ids : List String) :
    Delivers e Expansion.advance (.probe kind ids) (ids.flatMap (e.lookUp kind)) := by
  induction ids with
  | nil => exact .done (.pure e _)
  | cons id ids ih =>
    have hfinds := (reads_elementExists kind id).finds e
    rw [List.flatMap_cons, lookUp_eq]
    cases hanswer : e.answer (elementExists kind id) with
    | error err =>
      rw [hanswer] at hfinds
      exact .item (hfinds.bind (.pure e _)) ih
    | ok found =>
      rw [hanswer] at hfinds
      cases found with
      | true => exact .item (hfinds.bind (.pure e _)) ih
      | false => exact .skip (hfinds.bind (.pure e _)) ih

/-- A scan of a store that does not change brings the items of the keys it has left to bring. -/
theorem delivers_scan (listing : Listing) {k : KeyScan} (hk : k.Sound) :
    Delivers e Expansion.advance (.scan listing (.ofScan k))
      (((k.brings (k.pending e.keys)).filterMap listing.item?).map .ok) := by
  induction hwork : k.work e.keys using Nat.strongRecOn generalizing k with
  | _ n ih =>
  have hadv := KeyScan.advance_advances e.serves_fetch hk
  have hstep := Engine.Finds.advance e (.ofScan k)
  dsimp only [KeyStream.ofScan] at hstep
  generalize (k.advance e.fetch).1 = event at hadv hstep
  generalize (k.advance e.fetch).2 = k' at hadv hstep
  have hsound := hadv.sound e.pairwise_keys hk
  have hbrings := hadv.brings e.pairwise_keys hk
  have hless := hadv.work e.pairwise_keys hk
  cases event with
  | key key =>
    have hlist : k.brings (k.pending e.keys) = key :: k'.brings (k'.pending e.keys) := hbrings
    have hrest := ih _ (hwork ▸ hless (by simp)) hsound rfl
    rw [hlist]
    cases hitem : listing.item? key with
    | none =>
      rw [List.filterMap_cons_none hitem]
      refine .skip (hstep.bind ?_) hrest
      simp only [hitem]
      exact .pure e _
    | some t =>
      rw [List.filterMap_cons_some hitem]
      refine .item (hstep.bind ?_) hrest
      simp only [hitem]
      exact .pure e _
  | skip =>
    have hlist : k.brings (k.pending e.keys) = k'.brings (k'.pending e.keys) := hbrings
    rw [hlist]
    exact .skip (hstep.bind (.pure e _)) (ih _ (hwork ▸ hless (by simp)) hsound rfl)
  | done =>
    have hlist : k.brings (k.pending e.keys) = [] := hbrings
    rw [hlist]
    exact .done (hstep.bind (.pure e _))
  | failed err => exact absurd hbrings id

/-- A task that goes through the keys of a pattern. -/
theorem delivers_listing {t : Task} (listing : Listing) {pattern : String} {p : KeyPattern}
    (ht : t.begin = (do
      let stream ← Engine.call (Backend.keys [pattern])
      return .scan listing stream : Attempt σ Expansion))
    (hread : KeyPattern.parse pattern = .ok p) (heverything : p.isEverything = false)
    (hexact : p.isExact = false) :
    Delivers e Expansion.advance (.task t)
      (((e.keys.filter p.accepts).filterMap listing.item?).map .ok) := by
  have hopen : e.Finds (Engine.call (Backend.keys [pattern]) : Attempt σ _).run
      (.ok (.ofScan (.start [p]))) := by
    exact fun log => ⟨log, Engine.keys_run (KeyPattern.parseAll_singleton hread) _⟩
  have hps : ∀ q ∈ [p], q.isEverything = false ∧ q.isExact = false := by
    simpa using ⟨heverything, hexact⟩
  refine delivers_task (x := .scan listing (.ofScan (.start [p]))) ?_ ?_
  · rw [ht]
    exact hopen.bind_ok (.pure e _)
  · have hscan := delivers_scan (e := e) listing (KeyScan.sound_start (by simp) hps)
    rwa [KeyScan.brings_single heverything] at hscan

theorem answer_keysMatching {pattern : String} {p : KeyPattern}
    (hread : KeyPattern.parse pattern = .ok p) (heverything : p.isEverything = false)
    (hexact : p.isExact = false) :
    e.answer (Engine.keysMatching pattern) = .ok (e.keys.filter p.accepts) :=
  congrArg (·.1) (Engine.keysMatching_run hread heverything hexact e)

theorem delivers_selectAll (kind : ElementKind) :
    Delivers e Expansion.advance (.task (.select kind)) (e.selected kind .all) := by
  have hdelivers := delivers_listing (e := e) (t := .select kind) (.elements kind) rfl
    (KeyPattern.parse_listing kind) rfl rfl
  have hanswer : e.answer (do return (← elementIds kind).map (.ofElement kind)) =
      .ok ((e.keys.filter (KeyPattern.listing kind).accepts).map fun key =>
        Traverser.ofElement kind (listedId key)) := by
    refine (Reads.answer_map _ (.map _ (.keysMatching _)) e).trans ?_
    rw [Reads.answer_map _ (.keysMatching _),
      answer_keysMatching (KeyPattern.parse_listing kind) rfl rfl]
    exact congrArg Except.ok (List.map_map ..)
  have hitems : (Listing.elements kind).item? = some ∘ fun key => .ofElement kind (listedId key) := rfl
  rw [Engine.selected, hanswer]
  rwa [hitems, List.filterMap_eq_map] at hdelivers

theorem delivers_selectLabel {l : String} (hl : Key.isToken l = true) :
    Delivers e Expansion.advance (.task (.selectLabel l))
      (Item.each (e.answer do return (← verticesWithLabel l).map .vertex)) := by
  have hdelivers := delivers_listing (e := e) (t := .selectLabel l) .labeled rfl
    (KeyPattern.parse_labelEntries hl) rfl rfl
  have hanswer : e.answer (do return (← verticesWithLabel l).map .vertex) =
      .ok (((e.keys.filter (KeyPattern.labelEntries l).accepts).filterMap labeledId?).map
        Traverser.vertex) := by
    refine (Reads.answer_map _ (.map _ (.keysMatching _)) e).trans ?_
    rw [Reads.answer_map _ (.keysMatching _),
      answer_keysMatching (KeyPattern.parse_labelEntries hl) rfl rfl]
    rfl
  rw [hanswer]
  rwa [show Listing.labeled.item? = fun key => (labeledId? key).map .vertex from rfl,
    ← List.map_filterMap] at hdelivers

theorem delivers_selectOne (kind : ElementKind) (id : String) :
    Delivers e Expansion.advance (.task (.selectOne kind id)) (e.lookUp kind id) := by
  refine delivers_found (reads_elementExists kind id) ?_
  exact congrArg (elementExists kind id >>= ·) (funext fun found => by cases found <;> rfl)

/-- A selection delivers what it takes. -/
theorem delivers_selecting (kind : ElementKind) (ids : Selection) :
    Delivers e Expansion.advance (Expansion.selecting kind ids) (e.selected kind ids) := by
  cases ids with
  | all => exact delivers_selectAll kind
  | one id => exact delivers_selectOne kind id
  | many ids => exact delivers_probe kind ids

/-! ## Steps -/

omit [LawfulBackend σ] in
theorem finds_mismatch (e : Engine σ) (step expected : String) (t : Traverser) :
    ∃ x, e.Finds (do return Expansion.failed (← mismatch step expected t) : Run σ Expansion) x ∧
      Delivers e Expansion.advance x (Item.mismatch step expected t) :=
  ⟨_, (Engine.Finds.breach e _).bind (.pure e _), delivers_items _⟩

omit [LawfulBackend σ] in
theorem delivers_fromGraph {x : Expansion} {l : List Item} (hx : Delivers e Expansion.advance x l)
    (step : String) (t : Traverser) :
    ∃ x', e.Finds (Expansion.fromGraph step t x) x' ∧ Delivers e Expansion.advance x'
      (match t with
        | .graph => l
        | other => Item.mismatch step "graph" other) := by
  cases t with
  | graph => exact ⟨x, .pure e x, hx⟩
  | vertex | edge | value => exact finds_mismatch e step "graph" _

theorem reads_neighbors (vertex : String) (direction : Direction) (adjacency : Adjacency)
    (labels seen : List String) :
    Reads (neighbors vertex direction adjacency labels seen : Attempt σ _) :=
  .foldlM (fun _ _ => .map _ (reads_adjacentIds _ _ _ _)) _ _

theorem reads_edgeEndpoints (id : String) : Reads (edgeEndpoints id : Attempt σ _) := by
  refine .bind (reads_readText _) fun source => .bind (reads_readText _) fun target => ?_
  split
  · exact .bind (.note _) fun _ => .pure _
  · exact .pure _

/-- What a factory step makes of an item, its expansion delivers. -/
theorem Step.Queries.expands {step : Step} (h : step.Queries) (hshape : step.shape = .factory)
    (items : List Item) {source : Stream} (hs : Delivers e Stream.advance source items) :
    Delivers e Stream.advance (.through (.expand (.step step) none) source)
      (e.evaluate step items) := by
  cases step with
  | root => exact hs.expand fun t => ⟨_, .pure e _, delivers_items _⟩
  | vertices ids => exact hs.expand fun t => delivers_fromGraph (delivers_selecting .vertex ids) "V" t
  | edges ids => exact hs.expand fun t => delivers_fromGraph (delivers_selecting .edge ids) "E" t
  | verticesWithLabel l => exact hs.expand fun t => delivers_fromGraph (delivers_selectLabel h) "V" t
  | adjacent direction adjacency labels =>
    refine hs.expand fun t => ?_
    cases t with
    | vertex id =>
      refine ⟨_, .pure e _, delivers_found (reads_neighbors id direction adjacency labels []) ?_⟩
      refine congrArg (neighbors id direction adjacency labels [] >>= ·) (funext fun ids => ?_)
      cases adjacency <;> simp only [List.map_map] <;> rfl
    | graph | edge | value => exact finds_mismatch e _ "vertex" _
  | bothEdges labels =>
    refine hs.expand fun t => ?_
    cases t with
    | vertex id =>
      have hreads := Reads.bind (reads_neighbors (σ := σ) id .outgoing .edges labels [])
        fun leaving => reads_neighbors id .incoming .edges labels leaving
      have hdelivers := delivers_found (e := e) (t := .bothEdges id labels) hreads
        (g := fun ids => ids.map .edge) (by simp [Task.begin, Function.comp_def])
      exact ⟨_, .pure e _, by simpa using hdelivers⟩
    | graph | edge | value => exact finds_mismatch e _ "vertex" _
  | edgeVertex ends =>
    refine hs.expand fun t => ?_
    cases t with
    | edge id =>
      refine ⟨_, .pure e _, delivers_found (reads_edgeEndpoints id) ?_⟩
      exact congrArg (edgeEndpoints id >>= ·) (funext fun endpoints => by simp only [List.map_map]; rfl)
    | graph | vertex | value => exact finds_mismatch e _ "edge" _
  | addVertex | addEdge => exact h.elim
  | dropGraph | has | property | drop | id | label | properties | valueMap | limit | count =>
    cases hshape

omit [LawfulBackend σ] [Backend σ] in
/-- Two operations behind the same one, where the second finds what the first finds, as lists. -/
theorem answer_toList {α β : Type} {x : Attempt σ α} {f : α → Attempt σ (Option β)}
    {g : α → Attempt σ (List β)} (hx : Reads x) (hf : ∀ a, Reads (f a)) (hg : ∀ a, Reads (g a))
    (h : ∀ a, (e.answer (f a)).map Option.toList = e.answer (g a)) :
    (e.answer (x >>= f)).map Option.toList = e.answer (x >>= g) := by
  rw [hx.answer_bind hf, hx.answer_bind hg]
  cases e.answer x with
  | error err => rfl
  | ok a => exact h a

theorem Step.Queries.ne_setting {step : Step} (h : step.Queries) {f : Filter}
    (hf : step.stage = .filter f) (key : String) (value : Json) : f ≠ .setting key value := by
  rintro rfl
  cases step with
  | property => exact h
  | _ => cases hf

/-- The step of a filter puts in the place of an item what the filter makes of it. -/
theorem Engine.evaluate_filter {step : Step} (h : step.Queries) {f : Filter}
    (hf : step.stage = .filter f) (items : List Item) :
    e.evaluate step items =
      Item.splice items fun t => Item.each ((e.answer (f.apply t)).map Option.toList) := by
  cases step with
  | has key value =>
    cases hf
    refine congrArg (Item.splice items) (funext fun t => congrArg Item.each (Eq.symm ?_))
    refine answer_toList (reads_requireElement _ t) (fun _ => .map _ (Filter.reads_holds _ _ _ _))
      (fun _ => .map _ (Filter.reads_holds _ _ _ _)) fun (kind, id) => ?_
    have hholds := Filter.reads_holds (σ := σ) kind id key value
    refine (congrArg _ (Reads.answer_map _ hholds e)).trans
      (Eq.trans ?_ (Reads.answer_map _ hholds e).symm)
    rcases e.answer (Filter.holds kind id key value) with _ | _ | _ <;> rfl
  | id =>
    cases hf
    refine congrArg (Item.splice items) (funext fun t => congrArg Item.each (Eq.symm ?_))
    exact answer_toList (reads_requireElement _ t) (fun _ => .pure _) (fun _ => .pure _) fun _ => rfl
  | label =>
    cases hf
    refine congrArg (Item.splice items) (funext fun t => congrArg Item.each (Eq.symm ?_))
    refine answer_toList (reads_requireElement _ t) (fun _ => .bind (reads_readText _) fun l => ?_)
      (fun _ => .map _ (reads_readText _)) fun (kind, id) => ?_
    · cases l with
      | some l => exact .pure _
      | none => exact .bind (.note _) fun _ => .pure _
    · refine answer_toList (reads_readText _) (fun l => ?_) (fun _ => .pure _) fun l => ?_
      · cases l with
        | some l => exact .pure _
        | none => exact .bind (.note _) fun _ => .pure _
      · cases l <;> rfl
  | valueMap keys =>
    cases hf
    refine congrArg (Item.splice items) (funext fun t => congrArg Item.each (Eq.symm ?_))
    refine answer_toList (reads_requireElement _ t) (fun _ => .map _ (reads_readProperties _ _ _))
      (fun _ => .map _ (reads_readProperties _ _ _)) fun (kind, id) => ?_
    have hread := reads_readProperties (σ := σ) kind id keys
    refine (congrArg _ (Reads.answer_map _ hread e)).trans
      (Eq.trans ?_ (Reads.answer_map _ hread e).symm)
    cases e.answer (readProperties kind id keys) <;> rfl
  | property => exact h.elim
  | _ => cases hf

theorem delivers_properties (t : Traverser) (keys : List String) :
    Delivers e Expansion.advance (.task (.properties t keys)) (Item.each (e.answer do
      let (kind, id) ← requireElement "properties" t
      return (← readProperties kind id keys).map fun (key, value) =>
        .value (Json.object [("key", .str key), ("value", value)]))) := by
  have hreads : Reads (do
      let (kind, id) ← requireElement "properties" t
      readProperties kind id keys : Attempt σ _) :=
    .bind (reads_requireElement _ t) fun _ => reads_readProperties _ _ _
  have hdelivers := delivers_found (e := e) (t := .properties t keys) hreads
    (g := fun fields => fields.map fun (key, value) =>
      .value (Json.object [("key", .str key), ("value", value)]))
    (by simp [Task.begin, Function.comp_def]; rfl)
  simpa using hdelivers

/-- Behind a stage stands what its step makes of the list before it. -/
theorem Step.Queries.delivers {step : Step} (h : step.Queries) {items : List Item}
    {source : Stream} (hs : Delivers e Stream.advance source items) :
    Delivers e Stream.advance (.through step.stage source) (e.evaluate step items) := by
  have hfilter : ∀ f, step.stage = .filter f →
      Delivers e Stream.advance (.through step.stage source) (e.evaluate step items) := by
    intro f hf
    rw [Engine.evaluate_filter h hf, hf]
    exact hs.filter fun t => (Filter.reads_apply (h.ne_setting hf) t).finds e
  cases step with
  | root => exact h.expands rfl items hs
  | vertices => exact h.expands rfl items hs
  | edges => exact h.expands rfl items hs
  | verticesWithLabel => exact h.expands rfl items hs
  | adjacent => exact h.expands rfl items hs
  | bothEdges => exact h.expands rfl items hs
  | edgeVertex => exact h.expands rfl items hs
  | has => exact hfilter _ rfl
  | id => exact hfilter _ rfl
  | label => exact hfilter _ rfl
  | valueMap => exact hfilter _ rfl
  | properties keys =>
    exact hs.expand fun t => ⟨_, .pure e _, delivers_properties t keys⟩
  | limit n => exact hs.limit n
  | count =>
    have hcount := hs.count 0
    simp only [Nat.zero_add] at hcount
    exact hcount
  | addVertex | addEdge | property | drop | dropGraph => exact h.elim

/-- Stages one behind the other, with the lists of their steps. -/
theorem Delivers.ofSteps {steps : List Step} (h : ∀ step ∈ steps, step.Queries)
    {items : List Item} {source : Stream} (hs : Delivers e Stream.advance source items) :
    Delivers e Stream.advance (source.ofSteps steps)
      (steps.foldl (fun items step => e.evaluate step items) items) := by
  induction steps generalizing items source with
  | nil => exact hs
  | cons step steps ih =>
    exact ih (fun s hs => h s (List.mem_cons_of_mem _ hs)) ((h step List.mem_cons_self).delivers hs)

end Expansions

/-! ## Chains that only read -/

/-- The operations that write. -/
def Operation.writing : List Operation := [.addVertex, .addEdge, .property, .drop]

/-- The step of an operation that does not write only reads. -/
theorem Step.queries_of_ofCall {op : Operation} {state : ResultType} {arguments : List Json}
    {step : Step} (h : Step.ofCall op state arguments = .ok step) (hop : op ∉ Operation.writing) :
    step.Queries := by
  cases op with
  | addVertex | addEdge | drop | property => exact absurd (by decide) hop
  | vertices | edges | outVertices | inVertices | outEdges | inEdges | bothEdges | properties
  | valueMap =>
    obtain ⟨_, -, h⟩ := bind_eq_ok.1 h
    cases h
    trivial
  | outVertex | inVertex | bothVertices | id | label | count =>
    obtain ⟨_, -, h⟩ := bind_eq_ok.1 h
    cases h
    trivial
  | otherVertex | limit =>
    obtain ⟨_, -, h⟩ := bind_eq_ok.1 h
    obtain ⟨_, -, h⟩ := bind_eq_ok.1 h
    cases h
    trivial
  | has =>
    obtain ⟨_, -, h⟩ := bind_eq_ok.1 h
    obtain ⟨_, -, h⟩ := bind_eq_ok.1 h
    obtain ⟨_, -, h⟩ := bind_eq_ok.1 h
    cases h
    trivial

/-- The plan of a chain without an operation that writes has steps that only read; if no optimizer
changes it, they are the steps of the chain. -/
theorem Config.queries_of_plan {c : Config} {chain : Chain}
    (hchain : ∀ call ∈ chain, call.operation ∉ Operation.writing) {plan : Plan}
    {notices : List Notice} (h : c.optimizer.plan chain = .ok (plan, notices)) :
    notices = [] ∧ (c.optimize = false → chain.resolve = .ok plan.steps) ∧
      ∃ steps, plan = ⟨.root :: steps⟩ ∧ ∀ s ∈ steps, s.step.Queries := by
  obtain ⟨found, hresolve, -⟩ := bind_eq_ok.1 h
  obtain ⟨first, rest, rfl, hwalks⟩ := Chain.walks_of_resolve hresolve
  have hqueries : ∀ s ∈ first :: rest, s.step.Queries := by
    obtain ⟨_, -, hfrom⟩ := bind_eq_ok.1 hresolve
    obtain ⟨steps, hsteps, hfrom⟩ := bind_eq_ok.1 hfrom
    cases hfrom
    intro s hs
    obtain ⟨call, hcall, hstep⟩ := Chain.exists_call hsteps hs
    exact Step.queries_of_ofCall hstep (hchain call hcall)
  have hsame := h.symm.trans (c.optimizer.plan_of_resolve hresolve)
  rcases hc : c.optimize with _ | _
  · rw [Config.optimizer, hc] at hsame
    cases hsame
    exact ⟨rfl, fun _ => hresolve, first :: rest, rfl, hqueries⟩
  · rw [Config.optimizer, hc] at hsame
    rcases @Optimizer.improve_default first rest hwalks with
      himprove | ⟨second, others, l, rfl, -, -, hl, himprove⟩
    · simp only [if_true, himprove] at hsame
      cases hsame
      exact ⟨rfl, fun h => (by cases h), first :: rest, rfl, hqueries⟩
    · simp only [if_true, himprove] at hsame
      cases hsame
      refine ⟨rfl, fun h => (by cases h), _, rfl, List.forall_mem_cons.2 ⟨hl, fun s hs => ?_⟩⟩
      exact hqueries s (List.mem_cons_of_mem _ (List.mem_cons_of_mem _ hs))

/-- Whatever a store holds, a chain without an operation that writes brings what its plan comes to
over complete lists, and leaves everything but the log alone. -/
theorem Chain.items?_evaluate [LawfulBackend σ] {c : Config} {chain : Chain}
    (hchain : ∀ call ∈ chain, call.operation ∉ Operation.writing) {plan : Plan}
    {notices : List Notice} (hplan : c.optimizer.plan chain = .ok (plan, notices)) (e : Engine σ) :
    (c.optimize = false → chain.resolve = .ok plan.steps) ∧
      ∃ n, ∀ budget, n ≤ budget → ∃ log,
        (do (← chain.openStream c.optimizer).items? budget : Attempt σ _).run.run e =
          (.ok (some (e.evaluatePlan plan)), { e with log := log }) := by
  obtain ⟨rfl, hresolve, steps, rfl, hqueries⟩ := c.queries_of_plan hchain hplan
  refine ⟨hresolve, ?_⟩
  have hall : ∀ step ∈ (PlannedStep.root :: steps).map (·.step), step.Queries := by
    rw [List.forall_mem_map, List.forall_mem_cons]
    exact ⟨trivial, hqueries⟩
  have hdelivers := (delivers_given (e := e) [.ok .graph]).ofSteps hall
  rw [List.foldl_map] at hdelivers
  obtain ⟨trace, log, hruns, hitems⟩ := hdelivers.runs e.log
  obtain ⟨n, hn⟩ := hruns.items?_run
  refine ⟨n, fun budget hbudget => ⟨log, ?_⟩⟩
  rw [Attempt.bind_ok (Chain.openStream_run hplan e), Engine.evaluatePlan]
  exact (hn budget hbudget).trans (by rw [hitems])

/-- The ids of the first two acquaintances of persons. -/
def acquaintances : Chain :=
  [⟨.vertices, []⟩, ⟨.has, [.str "label", .str "person"]⟩, ⟨.outVertices, [.str "knows"]⟩,
    ⟨.limit, [.nat 2]⟩, ⟨.id, []⟩]

theorem evaluate_acquaintances :
    ∃ plan n, Optimizer.default.plan acquaintances = .ok (plan, []) ∧
      ∀ budget, n ≤ budget → ∃ log,
        (do (← acquaintances.openStream .default).items? budget : Attempt Memory _).run.run
            ((RecordOp.runAll linkingOps).run (Engine.ofStore Memory.empty)).2 =
          (.ok (some (((RecordOp.runAll linkingOps).run
            (Engine.ofStore Memory.empty)).2.evaluatePlan plan)),
            { ((RecordOp.runAll linkingOps).run (Engine.ofStore Memory.empty)).2 with log := log }) := by
  obtain ⟨plan, hplan⟩ : ∃ plan, Optimizer.default.plan acquaintances = .ok (plan, []) := ⟨_, rfl⟩
  have hreads : ∀ call ∈ acquaintances, call.operation ∉ Operation.writing := by decide
  obtain ⟨-, n, hn⟩ := Chain.items?_evaluate (c := {}) hreads hplan
    ((RecordOp.runAll linkingOps).run (Engine.ofStore Memory.empty)).2
  exact ⟨plan, n, hplan, hn⟩

end PropertyGraph
