/-
Queries under way in a regime. A stream `Regime.Yields` a property if every item it brings has
it, or is an error that may come; a stage `Regime.Passes` items of one property on as items of
another. One piece of work on a stream keeps what it yields (`Regime.Yields.advance`), so every
item of a run has the property (`Regime.Yields.take`, `Regime.Yields.fold?`), whatever the store
does meanwhile. A step passes on the types the type checker gives it (`Regime.passes_step`).
-/
import PropertyGraph.Proofs.GraphRegime
import PropertyGraph.Proofs.StepTypes

namespace PropertyGraph.Regime

variable {σ : Type} {R : Regime} {P Q : Traverser → Prop}

/-! ## Items -/

/-- An item of a type, whose id is a name. -/
structure Typed (R : Regime) (type : ResultType) (t : Traverser) : Prop where
  type : t.type = type
  name : ∀ kind id, t.element? = some (kind, id) → R.name id

theorem typed_vertex {id : String} (h : R.name id) : R.Typed .vertex (.vertex id) :=
  ⟨rfl, fun _ _ heq => by cases heq; exact h⟩

theorem typed_edge {id : String} (h : R.name id) : R.Typed .edge (.edge id) :=
  ⟨rfl, fun _ _ heq => by cases heq; exact h⟩

theorem typed_ofElement {kind : ElementKind} {id : String} (h : R.name id) :
    R.Typed kind.type (.ofElement kind id) := by
  cases kind with
  | vertex => exact typed_vertex h
  | edge => exact typed_edge h

theorem typed_value (v : Json) : R.Typed .value (.value v) :=
  ⟨rfl, fun _ _ heq => by cases heq⟩

theorem Typed.eq_graph {t : Traverser} (h : R.Typed .graph t) : t = .graph := by
  cases t <;> first | rfl | cases h.type

theorem Typed.exists_vertex {t : Traverser} (h : R.Typed .vertex t) :
    ∃ id, t = .vertex id ∧ R.name id := by
  cases t with
  | vertex id => exact ⟨id, rfl, h.name _ _ rfl⟩
  | _ => cases h.type

theorem Typed.exists_edge {t : Traverser} (h : R.Typed .edge t) :
    ∃ id, t = .edge id ∧ R.name id := by
  cases t with
  | edge id => exact ⟨id, rfl, h.name _ _ rfl⟩
  | _ => cases h.type

/-- An item that stands for an element. -/
theorem Typed.exists_element {t : Traverser} {type : ResultType} (h : R.Typed type t)
    (htype : type.isElement = true) : ∃ kind id, t.element? = some (kind, id) ∧ R.name id := by
  cases type with
  | vertex =>
    obtain ⟨id, rfl, hid⟩ := h.exists_vertex
    exact ⟨_, id, rfl, hid⟩
  | edge =>
    obtain ⟨id, rfl, hid⟩ := h.exists_edge
    exact ⟨_, id, rfl, hid⟩
  | graph | value => cases htype

/-! ## Expansions -/

/-- An expansion that is begun and brings items with a property only. -/
def Begun (R : Regime) (Q : Traverser → Prop) : Expansion → Prop
  | .items l => ∀ i ∈ l, R.Outcome Q i
  | .task _ => False
  | .probe kind ids => ∀ id ∈ ids, Q (.ofElement kind id)
  | .scan listing stream =>
    R.Scan stream ∧ ∀ key, R.Key key → ∀ t, listing.item? key = some t → Q t

/-- An item that a piece of work brings has a property. -/
def Event (R : Regime) (Q : Traverser → Prop) : PropertyGraph.Event → Prop
  | .item i => R.Outcome Q i
  | .skip | .done => True

section Work

variable [Backend σ] [FallibleBackend σ]

variable (σ) in
/-- An expansion that brings items with a property only. -/
def Expands (R : Regime) (Q : Traverser → Prop) : Expansion → Prop
  | .task t => R.Ensures (t.begin : Attempt σ _) (R.Begun Q)
  | x => R.Begun Q x

theorem Begun.expands {x : Expansion} (h : R.Begun Q x) : R.Expands σ Q x := by
  cases x with
  | task => cases h
  | _ => exact h

theorem begun_none : R.Begun Q .none := by simp [Begun, Expansion.none]

/-- One piece of work on an expansion. -/
theorem Expands.advance {x : Expansion} (h : R.Expands σ Q x) :
    R.Always (x.advance : Run σ _) fun r => R.Event Q r.1 ∧ R.Expands σ Q r.2 := by
  cases x with
  | items l =>
    cases l with
    | nil => exact .pure ⟨trivial, begun_none⟩
    | cons i l => exact .pure ⟨h i (by simp), fun j hj => h j (by simp [hj])⟩
  | task t =>
    refine .bind h fun outcome houtcome => ?_
    cases outcome with
    | ok x => exact .pure ⟨trivial, houtcome.expands⟩
    | error err => exact .pure ⟨houtcome, begun_none⟩
  | probe kind l =>
    cases l with
    | nil => exact .pure ⟨trivial, begun_none⟩
    | cons id l =>
      have hrest : R.Expands σ Q (.probe kind l) := fun i hi => h i (by simp [hi])
      refine .bind (Ensures.elementExists kind id) fun outcome houtcome => ?_
      rcases outcome with err | (_ | _)
      · exact .pure ⟨houtcome, hrest⟩
      · exact .pure ⟨trivial, hrest⟩
      · exact .pure ⟨h id (by simp), hrest⟩
  | scan listing stream =>
    refine .bind (.advance h.1) fun r hr => ?_
    obtain ⟨event, stream⟩ := r
    have hrest : R.Expands σ Q (.scan listing stream) := ⟨hr.2, h.2⟩
    cases event with
    | key key =>
      dsimp only
      split
      · rename_i t ht
        exact .pure ⟨h.2 key hr.1 t ht, hrest⟩
      · exact .pure ⟨trivial, hrest⟩
    | failed err => exact .pure ⟨hr.1, hrest⟩
    | skip => exact .pure ⟨trivial, hrest⟩
    | done => exact .pure ⟨trivial, begun_none⟩

/-! ## Stages and streams -/

variable (σ) in
/-- A stage that makes of items with one property items with another. -/
def Passes (R : Regime) (P Q : Traverser → Prop) : Stage → Prop
  | .expand expander current =>
    (∀ t, P t → R.Always (expander.expand t : Run σ _) (R.Expands σ Q)) ∧
      ∀ x, current = some x → R.Expands σ Q x
  | .filter f => ∀ t, P t → R.Ensures (f.apply t : Attempt σ _) fun kept =>
      ∀ u, kept = some u → Q u
  | .limit _ => ∀ t, P t → Q t
  | .sink (.count _) => ∀ n, Q (.value (.nat n))
  | .sink .drop => ∀ t, P t → ∃ kind id, t.element? = some (kind, id)
  | .sink .dropGraph => ∀ t, P t → t = .graph

variable (σ) in
/-- A stream that brings items with a property only. -/
inductive Yields (R : Regime) : (Traverser → Prop) → Stream → Prop
  | given {Q : Traverser → Prop} {items : List Item} (h : ∀ i ∈ items, R.Outcome Q i) :
    Yields R Q (.given items)
  | through {P Q : Traverser → Prop} {stage : Stage} {source : Stream} (h : R.Passes σ P Q stage)
    (hs : Yields R P source) : Yields R Q (.through stage source)

variable (σ) in
/-- What a stage leaves behind brings items with a property only. -/
def Left (R : Regime) (P Q : Traverser → Prop) : Leaves → Prop
  | .stage stage => R.Passes σ P Q stage
  | .stream s => R.Yields σ Q s

theorem yields_empty : R.Yields σ Q .empty := .given (by simp)

theorem Left.over {l : Leaves} {source : Stream} (h : R.Left σ P Q l) (hs : R.Yields σ P source) :
    R.Yields σ Q (l.over source) := by
  cases l with
  | stage stage => exact .through h hs
  | stream s => exact h

/-- Work a stage has of its own. -/
theorem Passes.work {stage : Stage} (h : R.Passes σ P Q stage) {work : Run σ (PropertyGraph.Event × Leaves)}
    (hwork : stage.work? = some work) :
    R.Always work fun r => R.Event Q r.1 ∧ R.Left σ P Q r.2 := by
  cases stage with
  | expand expander current =>
    cases current with
    | none => cases hwork
    | some x =>
      cases hwork
      refine .bind (h.2 x rfl).advance fun r hr => ?_
      obtain ⟨event, x'⟩ := r
      have hon : R.Passes σ P Q (.expand expander (some x')) :=
        ⟨h.1, fun y hy => Option.some.inj hy ▸ hr.2⟩
      cases event with
      | item i => exact .pure ⟨hr.1, hon⟩
      | skip => exact .pure ⟨trivial, hon⟩
      | done => exact .pure ⟨trivial, h.1, by simp⟩
  | limit left =>
    cases left with
    | zero =>
      cases hwork
      exact .pure ⟨trivial, yields_empty⟩
    | succ left => cases hwork
  | filter => cases hwork
  | sink => cases hwork

theorem Passes.absorb {s : Sink} (h : R.Passes σ P Q (.sink s)) {t : Traverser} (ht : P t) :
    R.Ensures (s.absorb t : Attempt σ _) fun s' => R.Passes σ P Q (.sink s') := by
  cases s with
  | count total => exact .pure h
  | drop =>
    obtain ⟨kind, id, helement⟩ := h t ht
    cases t with
    | vertex v => exact .bind (.lift (.dropVertex v)) fun _ _ => .pure h
    | edge x => exact .bind (.lift (.dropEdge x)) fun _ _ => .pure h
    | graph | value => cases helement
  | dropGraph =>
    obtain rfl := h t ht
    exact .bind .dropAll fun _ _ => .pure h

theorem Passes.finish {s : Sink} (h : R.Passes σ P Q (.sink s)) : R.Yields σ Q (.given s.finish) := by
  refine .given ?_
  cases s with
  | count total => exact fun i hi => List.mem_singleton.1 hi ▸ h total
  | drop | dropGraph => simp [Sink.finish]

/-- What a stage that waits for its source does with what comes. -/
theorem Passes.react {stage : Stage} (h : R.Passes σ P Q stage) {event : PropertyGraph.Event}
    (hevent : R.Event P event) :
    R.Always (stage.react event : Run σ _) fun r => R.Event Q r.1 ∧ R.Left σ P Q r.2 := by
  cases stage with
  | expand expander current =>
    cases event with
    | item i =>
      cases i with
      | ok t =>
        exact .bind (h.1 t hevent) fun x hx =>
          .pure ⟨trivial, h.1, fun y hy => Option.some.inj hy ▸ hx⟩
      | error err => exact .pure ⟨hevent, h⟩
    | skip => exact .pure ⟨trivial, h⟩
    | done => exact .pure ⟨trivial, yields_empty⟩
  | filter f =>
    cases event with
    | item i =>
      cases i with
      | ok t =>
        refine .bind (h t hevent) fun outcome houtcome => ?_
        rcases outcome with err | (_ | u)
        · exact .pure ⟨houtcome, h⟩
        · exact .pure ⟨trivial, h⟩
        · exact .pure ⟨houtcome u rfl, h⟩
      | error err => exact .pure ⟨hevent, h⟩
    | skip => exact .pure ⟨trivial, h⟩
    | done => exact .pure ⟨trivial, yields_empty⟩
  | limit left =>
    cases event with
    | item i =>
      cases i with
      | ok t => exact .pure ⟨h t hevent, h⟩
      | error err => exact .pure ⟨hevent, h⟩
    | skip => exact .pure ⟨trivial, h⟩
    | done => exact .pure ⟨trivial, yields_empty⟩
  | sink s =>
    cases event with
    | item i =>
      cases i with
      | ok t =>
        refine .bind (h.absorb hevent) fun outcome houtcome => ?_
        cases outcome with
        | ok s' => exact .pure ⟨trivial, houtcome⟩
        | error err => exact .pure ⟨houtcome, yields_empty⟩
      | error err => exact .pure ⟨hevent, yields_empty⟩
    | skip => exact .pure ⟨trivial, h⟩
    | done => exact .pure ⟨trivial, h.finish⟩

/-- One piece of work on a stream. -/
theorem Yields.advance {s : Stream} (h : R.Yields σ Q s) :
    R.Always (s.advance : Run σ _) fun r => R.Event Q r.1 ∧ R.Yields σ Q r.2 := by
  induction h with
  | @given Q items h =>
    cases items with
    | nil => exact .pure ⟨trivial, yields_empty⟩
    | cons i items => exact .pure ⟨h i (by simp), .given fun j hj => h j (by simp [hj])⟩
  | @through P Q stage source h hs ih =>
    intro e he
    cases hwork : (stage.work? : Option (Run σ _)) with
    | some work =>
      rw [Stream.advance_work hwork]
      obtain ⟨⟨hevent, hleft⟩, he'⟩ := h.work hwork e he
      exact ⟨⟨hevent, hleft.over hs⟩, he'⟩
    | none =>
      obtain ⟨⟨hevent, hs'⟩, he'⟩ := ih e he
      rw [Stream.advance_react hwork rfl]
      obtain ⟨⟨hbrought, hleft⟩, he''⟩ := h.react hevent _ he'
      exact ⟨⟨hbrought, hleft.over hs'⟩, he''⟩

/-! ## Runs -/

variable (σ) in
/-- What a pull brings, and what it leaves. -/
def Drawn (R : Regime) (Q : Traverser → Prop) : Pulled → Prop
  | .item i rest => R.Outcome Q i ∧ R.Yields σ Q rest
  | .ended => True
  | .unfinished rest => R.Yields σ Q rest

theorem Yields.pull {s : Stream} (h : R.Yields σ Q s) (budget : Nat) :
    R.Always (s.pull budget : Run σ _) (R.Drawn σ Q) := by
  induction budget generalizing s with
  | zero => exact .pure h
  | succ budget ih =>
    refine .bind h.advance fun r hr => ?_
    obtain ⟨event, rest⟩ := r
    cases event with
    | item i => exact .pure hr
    | skip => exact ih hr.2
    | done => exact .pure trivial

/-- Every item pulled out of a stream has its property, and what is left yields no other. -/
theorem Yields.take {s : Stream} (h : R.Yields σ Q s) (budget n : Nat) :
    R.Always (s.take budget n : Run σ _) fun r =>
      (∀ i ∈ r.1, R.Outcome Q i) ∧ ∀ rest, r.2 = some rest → R.Yields σ Q rest := by
  induction n generalizing s with
  | zero => exact .pure ⟨by simp, by simpa using h⟩
  | succ n ih =>
    refine .bind (h.pull budget) fun pulled hpulled => ?_
    cases pulled with
    | item i rest =>
      exact .bind (ih hpulled.2) fun r hr =>
        .pure ⟨by simpa using ⟨hpulled.1, hr.1⟩, hr.2⟩
    | ended => exact .pure ⟨by simp, by simp⟩
    | unfinished rest => exact .pure ⟨by simp, fun _ h => Option.some.inj h ▸ hpulled⟩

end Work

/-- Errors stop a fold, and nothing else does. -/
structure StopsAtErrors {β : Type} (f : β → Item → Except Error β) : Prop where
  ok : ∀ b t, ∃ b', f b (.ok t) = .ok b'
  error : ∀ b err, f b (.error err) = .error err

theorem stopsAtErrors_map {β : Type} (f : β → Traverser → β) :
    StopsAtErrors fun b (i : Item) => i.map (f b) :=
  ⟨fun _ _ => ⟨_, rfl⟩, fun _ _ => rfl⟩

section Work

variable [Backend σ] [FallibleBackend σ]

/-- A fold that errors stop ends in an error only if that may come. -/
theorem Yields.fold? {β : Type} {f : β → Item → Except Error β} (hf : StopsAtErrors f) {s : Stream}
    (h : R.Yields σ Q s) (budget : Nat) (b : β) :
    R.Ensures (s.fold? f budget b : Attempt σ _) fun _ => True := by
  induction budget generalizing s b with
  | zero => exact .pure trivial
  | succ budget ih =>
    refine .bind (.lift h.advance) fun r hr => ?_
    obtain ⟨event, rest⟩ := r
    cases event with
    | item i =>
      refine .bind (p := fun _ => True) (.ofExcept ?_) fun b _ => ih hr.2 b
      cases i with
      | ok t =>
        obtain ⟨b', hb'⟩ := hf.ok b t
        rw [hb']
        trivial
      | error err =>
        rw [hf.error]
        exact hr.1
    | skip => exact ih hr.2 b
    | done => exact .pure trivial

theorem Yields.results? {s : Stream} (h : R.Yields σ Q s) (budget : Nat) :
    R.Ensures (s.results? budget : Attempt σ _) fun _ => True :=
  .map (h.fold? (stopsAtErrors_map fun found t => t.toJson :: found) budget []) fun _ _ => trivial

theorem Yields.exhaust? {s : Stream} (h : R.Yields σ Q s) (budget : Nat) :
    R.Ensures (s.exhaust? budget : Attempt σ _) fun _ => True :=
  h.fold? (stopsAtErrors_map fun _ _ => ()) budget ()

/-! ## Tasks -/

section Tasks

open PropertyGraph.Graph

theorem Expands.select (kind : ElementKind) :
    R.Expands σ (R.Typed kind.type) (.task (.select kind)) := by
  refine Ensures.map (.scanElements kind) fun stream hstream => ⟨hstream, fun key hkey t ht => ?_⟩
  obtain rfl : _ = t := Option.some.inj ht
  exact typed_ofElement hkey.name_lastToken

theorem Expands.selectOne (kind : ElementKind) {id : String} (hid : R.name id) :
    R.Expands σ (R.Typed kind.type) (.task (.selectOne kind id)) := by
  refine Ensures.bind (.elementExists kind id) fun found _ => ?_
  cases found with
  | true => exact .pure fun _ hi => List.mem_singleton.1 hi ▸ typed_ofElement hid
  | false => exact .pure (by simp [Begun])

theorem Expands.addVertex {label : String} (hlabel : Key.isToken label = true) :
    R.Expands σ (R.Typed .vertex) (.task (.addVertex label)) :=
  Ensures.map (.createVertex (.inl hlabel)) fun _ hid _ hi => List.mem_singleton.1 hi ▸ typed_vertex hid

theorem Expands.addEdge (hrefused : ∀ cause, R.fault (.refused cause)) {label source target : String}
    (hlabel : Key.isToken label = true) (hsource : Key.isToken source = true)
    (htarget : Key.isToken target = true) :
    R.Expands σ (R.Typed .edge) (.task (.addEdge label source target)) :=
  Ensures.map (.createEdge hrefused (.inl ⟨hlabel, hsource, htarget⟩)) fun _ hid _ hi =>
    List.mem_singleton.1 hi ▸ typed_edge hid

theorem Expands.selectLabel {label : String} (hlabel : R.name label) :
    R.Expands σ (R.Typed .vertex) (.task (.selectLabel label)) := by
  refine Ensures.map (.scanLabel hlabel) fun stream hstream => ⟨hstream, fun key hkey t ht => ?_⟩
  obtain ⟨id, hid, rfl⟩ := Option.map_eq_some_iff.1 ht
  exact typed_vertex (hkey.name_token? hid)

theorem begun_ids {wrap : String → Traverser} {type : ResultType}
    (hwrap : ∀ id, R.name id → R.Typed type (wrap id)) {ids : List String}
    (hids : ∀ id ∈ ids, R.name id) :
    R.Begun (R.Typed type) (.items (ids.map fun id => .ok (wrap id))) := by
  intro i hi
  obtain ⟨id, hid, rfl⟩ := List.mem_map.1 hi
  exact hwrap id (hids id hid)

theorem Expands.adjacent {vertex : String} (hvertex : R.name vertex) (direction : Direction)
    (adjacency : Adjacency) {labels : List String} (hlabels : ∀ l ∈ labels, R.name l) :
    R.Expands σ (R.Typed adjacency.type) (.task (.adjacent vertex direction adjacency labels)) := by
  refine Ensures.map (.neighbors hvertex direction adjacency hlabels (by simp)) fun ids hids => ?_
  cases adjacency with
  | vertices => exact begun_ids (fun _ => typed_vertex) hids
  | edges => exact begun_ids (fun _ => typed_edge) hids

theorem Expands.bothEdges {vertex : String} (hvertex : R.name vertex) {labels : List String}
    (hlabels : ∀ l ∈ labels, R.name l) :
    R.Expands σ (R.Typed .edge) (.task (.bothEdges vertex labels)) :=
  Ensures.bind (.neighbors hvertex .outgoing .edges hlabels (by simp)) fun _ hleaving =>
    .map (.neighbors hvertex .incoming .edges hlabels hleaving) fun _ hids =>
      begun_ids (fun _ => typed_edge) hids

/-- The ends a step goes to are among the recorded ones. -/
theorem mem_endsOf {ends : Endpoints} {goal : EdgeTo} {id : String} (h : id ∈ endsOf ends goal) :
    ends.source = some id ∨ ends.target = some id := by
  obtain ⟨source, target⟩ := ends
  cases goal with
  | target => exact .inr (by simpa [endsOf] using h)
  | source => exact .inl (by simpa [endsOf] using h)
  | both =>
    simp only [endsOf] at h
    split at h
    · exact .inl (by simpa using h)
    · simpa using h
  | other known =>
    have h : otherEnd ⟨source, target⟩ known = some id := by simpa [endsOf] using h
    rw [otherEnd.eq_def] at h
    split at h
    · grind
    · rcases Option.or_eq_some_iff.1 h with h | ⟨-, h⟩
      · exact .inr h
      · exact .inl h

theorem Expands.edgeVertex {edge : String} (hedge : R.name edge) (ends : EdgeTo) :
    R.Expands σ (R.Typed .vertex) (.task (.edgeVertex edge ends)) := by
  refine Ensures.map (.edgeEndpoints hedge) fun found hfound => begun_ids (fun _ => typed_vertex)
    fun id hid => ?_
  rcases mem_endsOf hid with h | h
  · exact hfound.1 id h
  · exact hfound.2 id h

/-- What is done with the element an item stands for. -/
theorem Ensures.ofElement {α : Type} {t : Traverser} {kind : ElementKind} {id : String}
    (h : t.element? = some (kind, id)) (step : String) {f : ElementKind × String → Attempt σ α}
    {q : α → Prop} (hf : R.Ensures (f (kind, id)) q) :
    R.Ensures (requireElement step t >>= f) q := by
  rw [requireElement, h]
  exact hf

theorem Expands.properties {t : Traverser} {kind : ElementKind} {id : String}
    (h : t.element? = some (kind, id)) (hid : R.name id) (keys : List String) :
    R.Expands σ (R.Typed .value) (.task (.properties t keys)) := by
  refine Ensures.ofElement h _ (.map (.readProperties hid keys) fun fields _ i hi => ?_)
  obtain ⟨field, -, rfl⟩ := List.mem_map.1 hi
  exact typed_value _

end Tasks

/-! ## Steps -/

/-- The ids of a selection are names. -/
theorem Expands.selecting (kind : ElementKind) {s : Selection} (hs : s.Checked) :
    R.Expands σ (R.Typed kind.type) (Expansion.selecting kind s) := by
  cases s with
  | all => exact .select kind
  | one id => exact .selectOne kind (name_of_isToken hs)
  | many ids => exact fun id hid => typed_ofElement (name_of_isToken (hs id hid))

theorem Always.fromGraph (name : String) {t : Traverser} (ht : R.Typed .graph t) {x : Expansion}
    (hx : R.Expands σ Q x) : R.Always (Expansion.fromGraph name t x : Run σ _) (R.Expands σ Q) := by
  obtain rfl := ht.eq_graph
  exact .pure hx

/-- A step that may create an edge may be refused. -/
def MayRefuse (R : Regime) (step : Step) : Prop :=
  ∀ l source target, step = .addEdge l source target → ∀ cause, R.fault (.refused cause)

/-- What a factory step makes of an item. -/
theorem Always.ofStep {step : Step} (hvalid : step.Valid) (hrefused : R.MayRefuse step)
    (hshape : step.shape = .factory) {a b : ResultType} (houtput : step.output? a = some b)
    {t : Traverser} (ht : R.Typed a t) :
    R.Always (Expansion.ofStep step t : Run σ _) (R.Expands σ (R.Typed b)) := by
  have hchecked := hvalid.checked
  have hcreated := hvalid.created
  cases step with
  | root =>
    cases a <;> cases houtput
    obtain rfl := ht.eq_graph
    exact .pure (Begun.expands (x := .items _) fun i hi => List.mem_singleton.1 hi ▸ ht)
  | vertices ids =>
    cases a <;> cases houtput
    exact .fromGraph _ ht (.selecting .vertex hchecked)
  | edges ids =>
    cases a <;> cases houtput
    exact .fromGraph _ ht (.selecting .edge hchecked)
  | addVertex l =>
    cases a <;> cases houtput
    exact .fromGraph _ ht (.addVertex (hcreated l (by simp [Step.created])))
  | addEdge l source target =>
    cases a <;> cases houtput
    refine .fromGraph _ ht (.addEdge (hrefused _ _ _ rfl) ?_ ?_ ?_) <;>
      exact hcreated _ (by simp [Step.created])
  | verticesWithLabel l =>
    cases a <;> cases houtput
    exact .fromGraph _ ht (.selectLabel (name_of_isToken hchecked))
  | adjacent direction adjacency labels =>
    cases a <;> cases houtput
    obtain ⟨id, rfl, hid⟩ := ht.exists_vertex
    exact .pure (.adjacent hid direction adjacency fun l hl => name_of_isToken (hchecked l hl))
  | bothEdges labels =>
    cases a <;> cases houtput
    obtain ⟨id, rfl, hid⟩ := ht.exists_vertex
    exact .pure (.bothEdges hid fun l hl => name_of_isToken (hchecked l hl))
  | edgeVertex ends =>
    cases a <;> cases houtput
    obtain ⟨id, rfl, hid⟩ := ht.exists_edge
    exact .pure (.edgeVertex hid ends)
  | dropGraph | has | property | drop | id | label | properties | valueMap | limit | count =>
    cases hshape

theorem Ensures.holds (kind : ElementKind) (id key : String) (value : Json) :
    R.Ensures (Filter.holds kind id key value : Attempt σ _) fun _ => True := by
  rw [Filter.holds]
  split
  · exact .map (.getLabel _ _) fun _ _ => trivial
  · split
    · exact .pure trivial
    · exact .map (.getProperty _ _ _) fun _ _ => trivial

section Filters

variable {type : ResultType}

theorem passes_having (htype : type.isElement = true) (key : String) (value : Json) :
    R.Passes σ (R.Typed type) (R.Typed type) (.filter (.having key value)) := by
  intro t ht
  obtain ⟨kind, id, helement, -⟩ := ht.exists_element htype
  refine Ensures.ofElement helement _ (.map (.holds kind id key value) fun found _ u hu => ?_)
  split at hu
  · exact Option.some.inj hu ▸ ht
  · cases hu

theorem passes_setting (htype : type.isElement = true) {key : String} (hkey : IsPropertyKey key)
    (value : Json) : R.Passes σ (R.Typed type) (R.Typed type) (.filter (.setting key value)) := by
  intro t ht
  obtain ⟨kind, id, helement, hid⟩ := ht.exists_element htype
  exact Ensures.ofElement helement _ (.bind (.setProperty hid (.inl hkey) value) fun _ _ =>
    .pure fun u hu => Option.some.inj hu ▸ ht)

theorem passes_ids (htype : type.isElement = true) :
    R.Passes σ (R.Typed type) (R.Typed .value) (.filter .ids) := by
  intro t ht
  obtain ⟨kind, id, helement, -⟩ := ht.exists_element htype
  exact Ensures.ofElement helement _ (.pure fun u hu => Option.some.inj hu ▸ typed_value _)

theorem passes_labels (htype : type.isElement = true) :
    R.Passes σ (R.Typed type) (R.Typed .value) (.filter .labels) := by
  intro t ht
  obtain ⟨kind, id, helement, -⟩ := ht.exists_element htype
  refine Ensures.ofElement helement _ (.bind (.getLabel kind id) fun label? _ => ?_)
  cases label? with
  | some l => exact .pure fun u hu => Option.some.inj hu ▸ typed_value _
  | none => exact .bind (.lift (.note _)) fun _ _ => .pure (by simp)

theorem passes_valueMaps (htype : type.isElement = true) (keys : List String) :
    R.Passes σ (R.Typed type) (R.Typed .value) (.filter (.valueMaps keys)) := by
  intro t ht
  obtain ⟨kind, id, helement, hid⟩ := ht.exists_element htype
  exact Ensures.ofElement helement _ (.map (.readProperties hid keys) fun fields _ u hu =>
    Option.some.inj hu ▸ typed_value _)

end Filters

/-- A step passes on items of the types the type checker gives it. -/
theorem passes_step {step : Step} (hvalid : step.Valid) (hrefused : R.MayRefuse step)
    {a b : ResultType} (houtput : step.output? a = some b) :
    R.Passes σ (R.Typed a) (R.Typed b) step.stage := by
  have hchecked := hvalid.checked
  cases step with
  | root | vertices | edges | addVertex | addEdge | verticesWithLabel | adjacent | bothEdges
  | edgeVertex =>
    exact ⟨fun t ht => .ofStep hvalid hrefused rfl houtput ht, by simp⟩
  | dropGraph =>
    cases a <;> cases houtput
    exact fun t ht => ht.eq_graph
  | has key value =>
    obtain ⟨htype, houtput⟩ := Option.ite_none_right_eq_some.1 houtput
    cases houtput
    exact passes_having htype key value
  | property key value =>
    obtain ⟨htype, houtput⟩ := Option.ite_none_right_eq_some.1 houtput
    cases houtput
    exact passes_setting htype hchecked value
  | drop =>
    obtain ⟨htype, -⟩ := Option.ite_none_right_eq_some.1 houtput
    intro t ht
    obtain ⟨kind, id, helement, -⟩ := ht.exists_element htype
    exact ⟨kind, id, helement⟩
  | id =>
    obtain ⟨htype, houtput⟩ := Option.ite_none_right_eq_some.1 houtput
    cases houtput
    exact passes_ids htype
  | label =>
    obtain ⟨htype, houtput⟩ := Option.ite_none_right_eq_some.1 houtput
    cases houtput
    exact passes_labels htype
  | properties keys =>
    obtain ⟨htype, houtput⟩ := Option.ite_none_right_eq_some.1 houtput
    cases houtput
    refine ⟨fun t ht => ?_, by simp⟩
    obtain ⟨kind, id, helement, hid⟩ := ht.exists_element htype
    exact .pure (.properties helement hid keys)
  | valueMap keys =>
    obtain ⟨htype, houtput⟩ := Option.ite_none_right_eq_some.1 houtput
    cases houtput
    exact passes_valueMaps htype keys
  | limit n =>
    cases houtput
    exact fun _ h => h
  | count =>
    cases houtput
    exact fun _ => typed_value _

/-! ## Plans -/

/-- The stages of linked steps pass on the type of the last. -/
theorem Yields.ofSteps {steps : List PlannedStep} {s : Stream} {before : PlannedStep}
    (hs : R.Yields σ (R.Typed before.output) s) (htyped : ∀ p ∈ steps, p.Typed)
    (hlinked : PlannedStep.Linked (before :: steps)) (hrefused : ∀ p ∈ steps, R.MayRefuse p.step) :
    R.Yields σ (R.Typed ((before :: steps).getLast (by simp)).output)
      (s.ofSteps (steps.map (·.step))) := by
  induction steps generalizing s before with
  | nil => exact hs
  | cons p steps ih =>
    obtain ⟨hlink, hlinked⟩ := List.isChain_cons_cons.1 hlinked
    have hp := htyped p (by simp)
    have hpasses := passes_step (σ := σ) hp.valid (hrefused p (by simp)) hp.output
    rw [hlink] at hpasses
    have hrest := ih (.through hpasses hs) (fun q hq => htyped q (by simp [hq])) hlinked
      fun q hq => hrefused q (by simp [hq])
    rwa [List.getLast_cons (by simp)]

end Work

end PropertyGraph.Regime
