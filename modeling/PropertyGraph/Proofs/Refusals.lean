/-
Refusals come before writes. While names in records are tokens, which record operations see to
(`Regime.Always.recordOp`), the only refusal a planned chain can still meet is that of an edge
one of whose ends is missing; and the edge is the first thing such a chain looks at
(`Opening.advance`). So a chain that is refused, in planning or at run time, has written nothing
(`Chain.refusal_history`), whichever calls on the store failed meanwhile.
-/
import PropertyGraph.Proofs.StreamRegime

namespace PropertyGraph

open PropertyGraph.Graph

/-- The names are the tokens, and no refusal may come. -/
def Regime.tokens : Regime where
  name s := Key.isToken s = true
  fault err := err.kind ≠ .precondition
  backend err h := by rw [h]; decide
  names := .inr fun _ => Iff.rfl

namespace Regime

variable {σ : Type} {R : Regime} [Backend σ] [FallibleBackend σ]

/-! ## Histories -/

theorem Always.outcome {α : Type} {operation : Attempt σ α} {p : α → Prop}
    (h : R.lenient.Ensures operation p) :
    R.Always (do let _ ← Engine.outcome operation : Run σ Unit) fun _ => True :=
  .of_lenient (.bind h fun _ _ => .pure trivial)

end Regime

/-! ## No writes -/

section Unwritten

variable {σ : Type} [Backend σ] [FallibleBackend σ]

/-- No call that writes was made, and the store holds what it held. -/
structure Counted.Unwritten (c c' : Counted σ) : Prop where
  puts : c'.counters.puts = c.counters.puts
  updates : c'.counters.updates = c.counters.updates
  creates : c'.counters.creates = c.counters.creates
  deletes : c'.counters.deletes = c.counters.deletes
  held : FallibleBackend.held c' = FallibleBackend.held c

theorem Counted.Unwritten.refl (c : Counted σ) : c.Unwritten c := ⟨rfl, rfl, rfl, rfl, rfl⟩

theorem Counted.Unwritten.trans {c c' c'' : Counted σ} (h : c.Unwritten c') (h' : c'.Unwritten c'') :
    c.Unwritten c'' :=
  ⟨h'.puts.trans h.puts, h'.updates.trans h.updates, h'.creates.trans h.creates,
    h'.deletes.trans h.deletes, h'.held.trans h.held⟩

/-- Looking up a key writes nothing. -/
theorem Engine.get_unwritten (key : String) (e : Engine (Counted σ)) :
    e.store.Unwritten ((Engine.call (Backend.get key)).run.run e).2.store := by
  refine ⟨rfl, rfl, rfl, rfl, ?_⟩
  rcases FallibleBackend.get_cases key e.store with h | h
  · exact h.2
  · exact h.2

/-- Looking for an end of an edge writes nothing, and changes nothing but the store. -/
theorem requireVertex_unwritten (id : String) (e : Engine (Counted σ)) :
    e.store.Unwritten ((requireVertex id).run.run e).2.store := by
  have hget := Engine.get_unwritten (Key.element .vertex id) e
  rw [requireVertex, elementExists, bind_assoc, Attempt.bind_run]
  generalize (Engine.call (Backend.get (Key.element .vertex id))).run.run e = r at hget ⊢
  obtain ⟨outcome, e'⟩ := r
  cases outcome with
  | error err => exact hget
  | ok found => cases found <;> exact hget

variable {R : Regime} {e : Engine (Counted σ)}

/-- What follows the look for an end is not reached, or starts where nothing was written yet. -/
theorem requireVertex_bind {α : Type} (id : String) (f : Unit → Attempt (Counted σ) α) (he : R.Holds e) :
    (∃ err, ((requireVertex id >>= f).run.run e).1 = .error err ∧
      e.store.Unwritten ((requireVertex id >>= f).run.run e).2.store) ∨
    ∃ e', e.store.Unwritten e'.store ∧ R.Holds e' ∧
      (requireVertex id >>= f).run.run e = (f ()).run.run e' := by
  have hunwritten := requireVertex_unwritten id e
  have hholds := (Regime.Ensures.requireVertex (R := R.lenient) (fun _ => trivial) id e
    (Regime.holds_lenient.2 he)).2
  rw [Attempt.bind_run]
  generalize (requireVertex id).run.run e = r at hunwritten hholds
  obtain ⟨outcome, e'⟩ := r
  cases outcome with
  | error err => exact .inl ⟨err, rfl, hunwritten⟩
  | ok found => exact .inr ⟨e', hunwritten, Regime.holds_lenient.1 hholds, rfl⟩

/-- Creating an edge fails before anything is written, or is not refused. -/
theorem createEdge_unwritten {label source target : String} (hlabel : Key.isToken label = true)
    (hsource : Key.isToken source = true) (htarget : Key.isToken target = true) (he : R.Holds e) :
    (∃ err, ((createEdge label source target).run.run e).1 = .error err ∧
      e.store.Unwritten ((createEdge label source target).run.run e).2.store) ∨
    R.Outcome R.name ((createEdge label source target).run.run e).1 ∧
      R.Holds ((createEdge label source target).run.run e).2 := by
  rw [createEdge_valid hlabel hsource htarget]
  rcases requireVertex_bind source _ he with hmissing | ⟨e', hunwritten, he', hrun⟩
  · exact .inl hmissing
  · rw [hrun]
    rcases requireVertex_bind target _ he' with ⟨err, herr, hunwritten'⟩ | ⟨e'', -, he'', hrun'⟩
    · exact .inl ⟨err, herr, hunwritten.trans hunwritten'⟩
    · rw [hrun']
      exact .inr (Regime.Ensures.edgeRecords (Regime.name_of_isToken hlabel)
        (Regime.name_of_isToken hsource) (Regime.name_of_isToken htarget) e'' he'')

end Unwritten

/-! ## Chains that create an edge -/

section Opening

variable {σ : Type} [Backend σ] [FallibleBackend σ] {R : Regime} {label source target : String}

variable (σ) in
/-- A stream that is to create an edge and has not begun to: the graph is on its way to the step
that creates the edge, and the stages behind it wait. -/
inductive Opening (R : Regime) (label source target : String) :
    (Traverser → Prop) → Stream → Prop
  | start : Opening R label source target (R.Typed .edge)
      (.through (.expand (.step (.addEdge label source target)) none)
        (.through (.expand (.step .root) none) (.given [.ok .graph])))
  | rooted : Opening R label source target (R.Typed .edge)
      (.through (.expand (.step (.addEdge label source target)) none)
        (.through (.expand (.step .root) (some (.items [.ok .graph]))) .empty))
  | task : Opening R label source target (R.Typed .edge)
      (.through (.expand (.step (.addEdge label source target))
          (some (.task (.addEdge label source target))))
        (.through (.expand (.step .root) (some (.items []))) .empty))
  | behind {P Q : Traverser → Prop} {stage : Stage} {s : Stream} (h : R.Passes σ P Q stage)
      (hidle : (stage.work? : Option (Run σ _)) = none ∨ stage = .limit 0)
      (hs : Opening R label source target P s) :
      Opening R label source target Q (.through stage s)

/-- What one piece of work on a stream that is to create an edge comes to. -/
inductive Opening.Comes (R : Regime) (label source target : String) (Q : Traverser → Prop)
    (e : Engine (Counted σ)) : Event × Stream → Engine (Counted σ) → Prop
  /-- Nothing was done yet. -/
  | waits {s : Stream} (h : Opening (Counted σ) R label source target Q s) :
      Comes R label source target Q e (.skip, s) e
  /-- It fails before anything was written. -/
  | fails {s : Stream} {err : Error} {e' : Engine (Counted σ)}
      (h : e.store.Unwritten e'.store) : Comes R label source target Q e (.item (.error err), s) e'
  /-- From here on nothing is refused. -/
  | begins {event : Event} {s : Stream} {e' : Engine (Counted σ)} (hevent : R.Event Q event)
      (hs : R.Yields (Counted σ) Q s) (he : R.Holds e') : Comes R label source target Q e (event, s) e'

omit [FallibleBackend σ] in
/-- A stage passes errors on. -/
theorem Stage.react_error (stage : Stage) (err : Error) (e : Engine σ) :
    ∃ left, (stage.react (.item (.error err))).run e = ((.item (.error err), left), e) := by
  cases stage <;> exact ⟨_, rfl⟩

variable {Q : Traverser → Prop} {e : Engine (Counted σ)}

/-- The step that is done with the graph yields no more than it has in hand. -/
theorem yields_created {x : Expansion} (hx : R.Begun (R.Typed .edge) x) :
    R.Yields σ (R.Typed .edge) (.through (.expand (.step (.addEdge label source target)) (some x))
      (.through (.expand (.step .root) (some (.items []))) .empty)) := by
  have hspent : R.Yields σ (fun _ => False) (.through (.expand (.step .root) (some (.items []))) .empty) :=
    .through (P := fun _ => False) ⟨fun _ h => h.elim, fun y hy => by cases hy; simp [Regime.Expands, Regime.Begun]⟩
      Regime.yields_empty
  exact .through ⟨fun _ h => h.elim, fun y hy => by cases hy; exact hx.expands⟩ hspent

/-- The piece of work in which the edge is created, or not. -/
theorem Opening.advance_task (hlabel : Key.isToken label = true) (hsource : Key.isToken source = true)
    (htarget : Key.isToken target = true) (he : R.Holds e) {r : (Event × Stream) × Engine (Counted σ)}
    (hr : (Stream.through (.expand (.step (.addEdge label source target))
      (some (.task (.addEdge label source target))))
        (.through (.expand (.step .root) (some (.items []))) .empty)).advance.run e = r) :
    Opening.Comes R label source target (R.Typed .edge) e r.1 r.2 := by
  have hcreate := createEdge_unwritten hlabel hsource htarget he
  rw [Stream.advance_work rfl] at hr
  simp only [Run.bind_run, Expansion.advance, Engine.outcome, Task.begin, Attempt.bind_run] at hr
  generalize (createEdge label source target).run.run e = c at hcreate hr
  obtain ⟨outcome, e'⟩ := c
  cases outcome with
  | ok id =>
    subst hr
    obtain ⟨_, herr, -⟩ | ⟨hid, he'⟩ := hcreate
    · cases herr
    · exact .begins trivial
        (yields_created fun i hi => List.mem_singleton.1 hi ▸ Regime.typed_edge hid) he'
  | error err =>
    subst hr
    obtain ⟨_, -, hunwritten⟩ | ⟨hfault, he'⟩ := hcreate
    · exact .fails hunwritten
    · exact .begins hfault (yields_created Regime.begun_none) he'

/-- One piece of work on a stream that is to create an edge. -/
theorem Opening.advance {s : Stream} (h : Opening (Counted σ) R label source target Q s)
    (hlabel : Key.isToken label = true) (hsource : Key.isToken source = true)
    (htarget : Key.isToken target = true) (he : R.Holds e) :
    Opening.Comes R label source target Q e (s.advance.run e).1 (s.advance.run e).2 := by
  induction h with
  | start => exact .waits .rooted
  | rooted => exact .waits .task
  | task => exact Opening.advance_task hlabel hsource htarget he rfl
  | @behind P Q stage s h hidle hs ih =>
    rcases hidle with hidle | rfl
    · generalize hr : s.advance.run e = r at ih
      obtain ⟨⟨event, s'⟩, e'⟩ := r
      rw [Stream.advance_react hidle hr]
      cases ih with
      | waits hs' =>
        rw [Stage.react_skip]
        exact .waits (.behind h (.inl hidle) hs')
      | @fails _ err _ hunwritten =>
        obtain ⟨left, hleft⟩ := stage.react_error err e'
        rw [hleft]
        exact .fails hunwritten
      | begins hevent hs' he' =>
        obtain ⟨⟨hbrought, hleft⟩, he''⟩ := h.react hevent e' he'
        exact .begins hbrought (hleft.over hs') he''
    · exact .begins trivial Regime.yields_empty he

/-- A fold that errors stop, over a stream that is to create an edge, ends in an error only before
anything was written, or in one that may come. -/
theorem Opening.fold? {β : Type} {f : β → Item → Except Error β} (hf : Regime.StopsAtErrors f)
    (hlabel : Key.isToken label = true) (hsource : Key.isToken source = true)
    (htarget : Key.isToken target = true) {s : Stream}
    (h : Opening (Counted σ) R label source target Q s) (he : R.Holds e) (budget : Nat) (b : β)
    {err : Error} {finish : Engine (Counted σ)}
    (hrun : (s.fold? f budget b).run.run e = (.error err, finish)) :
    e.store.Unwritten finish.store ∨ R.fault err := by
  induction budget generalizing s b with
  | zero => cases hrun
  | succ budget ih =>
    have hcomes := h.advance hlabel hsource htarget he
    generalize hadvance : s.advance.run e = r at hcomes
    obtain ⟨⟨event, s'⟩, e'⟩ := r
    cases hcomes with
    | waits hs' =>
      rw [Stream.fold?_skip hadvance] at hrun
      exact ih hs' b hrun
    | fails hunwritten =>
      rw [Stream.fold?_item hadvance, hf.error] at hrun
      cases hrun
      exact .inl hunwritten
    | begins hevent hs' he' =>
      -- what follows is a run of a stream that meets no refusal
      have hrest : ∀ b, (s'.fold? f budget b).run.run e' = (.error err, finish) → R.fault err := by
        intro b hrest
        have houtcome := (hs'.fold? hf budget b e' he').1
        rwa [hrest] at houtcome
      cases event with
      | item i =>
        rw [Stream.fold?_item hadvance] at hrun
        cases i with
        | ok t =>
          obtain ⟨b', hb'⟩ := hf.ok b t
          rw [hb'] at hrun
          exact .inr (hrest b' hrun)
        | error err' =>
          rw [hf.error] at hrun
          cases hrun
          exact .inr hevent
      | skip =>
        rw [Stream.fold?_skip hadvance] at hrun
        exact .inr (hrest b hrun)
      | done =>
        rw [Stream.fold?_done hadvance] at hrun
        cases hrun

end Opening

/-! ## Chains -/

theorem Regime.mayRefuse_of_walks {R : Regime} {step : Step} (h : step.Walks) : R.MayRefuse step := by
  rintro l source target rfl
  cases h

section Chains

variable {σ : Type} [Backend σ] [FallibleBackend σ]

omit [FallibleBackend σ] in
/-- The stage of a step has no work of its own, but to end. -/
theorem Step.stage_idle (step : Step) :
    (step.stage.work? : Option (Run σ _)) = none ∨ step.stage = .limit 0 := by
  cases step with
  | limit n =>
    cases n with
    | zero => exact .inr rfl
    | succ n => exact .inl rfl
  | _ => exact .inl rfl

/-- The stages behind the step that creates an edge wait for it. -/
theorem Opening.ofSteps {R : Regime} {label source target : String} {steps : List PlannedStep}
    {s : Stream} {before : PlannedStep}
    (hs : Opening σ R label source target (R.Typed before.output) s) (htyped : ∀ p ∈ steps, p.Typed)
    (hlinked : PlannedStep.Linked (before :: steps)) (hwalks : ∀ p ∈ steps, p.step.Walks) :
    ∃ Q, Opening σ R label source target Q (s.ofSteps (steps.map (·.step))) := by
  induction steps generalizing s before with
  | nil => exact ⟨_, hs⟩
  | cons p steps ih =>
    obtain ⟨hlink, hlinked⟩ := List.isChain_cons_cons.1 hlinked
    have hp := htyped p (by simp)
    have hwalk := hwalks p (by simp)
    have hpasses := Regime.passes_step (σ := σ) (R := R) hp.valid (Regime.mayRefuse_of_walks hwalk) hp.output
    rw [hlink] at hpasses
    exact ih (.behind hpasses (Step.stage_idle p.step) hs) (fun q hq => htyped q (by simp [hq])) hlinked
      fun q hq => hwalks q (by simp [hq])

end Chains

/-! ## Ids -/

/-- The store of an engine under rules that fail calls, with counters. -/
def Engine.guarded (e : Engine Memory) (rules : List FaultRule) : Engine (Counted (Faulty Memory)) :=
  { store := ⟨⟨e.store, rules⟩, {}⟩, issued := e.issued, log := [] }

end PropertyGraph
