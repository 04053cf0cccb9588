/-
Queries that share a store. A host opens queries and pulls on them in any order; between two
pulls on a stream the others may create and drop what it has found. Whatever the host does, the
store keeps a graph, and all that may stand beside it are properties of elements that went while
a stream had them in hand (`Engine.interleaving_history`). One piece of work keeps the streams
`Safe`, and so does a run of any acts (`Family.Safe.run`).
-/
import PropertyGraph.Proofs.InHand
import PropertyGraph.Proofs.LabelScan

namespace PropertyGraph

open PropertyGraph.Graph

/-! ## Opening a chain -/

/-- A step that walks has arguments that were checked. -/
theorem Step.Walks.checked {step : Step} (h : step.Walks) : step.Checked := by
  cases step <;> first | exact h | exact h.elim

theorem Arguments.selectedId_eq_ok {op : Operation} {arg : Json} {id : String}
    (h : selectedId op arg = .ok id) : Key.isToken id = true := by
  cases arg with
  | str s =>
    obtain ⟨_, -, h⟩ := bind_eq_ok.1 h
    obtain ⟨_, hs, h⟩ := bind_eq_ok.1 h
    cases h
    exact Validation.require_eq_ok.1 hs
  | _ => cases h

theorem Arguments.selection_eq_ok {op : Operation} {args : List Json} {ids : Selection}
    (h : selection op args = .ok ids) : ids.Checked := by
  have hmany : ∀ items : List Json, (do return Selection.many (← items.mapM (selectedId op))) = Except.ok ids →
      ids.Checked := by
    intro items hitems
    obtain ⟨found, hfound, h⟩ := bind_eq_ok.1 hitems
    cases h
    exact mapM_eq_ok (fun _ _ => selectedId_eq_ok) hfound
  rw [selection.eq_def] at h
  split at h
  · cases h
    trivial
  · cases h
    trivial
  · obtain ⟨id, hid, h⟩ := bind_eq_ok.1 h
    cases h
    exact selectedId_eq_ok hid
  · exact hmany _ h
  · exact hmany _ h

/-- Whatever a call resolves to, its arguments were checked. -/
theorem Step.checked_of_ofCall {op : Operation} {state : ResultType} {args : List Json} {step : Step}
    (h : Step.ofCall op state args = .ok step) : step.Checked := by
  have hvertex : ∀ rule, ResultType.vertex.rule? op = some rule →
      Step.ofCall op .vertex args = .ok step → step.Checked :=
    fun _ hrule h => (Step.walks_of_ofCall hrule (by simp) h).checked
  have hedge : ∀ rule, ResultType.edge.rule? op = some rule →
      Step.ofCall op .edge args = .ok step → step.Checked :=
    fun _ hrule h => (Step.walks_of_ofCall hrule (by simp) h).checked
  cases op with
  | vertices | edges =>
    obtain ⟨ids, hids, h⟩ := bind_eq_ok.1 h
    cases h
    exact Arguments.selection_eq_ok hids
  | addVertex =>
    obtain ⟨_, -, h⟩ := bind_eq_ok.1 h
    obtain ⟨_, -, h⟩ := bind_eq_ok.1 h
    cases h
    trivial
  | addEdge =>
    obtain ⟨_, -, h⟩ := bind_eq_ok.1 h
    obtain ⟨_, -, h⟩ := bind_eq_ok.1 h
    obtain ⟨_, -, h⟩ := bind_eq_ok.1 h
    obtain ⟨_, -, h⟩ := bind_eq_ok.1 h
    cases h
    trivial
  | drop =>
    obtain ⟨_, -, h⟩ := bind_eq_ok.1 h
    cases h
    split <;> trivial
  | outVertex | inVertex | bothVertices | otherVertex => exact hedge _ rfl h
  | _ => exact hvertex _ rfl h

theorem Arguments.arg_of_propertyKey {op : Operation} {arg : Option Json} {key : String}
    (h : propertyKey op arg = .ok key) : arg = some (.str key) := by
  rcases arg with _ | (_ | _ | _ | k | _ | _)
  case some.str =>
    obtain ⟨_, -, h⟩ := bind_eq_ok.1 h
    cases h
    rfl
  all_goals cases h

/-- A call that sets a property names its key and its value. -/
theorem Step.call_of_property {call : Call} {state : ResultType} {key : String} {value : Json}
    (h : Step.ofCall call.operation state call.arguments = .ok (.property key value)) :
    call = ⟨.property, [.str key, value]⟩ := by
  obtain ⟨op, args⟩ := call
  cases op with
  | property =>
    obtain ⟨_, hlength, h⟩ := bind_eq_ok.1 h
    obtain ⟨k, hkey, h⟩ := bind_eq_ok.1 h
    obtain ⟨v, hvalue, h⟩ := bind_eq_ok.1 h
    cases h
    have hfirst := Arguments.arg_of_propertyKey hkey
    rcases args with _ | ⟨a, _ | ⟨b, _ | ⟨c, rest⟩⟩⟩
    · cases hfirst
    · cases hvalue
    · cases hfirst
      cases hvalue
      rfl
    · have hle := Validation.require_eq_ok.1 hlength
      simp at hle
  | drop =>
    obtain ⟨_, -, h⟩ := bind_eq_ok.1 h
    split at h <;> cases h
  | _ => simp [Step.ofCall, bind_eq_ok, pure, Except.pure] at h

section Opening

variable {steps : List Step} {source : Stream}

theorem Step.inHand_stage (step : Step) : step.stage.inHand = [] := by cases step <;> rfl

theorem Step.Checked.stage {step : Step} (h : step.Checked) : step.stage.Checked := by
  cases step <;> first | exact h | trivial | exact ⟨h, by simp⟩

theorem Stream.ofSteps_concat (source : Stream) (steps : List Step) (step : Step) :
    source.ofSteps (steps ++ [step]) = .through step.stage (source.ofSteps steps) :=
  List.foldl_append

theorem Stream.checked_ofSteps (hsource : source.Checked) (hsteps : ∀ step ∈ steps, step.Checked) :
    (source.ofSteps steps).Checked := by
  induction steps using List.reverseRecOn with
  | nil => exact hsource
  | append_singleton steps step ih =>
    rw [Stream.ofSteps_concat]
    exact ⟨(hsteps step (by simp)).stage, ih fun s hs => hsteps s (by simp [hs])⟩

theorem Stream.inHand_ofSteps (source : Stream) (steps : List Step) :
    (source.ofSteps steps).inHand = source.inHand := by
  induction steps using List.reverseRecOn with
  | nil => rfl
  | append_singleton steps step ih =>
    rw [Stream.ofSteps_concat, Stream.inHand, Step.inHand_stage, ih, List.nil_append]

/-- What a stream of steps sets are the properties its steps name. -/
theorem Stream.settings_ofSteps {key : String} {value : Json}
    (h : (key, value) ∈ (source.ofSteps steps).settings) :
    (key, value) ∈ source.settings ∨ .property key value ∈ steps := by
  induction steps using List.reverseRecOn with
  | nil => exact .inl h
  | append_singleton steps step ih =>
    rw [Stream.ofSteps_concat, Stream.settings, List.mem_append] at h
    rcases h with h | h
    · right
      cases step <;> simp_all [Step.stage, Stage.settings]
    · exact (ih h).imp_right (by simp +contextual)

/-- The plan of a chain, with the default optimizer or with none, has checked steps, and sets the
properties that the chain names. -/
theorem Chain.exists_plan (c : Config) {chain : Chain} {resolved : List PlannedStep}
    (h : chain.resolve = .ok resolved) :
    ∃ steps, c.optimizer.plan chain = .ok (⟨.root :: steps⟩, []) ∧ ∀ s ∈ steps, s.step.Checked ∧
      ∀ key value, s.step = .property key value → ⟨.property, [.str key, value]⟩ ∈ chain := by
  obtain ⟨first, rest, rfl, hwalks⟩ := walks_of_resolve h
  have hcalls : ∀ s ∈ first :: rest, s.step.Checked ∧
      ∀ key value, s.step = .property key value → ⟨.property, [.str key, value]⟩ ∈ chain := by
    intro s hs
    obtain ⟨_, -, h⟩ := bind_eq_ok.1 h
    obtain ⟨found, hfound, h⟩ := bind_eq_ok.1 h
    cases h
    obtain ⟨call, hcall, hstep⟩ := exists_call hfound hs
    refine ⟨Step.checked_of_ofCall hstep, fun key value hset => ?_⟩
    rw [hset] at hstep
    exact Step.call_of_property hstep ▸ hcall
  rw [Config.optimizer]
  split
  · have hplan := Optimizer.default.plan_of_resolve h
    rcases @Optimizer.improve_default first rest hwalks with
      hsame | ⟨second, others, l, rfl, -, -, hl, himprove⟩
    · rw [hsame] at hplan
      exact ⟨_, hplan, hcalls⟩
    · rw [himprove] at hplan
      refine ⟨_, hplan, fun s hs => ?_⟩
      rcases List.mem_cons.1 hs with rfl | hs
      · exact ⟨hl, fun _ _ h => by cases h⟩
      · exact hcalls s (by simp [hs])
  · exact ⟨_, Optimizer.none.plan_of_resolve h, hcalls⟩

/-- Opening a chain is refused, or gives a stream with nothing in hand. Either way it changes
nothing. -/
theorem Chain.openStream_opens {σ : Type} [Backend σ] (c : Config) (chain : Chain) (e : Engine σ) :
    (∃ err, (chain.openStream c.optimizer).run.run e = (.error err, e)) ∨
      ∃ s, (chain.openStream c.optimizer).run.run e = (.ok s, e) ∧ s.Checked ∧ s.inHand = [] ∧
        ∀ key value, (key, value) ∈ s.settings → ⟨.property, [.str key, value]⟩ ∈ chain := by
  cases hresolve : chain.resolve with
  | error err =>
    refine .inl ⟨err, ?_⟩
    rw [openStream, plan, Optimizer.plan, hresolve]
    rfl
  | ok resolved =>
    obtain ⟨steps, hplan, hsteps⟩ := exists_plan c hresolve
    refine .inr ⟨_, openStream_run hplan e, ?_, Stream.inHand_ofSteps _ _, fun key value hset => ?_⟩
    · refine Stream.checked_ofSteps trivial fun step hstep => ?_
      rcases List.mem_cons.1 hstep with rfl | hstep
      · trivial
      · obtain ⟨s, hs, rfl⟩ := List.mem_map.1 hstep
        exact (hsteps s hs).1
    · rcases Stream.settings_ofSteps hset with hset | hset
      · cases hset
      · rcases List.mem_cons.1 hset with hset | hset
        · cases hset
        · obtain ⟨s, hs, hset⟩ := List.mem_map.1 hset
          exact (hsteps s hs).2 key value hset

end Opening

/-! ## Hosts -/

/-- Streams over one store. -/
structure Family (σ : Type) where
  engine : Engine σ
  streams : List Stream

/-- What a host does: it opens a chain, with the optimizer or without, or pulls on the stream at a
place. -/
inductive QueryAct where
  | start (c : Config) (chain : Chain)
  | pull (i budget : Nat)

/-- The most pieces of work an act may do. -/
def QueryAct.budget : QueryAct → Nat
  | .start _ _ => 0
  | .pull _ budget => budget

/-- The stream a pull leaves. -/
def Pulled.rest : Pulled → Stream
  | .item _ rest | .unfinished rest => rest
  | .ended => .empty

/-- The stream and the engine that a pull leaves. -/
def Stream.pulled {σ : Type} [Backend σ] (s : Stream) (budget : Nat) (e : Engine σ) :
    Stream × Engine σ :=
  (((s.pull budget).run e).1.rest, ((s.pull budget).run e).2)

namespace Family

variable {σ : Type} [Backend σ]

/-- One act of a host. A chain that cannot be planned opens no stream. -/
def act (f : Family σ) : QueryAct → Family σ
  | .start c chain =>
    let opened := (chain.openStream c.optimizer).run.run f.engine
    ⟨opened.2, f.streams ++ opened.1.toOption.toList⟩
  | .pull i budget =>
    match f.streams[i]? with
    | some s => ⟨(s.pulled budget f.engine).2, f.streams.set i (s.pulled budget f.engine).1⟩
    | none => f

/-- The acts of a host, one after the other. -/
def run (f : Family σ) (acts : List QueryAct) : Family σ := acts.foldl act f

/-- One piece of work on the stream at a place. -/
def work (f : Family σ) (i : Nat) (s : Stream) : Family σ :=
  let worked := s.advance.run f.engine
  ⟨worked.2, f.streams.set i worked.1.2⟩

theorem run_concat (f : Family σ) (acts : List QueryAct) (a : QueryAct) :
    f.run (acts ++ [a]) = (f.run acts).act a := by
  rw [run, List.foldl_append]
  rfl

theorem act_pull_zero (f : Family σ) (i : Nat) : f.act (.pull i 0) = f := by
  rw [act]
  cases hs : f.streams[i]? with
  | none => rfl
  | some s =>
    obtain ⟨hi, rfl⟩ := List.getElem?_eq_some_iff.1 hs
    show (⟨f.engine, f.streams.set i f.streams[i]⟩ : Family σ) = f
    rw [List.set_getElem_self]

end Family

section Pulls

variable {σ : Type} [Backend σ] {s s' : Stream} {e e' : Engine σ}

/-- A stage that comes to its end leaves nothing. -/
theorem Stage.eq_empty_of_done {stage : Stage} {event : Event}
    (h : ((stage.react event).run e).1.1 = .done) :
    ((stage.react event).run e).1.2 = .stream .empty := by
  cases event with
  | skip => cases stage <;> cases h
  | done =>
    cases stage with
    | sink => cases h
    | expand | filter | limit => rfl
  | item item =>
    cases item with
    | error err => cases stage <;> cases h
    | ok t =>
      cases stage with
      | expand | limit => cases h
      | filter f =>
        simp only [Stage.react, Run.bind_run] at h ⊢
        generalize (Engine.outcome (f.apply t)).run e = r at h
        obtain ⟨outcome, e'⟩ := r
        rcases outcome with err | (_ | t') <;> cases h
      | sink s =>
        simp only [Stage.react, Run.bind_run] at h ⊢
        generalize (Engine.outcome (s.absorb t)).run e = r at h
        obtain ⟨outcome, e'⟩ := r
        cases outcome <;> cases h

/-- Nothing is left of a stream that came to its end. -/
theorem Stream.eq_empty_of_done (h : (s.advance.run e).1.1 = .done) :
    (s.advance.run e).1.2 = .empty := by
  cases s with
  | given items =>
    cases items with
    | nil => rfl
    | cons i items => cases h
  | through stage source =>
    cases hwork : (stage.work? : Option (Run σ (Event × Leaves))) with
    | some work =>
      rw [advance_work hwork] at h ⊢
      cases stage with
      | expand expander current =>
        cases current with
        | none => cases hwork
        | some x =>
          cases hwork
          simp only [Run.bind_run] at h
          generalize x.advance.run e = r at h
          obtain ⟨⟨event, x'⟩, e'⟩ := r
          cases event <;> cases h
      | limit left =>
        cases left with
        | zero =>
          cases hwork
          rfl
        | succ left => cases hwork
      | filter | sink => cases hwork
    | none =>
      rw [advance_react hwork (Prod.eta _).symm] at h ⊢
      dsimp only at h ⊢
      rw [Stage.eq_empty_of_done h]
      rfl

theorem Stream.pull_item {i : Item} (h : s.advance.run e = ((.item i, s'), e')) (budget : Nat) :
    (s.pull (budget + 1)).run e = (.item i s', e') := by
  rw [pull, Run.bind_run, h]
  rfl

theorem Stream.pull_skip (h : s.advance.run e = ((.skip, s'), e')) (budget : Nat) :
    (s.pull (budget + 1)).run e = (s'.pull budget).run e' := by
  rw [pull, Run.bind_run, h]

theorem Stream.pull_done (h : s.advance.run e = ((.done, s'), e')) (budget : Nat) :
    (s.pull (budget + 1)).run e = (.ended, e') := by
  rw [pull, Run.bind_run, h]
  rfl

/-- One more in the budget of a pull is one more piece of work, or nothing if the pull was over. -/
theorem Stream.pulled_succ (budget : Nat) (s : Stream) (e : Engine σ) :
    s.pulled (budget + 1) e = s.pulled budget e ∨
      s.pulled (budget + 1) e = (((s.pulled budget e).1.advance.run (s.pulled budget e).2).1.2,
        ((s.pulled budget e).1.advance.run (s.pulled budget e).2).2) := by
  induction budget generalizing s e with
  | zero =>
    right
    show s.pulled 1 e = ((s.advance.run e).1.2, (s.advance.run e).2)
    rcases hrun : s.advance.run e with ⟨⟨event, s'⟩, e'⟩
    rw [pulled]
    cases event with
    | item i =>
      rw [pull_item hrun]
      rfl
    | skip =>
      rw [pull_skip hrun]
      rfl
    | done =>
      rw [pull_done hrun]
      have hempty := eq_empty_of_done (by rw [hrun] : (s.advance.run e).1.1 = .done)
      rw [hrun] at hempty
      exact congrArg (·, e') hempty.symm
  | succ budget ih =>
    rcases hrun : s.advance.run e with ⟨⟨event, s'⟩, e'⟩
    cases event with
    | item i => exact .inl (by rw [pulled, pulled, pull_item hrun, pull_item hrun])
    | skip =>
      have hsucc : ∀ k, s.pulled (k + 1) e = s'.pulled k e' := fun k => by
        rw [pulled, pulled, pull_skip hrun]
      rw [hsucc, hsucc]
      exact ih s' e'
    | done => exact .inl (by rw [pulled, pulled, pull_done hrun, pull_done hrun])

end Pulls

namespace Family

variable {σ : Type} [Backend σ]

theorem act_pull_some {f : Family σ} {i : Nat} {s : Stream} (h : f.streams[i]? = some s)
    (budget : Nat) :
    f.act (.pull i budget) =
      ⟨(s.pulled budget f.engine).2, f.streams.set i (s.pulled budget f.engine).1⟩ := by
  rw [act, h]

theorem act_pull_none {f : Family σ} {i : Nat} (h : f.streams[i]? = none) (budget : Nat) :
    f.act (.pull i budget) = f := by
  rw [act, h]

/-- The moments of a pull are those of pulls with less of a budget. -/
theorem act_pull_succ (f : Family σ) (i budget : Nat) :
    f.act (.pull i (budget + 1)) = f.act (.pull i budget) ∨
      ∃ s, (f.act (.pull i budget)).streams[i]? = some s ∧
        f.act (.pull i (budget + 1)) = (f.act (.pull i budget)).work i s := by
  cases hs : f.streams[i]? with
  | none => exact .inl ((act_pull_none hs _).trans (act_pull_none hs _).symm)
  | some s =>
    rw [act_pull_some hs, act_pull_some hs]
    obtain ⟨hi, -⟩ := List.getElem?_eq_some_iff.1 hs
    rcases s.pulled_succ budget f.engine with hsame | hwork
    · exact .inl (by rw [hsame])
    · refine .inr ⟨(s.pulled budget f.engine).1, by simp [hi], ?_⟩
      rw [work, hwork, List.set_set]

/-! ## What the host may rely on -/

variable [LawfulBackend σ]

/-- Between two states an element went that a stream still has in hand. -/
structure Loses (f f' : Family σ) (x : ElementRef) : Prop where
  there : f.engine.contents (Key.element x.1 x.2) ≠ none
  gone : f'.engine.contents (Key.element x.1 x.2) = none
  held : ∃ s ∈ f'.streams, x ∈ s.inHand

/-- In the course of some acts, one piece of work on a stream took away an element that some stream
still had in hand. -/
def Lost (f : Family σ) (acts : List QueryAct) (x : ElementRef) : Prop :=
  ∃ before i budget b, before ++ [.pull i budget] <+: acts ∧ b < budget ∧
    ((f.run before).act (.pull i b)).Loses ((f.run before).act (.pull i (b + 1))) x

/-- The store keeps a graph; what is in hand is there or was lost, and properties are left over only
at lost elements, as some stream sets them. -/
structure Safe (ids : Nat → String) (lost : ElementRef → Prop) (sets : String → Json → Prop)
    (g : Multigraph) (n : Nat) (f : Family σ) : Prop where
  tracks : Tracks ids (g, n) f.engine
  checked : ∀ s ∈ f.streams, s.Checked
  settings : ∀ s ∈ f.streams, ∀ p ∈ s.settings, sets p.1 p.2
  isToken : ∀ s ∈ f.streams, ∀ x ∈ s.inHand, Key.isToken x.2 = true
  held : ∀ s ∈ f.streams, ∀ x ∈ s.inHand, g.Has x ∨ lost x
  leftover : ∀ x key value, g.Leftover x key value → lost x ∧ sets key value

variable {ids : Nat → String} {lost lost' : ElementRef → Prop} {sets : String → Json → Prop}
  {g : Multigraph} {n : Nat} {f : Family σ}

theorem Safe.mono (h : f.Safe ids lost sets g n) (hlost : ∀ x, lost x → lost' x) :
    f.Safe ids lost' sets g n :=
  { h with
    held := fun s hs x hx => (h.held s hs x hx).imp_right (hlost x)
    leftover := fun x key value hx => (h.leftover x key value hx).imp_left (hlost x) }

/-- A stream that is opened has nothing in hand. -/
theorem Safe.start (h : f.Safe ids lost sets g n) (c : Config) {chain : Chain}
    (hsets : ∀ key value, ⟨.property, [.str key, value]⟩ ∈ chain → sets key value) :
    (f.act (.start c chain)).Safe ids lost sets g n := by
  rcases chain.openStream_opens c f.engine with ⟨err, hrun⟩ | ⟨s, hrun, hchecked, hnone, hsettings⟩
  · have hact : f.act (.start c chain) = f := by
      rw [act, hrun]
      simp [Except.toOption]
    rwa [hact]
  · have hact : f.act (.start c chain) = ⟨f.engine, f.streams ++ [s]⟩ := by
      rw [act, hrun]
      rfl
    have hcases : ∀ s' ∈ f.streams ++ [s], s' ∈ f.streams ∨ s' = s := by simp
    rw [hact]
    refine ⟨h.tracks, ?_, ?_, ?_, ?_, h.leftover⟩
    · intro s' hs'
      rcases hcases s' hs' with hs' | rfl
      · exact h.checked s' hs'
      · exact hchecked
    · intro s' hs' p hp
      rcases hcases s' hs' with hs' | rfl
      · exact h.settings s' hs' p hp
      · exact hsets p.1 p.2 (hsettings p.1 p.2 hp)
    · intro s' hs' x hx
      rcases hcases s' hs' with hs' | rfl
      · exact h.isToken s' hs' x hx
      · simp [hnone] at hx
    · intro s' hs' x hx
      rcases hcases s' hs' with hs' | rfl
      · exact h.held s' hs' x hx
      · simp [hnone] at hx

/-- A piece of work on one of the streams. -/
theorem Safe.work (h : f.Safe ids lost sets g n) {i : Nat} {s : Stream} (hs : f.streams[i]? = some s)
    (hids : GoodIds ids (n + 1)) :
    ∃ g' n', n' ≤ n + 1 ∧
      (f.work i s).Safe ids (fun x => lost x ∨ f.Loses (f.work i s) x) sets g' n' := by
  have hmem : s ∈ f.streams := List.mem_of_getElem? hs
  obtain ⟨g', n', htracks, hn, hchecked, hsettings, hhandles⟩ :=
    Stream.advance_handles (h.checked s hmem) h.tracks hids (h.isToken s hmem)
  have hcases : ∀ s' ∈ (f.work i s).streams,
      s' ∈ f.streams ∨ s' = (s.advance.run f.engine).1.2 := fun s' hs' => List.mem_or_eq_of_mem_set hs'
  have hthere : (s.advance.run f.engine).1.2 ∈ (f.work i s).streams := by
    obtain ⟨hi, -⟩ := List.getElem?_eq_some_iff.1 hs
    exact List.mem_set hi _
  have hloses : ∀ s' ∈ (f.work i s).streams, ∀ x ∈ s'.inHand, Key.isToken x.2 = true →
      g.Has x ∨ lost x → g'.Has x ∨ lost x ∨ f.Loses (f.work i s) x := by
    intro s' hs' x hx htoken hx'
    by_cases hstays : g'.Has x
    · exact .inl hstays
    · refine .inr (hx'.symm.imp_right fun hwas => ⟨?_, ?_, s', hs', hx⟩)
      · exact (h.tracks.keeps.contents_element x.1 htoken).2 hwas
      · by_contra hstored
        exact hstays ((htracks.keeps.contents_element x.1 htoken).1 hstored)
  have hnew : ∀ x ∈ (s.advance.run f.engine).1.2.inHand, Key.isToken x.2 = true := by
    intro x hx
    rcases hhandles.found x hx with hx | hx
    · exact h.isToken s hmem x hx
    · exact htracks.keeps.sound.isToken_of_has hx
  refine ⟨g', n', hn, htracks, ?_, ?_, ?_, ?_, ?_⟩
  · intro s' hs'
    rcases hcases s' hs' with hs' | rfl
    · exact h.checked s' hs'
    · exact hchecked
  · intro s' hs' p hp
    rcases hcases s' hs' with hs' | rfl
    · exact h.settings s' hs' p hp
    · exact h.settings s hmem p (hsettings hp)
  · intro s' hs' x hx
    rcases hcases s' hs' with hs' | rfl
    · exact h.isToken s' hs' x hx
    · exact hnew x hx
  · intro s' hs' x hx
    rcases hcases s' hs' with hold | rfl
    · exact hloses s' hs' x hx (h.isToken s' hold x hx) (h.held s' hold x hx)
    · rcases hhandles.found x hx with hwas | hx'
      · exact hloses _ hthere x hx (hnew x hx) (h.held s hmem x hwas)
      · exact .inl hx'
  · intro x key value hx
    rcases hhandles.leftover x key value hx with hwas | ⟨hheld, hnot, hset⟩
    · exact (h.leftover x key value hwas).imp_left .inl
    · -- what was in hand and not there had been lost before
      exact ⟨.inl ((h.held s hmem x hheld).resolve_left hnot), h.settings s hmem _ hset⟩

/-- A pull, piece by piece. -/
theorem Safe.pull (h : f.Safe ids lost sets g n) (i budget : Nat) (hids : GoodIds ids (n + budget)) :
    ∃ g' n', n' ≤ n + budget ∧ (f.act (.pull i budget)).Safe ids
      (fun x => lost x ∨ ∃ b < budget, (f.act (.pull i b)).Loses (f.act (.pull i (b + 1))) x)
      sets g' n' := by
  induction budget with
  | zero =>
    rw [act_pull_zero]
    exact ⟨g, n, Nat.le_refl _, h.mono fun x hx => .inl hx⟩
  | succ budget ih =>
    obtain ⟨g', n', hn, hsafe⟩ := ih (hids.mono (by omega))
    have hearlier : ∀ x, (lost x ∨ ∃ b < budget, (f.act (.pull i b)).Loses (f.act (.pull i (b + 1))) x) →
        lost x ∨ ∃ b < budget + 1, (f.act (.pull i b)).Loses (f.act (.pull i (b + 1))) x :=
      fun x hx => hx.imp_right fun ⟨b, hb, hloses⟩ => ⟨b, by omega, hloses⟩
    rcases f.act_pull_succ i budget with hsame | ⟨s, hs, hwork⟩
    · exact ⟨g', n', by omega, hsame ▸ hsafe.mono hearlier⟩
    · obtain ⟨g'', n'', hn', hsafe'⟩ := hsafe.work hs (hids.mono (by omega))
      rw [← hwork] at hsafe'
      refine ⟨g'', n'', by omega, hsafe'.mono fun x hx => ?_⟩
      rcases hx with hx | hx
      · exact hearlier x hx
      · exact .inr ⟨budget, by omega, hx⟩

theorem Lost.concat {acts : List QueryAct} {x : ElementRef} (h : f.Lost acts x) (a : QueryAct) :
    f.Lost (acts ++ [a]) x := by
  obtain ⟨before, i, budget, b, hprefix, hrest⟩ := h
  exact ⟨before, i, budget, b, hprefix.trans (List.prefix_append _ _), hrest⟩

/-- Whatever a host does, streams stay safe. -/
theorem Safe.run (h : f.Safe ids (fun _ => False) sets g n) (acts : List QueryAct)
    (hsets : ∀ c chain, .start c chain ∈ acts →
      ∀ key value, ⟨.property, [.str key, value]⟩ ∈ chain → sets key value)
    (hids : GoodIds ids (n + (acts.map QueryAct.budget).sum)) :
    ∃ g' n', n' ≤ n + (acts.map QueryAct.budget).sum ∧
      (f.run acts).Safe ids (f.Lost acts) sets g' n' := by
  induction acts using List.reverseRecOn with
  | nil => exact ⟨g, n, by simp, h.mono fun _ hx => hx.elim⟩
  | append_singleton acts a ih =>
    have hsum : ((acts ++ [a]).map QueryAct.budget).sum = (acts.map QueryAct.budget).sum + a.budget := by
      simp
    rw [hsum] at hids ⊢
    rw [run_concat]
    obtain ⟨g', n', hn, hsafe⟩ := ih (fun c chain hmem => hsets c chain (by simp [hmem]))
      (hids.mono (by omega))
    cases a with
    | start c chain =>
      exact ⟨g', n', by omega, (hsafe.start c (hsets c chain (by simp))).mono fun x hx => hx.concat _⟩
    | pull i budget =>
      have hpull : GoodIds ids (n' + budget) := hids.mono (by simp only [QueryAct.budget]; omega)
      obtain ⟨g'', n'', hn', hsafe'⟩ := hsafe.pull i budget hpull
      refine ⟨g'', n'', by simp only [QueryAct.budget]; omega, hsafe'.mono fun x hx => ?_⟩
      rcases hx with hx | ⟨b, hb, hloses⟩
      · exact hx.concat _
      · exact ⟨acts, i, budget, b, List.prefix_refl _, hb, hloses⟩

end Family

/-! ## From an empty store -/

/-- Before a host opens a chain nothing is in hand. -/
theorem Tracks.safe {σ : Type} [Backend σ] [LawfulBackend σ] {ids : Nat → String} {g : Multigraph}
    {n : Nat} {e : Engine σ} (h : Tracks ids (g, n) e)
    (hnone : ∀ x key value, ¬g.Leftover x key value) (sets : String → Json → Prop) :
    (⟨e, []⟩ : Family σ).Safe ids (fun _ => False) sets g n where
  tracks := h
  checked := by simp
  settings := by simp
  isToken := by simp
  held := by simp
  leftover x key value hx := absurd hx (hnone x key value)

theorem Multigraph.not_leftover_empty (x : ElementRef) (key : String) (value : Json) :
    ¬Multigraph.empty.Leftover x key value := by
  rintro ⟨⟨⟩, -⟩

/-- Whatever chains a host opens over an empty store, with the default optimizer or with none, and
however it pulls on their streams in turn, the store has exactly the entries of a graph: every vertex
and every edge with its full record, edges between vertices that are there, and at each vertex lists
that hold each edge once and a neighbour for every edge. Only properties may be there beyond that: a
property whose element is not there belongs to one that some piece of work took away while a stream
had it in hand. -/
theorem Engine.interleaving_history {σ : Type} [Backend σ] [LawfulBackend σ] {e : Engine σ}
    (hempty : ∀ key, e.contents key = none) (acts : List QueryAct)
    (hids : GoodIds e.ids (e.issued + (acts.map QueryAct.budget).sum)) :
    ∃ (g : Multigraph) (neighbors : Scope → List String), g.Sound ∧ g.Fits neighbors ∧
      (∀ s, ((g.edgesAt s).map (·.id)).Nodup) ∧
      (∀ key value, ((⟨e, []⟩ : Family σ).run acts).engine.contents key = some value ↔
        g.Entry neighbors key value) ∧
      ∀ kind id key, g.property kind id key ≠ none →
        id ∈ g.ids kind ∨ (⟨e, []⟩ : Family σ).Lost acts (kind, id) := by
  obtain ⟨g, n, -, hsafe⟩ := ((Tracks.empty hempty).safe Multigraph.not_leftover_empty fun _ _ => True).run acts
    (by simp) hids
  obtain ⟨hsound, neighbors, hfits, hholds⟩ := hsafe.tracks.keeps
  refine ⟨g, neighbors, hsound, hfits, fun s => ?_, hholds.contents_iff hsound hfits,
    fun kind id key hproperty => ?_⟩
  · exact hsound.edgeIds.sublist (List.filter_sublist.map _)
  · obtain ⟨value, hvalue⟩ := Option.ne_none_iff_exists'.1 hproperty
    by_cases hhas : g.Has (kind, id)
    · exact .inl hhas
    · exact .inr (hsafe.leftover (kind, id) key value ⟨hvalue, hhas⟩).1

/-- A host that drops a vertex while another stream is about to set a property of it. -/
def interleavedActs : List QueryAct :=
  [.start {} [⟨.addVertex, [.str "person"]⟩], .pull 0 4,
    .start {} [⟨.vertices, []⟩, ⟨.property, [.str "name", .nat 1]⟩], .pull 1 4,
    .start { optimize := false } [⟨.vertices, []⟩, ⟨.drop, []⟩], .pull 2 5, .pull 1 1]

theorem interleaving_interleavedActs :
    ∃ (g : Multigraph) (neighbors : Scope → List String), g.Sound ∧ g.Fits neighbors ∧
      (∀ s, ((g.edgesAt s).map (·.id)).Nodup) ∧
      (∀ key value,
        ((⟨Engine.ofStore Memory.empty, []⟩ : Family Memory).run interleavedActs).engine.contents key =
          some value ↔ g.Entry neighbors key value) ∧
      ∀ kind id key, g.property kind id key ≠ none → id ∈ g.ids kind ∨
        (⟨Engine.ofStore Memory.empty, []⟩ : Family Memory).Lost interleavedActs (kind, id) :=
  Engine.interleaving_history (e := Engine.ofStore Memory.empty) (fun _ => rfl) interleavedActs
    (by decide +kernel)

end PropertyGraph
