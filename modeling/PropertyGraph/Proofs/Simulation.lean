/-
Two queries that differ at their source. A stream settles when, however the graph drifts
between its pieces of work, it brings known items and comes to its end (`Stream.Settles`);
stages that walk keep that (`Stream.Settles.through`). A source follows another when it brings
the same items after some pieces of work that bring nothing, and then the streams over them do
the same, stage by stage (`Stream.Over.follows`, `Stream.Runs.follow`).
-/
import PropertyGraph.Proofs.Walking

namespace PropertyGraph

variable {σ : Type} [Backend σ] [LawfulBackend σ]

namespace Stream

/-! ## Streams that end -/

/-- However the graph drifts between its pieces of work, a stream keeps to the drift itself,
brings items of a type and ends. -/
inductive Settles (d : Drift) (b : ResultType) : Stream → Engine σ → Prop
  | step {s : Stream} {e : Engine σ}
    (drifts : ∀ e₁ g, e.Drifts d e₁ → e₁.Keeps g → e₁.Drifts d (s.advance.run e₁).2)
    (known : ∀ e₁ g, e.Drifts d e₁ → e₁.Keeps g → (s.advance.run e₁).1.1.Known b)
    (rest : ∀ e₁ g event s' e₂, e.Drifts d e₁ → e₁.Keeps g →
      s.advance.run e₁ = ((event, s'), e₂) → event ≠ .done → Settles d b s' e₂) :
    Settles d b s e

variable {d : Drift} {a b : ResultType}

theorem Settles.drift {s : Stream} {e e' : Engine σ} (h : s.Settles d b e) (he : e.Drifts d e') :
    s.Settles d b e' := by
  cases h with
  | step drifts known rest =>
    exact .step (fun e₁ g h₁ => drifts e₁ g (he.trans h₁)) (fun e₁ g h₁ => known e₁ g (he.trans h₁))
      fun e₁ g event s' e₂ h₁ => rest e₁ g event s' e₂ (he.trans h₁)

/-- Items that are at hand. -/
theorem settles_given {l : List Item} (hl : ∀ i ∈ l, Item.Known b i) (e : Engine σ) :
    (Stream.given l).Settles d b e := by
  induction l generalizing e with
  | nil =>
    refine .step (fun e₁ _ _ _ => .refl d e₁) (fun _ _ _ _ => trivial) ?_
    intro e₁ g event s' e₂ _ _ h hne
    cases h
    exact absurd rfl hne
  | cons i l ih =>
    refine .step (fun e₁ _ _ _ => .refl d e₁) (fun _ _ _ _ => hl i (by simp)) ?_
    intro e₁ g event s' e₂ _ _ h _
    cases h
    exact ih (fun j hj => hl j (List.mem_cons_of_mem _ hj)) e₁

/-- What a stage leaves settles, where the stage over its source does. -/
theorem settles_over {left : Leaves} {source : Stream} {e : Engine σ} (hleft : left.Walks d a b)
    (h : ∀ stage : Stage, stage.Walks d a b → (Stream.through stage source).Settles d b e) :
    (left.over source).Settles d b e := by
  cases left with
  | stage st => exact h st hleft
  | stream s =>
    obtain ⟨l, rfl, hl⟩ := hleft
    exact settles_given hl e

/-- A stage that waits for its source, where every stage over what is left of the source
settles. -/
theorem settles_react {stage : Stage} (hstage : stage.Walks d a b)
    (hwork : (stage.work? : Option (Run σ _)) = none) {source : Stream} {e : Engine σ}
    (drifts : ∀ e₁ g, e.Drifts d e₁ → e₁.Keeps g → e₁.Drifts d (source.advance.run e₁).2)
    (known : ∀ e₁ g, e.Drifts d e₁ → e₁.Keeps g → (source.advance.run e₁).1.1.Known a)
    (rest : ∀ e₁ g event s' e₂, e.Drifts d e₁ → e₁.Keeps g →
      source.advance.run e₁ = ((event, s'), e₂) → event ≠ .done →
        ∀ stage : Stage, stage.Walks d a b → (Stream.through stage s').Settles d b e₂) :
    (Stream.through stage source).Settles d b e := by
  have hreact : ∀ e₁ g, e.Drifts d e₁ → e₁.Keeps g →
      ∃ event s' e₂, source.advance.run e₁ = ((event, s'), e₂) ∧ e₁.Drifts d e₂ ∧ event.Known a := by
    intro e₁ g h₁ hg
    exact ⟨_, _, _, rfl, drifts e₁ g h₁ hg, known e₁ g h₁ hg⟩
  refine .step (fun e₁ g h₁ hg => ?_) (fun e₁ g h₁ hg => ?_) ?_
  · obtain ⟨event, s', e₂, hs, hdrifts, hknown⟩ := hreact e₁ g h₁ hg
    rw [advance_react hwork hs]
    exact hdrifts.trans (Stage.react_walks hstage hknown e₂).1
  · obtain ⟨event, s', e₂, hs, hdrifts, hknown⟩ := hreact e₁ g h₁ hg
    rw [advance_react hwork hs]
    exact (Stage.react_walks hstage hknown e₂).2.1
  · intro e₁ g event s' e₃ h₁ hg hadvance hne
    obtain ⟨ev, s₂, e₂, hs, hdrifts, hknown⟩ := hreact e₁ g h₁ hg
    obtain ⟨hreactDrifts, -, hleft⟩ := Stage.react_walks hstage hknown e₂
    rw [advance_react hwork hs] at hadvance
    cases hadvance
    by_cases hev : ev = .done
    · -- the source has ended, and what is left needs no source
      subst hev
      cases stage with
      | expand | filter | limit => exact absurd rfl hne
      | sink s =>
        obtain ⟨l, hl, hknown⟩ := hleft
        show Settles d b (.given s.finish) _
        rw [Stream.given.inj hl]
        exact settles_given hknown _
    · exact settles_over hleft fun st hst =>
        (rest e₁ g ev s₂ e₂ h₁ hg hs hev st hst).drift hreactDrifts

/-- Before its source, a stage brings the items of its expansion under way. -/
theorem settles_items {expander : Expander} {source : Stream} {e : Engine σ}
    (hsource : ∀ e', e.Drifts d e' →
      (Stream.through (.expand expander none) source).Settles d b e')
    {l : List Item} (hl : ∀ i ∈ l, Item.Known b i) :
    (Stream.through (.expand expander (some (.items l))) source).Settles d b e := by
  induction l generalizing e with
  | nil =>
    refine .step (fun e₁ _ _ _ => .refl d e₁) (fun _ _ _ _ => trivial) ?_
    intro e₁ g event s' e₂ h₁ _ h _
    cases h
    exact hsource e₁ h₁
  | cons i l ih =>
    refine .step (fun e₁ _ _ _ => .refl d e₁) (fun _ _ _ _ => hl i (by simp)) ?_
    intro e₁ g event s' e₂ h₁ _ h _
    cases h
    exact ih (fun e' h' => hsource e' (h₁.trans h')) fun j hj => hl j (List.mem_cons_of_mem _ hj)

/-- The same of an expansion that walks. -/
theorem settles_current {expander : Expander} {source : Stream} {e : Engine σ}
    (hsource : ∀ e', e.Drifts d e' →
      (Stream.through (.expand expander none) source).Settles d b e')
    {x : Expansion} (hx : x.Walks b) :
    (Stream.through (.expand expander (some x)) source).Settles d b e := by
  cases x with
  | items l => exact settles_items hsource hx
  | task t =>
    have hadvance : ∀ e₁ : Engine σ,
        (∃ x e₂, t.begin.run.run e₁ = (.ok x, e₂) ∧
          (Stream.through (.expand expander (some (.task t))) source).advance.run e₁ =
            ((.skip, .through (.expand expander (some x)) source), e₂)) ∨
        ∃ err e₂, t.begin.run.run e₁ = (.error err, e₂) ∧
          (Stream.through (.expand expander (some (.task t))) source).advance.run e₁ =
            ((.item (.error err), .through (.expand expander (some (.items []))) source), e₂) := by
      intro e₁
      rcases hbegin : t.begin.run.run e₁ with ⟨err | x, e₂⟩
      case ok => exact .inl ⟨x, e₂, rfl, advance_task hbegin⟩
      case error => exact .inr ⟨err, e₂, rfl, advance_failed hbegin⟩
    refine .step (fun e₁ g h₁ hg => ?_) (fun e₁ g h₁ hg => ?_) ?_
    · obtain ⟨hstore, -⟩ := t.begin_walks hx hg
      obtain ⟨x, e₂, hbegin, hrun⟩ | ⟨err, e₂, hbegin, hrun⟩ := hadvance e₁ <;>
      · rw [hbegin] at hstore
        rw [hrun]
        exact .of_store d hstore
    · obtain ⟨x, e₂, -, hrun⟩ | ⟨err, e₂, -, hrun⟩ := hadvance e₁ <;> rw [hrun]
      · trivial
      · exact item_error_known err
    · intro e₁ g event s' e₃ h₁ hg h _
      obtain ⟨hstore, hitems⟩ := t.begin_walks hx hg
      obtain ⟨x, e₂, hbegin, hrun⟩ | ⟨err, e₂, hbegin, hrun⟩ := hadvance e₁ <;>
        rw [hbegin] at hstore hitems <;> rw [hrun] at h <;> cases h
      · obtain ⟨l, rfl, hl⟩ := hitems x rfl
        exact settles_items (fun e' h' => hsource e' ((h₁.trans (.of_store d hstore)).trans h')) hl
      · exact settles_items (fun e' h' => hsource e' ((h₁.trans (.of_store d hstore)).trans h'))
          (by simp)
  | probe | scan => exact hx.elim

/-- A stage that walks, over a stream that settles. -/
theorem Settles.through {source : Stream} {e : Engine σ} (h : source.Settles d a e) {stage : Stage}
    (hstage : stage.Walks d a b) : (Stream.through stage source).Settles d b e := by
  induction h generalizing stage with
  | @step s e drifts known _ ih =>
    have hready : ∀ {st : Stage}, st.Walks d a b → (st.work? : Option (Run σ _)) = none → ∀ e',
        e.Drifts d e' → (Stream.through st s).Settles d b e' := fun hst hwork e' he =>
      settles_react hst hwork (fun e₁ g h₁ => drifts e₁ g (he.trans h₁))
        (fun e₁ g h₁ => known e₁ g (he.trans h₁))
        fun e₁ g event s' e₂ h₁ hg hs hne st hst => ih e₁ g event s' e₂ (he.trans h₁) hg hs hne hst
    cases stage with
    | expand expander current =>
      cases current with
      | none => exact hready hstage rfl e (.refl d e)
      | some x =>
        refine settles_current (fun e' he => hready ?_ rfl e' he) hstage.current
        exact hstage.with_current fun y hy => by cases hy
    | limit left =>
      cases left with
      | zero =>
        refine .step (fun e₁ _ _ _ => .refl d e₁) (fun _ _ _ _ => trivial) ?_
        intro e₁ g event s' e₂ _ _ h hne
        cases h
        exact absurd rfl hne
      | succ left => exact hready hstage rfl e (.refl d e)
    | filter f => exact hready hstage rfl e (.refl d e)
    | sink s => exact hready hstage rfl e (.refl d e)

/-- A stream that settles has a run. -/
theorem Settles.runs {s : Stream} {e : Engine σ} (h : s.Settles d b e) {g : Multigraph}
    (hg : e.Keeps g) : ∃ trace e', s.Runs e trace e' := by
  induction h generalizing g with
  | @step s e drifts _ _ ih =>
    obtain ⟨g', hg', -⟩ := drifts e g (.refl d e) hg g hg
    generalize hs : s.advance.run e = r at hg'
    obtain ⟨⟨event, s'⟩, e'⟩ := r
    cases event with
    | done => exact ⟨[], e', .done hs⟩
    | skip =>
      obtain ⟨trace, e'', hrest⟩ := ih e g .skip s' e' (.refl d e) hg hs (by simp) hg'
      exact ⟨trace, e'', .skip hs hrest⟩
    | item i =>
      obtain ⟨trace, e'', hrest⟩ := ih e g (.item i) s' e' (.refl d e) hg hs (by simp) hg'
      exact ⟨_, e'', .item hs hrest⟩

/-- Stages that walk, one behind the other, over a stream that settles. -/
theorem Settles.ofSteps {steps : List Step} {s : Stream} {e : Engine σ} (h : s.Settles d a e)
    (hpath : d.Path a steps b) : (s.ofSteps steps).Settles d b e := by
  induction hpath generalizing s with
  | nil => exact h
  | cons hstage _ ih => exact ih (h.through hstage)

/-! ## Streams that follow others -/

/-- Pieces of work that bring nothing. -/
inductive Skips : Stream → Engine σ → Stream → Engine σ → Prop
  | refl (s : Stream) (e : Engine σ) : Skips s e s e
  | step {s s' s'' : Stream} {e e' e'' : Engine σ} (h : s.advance.run e = ((.skip, s'), e'))
    (rest : Skips s' e' s'' e'') : Skips s e s'' e''

/-- A stream comes to an event after pieces of work that bring nothing. -/
def Comes (s : Stream) (e : Engine σ) (event : Event) (s' : Stream) (e' : Engine σ) : Prop :=
  match event with
  | .skip => Skips s e s' e'
  | event => ∃ s₁ e₁, Skips s e s₁ e₁ ∧ s₁.advance.run e₁ = ((event, s'), e')

section Skipping

variable {s t s' s'' : Stream} {e e' e'' : Engine σ} {event : Event}
  {trace : List (Item × Engine σ)}

omit [LawfulBackend σ] in
theorem Skips.trans (h : Skips s e s' e') (h' : Skips s' e' s'' e'') : Skips s e s'' e'' := by
  induction h with
  | refl => exact h'
  | step h _ ih => exact .step h (ih h')

omit [LawfulBackend σ] in
theorem Skips.comes (h : Skips s e s' e') (hs : s'.advance.run e' = ((event, s''), e'')) :
    s.Comes e event s'' e'' := by
  cases event with
  | skip => exact h.trans (.step hs (.refl _ _))
  | item | done => exact ⟨s', e', h, hs⟩

omit [LawfulBackend σ] in
theorem Skips.runs (h : Skips s e s' e') (hrest : s'.Runs e' trace e'') : s.Runs e trace e'' := by
  induction h with
  | refl => exact hrest
  | step h _ ih => exact .skip h (ih hrest)

omit [LawfulBackend σ] in
/-- A stage that waits does not notice them. -/
theorem Skips.through (h : Skips s e s' e') {stage : Stage}
    (hwork : (stage.work? : Option (Run σ _)) = none) :
    Skips (.through stage s) e (.through stage s') e' := by
  induction h with
  | refl => exact .refl _ _
  | step h _ ih => exact .step (advance_skipped hwork h) ih

omit [LawfulBackend σ] in
/-- What a stage that waits makes of what its source comes to. -/
theorem Comes.through (h : s.Comes e event s' e') {stage : Stage}
    (hwork : (stage.work? : Option (Run σ _)) = none) :
    (Stream.through stage s).Comes e ((stage.react event).run e').1.1
      (((stage.react event).run e').1.2.over s') ((stage.react event).run e').2 := by
  cases event with
  | skip =>
    rw [Stage.react_skip]
    exact Skips.through h hwork
  | item i =>
    obtain ⟨s₁, e₁, hskips, hs⟩ := h
    exact (hskips.through hwork).comes (advance_react hwork hs)
  | done =>
    obtain ⟨s₁, e₁, hskips, hs⟩ := h
    exact (hskips.through hwork).comes (advance_react hwork hs)

end Skipping

/-- A relation of streams where the second follows the first: what comes from the first comes
from the second, in the same state, and drifts do not matter. -/
structure Follows (d : Drift) (a : ResultType) (R : Stream → Stream → Engine σ → Prop) : Prop where
  drift : ∀ {s t e e'}, R s t e → e.Drifts d e' → R s t e'
  step : ∀ {s t e g event s' e'}, R s t e → e.Keeps g → s.advance.run e = ((event, s'), e') →
    e.Drifts d e' ∧ event.Known a ∧
      ∃ t', t.Comes e event t' e' ∧ (event ≠ .done → R s' t' e')

/-- The same stages that walk, over sources in a relation. -/
inductive Over (d : Drift) (a : ResultType) (R : Stream → Stream → Engine σ → Prop) :
    ResultType → Stream → Stream → Engine σ → Prop
  | source {s t : Stream} {e : Engine σ} (h : R s t e) : Over d a R a s t e
  | given {b : ResultType} {l : List Item} {e : Engine σ} (hl : ∀ i ∈ l, Item.Known b i) :
    Over d a R b (.given l) (.given l) e
  | through {b c : ResultType} {stage : Stage} {s t : Stream} {e : Engine σ}
    (hstage : stage.Walks d b c) (h : Over d a R b s t e) :
    Over d a R c (.through stage s) (.through stage t) e

section Following

variable {R : Stream → Stream → Engine σ → Prop} {s t s' : Stream} {e e' : Engine σ}

omit [Backend σ] [LawfulBackend σ] in
theorem Over.ofSteps {c : ResultType} {steps : List Step} (h : Over d a R b s t e)
    (hpath : d.Path b steps c) : Over d a R c (s.ofSteps steps) (t.ofSteps steps) e := by
  induction hpath generalizing s t with
  | nil => exact h
  | cons hstage _ ih => exact ih (.through hstage h)

theorem Over.drift (hR : Follows d a R) (h : Over d a R b s t e) (he : e.Drifts d e') :
    Over d a R b s t e' := by
  induction h with
  | source h => exact .source (hR.drift h he)
  | given hl => exact .given hl
  | through hstage _ ih => exact .through hstage (ih he)

omit [Backend σ] [LawfulBackend σ] in
theorem over_leaves {c : ResultType} {left : Leaves} (hleft : left.Walks d b c)
    (h : ∀ st : Stage, left = .stage st → Over d a R b s t e) :
    Over d a R c (left.over s) (left.over t) e := by
  cases left with
  | stage st => exact .through hleft (h st rfl)
  | stream s =>
    obtain ⟨l, rfl, hl⟩ := hleft
    exact .given hl

/-- Stages that walk follow one another over sources that do. -/
theorem Over.follows (hR : Follows d a R) (h : Over d a R b s t e) {g : Multigraph}
    (hg : e.Keeps g) {event : Event} (hs : s.advance.run e = ((event, s'), e')) :
    e.Drifts d e' ∧ event.Known b ∧
      ∃ t', t.Comes e event t' e' ∧ (event ≠ .done → Over d a R b s' t' e') := by
  induction h generalizing event s' e' with
  | source h =>
    obtain ⟨hdrifts, hknown, t', hcomes, hnext⟩ := hR.step h hg hs
    exact ⟨hdrifts, hknown, t', hcomes, fun hne => .source (hnext hne)⟩
  | @given b l e hl =>
    cases l with
    | nil =>
      cases hs
      exact ⟨.refl d e, trivial, _, (Skips.refl _ e).comes rfl, fun hne => absurd rfl hne⟩
    | cons i l =>
      cases hs
      exact ⟨.refl d e, hl i (by simp), _, (Skips.refl _ e).comes rfl,
        fun _ => .given fun j hj => hl j (List.mem_cons_of_mem _ hj)⟩
  | @through b c stage s t e hstage h ih =>
    cases hwork : (stage.work? : Option (Run σ _)) with
    | some work =>
      obtain ⟨hdrifts, hknown, hleft⟩ := Stage.work_walks hstage hwork hg
      rw [advance_work hwork] at hs
      cases hs
      exact ⟨hdrifts, hknown, _, (Skips.refl _ e).comes (advance_work hwork t),
        fun _ => over_leaves hleft fun _ _ => h.drift hR hdrifts⟩
    | none =>
      cases hsource : s.advance.run e with
      | mk r e₁ =>
        obtain ⟨ev, s₁⟩ := r
        obtain ⟨hdrifts, hknown, t₁, hcomes, hnext⟩ := ih hg hsource
        obtain ⟨hreact, hknown', hleft⟩ := Stage.react_walks hstage hknown e₁
        rw [advance_react hwork hsource] at hs
        cases hs
        refine ⟨hdrifts.trans hreact, hknown', _, hcomes.through hwork, fun hne => ?_⟩
        refine over_leaves hleft fun st hst => (hnext ?_).drift hR hreact
        -- a stage that is left over an ended source would have ended itself
        rintro rfl
        cases stage <;> cases hst

/-- What follows a run is a run. -/
theorem Runs.follow {trace : List (Item × Engine σ)} (hrun : s.Runs e trace e')
    (hR : Follows d a R) (h : Over d a R b s t e) {g : Multigraph} (hg : e.Keeps g) :
    t.Runs e trace e' := by
  induction hrun generalizing t g with
  | done hs =>
    obtain ⟨-, -, t', ⟨t₁, e₁, hskips, ht⟩, -⟩ := h.follows hR hg hs
    exact hskips.runs (.done ht)
  | skip hs _ ih =>
    obtain ⟨hdrifts, -, t', hskips, hnext⟩ := h.follows hR hg hs
    obtain ⟨g', hg', -⟩ := hdrifts g hg
    exact Skips.runs hskips (ih (hnext (by simp)) hg')
  | item hs _ ih =>
    obtain ⟨hdrifts, -, t', ⟨t₁, e₁, hskips, ht⟩, hnext⟩ := h.follows hR hg hs
    obtain ⟨g', hg', -⟩ := hdrifts g hg
    exact hskips.runs (.item ht (ih (hnext (by simp)) hg'))

end Following

end Stream

end PropertyGraph
