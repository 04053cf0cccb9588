/-
Streams that no one can tell apart by pulling. A pull works on a stream until an item or the end
comes (`Stream.Pulls`, the pulls of `Stream.pull` that come to something); two streams are the same
if every pull of one, in whatever state it is made, is matched by a pull of the other that brings
the same, leaves the same state but for the log, and leaves streams of which that is true again
(`Stream.Same`). A pull of a stage over a source is made of pulls of the source
(`Stream.Draws`, `Stream.pulls_iff_draws`), so that the same stages over sources that are the same
are the same (`Stream.Same.through`, `Stream.Same.ofSteps`), and runs of them come to the same
(`Stream.Same.folds`).
-/
import PropertyGraph.Proofs.LogBlind
import PropertyGraph.Proofs.Planning

namespace PropertyGraph

variable {σ β : Type} [Backend σ]

/-- What a stage leaves when its source has ended. -/
def Stage.close : Stage → Stream
  | .sink s => .given s.finish
  | _ => .empty

namespace Stream

/-! ## Pulls -/

/-- A pull of a stream from a state comes to this, and leaves this state. -/
inductive Pulls : Stream → Engine σ → Pulled → Engine σ → Prop
  | item {s s' : Stream} {e e' : Engine σ} {i : Item} (h : s.advance.run e = ((.item i, s'), e')) :
    Pulls s e (.item i s') e'
  | ended {s s' : Stream} {e e' : Engine σ} (h : s.advance.run e = ((.done, s'), e')) :
    Pulls s e .ended e'
  | skip {s s' : Stream} {e e₁ e' : Engine σ} {p : Pulled} (h : s.advance.run e = ((.skip, s'), e₁))
    (rest : Pulls s' e₁ p e') : Pulls s e p e'

variable {s t source : Stream} {e e' e₁ : Engine σ} {p q : Pulled} {stage : Stage}

/-- What a pull comes to after a piece of work that brought an event and left a stream. -/
def Onward : Event → Stream → Engine σ → Pulled → Engine σ → Prop
  | .item i, s, e, p, e' => p = .item i s ∧ e' = e
  | .skip, s, e, p, e' => s.Pulls e p e'
  | .done, _, e, p, e' => p = .ended ∧ e' = e

theorem pulls_iff_onward : s.Pulls e p e' ↔
    Onward (s.advance.run e).1.1 (s.advance.run e).1.2 (s.advance.run e).2 p e' := by
  generalize hs : s.advance.run e = r
  obtain ⟨⟨event, s'⟩, e₁⟩ := r
  constructor
  · intro h
    cases h with
    | item h | ended h =>
      cases hs.symm.trans h
      exact ⟨rfl, rfl⟩
    | skip h rest =>
      cases hs.symm.trans h
      exact rest
  · intro h
    cases event with
    | item i =>
      obtain ⟨rfl, rfl⟩ := h
      exact .item hs
    | skip => exact .skip hs h
    | done =>
      obtain ⟨rfl, rfl⟩ := h
      exact .ended hs

/-! ## Pulls of a stage -/

/-- How a stage over a source comes to something, after a piece of work that brought an event and
left this of the stage. -/
inductive Draws : Event × Leaves → Stream → Engine σ → Pulled → Engine σ → Prop
  | item (i : Item) (left : Leaves) (source : Stream) (e : Engine σ) :
    Draws (.item i, left) source e (.item i (left.over source)) e
  | done (left : Leaves) (source : Stream) (e : Engine σ) : Draws (.done, left) source e .ended e
  | stream {s source : Stream} {e e' : Engine σ} {p : Pulled} (h : s.Pulls e p e') :
    Draws (.skip, .stream s) source e p e'
  | work {stage : Stage} {work : Run σ (Event × Leaves)} {source : Stream} {e e' : Engine σ}
    {p : Pulled} (hwork : stage.work? = some work)
    (h : Draws (work.run e).1 source (work.run e).2 p e') : Draws (.skip, .stage stage) source e p e'
  | react {stage : Stage} {source rest : Stream} {i : Item} {e e₁ e' : Engine σ} {p : Pulled}
    (hwork : (stage.work? : Option (Run σ _)) = none) (hs : source.Pulls e (.item i rest) e₁)
    (h : Draws ((stage.react (.item i)).run e₁).1 rest ((stage.react (.item i)).run e₁).2 p e') :
    Draws (.skip, .stage stage) source e p e'
  | close {stage : Stage} {source : Stream} {e e₁ e' : Engine σ} {p : Pulled}
    (hwork : (stage.work? : Option (Run σ _)) = none) (hs : source.Pulls e .ended e₁)
    (h : stage.close.Pulls e₁ p e') : Draws (.skip, .stage stage) source e p e'

/-- Work of its own comes first. -/
theorem Pulls.work {work : Run σ (Event × Leaves)} (hwork : stage.work? = some work)
    (h : Onward (work.run e).1.1 ((work.run e).1.2.over source) (work.run e).2 p e') :
    (Stream.through stage source).Pulls e p e' := by
  rw [pulls_iff_onward, advance_work hwork]
  exact h

theorem onward_react_done :
    Onward ((stage.react .done).run e).1.1 (((stage.react .done).run e).1.2.over source)
      ((stage.react .done).run e).2 p e' ↔ stage.close.Pulls e p e' := by
  cases stage with
  | sink => rfl
  | _ => exact (pulls_iff_onward (s := .empty) (e := e)).symm

/-- A stage that waits does not notice pieces of work that bring nothing. -/
theorem through_pulls_skip (hwork : (stage.work? : Option (Run σ _)) = none)
    (h : source.advance.run e = ((.skip, s), e₁)) :
    (Stream.through stage source).Pulls e p e' ↔ (Stream.through stage s).Pulls e₁ p e' := by
  rw [pulls_iff_onward, advance_skipped hwork h]
  rfl

/-- Where it waits, a stage goes on with what its source brings. -/
theorem Pulls.react (hwork : (stage.work? : Option (Run σ _)) = none) {i : Item} {rest : Stream}
    (hs : source.Pulls e (.item i rest) e₁)
    (h : Onward ((stage.react (.item i)).run e₁).1.1
      (((stage.react (.item i)).run e₁).1.2.over rest) ((stage.react (.item i)).run e₁).2 p e') :
    (Stream.through stage source).Pulls e p e' := by
  generalize hq : Pulled.item i rest = q at hs
  induction hs with
  | item hs =>
    cases hq
    rw [pulls_iff_onward, advance_react hwork hs]
    exact h
  | ended => cases hq
  | skip hs _ ih => exact (through_pulls_skip hwork hs).2 (ih h hq)

theorem Pulls.close (hwork : (stage.work? : Option (Run σ _)) = none)
    (hs : source.Pulls e .ended e₁) (h : stage.close.Pulls e₁ p e') :
    (Stream.through stage source).Pulls e p e' := by
  generalize hq : Pulled.ended = q at hs
  induction hs with
  | item => cases hq
  | ended hs =>
    rw [pulls_iff_onward, advance_react hwork hs]
    exact onward_react_done.2 h
  | skip hs _ ih => exact (through_pulls_skip hwork hs).2 (ih h hq)

theorem Draws.onward {r : Event × Leaves} (h : Draws r source e p e') :
    Onward r.1 (r.2.over source) e p e' := by
  induction h with
  | item | done => exact ⟨rfl, rfl⟩
  | stream h => exact h
  | work hwork _ ih => exact .work hwork ih
  | react hwork hs _ ih => exact .react hwork hs ih
  | close hwork hs h => exact .close hwork hs h

/-- Pieces of work of the source that bring nothing make no difference. -/
theorem Draws.skip (hwork : (stage.work? : Option (Run σ _)) = none)
    (hs : source.advance.run e = ((.skip, s), e₁)) (h : Draws (.skip, .stage stage) s e₁ p e') :
    Draws (.skip, .stage stage) source e p e' := by
  cases h with
  | work hsome _ => exact absurd (hwork.symm.trans hsome) (by simp)
  | react hwork hpulls h => exact .react hwork (.skip hs hpulls) h
  | close hwork hpulls h => exact .close hwork (.skip hs hpulls) h

theorem draws_of_onward {r : Event × Leaves} (h : Onward r.1 (r.2.over source) e p e')
    (hskip : r.1 = .skip → Draws (.skip, r.2) source e p e') : Draws r source e p e' := by
  obtain ⟨event, left⟩ := r
  cases event with
  | item i =>
    obtain ⟨rfl, rfl⟩ := h
    exact .item i left source e'
  | skip => exact hskip rfl
  | done =>
    obtain ⟨rfl, rfl⟩ := h
    exact .done left source e'

/-- To follow a pull is to follow it piece of work by piece of work. -/
theorem Pulls.induct {motive : Stream → Engine σ → Pulled → Engine σ → Prop}
    (step : ∀ s e p e',
      Onward (s.advance.run e).1.1 (s.advance.run e).1.2 (s.advance.run e).2 p e' →
      ((s.advance.run e).1.1 = .skip → motive (s.advance.run e).1.2 (s.advance.run e).2 p e') →
      motive s e p e') (h : s.Pulls e p e') : motive s e p e' := by
  induction h with
  | item h | ended h => exact step _ _ _ _ (by rw [h]; exact ⟨rfl, rfl⟩) (by rw [h]; simp)
  | skip h rest ih => exact step _ _ _ _ (by rw [h]; exact rest) (by rw [h]; exact fun _ => ih)

/-- A pull of what a stage left over a source is made of pulls of the source. -/
theorem pulls_iff_draws (left : Leaves) :
    (left.over source).Pulls e p e' ↔ Draws (.skip, left) source e p e' := by
  refine ⟨fun h => ?_, Draws.onward⟩
  refine Pulls.induct (motive := fun t e p e' => ∀ (left : Leaves) source, left.over source = t →
    Draws (.skip, left) source e p e') (fun t e p e' hnext ih left source ht => ?_) h _ _ rfl
  subst ht
  cases left with
  | stream s => exact .stream (pulls_iff_onward.2 hnext)
  | stage stage =>
    rw [Leaves.over] at hnext ih
    cases hwork : (stage.work? : Option (Run σ _)) with
    | some work =>
      rw [advance_work hwork] at hnext ih
      exact .work hwork (draws_of_onward hnext fun hskip => ih hskip _ _ rfl)
    | none =>
      generalize hs : source.advance.run e = r
      obtain ⟨⟨event, source'⟩, e₁⟩ := r
      rw [advance_react hwork hs] at hnext ih
      cases event with
      | item i =>
        exact .react hwork (.item hs) (draws_of_onward hnext fun hskip => ih hskip _ _ rfl)
      | done => exact .close hwork (.ended hs) (onward_react_done.1 hnext)
      | skip =>
        rw [Stage.react_skip] at ih
        exact .skip hwork hs (ih rfl (.stage stage) _ rfl)

end Stream

/-! ## The same streams -/

/-- The same comes of two pulls, and streams in a relation are left. -/
inductive Pulled.Matches (R : Stream → Stream → Prop) : Pulled → Pulled → Prop
  | item (i : Item) {s t : Stream} (h : R s t) : Matches R (.item i s) (.item i t)
  | ended : Matches R .ended .ended

namespace Pulled.Matches

variable {R R' : Stream → Stream → Prop} {p q r : Pulled}

theorem mono (hR : ∀ {s t}, R s t → R' s t) (h : p.Matches R q) : p.Matches R' q := by
  cases h with
  | item i h => exact .item i (hR h)
  | ended => exact .ended

theorem comp (h : p.Matches R q) (h' : q.Matches R' r) :
    p.Matches (fun s u => ∃ t, R s t ∧ R' t u) r := by
  cases h with
  | item i h =>
    cases h' with
    | item _ h' => exact .item i ⟨_, h, h'⟩
  | ended =>
    cases h'
    exact .ended

end Pulled.Matches

namespace Stream

variable {s t u source : Stream} {e e' e₁ : Engine σ} {p : Pulled}

variable (σ) in
/-- Of streams in a relation, every pull of the first is matched by one of the second in a state
that is alike. -/
def Mimics (R : Stream → Stream → Prop) : Prop :=
  ∀ s t, R s t → ∀ (e e' : Engine σ), e.Alike e' → ∀ p e₁, s.Pulls e p e₁ →
    ∃ q e₁', t.Pulls e' q e₁' ∧ p.Matches R q ∧ e₁.Alike e₁'

variable (σ) in
/-- Two streams cannot be told apart by pulling, whatever becomes of the engine between the pulls:
they are in a relation in which pulls are matched both ways. -/
def Same (s t : Stream) : Prop :=
  ∃ R : Stream → Stream → Prop, Mimics σ R ∧ Mimics σ (fun s t => R t s) ∧ R s t

/-- What comes of a pull does not depend on the log. -/
theorem Pulls.alike (h : s.Pulls e p e₁) (he : e.Alike e') :
    ∃ e₁', s.Pulls e' p e₁' ∧ e₁.Alike e₁' := by
  induction h generalizing e' with
  | item h =>
    obtain ⟨e₁', h', hend⟩ := (Blind.advance_stream _).alike he h
    exact ⟨e₁', .item h', hend⟩
  | ended h =>
    obtain ⟨e₁', h', hend⟩ := (Blind.advance_stream _).alike he h
    exact ⟨e₁', .ended h', hend⟩
  | skip h _ ih =>
    obtain ⟨e₂, h', hbetween⟩ := (Blind.advance_stream _).alike he h
    obtain ⟨e₁', hrest, hend⟩ := ih hbetween
    exact ⟨e₁', .skip h' hrest, hend⟩

theorem Pulls.matches_self (h : s.Pulls e p e₁) {R : Stream → Stream → Prop} (hR : ∀ s, R s s) :
    p.Matches R p := by
  induction h with
  | item => exact .item _ (hR _)
  | ended => exact .ended
  | skip _ _ ih => exact ih

/-- It is enough to match pulls in one state. -/
theorem mimics_of_pulls {R : Stream → Stream → Prop}
    (h : ∀ s t, R s t → ∀ (e : Engine σ) p e₁, s.Pulls e p e₁ →
      ∃ q, t.Pulls e q e₁ ∧ p.Matches R q) : Mimics σ R := by
  intro s t hst e e' he p e₁ hpulls
  obtain ⟨q, hpulls', hmatch⟩ := h s t hst e p e₁ hpulls
  obtain ⟨e₁', hpulls'', hend⟩ := hpulls'.alike he
  exact ⟨q, e₁', hpulls'', hmatch, hend⟩

/-- A relation that goes both ways. -/
theorem Same.of_symmetric {R : Stream → Stream → Prop} (hsymm : ∀ {s t}, R s t → R t s)
    (h : Mimics σ R) (hst : R s t) : Same σ s t :=
  ⟨R, h, fun s t hst e e' he p e₁ hpulls => by
    obtain ⟨q, e₁', hpulls', hmatch, hend⟩ := h s t (hsymm hst) e e' he p e₁ hpulls
    exact ⟨q, e₁', hpulls', hmatch.mono hsymm, hend⟩, hst⟩

theorem Same.refl (s : Stream) : Same σ s s := by
  refine .of_symmetric (R := Eq) Eq.symm (mimics_of_pulls ?_) rfl
  rintro s _ rfl e p e₁ hpulls
  exact ⟨p, hpulls, hpulls.matches_self fun _ => rfl⟩

theorem Same.symm (h : Same σ s t) : Same σ t s := by
  obtain ⟨R, hforth, hback, hst⟩ := h
  exact ⟨fun s t => R t s, hback, hforth, hst⟩

theorem Mimics.comp {R R' : Stream → Stream → Prop} (h : Mimics σ R) (h' : Mimics σ R') :
    Mimics σ fun s u => ∃ t, R s t ∧ R' t u := by
  rintro s u ⟨t, hst, htu⟩ e e' he p e₁ hpulls
  obtain ⟨q, e₂, hpulls, hmatch, hend⟩ := h s t hst e e (.refl e) p e₁ hpulls
  obtain ⟨r, e₃, hpulls, hmatch', hend'⟩ := h' t u htu e e' he q e₂ hpulls
  exact ⟨r, e₃, hpulls, hmatch.comp hmatch', hend.trans hend'⟩

theorem Same.trans (h : Same σ s t) (h' : Same σ t u) : Same σ s u := by
  obtain ⟨R, hforth, hback, hst⟩ := h
  obtain ⟨R', hforth', hback', htu⟩ := h'
  exact ⟨_, hforth.comp hforth', by simpa only [and_comm] using hback'.comp hback, t, hst, htu⟩

/-- Streams that are the same match pulls with pulls that leave streams that are the same. -/
theorem mimics_same : Mimics σ (Same σ) := by
  rintro s t ⟨R, hforth, hback, hst⟩ e e' he p e₁ hpulls
  obtain ⟨q, e₁', hpulls, hmatch, hend⟩ := hforth s t hst e e' he p e₁ hpulls
  exact ⟨q, e₁', hpulls, hmatch.mono fun h => ⟨R, hforth, hback, h⟩, hend⟩

/-! ## The same stages over sources that are the same -/

variable (σ) in
/-- Streams that are the same, or the same stage over such streams. -/
inductive Covers : Stream → Stream → Prop
  | same {s t : Stream} (h : Same σ s t) : Covers s t
  | through (stage : Stage) {s t : Stream} (h : Same σ s t) :
    Covers (.through stage s) (.through stage t)

theorem Covers.symm (h : Covers σ s t) : Covers σ t s := by
  cases h with
  | same h => exact .same h.symm
  | through stage h => exact .through stage h.symm

theorem covers_over (left : Leaves) (h : Same σ s t) : Covers σ (left.over s) (left.over t) := by
  cases left with
  | stage stage => exact .through stage h
  | stream s => exact .same (.refl s)

/-- What a stage comes to over a source it comes to over one that is the same. -/
theorem Draws.matched {r : Event × Leaves} (h : Draws r source e p e₁) (hst : Same σ source t)
    (he : e.Alike e') : ∃ q e₁', Onward r.1 (r.2.over t) e' q e₁' ∧ p.Matches (Covers σ) q ∧
      e₁.Alike e₁' := by
  induction h generalizing t e' with
  | item i left source e => exact ⟨_, e', ⟨rfl, rfl⟩, .item i (covers_over left hst), he⟩
  | done left source e => exact ⟨_, e', ⟨rfl, rfl⟩, .ended, he⟩
  | stream hpulls =>
    obtain ⟨e₁', hpulls', hend⟩ := hpulls.alike he
    exact ⟨_, e₁', hpulls', hpulls.matches_self fun s => .same (.refl s), hend⟩
  | work hwork h ih =>
    obtain ⟨e₂, hrun, hbetween⟩ := (Blind.work hwork).alike he rfl
    obtain ⟨q, e₁', hnext, hmatch, hend⟩ := ih hst hbetween
    exact ⟨q, e₁', .work hwork (by rwa [hrun]), hmatch, hend⟩
  | @react stage source rest i e e₂ e₁ p hwork hs h ih =>
    obtain ⟨q, e₂', hs', hmatch, hbetween⟩ := mimics_same source t hst e e' he _ e₂ hs
    cases hmatch with
    | item _ hrest =>
      obtain ⟨e₃, hrun, hreacted⟩ := (Blind.react stage (.item i)).alike hbetween rfl
      obtain ⟨q, e₁', hnext, hmatch, hend⟩ := ih hrest hreacted
      exact ⟨q, e₁', .react hwork hs' (by rwa [hrun]), hmatch, hend⟩
  | @close stage source e e₂ e₁ p hwork hs h =>
    obtain ⟨q, e₂', hs', hmatch, hbetween⟩ := mimics_same source t hst e e' he _ e₂ hs
    cases hmatch with
    | ended =>
      obtain ⟨e₁', hpulls, hend⟩ := h.alike hbetween
      exact ⟨p, e₁', .close hwork hs' hpulls, h.matches_self fun s => .same (.refl s), hend⟩

/-- The same stage over sources that are the same. -/
theorem Same.through (stage : Stage) (h : Same σ s t) :
    Same σ (.through stage s) (.through stage t) := by
  refine .of_symmetric (R := Covers σ) Covers.symm ?_ (.through stage h)
  intro s t hst e e' he p e₁ hpulls
  cases hst with
  | same hst =>
    obtain ⟨q, e₁', hpulls', hmatch, hend⟩ := mimics_same s t hst e e' he p e₁ hpulls
    exact ⟨q, e₁', hpulls', hmatch.mono .same, hend⟩
  | through stage hst => exact ((pulls_iff_draws (.stage stage)).1 hpulls).matched hst he

/-- The same steps behind sources that are the same. -/
theorem Same.ofSteps (steps : List Step) (h : Same σ s t) :
    Same σ (s.ofSteps steps) (t.ofSteps steps) := by
  induction steps generalizing s t with
  | nil => exact h
  | cons step steps ih => exact ih (h.through step.stage)

end Stream

/-! ## Runs to the end -/

/-- Whatever the budget is, if only it is large enough, a run ends with this, in this state. -/
def Ends {α : Type} (run : Nat → Attempt σ (Option α)) (e : Engine σ)
    (r : Except Error α) (e' : Engine σ) : Prop :=
  ∃ n, ∀ budget, n ≤ budget → (run budget).run.run e = (r.map some, e')

namespace Stream

variable {s t source : Stream} {e e' e₁ : Engine σ} {p : Pulled}

/-- A fold over the items of a stream ends with this, in this state. -/
inductive Folds (f : β → Item → Except Error β) :
    β → Stream → Engine σ → Except Error β → Engine σ → Prop
  | done {b : β} {s : Stream} {e e' : Engine σ} (h : s.Pulls e .ended e') : Folds f b s e (.ok b) e'
  | error {b : β} {s s' : Stream} {e e' : Engine σ} {i : Item} {err : Error}
    (h : s.Pulls e (.item i s') e') (hf : f b i = .error err) : Folds f b s e (.error err) e'
  | item {b b' : β} {s s' : Stream} {e e₁ e' : Engine σ} {i : Item} {r : Except Error β}
    (h : s.Pulls e (.item i s') e₁) (hf : f b i = .ok b') (rest : Folds f b' s' e₁ r e') :
    Folds f b s e r e'

variable {f : β → Item → Except Error β} {b : β} {r : Except Error β}

theorem Folds.skip (hs : s.advance.run e = ((.skip, t), e₁)) (h : Folds f b t e₁ r e') :
    Folds f b s e r e' := by
  cases h with
  | done h => exact .done (.skip hs h)
  | error h hf => exact .error (.skip hs h) hf
  | item h hf rest => exact .item (.skip hs h) hf rest

/-- What a fold comes to within a budget it ends with. -/
theorem folds_of_run {budget : Nat} (h : (fold? f budget b s).run.run e = (r.map some, e')) :
    Folds f b s e r e' := by
  induction budget generalizing b s e with
  | zero => cases r <;> cases h
  | succ budget ih =>
    generalize hs : s.advance.run e = next
    obtain ⟨⟨event, s'⟩, e₁⟩ := next
    cases event with
    | item i =>
      rw [fold?_item hs] at h
      cases hf : f b i with
      | ok b' =>
        rw [hf] at h
        exact .item (.item hs) hf (ih h)
      | error err =>
        rw [hf] at h
        cases r <;> cases h
        exact .error (.item hs) hf
    | skip =>
      rw [fold?_skip hs] at h
      exact .skip hs (ih h)
    | done =>
      rw [fold?_done hs] at h
      cases r <;> cases h
      exact .done (.ended hs)

/-- How a fold goes on behind a pull. -/
def foldBehind (f : β → Item → Except Error β) (budget : Nat) (b : β) :
    Pulled → Attempt σ (Option β)
  | .item i rest => do fold? f budget (← MonadExcept.ofExcept (f b i)) rest
  | .ended => return some b
  | .unfinished rest => fold? f budget b rest

theorem Pulls.fold?_run (h : s.Pulls e p e₁) (f : β → Item → Except Error β) : ∃ n, ∀ budget b,
    (fold? f (budget + n) b s).run.run e = (foldBehind f budget b p).run.run e₁ := by
  induction h with
  | @item s s' e e' i h =>
    refine ⟨1, fun budget b => ?_⟩
    rw [fold?_item h, foldBehind]
    cases f b i <;> rfl
  | ended h => exact ⟨1, fun budget b => fold?_done h f budget b⟩
  | skip h _ ih =>
    obtain ⟨n, hn⟩ := ih
    exact ⟨n + 1, fun budget b => (fold?_skip h f (budget + n) b).trans (hn budget b)⟩

theorem Folds.ends (h : Folds f b s e r e') : Ends (fun budget => s.fold? f budget b) e r e' := by
  induction h with
  | @done b s e e' h =>
    obtain ⟨n, hn⟩ := h.fold?_run f
    refine ⟨n, fun budget hbudget => ?_⟩
    obtain ⟨k, rfl⟩ := Nat.exists_eq_add_of_le' hbudget
    exact hn k b
  | @error b s s' e e' i err h hf =>
    obtain ⟨n, hn⟩ := h.fold?_run f
    refine ⟨n, fun budget hbudget => ?_⟩
    obtain ⟨k, rfl⟩ := Nat.exists_eq_add_of_le' hbudget
    rw [hn k b, foldBehind, hf]
    rfl
  | @item b b' s s' e e₁ e' i r h hf _ ih =>
    obtain ⟨n, hn⟩ := h.fold?_run f
    obtain ⟨m, hm⟩ := ih
    refine ⟨m + n, fun budget hbudget => ?_⟩
    obtain ⟨k, rfl⟩ := Nat.exists_eq_add_of_le' hbudget
    rw [← Nat.add_assoc, hn (k + m) b, foldBehind, Attempt.ofExcept_ok_bind hf]
    exact hm (k + m) (Nat.le_add_left m k)

/-- Folds over streams that are the same end with the same, in states that are alike. -/
theorem Same.folds (hst : Same σ s t) (he : e.Alike e') (h : Folds f b s e r e₁) :
    ∃ e₁', Folds f b t e' r e₁' ∧ e₁.Alike e₁' := by
  induction h generalizing t e' with
  | @done b s e e₁ h =>
    obtain ⟨q, e₁', hpulls, hmatch, hend⟩ := mimics_same s t hst e e' he _ e₁ h
    cases hmatch with
    | ended => exact ⟨e₁', .done hpulls, hend⟩
  | @error b s s' e e₁ i err h hf =>
    obtain ⟨q, e₁', hpulls, hmatch, hend⟩ := mimics_same s t hst e e' he _ e₁ h
    cases hmatch with
    | item => exact ⟨e₁', .error hpulls hf, hend⟩
  | @item b b' s s' e e₂ e₁ i r h hf _ ih =>
    obtain ⟨q, e₂', hpulls, hmatch, hbetween⟩ := mimics_same s t hst e e' he _ e₂ h
    cases hmatch with
    | item _ hrest =>
      obtain ⟨e₁', hfolds, hend⟩ := ih hrest hbetween
      exact ⟨e₁', .item hpulls hf hfolds, hend⟩

theorem results?_run {budget : Nat} {found : Except Error (Option (List Json))}
    (h : (s.fold? (fun found item => item.map (·.toJson :: found)) budget []).run.run e =
      (found, e')) :
    (s.results? budget).run.run e = (found.map (·.map List.reverse), e') := by
  cases found with
  | error err => exact Attempt.bind_error h _
  | ok found => exact Attempt.bind_ok h _

theorem folds_of_results {budget : Nat} {r : Except Error (List Json)}
    (h : (s.results? budget).run.run e = (r.map some, e')) :
    Folds (fun found item => item.map (·.toJson :: found)) [] s e (r.map List.reverse) e' := by
  generalize hfold : (s.fold? (fun found item => item.map (·.toJson :: found)) budget []).run.run e =
    found at h
  obtain ⟨found, e₁⟩ := found
  rw [results?_run hfold] at h
  have hfound : found = (r.map List.reverse).map some := by
    rcases found with err | (_ | found) <;> rcases r with err' | l <;> cases h
    · rfl
    · simp [Except.map]
  obtain rfl : e₁ = e' := (Prod.mk.inj h).2
  exact folds_of_run (hfound ▸ hfold)

theorem Folds.results {r : Except Error (List Json)}
    (h : Folds (fun found item => item.map (·.toJson :: found)) [] s e (r.map List.reverse) e') :
    Ends s.results? e r e' := by
  obtain ⟨n, hn⟩ := h.ends
  refine ⟨n, fun budget hbudget => ?_⟩
  rw [results?_run (hn budget hbudget)]
  cases r <;> simp [Except.map]

/-- So do runs for the results. -/
theorem Same.results (hst : Same σ s t) (he : e.Alike e') {r : Except Error (List Json)}
    (h : Ends s.results? e r e₁) : ∃ e₁', Ends t.results? e' r e₁' ∧ e₁.Alike e₁' := by
  obtain ⟨n, hn⟩ := h
  obtain ⟨e₁', hfolds, hend⟩ := hst.folds he (folds_of_results (hn n le_rfl))
  exact ⟨e₁', hfolds.results, hend⟩

end Stream

end PropertyGraph
