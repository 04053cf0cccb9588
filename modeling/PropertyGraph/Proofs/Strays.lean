/-
Vertices that went before a scan of their label came to them. The scan still hands them over,
where a filter by the label leaves them out (`Finder.Fronts.advance`). No step to their edges or
neighbours makes anything of them, so behind such a step the two bring the same
(`Finder.Crosses.follows`). And where a query goes nowhere, it drops no vertex that is still to
be handed over (`Finder.Fronts.runs_drop`).
-/
import PropertyGraph.Proofs.LabelScan

namespace PropertyGraph

open PropertyGraph.Graph

/-! ## Vertices that went -/

/-- The text of a value can be read. -/
def Json.Readable (value : Json) : Prop := (Json.parse? value.text).isSome = true

instance (value : Json) : Decidable value.Readable := inferInstanceAs (Decidable (_ = true))

namespace Multigraph

/-- There is no such vertex, and what there is under some keys can be read. -/
def Gone (g : Multigraph) (keys : List String) (id : String) : Prop :=
  id ∉ g.ids .vertex ∧
    ∀ key ∈ keys, ∀ value, g.property .vertex id key = some value → value.Readable

variable {g : Multigraph} {keys : List String} {id : String}

theorem Gone.setProperty (h : g.Gone keys id) (kind : ElementKind) (id' : String) {key : String}
    {value : Json} (hvalue : key ∈ keys → value.Readable) :
    (g.setProperty kind id' key value).Gone keys id := by
  refine ⟨h.1, fun k hk v hv => ?_⟩
  simp only [Multigraph.setProperty] at hv
  split at hv
  · rename_i heq
    cases hv
    exact hvalue (heq.2.2 ▸ hk)
  · exact h.2 k hk v hv

theorem Gone.removeEdges (h : g.Gone keys id) (gone : List String) :
    (g.removeEdges gone).Gone keys id :=
  ⟨fun hid => h.1 (mem_ids_removeEdges.1 hid).1, fun key hkey value hvalue =>
    h.2 key hkey value (by simpa [Multigraph.removeEdges] using hvalue)⟩

/-- A vertex that is dropped has gone. -/
theorem gone_removeVertex (h : id ∈ g.ids .vertex ∨ g.Gone keys id) (gone : String) :
    id ∈ (g.removeVertex gone).ids .vertex ∨ (g.removeVertex gone).Gone keys id := by
  by_cases hid : id = gone
  · subst hid
    refine .inr ⟨fun h => (mem_ids_removeVertex.1 h).2 ⟨rfl, rfl⟩, fun key _ value hvalue => ?_⟩
    simp [removeVertex] at hvalue
  · rcases h with h | h
    · exact .inl (mem_ids_removeVertex.2 ⟨h, fun hgone => hid hgone.2⟩)
    · refine .inr ⟨fun hthere => h.1 (mem_ids_removeVertex.1 hthere).1, fun key hkey value hvalue => ?_⟩
      exact h.2 key hkey value (by simpa [removeVertex, hid] using hvalue)

/-- No edge is at a vertex that is not there. -/
theorem edgesBy_eq_nil (hg : g.Sound) (hid : id ∉ g.ids .vertex) (d : Direction)
    (labels : List String) : g.edgesBy id d labels = [] := by
  rw [List.eq_nil_iff_forall_not_mem]
  intro x hx
  obtain ⟨hmem, hnear, -⟩ := mem_edgesBy.1 hx
  exact hid (hnear ▸ hg.ends x hmem d)

end Multigraph

/-- Vertices go and none come, and those that went stay gone. -/
def Drift.withering (keys : List String) : Drift where
  rel g g' := (∀ v ∈ g'.vertices, v ∈ g.vertices) ∧
    ∀ id, id ∈ g.ids .vertex ∨ g.Gone keys id → id ∈ g'.ids .vertex ∨ g'.Gone keys id
  refl _ := ⟨fun _ h => h, fun _ h => h⟩
  trans h h' := ⟨fun v hv => h.1 v (h'.1 v hv), fun id hid => h'.2 id (h.2 id hid)⟩

/-- Every step keeps to that which sets nothing unreadable under the keys. -/
theorem Drift.withering_allows {keys : List String} {a : ResultType} {step : Step}
    (h : ∀ key value, step = .property key value → key ∈ keys → value.Readable) :
    (Drift.withering keys).Allows a step where
  setProperty key value hstep g kind id := by
    refine ⟨fun v hv => hv, fun id' hid => ?_⟩
    rcases hid with hid | hid
    · exact .inl hid
    · exact .inr (hid.setProperty kind id (h key value hstep))
  dropVertex _ _ g id := by
    refine ⟨fun v hv => (List.mem_filter.1 hv).1, fun id' hid => ?_⟩
    refine Multigraph.gone_removeVertex ?_ id
    rcases hid with hid | hid
    · exact .inl (Multigraph.mem_ids_removeEdges.2 ⟨hid, by simp⟩)
    · exact .inr (hid.removeEdges _)
  dropEdge _ _ g id := by
    refine ⟨fun v hv => hv, fun id' hid => ?_⟩
    rcases hid with hid | hid
    · exact .inl (Multigraph.mem_ids_removeEdges.2 ⟨hid, by simp⟩)
    · exact .inr (hid.removeEdges _)

/-- A graph stays as it is. -/
def Drift.still : Drift where
  rel g g' := g' = g
  refl _ := rfl
  trans h h' := h'.trans h

/-! ## Stages in front -/

/-- A stage that hands vertices on as they are, or keeps them back. -/
def Stage.HandsOn : Stage → Prop
  | .filter (.having _ _) | .limit _ => True
  | .filter (.setting key _) => IsPropertyKey key
  | _ => False

/-- A stage that only looks at vertices, by some keys. -/
def Stage.Looks (keys : List String) : Stage → Prop
  | .filter (.having key _) => key ∈ keys ∧ Key.isToken key = true
  | _ => False

theorem Stage.Looks.handsOn {keys : List String} {stage : Stage} (h : stage.Looks keys) :
    stage.HandsOn := by
  cases stage with
  | filter f =>
    cases f with
    | having => trivial
    | setting | ids | labels | valueMaps => exact h.elim
  | expand | limit | sink => exact h.elim

variable {σ : Type} [Backend σ] [LawfulBackend σ] {e : Engine σ} {g : Multigraph}

omit [Backend σ] [LawfulBackend σ] in
theorem Stage.HandsOn.walks {stage : Stage} (h : stage.HandsOn) :
    stage.Walks Drift.sameVertices .vertex .vertex := by
  cases stage with
  | limit => rfl
  | filter f =>
    cases f with
    | having => rfl
    | setting => exact ⟨rfl, h, fun _ _ _ => rfl⟩
    | ids | labels | valueMaps => exact h.elim
  | expand | sink => exact h.elim

omit [Backend σ] [LawfulBackend σ] in
theorem Stage.Looks.walks {keys : List String} {stage : Stage} (h : stage.Looks keys) (d : Drift) :
    stage.Walks d .vertex .vertex := by
  cases stage with
  | filter f =>
    cases f with
    | having => rfl
    | setting | ids | labels | valueMaps => exact h.elim
  | expand | limit | sink => exact h.elim

omit [Backend σ] [LawfulBackend σ] in
theorem Stage.Looks.eq_of_walks {keys : List String} {stage : Stage} (h : stage.Looks keys) {d : Drift}
    {a b : ResultType} (hwalks : stage.Walks d a b) : a = b := by
  cases stage with
  | filter f =>
    cases f with
    | having => exact hwalks
    | setting | ids | labels | valueMaps => exact h.elim
  | expand | limit | sink => exact h.elim

omit [LawfulBackend σ] in
/-- What such a stage brings is what it was handed. -/
theorem Stage.HandsOn.react {stage : Stage} (h : stage.HandsOn) (event : Event) (e : Engine σ) :
    (∀ t, ((stage.react event).run e).1.1 = .item (.ok t) → event = .item (.ok t)) ∧
      (((stage.react event).run e).1.1 ≠ .done → event ≠ .done ∧ ∃ stage' : Stage,
        ((stage.react event).run e).1.2 = .stage stage' ∧ stage'.HandsOn ∧
          ∀ keys, stage.Looks keys → stage'.Looks keys) := by
  cases stage with
  | expand | sink => exact h.elim
  | limit left =>
    cases event with
    | done => exact ⟨fun _ ht => ht, fun hne => absurd rfl hne⟩
    | skip => exact ⟨fun _ ht => ht, fun _ => ⟨by simp, _, rfl, trivial, fun _ h => h⟩⟩
    | item i => exact ⟨fun _ ht => ht, fun _ => ⟨by simp, _, rfl, trivial, fun _ h => h.elim⟩⟩
  | filter f =>
    rcases event with (err | t) | _ | _
    case item.error | skip =>
      exact ⟨fun _ ht => ht, fun _ => ⟨by simp, _, rfl, h, fun _ h => h⟩⟩
    case done => exact ⟨fun _ ht => ht, fun hne => absurd rfl hne⟩
    case item.ok =>
      have hsame : Gives (f.apply t : Attempt σ _) fun found => ∀ t', found = some t' → t' = t := by
        cases f with
        | having key value => exact Filter.gives_having key value t
        | setting key value => exact Filter.gives_setting key value t
        | ids | labels | valueMaps => exact h.elim
      have hsame := hsame e
      simp only [Stage.react, Run.bind_run, Engine.outcome]
      generalize (f.apply t).run.run e = r at hsame
      obtain ⟨outcome, e'⟩ := r
      rcases outcome with err | (_ | t')
      case ok.some =>
        obtain rfl := hsame _ rfl t' rfl
        exact ⟨fun _ ht => ht, fun _ => ⟨by simp, _, rfl, h, fun _ h => h⟩⟩
      case ok.none | error =>
        refine ⟨fun _ ht => ?_, fun _ => ⟨by simp, _, rfl, h, fun _ h => h⟩⟩
        cases ht

namespace Finder

/-- What comes from the vertices left to find: one of them, or none. -/
inductive Hands : List String → Event → List String → Prop
  | vertex (id : String) (ids : List String) : Hands (id :: ids) (.item (.ok (.vertex id))) ids
  | other {ids ids' : List String} {event : Event} (hevent : ∀ t, event ≠ .item (.ok t))
    (hids : ids' <:+ ids) : Hands ids event ids'

/-- What comes where the strays are not left out. -/
inductive Meanwhile (stray : String → Prop) : Event → Event → Prop
  | same (event : Event) : Meanwhile stray event event
  | stray {id : String} (hid : Key.isToken id = true) (h : stray id) :
    Meanwhile stray .skip (.item (.ok (.vertex id)))

/-- The same stages over a scan of a label, behind a filter by the label and without. Where
strays may come, the stages only look at vertices. -/
inductive Fronts (l : String) (stray : Multigraph → String → Prop) (looked keys : List String)
    (g : Multigraph) : List String → Stream → Stream → Prop
  | source {ids : List String} {n : Nat} {s : Stream}
    (h : (Finder.labeled l).At l stray keys g ids n s) :
    Fronts l stray looked keys g ids (behind l true s) s
  | through {ids : List String} {stage : Stage} {s t : Stream} (hands : stage.HandsOn)
    (looks : stray = noStray ∨ stage.Looks looked) (h : Fronts l stray looked keys g ids s t) :
    Fronts l stray looked keys g ids (.through stage s) (.through stage t)

variable {l : String} {stray : Multigraph → String → Prop} {looked ids : List String} {s t : Stream}

omit [Backend σ] [LawfulBackend σ] in
theorem Hands.left {event : Event} {ids' : List String} (h : Hands ids event ids') : ids' <:+ ids := by
  cases h with
  | vertex id => exact List.suffix_cons id ids'
  | other _ hids => exact hids

omit [Backend σ] [LawfulBackend σ] in
/-- A stage that hands vertices on brings no others. -/
theorem Hands.through {event event' : Event} {ids' : List String} (h : Hands ids event ids')
    (hsame : ∀ t, event' = .item (.ok t) → event = .item (.ok t)) : Hands ids event' ids' := by
  by_cases hitem : ∃ t, event' = .item (.ok t)
  · obtain ⟨t, rfl⟩ := hitem
    rwa [hsame t rfl] at h
  · exact .other (fun t ht => hitem ⟨t, ht⟩) h.left

omit [Backend σ] [LawfulBackend σ] in
theorem Fronts.found {keys : List String} (h : Fronts l stray looked keys g ids s t) :
    ∀ id ∈ ids, id ∈ g.labeled l := by
  induction h with
  | source h => exact h.found
  | through _ _ _ ih => exact ih

omit [Backend σ] [LawfulBackend σ] in
theorem Hands.known {event : Event} {ids' : List String} (h : Hands ids event ids')
    (hids : ∀ id ∈ ids, id ∈ g.labeled l) (hg : g.Sound) : event.Known .vertex := by
  cases h with
  | vertex id ids =>
    intro t ht
    cases ht
    exact hg.isToken_labeled (hids id (by simp))
  | other hevent =>
    cases event with
    | skip | done => trivial
    | item i =>
      rintro t rfl
      exact absurd rfl (hevent t)

/-- When vertices went, those that are still there are left. -/
theorem Fronts.drift (h : Fronts l stray looked e.keys g ids s t) (hl : Key.isToken l = true)
    (hg : e.Keeps g) {e' : Engine σ} {g' : Multigraph} (hg' : e'.Keeps g')
    (hsub : ∀ v ∈ g'.vertices, v ∈ g.vertices)
    (hstay : ∀ id, id ∈ ids ∨ stray g id → id ∈ g'.labeled l ∨ stray g' id) :
    Fronts l stray looked e'.keys g' (ids.filter (· ∈ g'.labeled l)) s t := by
  induction h with
  | source h =>
    obtain ⟨_, -, h⟩ := h.drift ⟨hl, .inr rfl⟩ (.inl rfl) hg hg' hsub hstay
    exact .source h
  | through hands looks _ ih => exact .through hands looks ih

/-- A filter looks at a vertex that went, and finds nothing it could not read. -/
theorem having_run_gone (hg : e.Keeps g) {id key : String} (hid : Key.isToken id = true)
    (hgone : g.Gone looked id) (hkey : key ∈ looked ∧ Key.isToken key = true) (value : Json) :
    ∃ found : Bool, (Filter.apply (.having key value) (.vertex id)).run.run e =
      (.ok (if found then some (.vertex id) else none), e) := by
  suffices h : ∃ found, (Filter.holds .vertex id key value).run.run e = (.ok found, e) by
    obtain ⟨found, h⟩ := h
    exact ⟨found, having_run h⟩
  rw [Filter.holds]
  split
  · have hlabel : ∃ found, (getLabel .vertex id).run.run e = (.ok found, e) :=
      ⟨_, Attempt.bind_ok (Engine.get_run _ e) _⟩
    obtain ⟨found, hlabel⟩ := hlabel
    exact ⟨_, Attempt.bind_ok hlabel _⟩
  · split
    · exact ⟨_, rfl⟩
    · have hproperty : ∃ found, (getProperty .vertex id key).run.run e = (.ok found, e) := by
        obtain ⟨-, neighbors, -, hholds⟩ := hg
        have hstored : ((LawfulBackend.entries e.store).get? (Key.property .vertex id key)).map (·.value) =
            (g.property .vertex id key).map (.text ·.text) :=
          hholds.stored (.plain (.property .vertex id key)) ⟨hid, hkey.2⟩
        have hget := Engine.get_run (Key.property .vertex id key) e
        cases hentry : (LawfulBackend.entries e.store).get? (Key.property .vertex id key) with
        | none =>
          rw [hentry] at hget
          exact ⟨_, Attempt.bind_ok hget _⟩
        | some entry =>
          rw [hentry] at hget hstored
          obtain ⟨v, hv, htext⟩ := Option.map_eq_some_iff.1 hstored.symm
          obtain ⟨found, hfound⟩ := Option.isSome_iff_exists.1 (hgone.2 key hkey.1 v hv)
          have hjson : readJson entry = .ok found := by
            rw [readJson, ← show Blob.text v.text = entry.value from htext, Blob.json?, hfound]
          refine ⟨some found, (Attempt.bind_ok hget _).trans ?_⟩
          dsimp only
          rw [hjson]
          rfl
      obtain ⟨found, hproperty⟩ := hproperty
      exact ⟨_, Attempt.bind_ok hproperty _⟩

end Finder

/-- A stage that looks at a vertex that went lets it pass or not. -/
theorem Stage.Looks.react_gone {keys : List String} {stage : Stage} (h : stage.Looks keys)
    (hg : e.Keeps g) {id : String} (hid : Key.isToken id = true) (hgone : g.Gone keys id) :
    ∃ found : Bool, (stage.react (.item (.ok (.vertex id)))).run e =
      ((if found then .item (.ok (.vertex id)) else .skip, .stage stage), e) := by
  cases stage with
  | filter f =>
    cases f with
    | having key value =>
      obtain ⟨found, hrun⟩ := Finder.having_run_gone hg hid hgone h value
      refine ⟨found, ?_⟩
      simp only [Stage.react, Run.bind_run, Engine.outcome, hrun]
      cases found <;> rfl
    | setting | ids | labels | valueMaps => exact h.elim
  | expand | limit | sink => exact h.elim

namespace Finder

variable {l : String} {stray : Multigraph → String → Prop} {looked ids : List String} {s t : Stream}

/-- One piece of work on both. -/
theorem Fronts.advance (h : Fronts l stray looked e.keys g ids s t) (hl : Key.isToken l = true)
    (hgone : ∀ g id, stray g id → g.Gone looked id) {d : Drift}
    (hwalks : ∀ stage : Stage, stage.HandsOn → stray = noStray ∨ stage.Looks looked →
      stage.Walks d .vertex .vertex)
    (hd : ∀ g g', d.rel g g' → g'.vertices = g.vertices ∧ ∀ id, stray g id → stray g' id)
    (hg : e.Keeps g) :
    ∃ event event' s' t' e' g' ids', s.advance.run e = ((event, s'), e') ∧
      t.advance.run e = ((event', t'), e') ∧ e.Drifts d e' ∧ e'.Keeps g' ∧
      Meanwhile (stray g') event event' ∧ Hands ids event ids' ∧
      (event ≠ .done → Fronts l stray looked e'.keys g' ids' s' t') := by
  induction h with
  | source h =>
    obtain ⟨event, s', ids', hrun, hfinds, hnext⟩ := h.advance ⟨hl, .inr rfl⟩ (.inl rfl) hg
    have hreact := behind_react (l := l) hrun
    have hleft : event ≠ .done → Fronts l stray looked e.keys g ids' (behind l true s') s' := by
      intro hne
      obtain ⟨_, -, hat⟩ := hnext hne
      exact .source hat
    cases hfinds with
    | skip =>
      exact ⟨.skip, .skip, _, s', e, g, _, hreact, hrun, .refl d e, hg, .same _,
        .other (by simp) List.suffix_rfl, fun _ => hleft (by simp)⟩
    | @found id _ hid =>
      have hpass := behind_vertex (l := l) hg (hg.sound.isToken_labeled hid) hrun
      rw [if_pos hid] at hpass
      exact ⟨_, _, _, s', e, g, _, hpass, hrun, .refl d e, hg, .same _, .vertex id _,
        fun _ => hleft (by simp)⟩
    | @stray id _ hid hnot hstray =>
      have hskip := behind_vertex (l := l) hg hid hrun
      rw [if_neg hnot] at hskip
      exact ⟨_, _, _, s', e, g, _, hskip, hrun, .refl d e, hg, .stray hid hstray,
        .other (by simp) List.suffix_rfl, fun _ => hleft (by simp)⟩
    | done =>
      exact ⟨.done, .done, _, s', e, g, _, hreact, hrun, .refl d e, hg, .same _,
        .other (by simp) List.suffix_rfl, fun hne => absurd rfl hne⟩
  | @through stage s t hands looks hfront ih =>
    cases hwork : (stage.work? : Option (Run σ _)) with
    | some work =>
      obtain rfl : stage = .limit 0 := by
        cases stage with
        | limit left => cases left <;> first | rfl | cases hwork
        | filter => cases hwork
        | expand | sink => exact hands.elim
      exact ⟨.done, .done, _, _, e, g, ids, rfl, rfl, .refl d e, hg, .same _,
        .other (by simp) List.suffix_rfl, fun hne => absurd rfl hne⟩
    | none =>
      obtain ⟨event, event', s', t', e', g', ids', hs, ht, hdrifts, hg', hmeanwhile, hhands,
        hnext⟩ := ih
      cases hmeanwhile with
      | same =>
        have hknown : event.Known .vertex := hhands.known hfront.found hg.sound
        have hreact := (Stage.react_walks (hwalks stage hands looks) hknown e').1
        obtain ⟨g'', hg'', hrel⟩ := hreact g' hg'
        obtain ⟨hvertices, hstray⟩ := hd _ _ hrel
        obtain ⟨hsame, hleft⟩ := hands.react event e'
        refine ⟨_, _, _, _, _, g'', ids', Stream.advance_react hwork hs, Stream.advance_react hwork ht,
          hdrifts.trans hreact, hg'', .same _, hhands.through hsame, fun hne => ?_⟩
        obtain ⟨hevent, stage', hstage, hands', hlooks⟩ := hleft hne
        rw [hstage]
        refine .through hands' (looks.imp_right (hlooks looked)) ?_
        have hfront' := hnext hevent
        have hstays : ∀ id ∈ ids', id ∈ g''.labeled l := by
          intro id hid
          rw [Multigraph.mem_labeled, hvertices, ← Multigraph.mem_labeled]
          exact hfront'.found id hid
        have hdrift := hfront'.drift hl hg' hg'' (by simp [hvertices]) fun id hid =>
          hid.imp (hstays id) (hstray id)
        rwa [List.filter_eq_self.2 (by simpa using hstays)] at hdrift
      | @stray id hid hgoneHere =>
        rcases looks with rfl | hlooks
        · exact hgoneHere.elim
        · obtain ⟨found, hreact⟩ := hlooks.react_gone hg' hid (hgone _ _ hgoneHere)
          have ht := Stream.advance_react hwork ht
          rw [hreact] at ht
          have hs : (Stream.through stage s).advance.run e = ((.skip, .through stage s'), e') :=
            Stream.advance_skipped hwork hs
          have hthrough := Fronts.through hands (.inr hlooks) (hnext (by simp))
          cases found with
          | true =>
            exact ⟨_, _, _, _, e', g', ids', hs, ht, hdrifts, hg', .stray hid hgoneHere, hhands,
              fun _ => hthrough⟩
          | false =>
            exact ⟨_, _, _, _, e', g', ids', hs, ht, hdrifts, hg', .same _, hhands,
              fun _ => hthrough⟩

end Finder

/-! ## Queries that go nowhere -/

omit [LawfulBackend σ] in
/-- Streams that bring the same at every piece of work have the same run. -/
theorem Stream.Runs.lockstep {R : Stream → Stream → Engine σ → Prop}
    (hR : ∀ {s t e event s' e'}, R s t e → s.advance.run e = ((event, s'), e') →
      ∃ t', t.advance.run e = ((event, t'), e') ∧ (event ≠ .done → R s' t' e'))
    {s t : Stream} {e' : Engine σ} {trace : List (Item × Engine σ)} (hrun : s.Runs e trace e')
    (h : R s t e) : t.Runs e trace e' := by
  induction hrun generalizing t with
  | done hs =>
    obtain ⟨_, ht, -⟩ := hR h hs
    exact .done ht
  | skip hs _ ih =>
    obtain ⟨_, ht, hnext⟩ := hR h hs
    exact .skip ht (ih (hnext (by simp)))
  | item hs _ ih =>
    obtain ⟨_, ht, hnext⟩ := hR h hs
    exact .item ht (ih (hnext (by simp)))

namespace Finder

/-- A drop of every vertex that comes, where those left to find are still there, or one and the
same stream. -/
inductive Drops (l : String) : Stream → Stream → Engine σ → Prop
  | dropping {e : Engine σ} {g : Multigraph} {ids : List String} {s t : Stream} (hg : e.Keeps g)
    (hids : ids.Nodup) (h : Fronts l noStray [] e.keys g ids s t) :
    Drops l (.through (.sink .drop) s) (.through (.sink .drop) t) e
  | same (s : Stream) (e : Engine σ) : Drops l s s e

variable {l : String} {looked ids : List String} {s t s' : Stream} {e' : Engine σ}

/-- No vertex is dropped before it comes. -/
theorem Drops.advance (h : Drops l s t e) (hl : Key.isToken l = true) {event : Event}
    (hs : s.advance.run e = ((event, s'), e')) :
    ∃ t', t.advance.run e = ((event, t'), e') ∧ (event ≠ .done → Drops l s' t' e') := by
  cases h with
  | same => exact ⟨s', hs, fun _ => .same s' e'⟩
  | @dropping _ g ids s t hg hids h =>
    obtain ⟨event', event'', s₁, t₁, e₁, g₁, ids', hs₁, ht₁, -, hg₁, hmeanwhile, hhands, hnext⟩ :=
      h.advance hl (fun _ _ h => h.elim) (fun _ hands _ => hands.walks)
        (fun _ _ hrel => ⟨hrel, fun _ h => h⟩) hg
    obtain rfl : event'' = event' := by
      cases hmeanwhile with
      | same => rfl
      | stray _ h => exact h.elim
    have hids' := hids.sublist hhands.left.sublist
    rw [Stream.advance_react rfl hs₁] at hs
    rw [Stream.advance_react rfl ht₁]
    cases hhands with
    | vertex id =>
      have hfront := hnext (by simp)
      have hid : Key.isToken id = true := hg.sound.isToken_labeled (h.found id (by simp))
      obtain ⟨e₂, hdrop, hg₂, -⟩ := hg₁.dropVertex hid
      have hreact : (Stage.react (.sink .drop) (.item (.ok (.vertex id)))).run e₁ =
          ((.skip, .stage (.sink .drop)), e₂) := by
        have habsorb : (Sink.drop.absorb (.vertex id)).run.run e₁ = (.ok .drop, e₂) := by
          show ((liftM (Graph.dropVertex id : Run σ Unit) : Attempt σ Unit) >>= fun _ =>
            pure Sink.drop).run.run e₁ = _
          rw [Attempt.lift_bind, hdrop]
          rfl
        simp only [Stage.react, Run.bind_run, Engine.outcome, habsorb]
        rfl
      have hstay : ∀ id', id' ∈ ids' ∨ noStray g₁ id' →
          id' ∈ (g₁.dropVertex id).labeled l ∨ noStray (g₁.dropVertex id) id' := by
        rintro id' (hid' | hid')
        · have hne : id' ≠ id := fun heq => (List.nodup_cons.1 hids).1 (heq ▸ hid')
          have hlabeled := Multigraph.mem_labeled.1 (hfront.found id' hid')
          exact .inl (Multigraph.mem_labeled.2 (List.mem_filter.2 ⟨hlabeled, by simpa using hne⟩))
        · exact hid'.elim
      have hdrift := hfront.drift hl hg₁ hg₂ (fun v hv => (List.mem_filter.1 hv).1) hstay
      rw [hreact] at hs ⊢
      cases hs
      exact ⟨_, rfl, fun _ => .dropping hg₂ (hids'.sublist List.filter_sublist) hdrift⟩
    | other hevent =>
      rcases event'' with (err | t) | _ | _
      case item.ok => exact absurd rfl (hevent t)
      case skip =>
        cases hs
        exact ⟨_, rfl, fun _ => .dropping hg₁ hids' (hnext (by simp))⟩
      case item.error | done =>
        cases hs
        exact ⟨_, rfl, fun _ => .same _ _⟩

end Finder

/-! ## Queries that go on -/

/-- A step to its edges or neighbours finds none of a vertex that went. -/
theorem Step.begin_gone {step : Step} {b : ResultType} (hgoes : step.Goes .vertex b) (hg : e.Keeps g)
    {id : String} (hid : Key.isToken id = true) (hgone : id ∉ g.ids .vertex) :
    ∃ task, (Expansion.ofStep step (.vertex id)).run e = (.task task, e) ∧
      task.begin.run.run e = (.ok (.items []), e) := by
  have hnone := Multigraph.edgesBy_eq_nil hg.sound hgone
  cases step with
  | adjacent d adjacency labels =>
    refine ⟨_, rfl, ?_⟩
    cases adjacency with
    | edges =>
      have hrun := edges_run hg hid hgoes.2.1 d []
      rw [hnone] at hrun
      exact Attempt.bind_ok hrun _
    | vertices =>
      obtain ⟨ws, hrun, -, hmem⟩ := vertices_run hg hid hgoes.2.1 d
      obtain rfl : ws = [] := by
        rw [List.eq_nil_iff_forall_not_mem]
        intro w hw
        obtain ⟨x, hx, -⟩ := (hmem w).1 hw
        simp [hnone] at hx
      exact Attempt.bind_ok hrun _
  | bothEdges labels =>
    refine ⟨_, rfl, ?_⟩
    have hleaving := edges_run hg hid hgoes.2.1 .outgoing []
    have hentering := edges_run hg hid hgoes.2.1 .incoming []
    rw [hnone] at hleaving hentering
    exact (Attempt.bind_ok hleaving _).trans (Attempt.bind_ok hentering _)
  | edgeVertex => cases hgoes.1
  | _ => exact hgoes.elim

/-- So nothing comes of it. -/
theorem Stream.skips_gone {step : Step} {b : ResultType} (hgoes : step.Goes .vertex b)
    {t t' : Stream} {e' : Engine σ} {id : String}
    (ht : t.advance.run e = ((.item (.ok (.vertex id)), t'), e')) (hg : e'.Keeps g)
    (hid : Key.isToken id = true) (hgone : id ∉ g.ids .vertex) :
    Skips (.through (.expand (.step step) none) t) e (.through (.expand (.step step) none) t') e' := by
  obtain ⟨task, hexpand, hbegin⟩ := Step.begin_gone hgoes hg hid hgone
  have htaken : (Stream.through (.expand (.step step) none) t).advance.run e =
      ((.skip, .through (.expand (.step step) (some (.task task))) t'), e') := by
    rw [advance_react rfl ht]
    simp only [Stage.react, Run.bind_run, Expander.expand, hexpand]
    rfl
  have hbegun : (Stream.through (.expand (.step step) (some (.task task))) t').advance.run e' =
      ((.skip, .through (.expand (.step step) (some (.items []))) t'), e') := by
    rw [advance_work rfl]
    simp only [Run.bind_run, Expansion.advance, Engine.outcome, hbegin]
    rfl
  exact .step htaken (.step hbegun (.step rfl (.refl _ _)))

namespace Finder

/-- A step that goes on to other elements, over the same stages in front. -/
inductive Crosses (l : String) (looked : List String) (step : Step) (b : ResultType) :
    Stream → Stream → Engine σ → Prop
  | intro {e : Engine σ} {g : Multigraph} {ids : List String} {current : Option Expansion}
    {s t : Stream} (hg : e.Keeps g) (hcurrent : ∀ x, current = some x → x.Walks b)
    (h : Fronts l (·.Gone looked) looked e.keys g ids s t) :
    Crosses l looked step b (.through (.expand (.step step) current) s)
      (.through (.expand (.step step) current) t) e

variable {l : String} {looked : List String} {step : Step} {b : ResultType} {s t : Stream}

theorem Crosses.drift (h : Crosses l looked step b s t e) (hl : Key.isToken l = true)
    {e' : Engine σ} (he : e.Drifts (.withering looked) e') : Crosses l looked step b s t e' := by
  obtain ⟨hg, hcurrent, hfront⟩ := h
  rename_i g ids current s t
  obtain ⟨g', hg', hsub, hgone⟩ := he g hg
  refine .intro hg' hcurrent (hfront.drift hl hg hg' hsub ?_)
  rintro id (hid | hid)
  · have hlabeled := Multigraph.mem_labeled.1 (hfront.found id hid)
    refine (hgone id (.inl (List.mem_map_of_mem hlabeled))).imp_left fun hthere => ?_
    obtain ⟨v, hv, hvid⟩ := List.mem_map.1 hthere
    have hsame : v = ⟨id, l⟩ := List.inj_on_of_nodup_map hg.sound.vertexIds (hsub v hv) hlabeled hvid
    exact Multigraph.mem_labeled.2 (hsame ▸ hv)
  · refine (hgone id (.inr hid)).imp_left fun hthere => ?_
    obtain ⟨v, hv, rfl⟩ := List.mem_map.1 hthere
    exact absurd (List.mem_map_of_mem (hsub v hv)) hid.1

/-- Where strays may come, a step in front changes nothing. -/
theorem looks_of_gone {stage : Stage}
    (h : (fun g id => Multigraph.Gone g looked id) = noStray ∨ stage.Looks looked) :
    stage.Looks looked := by
  refine h.resolve_left fun hnone => ?_
  have hgone : Multigraph.empty.Gone looked "" := ⟨by simp [Multigraph.ids, Multigraph.empty],
    fun _ _ _ hvalue => by cases hvalue⟩
  exact (congrFun (congrFun hnone Multigraph.empty) "").mp hgone

/-- An expansion under way is worked on first. -/
theorem Crosses.work (step : Step) {x : Expansion} (hl : Key.isToken l = true) (hx : x.Walks b) {ids : List String}
    (hg : e.Keeps g) (h : Fronts l (·.Gone looked) looked e.keys g ids s t) :
    ∃ event current e', e.Drifts (.withering looked) e' ∧ event.Known b ∧ event ≠ .done ∧
      (∀ source, (Stream.through (.expand (.step step) (some x)) source).advance.run e =
        ((event, .through (.expand (.step step) current) source), e')) ∧
      Crosses l looked step b (.through (.expand (.step step) current) s)
        (.through (.expand (.step step) current) t) e' := by
  obtain ⟨hstore, hknown, hwalks⟩ := Expansion.advance_walks hx hg
  have hadvance := fun source =>
    @Stream.advance_work _ _ e (.expand (.step step) (some x)) _ rfl source
  simp only [Run.bind_run] at hadvance
  generalize x.advance.run e = r at hstore hknown hwalks hadvance
  obtain ⟨⟨event, x'⟩, e'⟩ := r
  have hdrifts : e.Drifts (.withering looked) e' := .of_store _ hstore
  have hnext : ∀ current : Option Expansion, (∀ y, current = some y → y.Walks b) →
      Crosses l looked step b (.through (.expand (.step step) current) s)
        (.through (.expand (.step step) current) t) e' := fun current hcurrent =>
    (Crosses.intro hg hcurrent h).drift hl hdrifts
  have hsome : ∀ y, some x' = some y → y.Walks b := fun y hy => Option.some.inj hy ▸ hwalks
  cases event with
  | item i => exact ⟨_, _, e', hdrifts, hknown, by simp, hadvance, hnext (some x') hsome⟩
  | skip => exact ⟨.skip, _, e', hdrifts, trivial, by simp, hadvance, hnext (some x') hsome⟩
  | done => exact ⟨.skip, _, e', hdrifts, trivial, by simp, hadvance, hnext none (by simp)⟩

/-- Behind such a step, what comes does not depend on the filter. -/
theorem Crosses.follows (hl : Key.isToken l = true) (hgoes : step.Goes .vertex b) :
    Stream.Follows (.withering looked) b (Crosses (σ := σ) l looked step b) where
  drift h he := h.drift hl he
  step := by
    rintro _ _ e _ event s' e' ⟨hg, hcurrent, h⟩ - hrun
    rename_i g ids current s t
    cases current with
    | some x =>
      obtain ⟨event', current, e₁, hdrifts, hknown, hne, hadvance, hnext⟩ :=
        Crosses.work step hl (hcurrent x rfl) hg h
      rw [hadvance] at hrun
      cases hrun
      exact ⟨hdrifts, hknown, _, (Stream.Skips.refl _ e).comes (hadvance t), fun _ => hnext⟩
    | none =>
      obtain ⟨event₁, event₂, s₁, t₁, e₁, g₁, ids₁, hs, ht, hdrifts, hg₁, hmeanwhile, hhands, hnext⟩ :=
        h.advance hl (fun _ _ h => h) (d := .still) (fun _ _ hlooks => (looks_of_gone hlooks).walks _)
          (by rintro _ _ rfl; exact ⟨rfl, fun _ h => h⟩) hg
      have hdrifts : e.Drifts (.withering looked) e₁ := by
        intro g hg
        obtain ⟨g', hg', rfl⟩ := hdrifts g hg
        exact ⟨_, hg', Drift.refl _ _⟩
      rw [Stream.advance_react rfl hs] at hrun
      cases hmeanwhile with
      | stray hid hgone =>
        cases hrun
        exact ⟨hdrifts, trivial, _, Stream.skips_gone hgoes ht hg₁ hid hgone.1,
          fun _ => .intro hg₁ (by simp) (hnext (by simp))⟩
      | same =>
        have hcomes := @Stream.Comes.through _ _ _ _ _ _ _
          ((Stream.Skips.refl t e).comes ht) (.expand (.step step) none) rfl
        cases hhands with
        | vertex id ids =>
          have hid := hg.sound.isToken_labeled (h.found id (by simp))
          have hstage : (Stage.expand (.step step) none).Walks .still .vertex b := ⟨hgoes, by simp⟩
          have hknown : (Traverser.vertex id).Known .vertex := hid
          obtain ⟨x, hexpand, hx⟩ := Expander.expand_walks hstage hknown e₁
          simp only [Stage.react, Run.bind_run, hexpand] at hrun hcomes
          cases hrun
          refine ⟨hdrifts, trivial, _, hcomes, fun _ => .intro hg₁ ?_ (hnext (by simp))⟩
          rintro y hy
          cases hy
          exact hx
        | other hevent =>
          rcases event₁ with (err | t) | _ | _
          case item.ok => exact absurd rfl (hevent t)
          case item.error =>
            cases hrun
            exact ⟨hdrifts, item_error_known err, _, hcomes,
              fun _ => .intro hg₁ (by simp) (hnext (by simp))⟩
          case skip =>
            cases hrun
            exact ⟨hdrifts, trivial, _, hcomes, fun _ => .intro hg₁ (by simp) (hnext (by simp))⟩
          case done =>
            cases hrun
            exact ⟨hdrifts, trivial, _, hcomes, fun hne => absurd rfl hne⟩

end Finder

end PropertyGraph
