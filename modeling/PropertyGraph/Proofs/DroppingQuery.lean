/-
Queries that drop what they find. The default optimizer leaves out a filter by the label that
the plan as written keeps behind the scan, and that matters only where a vertex goes before the
scan comes to it. Steps that bear such vertices make nothing of them (`Chain.Bears`), and behind
them a query comes to the same with the optimizer and without (`Engine.dropping_history`).
-/
import PropertyGraph.Proofs.Strays

namespace PropertyGraph

/-! ## Steps behind the vertices of a label -/

namespace Step

/-- A step that hands vertices on or keeps them back. -/
def handsOn : Step → Bool
  | .has _ _ | .property _ _ | .limit _ => true
  | _ => false

/-- The key a step looks at. -/
def looksAt? : Step → Option String
  | .has key _ => some key
  | _ => none

/-- A step from elements to others. -/
def navigates : Step → Bool
  | .adjacent _ _ _ | .bothEdges _ | .edgeVertex _ => true
  | _ => false

theorem handsOn_stage {step : Step} (h : step.handsOn = true) (hwalks : step.Walks) :
    step.stage.HandsOn := by
  cases step with
  | has | limit => trivial
  | property => exact hwalks
  | _ => cases h

theorem eq_has {step : Step} {key : String} (h : step.looksAt? = some key) :
    ∃ sought, step = .has key sought := by
  cases step with
  | has k sought =>
    cases h
    exact ⟨sought, rfl⟩
  | _ => cases h

theorem stage_of_navigates {step : Step} (h : step.navigates = true) :
    step.stage = .expand (.step step) none := by
  cases step <;> first | rfl | cases h

end Step

/-- Steps that do not tell a vertex that went from one that is left out: they drop no vertices,
or drop the vertices themselves, or only look at them before they go on to other elements. What
they set under the keys they look at can be read. -/
inductive Chain.Bears : List PlannedStep → Prop
  | keeping {rest : List PlannedStep} (h : ∀ s ∈ rest, s.step = .drop → s.input ≠ .vertex) : Bears rest
  | staying {front : List PlannedStep} {last : PlannedStep}
    (hfront : ∀ s ∈ front, s.step.handsOn = true) (hlast : last.step = .drop) : Bears (front ++ [last])
  | crossing {front behind : List PlannedStep} {next : PlannedStep}
    (hfront : ∀ s ∈ front, s.step.looksAt? ≠ none) (hnext : next.step.navigates = true)
    (hread : ∀ s ∈ front, ∀ t ∈ behind, ∀ key value, s.step.looksAt? = some key →
      t.step = .property key value → value.Readable) : Bears (front ++ next :: behind)

variable {σ : Type} [Backend σ] [LawfulBackend σ] {e e' : Engine σ} {g : Multigraph} {l : String}

namespace Finder

omit [Backend σ] [LawfulBackend σ] in
theorem Fronts.ofSteps {stray : Multigraph → String → Prop} {looked keys ids : List String}
    {s t : Stream} (h : Fronts l stray looked keys g ids s t) {front : List Step}
    (hfront : ∀ step ∈ front, step.stage.HandsOn ∧ (stray = noStray ∨ step.stage.Looks looked)) :
    Fronts l stray looked keys g ids (s.ofSteps front) (t.ofSteps front) := by
  induction front generalizing s t with
  | nil => exact h
  | cons step front ih =>
    obtain ⟨hands, looks⟩ := hfront step (by simp)
    exact ih (.through hands looks h) fun step hstep => hfront step (List.mem_cons_of_mem _ hstep)

/-- Without a step to other elements, the filter makes no difference to a drop. -/
theorem runs_staying (hl : Key.isToken l = true) (hg : e.Keeps g)
    (hlength : ∀ v ∈ g.vertices, v.id.toList.length = 32) {front : List Step}
    (hfront : ∀ step ∈ front, step.stage.HandsOn) {trace : List (Item × Engine σ)}
    (hrun : ((behind l true (labeled l).opened).ofSteps (front ++ [.drop])).Runs e trace e') :
    ((labeled l).opened.ofSteps (front ++ [.drop])).Runs e trace e' := by
  obtain ⟨ids, hids⟩ := exists_lists hl hg hlength
  have hstart : Fronts l noStray [] e.keys g ids (behind l true (labeled l).opened)
      (labeled l).opened := .source (.opened hids (Nat.lt_succ_self _))
  rw [Stream.ofSteps_append] at hrun ⊢
  refine hrun.lockstep (R := Drops l) (fun h hs => h.advance hl hs) (.dropping hg ?_
    (hstart.ofSteps fun step hstep => ⟨hfront step hstep, .inl rfl⟩))
  exact hids.ascending.imp fun hlt heq => by simp [heq] at hlt

omit [Backend σ] [LawfulBackend σ] in
/-- Steps that look at vertices leave vertices. -/
theorem path_behind_looks {d : Drift} {looked : List String} {front behind : List Step}
    {c : ResultType} (hfront : ∀ step ∈ front, step.stage.Looks looked)
    (hpath : d.Path .vertex (front ++ behind) c) : d.Path .vertex behind c := by
  induction front with
  | nil => exact hpath
  | cons step front ih =>
    cases hpath with
    | cons hstage hrest =>
      obtain rfl := (hfront step (by simp)).eq_of_walks hstage
      exact ih (fun step hstep => hfront step (List.mem_cons_of_mem _ hstep)) hrest

/-- Before steps to other elements that only look at vertices, the filter makes no difference. -/
theorem runs_crossing (hl : Key.isToken l = true) (hg : e.Keeps g)
    (hlength : ∀ v ∈ g.vertices, v.id.toList.length = 32) {looked : List String}
    {front behind : List Step} (hfront : ∀ step ∈ front, step.stage.Looks looked) {next : Step}
    (hnext : next.navigates = true) {c : ResultType}
    (hpath : (Drift.withering looked).Path .vertex (front ++ next :: behind) c)
    {trace : List (Item × Engine σ)}
    (hrun : ((Finder.behind l true (labeled l).opened).ofSteps (front ++ next :: behind)).Runs e trace e') :
    ((labeled l).opened.ofSteps (front ++ next :: behind)).Runs e trace e' := by
  obtain ⟨ids, hids⟩ := exists_lists hl hg hlength
  have hstart : Fronts l (·.Gone looked) looked e.keys g ids (Finder.behind l true (labeled l).opened)
      (labeled l).opened := .source (.opened hids (Nat.lt_succ_self _))
  have hfronts := hstart.ofSteps fun step hstep => ⟨(hfront step hstep).handsOn, .inr (hfront step hstep)⟩
  cases path_behind_looks hfront hpath with
  | @cons _ b _ _ _ hstage hbehind =>
    have hsource : Stream.Over (.withering looked) b (Crosses l looked next b) b
        (.through next.stage ((Finder.behind l true (labeled l).opened).ofSteps front))
        (.through next.stage ((labeled l).opened.ofSteps front)) e := by
      rw [Step.stage_of_navigates hnext]
      exact .source (.intro hg (by simp) hfronts)
    rw [Step.stage_of_navigates hnext] at hstage
    rw [Stream.ofSteps_append] at hrun ⊢
    exact hrun.follow (Crosses.follows hl hstage.1) (hsource.ofSteps hbehind) hg

end Finder

/-! ## Plans -/

namespace Chain

theorem Rewrites.unique {chain : Chain} {l l' : String} {rest rest' : List PlannedStep}
    (h : chain.Rewrites l rest) (h' : chain.Rewrites l' rest') : l' = l ∧ rest' = rest := by
  obtain ⟨first, hfirst, hplan⟩ := h.default
  obtain ⟨first', hfirst', hplan'⟩ := h'.default
  cases hplan.symm.trans hplan'
  cases hfirst.symm.trans hfirst'
  exact ⟨rfl, rfl⟩

/-- Steps that bear vertices that went have the same run behind the scan of a label, with the filter
and without. -/
theorem Rewrites.runs_of_bears {chain : Chain} {rest : List PlannedStep} (h : chain.Rewrites l rest)
    (hbears : Bears rest) (hg : e.Keeps g) (hlength : ∀ v ∈ g.vertices, v.id.toList.length = 32) :
    ∃ trace e', ((Finder.behind l true Finder.all.opened).ofSteps (rest.map (·.step))).Runs e trace e' ∧
      ((Finder.labeled l).opened.ofSteps (rest.map (·.step))).Runs e trace e' := by
  obtain ⟨_, _, -, hresolve⟩ := h.rest
  have hwalks := walks_of_resolveFrom hresolve (by simp)
  cases hbears with
  | keeping hkeeps =>
    refine h.exists_runs false Drift.sameVertices_sub (fun _ => Drift.sameVertices_sup) ?_ hg hlength
    exact fun s hs => ⟨fun _ _ _ _ _ _ => rfl, fun hdrop hinput => absurd hinput (hkeeps s hs hdrop),
      fun _ _ _ _ => rfl⟩
  | @staying front last hfront hlast =>
    obtain ⟨trace, e', hnone, hchecked⟩ := h.exists_runs (d := .withering []) true
      (fun _ _ hrel => hrel.1) (by simp) (fun s _ => Drift.withering_allows (by simp)) hg hlength
    refine ⟨trace, e', hnone, ?_⟩
    rw [List.map_append, List.map_singleton, hlast] at hchecked ⊢
    refine Finder.runs_staying h.isToken hg hlength (fun step hstep => ?_) hchecked
    obtain ⟨s, hs, rfl⟩ := List.mem_map.1 hstep
    exact Step.handsOn_stage (hfront s hs) (hwalks s (List.mem_append_left _ hs))
  | @crossing front behind next hfront hnext hread =>
    let looked := front.filterMap (·.step.looksAt?)
    have hallows : ∀ s ∈ front ++ next :: behind, (Drift.withering looked).Allows s.input s.step := by
      intro s hs
      refine Drift.withering_allows fun key value hstep hkey => ?_
      obtain ⟨t, ht, hlooks⟩ := List.mem_filterMap.1 hkey
      rcases List.mem_append.1 hs with hs | hs
      · exact absurd (by rw [hstep]; rfl) (hfront s hs)
      · rcases List.mem_cons.1 hs with rfl | hs
        · rw [hstep] at hnext
          cases hnext
        · exact hread t ht s hs key value hlooks hstep
    obtain ⟨trace, e', hnone, hchecked⟩ := h.exists_runs (d := .withering looked) true
      (fun _ _ hrel => hrel.1) (by simp) hallows hg hlength
    obtain ⟨b, hpath⟩ := path_of_resolveFrom hresolve (by simp) hallows
    refine ⟨trace, e', hnone, ?_⟩
    rw [List.map_append, List.map_cons] at hchecked hpath ⊢
    refine Finder.runs_crossing h.isToken hg hlength (fun step hstep => ?_) hnext hpath hchecked
    obtain ⟨s, hs, rfl⟩ := List.mem_map.1 hstep
    obtain ⟨key, hkey⟩ := Option.ne_none_iff_exists'.1 (hfront s hs)
    obtain ⟨sought, hhas⟩ := Step.eq_has hkey
    have hvalid : s.step.Walks := hwalks s (List.mem_append_left _ hs)
    rw [hhas] at hvalid ⊢
    exact ⟨List.mem_filterMap.2 ⟨s, hs, hkey⟩, hvalid⟩

end Chain

/-! ## After a history -/

/-- Whatever operations ran from an empty store, a query that the default optimizer changes is,
without an optimizer, a query that filters what the scan of the label finds by the label again. The
filter makes no difference where the steps behind it bear vertices that went: then the query comes
to the same whether the default optimizer plans it or none, the same items and errors in the same
order, and the same state of the engine with the same elements dropped, wherever whoever draws on it stops. -/
theorem Engine.dropping_history (hempty : ∀ key, e.contents key = none) {ops : List RecordOp}
    (hops : ∀ op ∈ ops, op.Named)
    (hids : GoodIds e.ids (Multigraph.history e.ids ops (.empty, e.issued)).2) (chain : Chain) :
    let e' := ((RecordOp.runAll ops).run e).2
    ∃ n, ∀ budget, n ≤ budget →
      (∀ l rest, chain.Rewrites l rest → ∀ {β : Type} (f : β → Item → Except Error β) (b : β),
        (do (← chain.openStream .none).fold? f budget b : Attempt σ _).run.run e' =
          (((Finder.behind l true (Finder.labeled l).opened).ofSteps
            (rest.map (·.step))).fold? f budget b : Attempt σ _).run.run e') ∧
      ((∀ l rest, chain.Rewrites l rest → Chain.Bears rest) →
        ∀ {β : Type} (f : β → Item → Except Error β) (b : β),
          (do (← chain.openStream .default).fold? f budget b : Attempt σ _).run.run e' =
            (do (← chain.openStream .none).fold? f budget b : Attempt σ _).run.run e') ∧
      (Optimizer.default.plan chain ≠ Optimizer.none.plan chain → ∃ items e'',
        (do (← chain.openStream .none).items? budget : Attempt σ _).run.run e' =
          (.ok (some items), e'')) := by
  obtain ⟨htracks, -⟩ := (Tracks.empty hempty).run hops hids
  intro e'
  by_cases hrewrites : ∃ l rest, chain.Rewrites l rest
  · obtain ⟨l, rest, hrewrites⟩ := hrewrites
    obtain ⟨trace, e'', hnone, hchecked⟩ := hrewrites.exists_runs (d := .withering []) true
      (fun _ _ hrel => hrel.1) (by simp) (fun s _ => Drift.withering_allows (by simp)) htracks.keeps
      (htracks.length_id hids)
    obtain ⟨m, hm⟩ := hnone.fold?_eq hchecked
    obtain ⟨k, hk⟩ := hnone.items?_run
    have hsame : ∃ n, Chain.Bears rest → ∀ budget, n ≤ budget →
        ∀ {β : Type} (f : β → Item → Except Error β) (b : β),
          (((Finder.labeled l).opened.ofSteps (rest.map (·.step))).fold? f budget b).run.run e' =
            (((Finder.behind l true Finder.all.opened).ofSteps
              (rest.map (·.step))).fold? f budget b).run.run e' := by
      by_cases hbears : Chain.Bears rest
      · obtain ⟨_, _, hnone, hdefault⟩ := hrewrites.runs_of_bears hbears htracks.keeps
          (htracks.length_id hids)
        obtain ⟨n, hn⟩ := hdefault.fold?_eq hnone
        exact ⟨n, fun _ => hn⟩
      · exact ⟨0, fun h => absurd h hbears⟩
    obtain ⟨n, hn⟩ := hsame
    refine ⟨max k (max m n), fun budget hbudget => ⟨?_, ?_, ?_⟩⟩
    · intro l' rest' h' β f b
      obtain ⟨rfl, rfl⟩ := hrewrites.unique h'
      rw [Attempt.bind_ok (hrewrites.openStream_none e')]
      exact hm budget (by omega) f b
    · intro hbears β f b
      rw [Attempt.bind_ok (hrewrites.openStream_default e'),
        Attempt.bind_ok (hrewrites.openStream_none e')]
      exact hn (hbears l rest hrewrites) budget (by omega) f b
    · intro _
      refine ⟨trace.map (·.1), e'', ?_⟩
      rw [Attempt.bind_ok (hrewrites.openStream_none e')]
      exact hk budget (by omega)
  · have hplan : Optimizer.default.plan chain = Optimizer.none.plan chain := by
      by_contra hne
      exact hrewrites (Chain.exists_rewrites hne)
    refine ⟨0, fun budget _ => ⟨?_, ?_, fun hne => absurd hplan hne⟩⟩
    · intro l rest h
      exact absurd ⟨l, rest, h⟩ hrewrites
    · intro _ β f b
      rw [Chain.openStream_of_plan_eq hplan]

/-- A query that drops the neighbours of what it finds. -/
def neighborChain : Chain :=
  [⟨.vertices, []⟩, ⟨.has, [.str "label", .str "person"]⟩, ⟨.outVertices, [.str "knows"]⟩,
    ⟨.drop, []⟩]

theorem bears_neighborChain {l : String} {rest : List PlannedStep} (h : neighborChain.Rewrites l rest) :
    Chain.Bears rest := by
  obtain ⟨first, -, hplan⟩ := h.default
  have hconcrete : Optimizer.default.plan neighborChain = .ok (⟨[.root,
      ⟨"labelScan", [.str "person"], .graph, .vertex, .verticesWithLabel "person"⟩,
      ⟨"out", [.str "knows"], .vertex, .vertex, .adjacent .outgoing .vertices ["knows"]⟩,
      ⟨"drop", [], .vertex, .value, .drop⟩]⟩, []) := by decide
  cases hplan.symm.trans hconcrete
  exact @Chain.Bears.crossing [] [_] _ (by simp) rfl (by simp)

theorem dropping_neighborChain :
    ∃ n, ∀ budget, n ≤ budget →
      (∀ {β : Type} (f : β → Item → Except Error β) (b : β),
        (do (← neighborChain.openStream .default).fold? f budget b : Attempt Memory _).run.run
            ((RecordOp.runAll linkingOps).run (Engine.ofStore Memory.empty)).2 =
          (do (← neighborChain.openStream .none).fold? f budget b : Attempt Memory _).run.run
            ((RecordOp.runAll linkingOps).run (Engine.ofStore Memory.empty)).2) ∧
      ∃ items e'', (do (← neighborChain.openStream .none).items? budget : Attempt Memory _).run.run
        ((RecordOp.runAll linkingOps).run (Engine.ofStore Memory.empty)).2 = (.ok (some items), e'') := by
  obtain ⟨n, hn⟩ := @Engine.dropping_history Memory _ _ (Engine.ofStore Memory.empty) (fun _ => rfl)
    linkingOps (by decide) (by decide) neighborChain
  have hchanged : Optimizer.default.plan neighborChain ≠ Optimizer.none.plan neighborChain := by decide
  refine ⟨n, fun budget hbudget => ?_⟩
  obtain ⟨-, hsame, hends⟩ := hn budget hbudget
  exact ⟨hsame fun _ _ => bears_neighborChain, hends hchanged⟩

end PropertyGraph
