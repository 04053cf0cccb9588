/-
What the enumerations of a graph bring, however many pages of keys they go through: all elements
of a kind, and all vertices of a label, each once and in the order of their ids; and of given ids
those that are there, as often as they are given and in that order
(`Engine.enumeration_history`).
-/
import PropertyGraph.Proofs.LabelQuery
import PropertyGraph.Proofs.Picking

namespace PropertyGraph

open PropertyGraph.Graph

/-- The operation that selects elements of a kind. -/
def ElementKind.selecting : ElementKind → Operation
  | .vertex => .vertices
  | .edge => .edges

/-- The step of a selection of elements. -/
def Step.select : ElementKind → Selection → Step
  | .vertex, ids => .vertices ids
  | .edge, ids => .edges ids

/-- The query that selects elements of a kind. -/
def Chain.select (kind : ElementKind) (args : List Json) : Chain := [⟨kind.selecting, args⟩]

/-- The items that elements come as. -/
def elementItems (kind : ElementKind) (ids : List String) : List Item :=
  ids.map fun id => .ok (.ofElement kind id)

/-- The elements a selection takes, in the order they are given or were created. -/
def Multigraph.selected (g : Multigraph) (kind : ElementKind) : Selection → List String
  | .all => g.ids kind
  | .one id => [id].filter (· ∈ g.ids kind)
  | .many ids => ids.filter (· ∈ g.ids kind)

variable {kind : ElementKind} {args : List Json} {sel : Selection} {ids : List String}

/-! ## Arguments -/

namespace Arguments

theorem selectedId_of_isToken (op : Operation) {id : String} (hid : Key.isToken id = true) :
    selectedId op (.str id) = .ok id := by
  have hne : id.isEmpty = false := by simpa using Validation.not_isEmpty_of_isToken hid
  simp only [selectedId, Validation.id, require, hne, hid]
  rfl

/-- Ids in one array. -/
theorem selection_array (op : Operation) (hids : ∀ id ∈ ids, Key.isToken id = true) :
    selection op [.arr (ids.map .str)] = .ok (.many ids) := by
  show (do return Selection.many (← (ids.map Json.str).mapM (selectedId op))) = _
  rw [mapM_strings fun id hid => selectedId_of_isToken op (hids id hid)]
  rfl

/-- Ids one by one. -/
theorem selection_strings (op : Operation) (hids : ∀ id ∈ ids, Key.isToken id = true)
    (hne : ids ≠ []) : selection op (ids.map .str) = .ok (.many ids) ∨
      ∃ id, ids = [id] ∧ selection op (ids.map .str) = .ok (.one id) := by
  match ids with
  | [] => exact absurd rfl hne
  | [id] =>
    refine .inr ⟨id, rfl, ?_⟩
    show (do return Selection.one (← selectedId op (.str id))) = _
    rw [selectedId_of_isToken op (hids id (by simp))]
    rfl
  | id :: id' :: ids =>
    left
    show (do return Selection.many (← ((id :: id' :: ids).map Json.str).mapM (selectedId op))) = _
    rw [mapM_strings fun i hi => selectedId_of_isToken op (hids i hi)]
    rfl

end Arguments

namespace Chain

theorem resolve_select (h : Arguments.selection kind.selecting args = .ok sel) :
    ∃ planned : PlannedStep, (select kind args).resolve = .ok [.root, planned] ∧
      planned.step = .select kind sel := by
  have hstep : Step.ofCall kind.selecting .graph args = .ok (.select kind sel) := by
    cases kind <;>
    · simp only [ElementKind.selecting] at h
      simp only [ElementKind.selecting, Step.ofCall, h]
      rfl
  obtain ⟨rule, hrule⟩ : ∃ rule, ResultType.graph.resolve kind.selecting = .ok rule := by
    cases kind <;> exact ⟨_, rfl⟩
  refine ⟨⟨kind.selecting.name, args, .graph, rule.output, .select kind sel⟩, ?_, rfl⟩
  show (do return PlannedStep.root :: (← resolveFrom .graph (select kind args))) = _
  rw [select, resolveFrom, hrule, hstep]
  rfl

/-- A plan of one step is not changed. -/
theorem openStream_single {σ : Type} {chain : Chain} {planned : PlannedStep}
    (h : chain.resolve = .ok [.root, planned]) (c : Config) (e : Engine σ) :
    (chain.openStream c.optimizer).run.run e =
      (.ok (.through planned.step.stage (.root none [.ok .graph])), e) := by
  have hplan := c.optimizer.plan_of_resolve h
  have hsame : c.optimizer.improve [.root, planned] = ([.root, planned], []) := by
    rcases c.optimizer_cases with hc | hc
    · rw [hc]
      rcases @Optimizer.improve_default planned [] (by simp) with hsame | ⟨_, _, _, hcons, -⟩
      · exact hsame
      · cases hcons
    · rw [hc]
      rfl
  rw [hsame] at hplan
  exact openStream_run hplan e

end Chain

/-! ## Selections -/

section Selections

variable {σ : Type} [Backend σ] [LawfulBackend σ] {e : Engine σ} {g : Multigraph}

/-- Of ids that are looked up one by one, those come that are there. -/
theorem Stream.brings_probe (h : e.Keeps g) (hids : ∀ id ∈ ids, Key.isToken id = true)
    {expander : Expander} {source : Stream}
    (hrest : (Stream.through (.expand expander none) source).Brings e []) :
    (Stream.through (.expand expander (some (.probe kind ids))) source).Brings e
      (elementItems kind (ids.filter (· ∈ g.ids kind))) := by
  induction ids with
  | nil => exact .skip (by rw [advance_work rfl]; rfl) hrest
  | cons id ids ih =>
    have hlater := ih fun i hi => hids i (List.mem_cons_of_mem _ hi)
    obtain ⟨found, hexists, hiff⟩ := elementExists_run h kind (hids id (by simp))
    have hadvance :
        (Stream.through (.expand expander (some (.probe kind (id :: ids)))) source).advance.run e =
        ((if found then .item (.ok (.ofElement kind id)) else .skip,
          .through (.expand expander (some (.probe kind ids))) source), e) := by
      rw [advance_work rfl]
      simp only [Run.bind_run, Expansion.advance, Engine.outcome, hexists]
      cases found <;> rfl
    cases found with
    | true =>
      have hthere : id ∈ g.ids kind := hiff.1 rfl
      rw [List.filter_cons_of_pos (by simpa using hthere)]
      exact .item hadvance hlater
    | false =>
      have hnot : id ∉ g.ids kind := fun hthere => by cases hiff.2 hthere
      rw [List.filter_cons_of_neg (by simpa using hnot)]
      exact .skip hadvance hlater

/-- Where ids are given, their elements come. -/
theorem Engine.Keeps.yields_given (h : e.Keeps g)
    (hargs : Arguments.selection kind.selecting args = .ok sel) (hgiven : sel ≠ .all)
    (hsel : sel.Checked) :
    (Chain.select kind args).Yields e (elementItems kind (g.selected kind sel)) := by
  obtain ⟨planned, hresolve, hstep⟩ := Chain.resolve_select hargs
  have hopen := Chain.openStream_single (σ := σ) hresolve
  have hstage : planned.step.stage = .expand (.step (.select kind sel)) none := by
    rw [hstep]
    cases kind <;> rfl
  have hexpand : (Expansion.ofStep (.select kind sel) .graph).run e = (.selecting kind sel, e) := by
    cases kind <;> rfl
  have hspent : (Stream.through (.expand (.step (.select kind sel)) none)
      (.root (some (.items [])) [])).Brings e [] := .skip rfl (.done rfl)
  have hbrings : (Stream.through (.expand (.step (.select kind sel)) (some (.selecting kind sel)))
      (.root (some (.items [])) [])).Brings e (elementItems kind (g.selected kind sel)) := by
    cases sel with
    | all => exact absurd rfl hgiven
    | many ids => exact Stream.brings_probe h hsel hspent
    | one id =>
      obtain ⟨found, hexists, hiff⟩ := elementExists_run h kind hsel
      have hbegin : (Task.selectOne kind id).begin.run.run e =
          (.ok (.items (elementItems kind (g.selected kind (.one id)))), e) := by
        have hselected : g.selected kind (.one id) = if found then [id] else [] := by
          rw [Multigraph.selected, List.filter_singleton]
          have hthere : (found = true) = (id ∈ g.ids kind) := propext hiff
          by_cases hid : id ∈ g.ids kind
          · simp [hthere, hid]
          · simp [hthere, hid]
        rw [Task.begin, Attempt.bind_ok hexists, hselected]
        cases found <;> rfl
      have hcurrent := Stream.Brings.current (.task hbegin (.items _)) hspent
      rwa [List.append_nil] at hcurrent
  refine .of_runs fun c => ⟨_, hopen c e, ?_⟩
  rw [hstage]
  exact (Stream.skips_expanding hexpand).runs hbrings.runs

/-- What a query picks comes, if nothing is done to it. -/
theorem Engine.Keeps.yields_picks {chain : Chain} {filters : List (String × Json)} {limit : Option Nat}
    (h : e.Keeps g) (hchain : chain.Picks kind filters limit []) (hsorted : ∀ v : Survey, v.Sorted g)
    (hshows : g.Shows kind filters limit (g.ids kind)) :
    chain.Yields e (elementItems kind (g.picks kind filters limit)) := by
  refine .of_runs fun c => ?_
  obtain ⟨s, hs, hopen⟩ := hchain.exists_supplies (σ := σ) (by simp) h.sound hsorted hshows c
  refine ⟨_, hopen e, ?_⟩
  rw [elementItems, List.map_map]
  exact hs.runs h

/-! ## Enumerations -/

theorem Engine.Keeps.yields_all (h : e.Keeps g) (hsorted : ∀ v : Survey, v.Sorted g)
    (kind : ElementKind) : (Chain.select kind []).Yields e (elementItems kind (g.ids kind)) := by
  have hpicks : (Chain.select kind []).Picks kind [] none [] := by
    obtain ⟨planned, hresolve, hstep⟩ :=
      Chain.resolve_select (show Arguments.selection kind.selecting [] = .ok .all from rfl)
    refine ⟨[planned], hresolve, ?_⟩
    rw [List.map_singleton, hstep]
    cases kind <;> rfl
  have hyields := h.yields_picks hpicks hsorted g.shows_all
  rwa [g.picks_all] at hyields

theorem Engine.Keeps.yields_labeled (h : e.Keeps g) (hsorted : ∀ v : Survey, v.Sorted g) (l : String) :
    (labelQuery l).Yields e (vertexItems (g.labeled l)) := by
  have hpicks : (labelQuery l).Picks .vertex [(Key.labelToken, .str l)] none [] :=
    ⟨_, labelQuery.resolve_eq l, rfl⟩
  have hyields := h.yields_picks hpicks hsorted (g.shows_label l)
  rwa [h.sound.picks_label] at hyields

theorem elementIds_run (h : e.Keeps g) (kind : ElementKind) (hsorted : (Survey.all kind).Sorted g) :
    (elementIds kind).run.run e = (.ok (g.ids kind), e) := by
  have hpattern : (Survey.all kind).pattern = .listing kind := by cases kind <;> rfl
  have hkeys := Survey.keys_eq (Survey.named_all kind) hsorted h
  rw [hpattern, Survey.ids_all] at hkeys
  have hids : ((g.ids kind).map (Survey.all kind).key).map listedId = g.ids kind := by
    rw [List.map_map]
    refine (List.map_congr_left fun id hid => ?_).trans (List.map_id _)
    have hitem := (Survey.named_all kind).item?_key (h.sound.isToken_of_has (x := (kind, id)) hid)
    cases kind <;> exact by simpa [Survey.all, Survey.listing, Finder.listing, Listing.item?,
      Survey.kind, Traverser.ofElement] using hitem
  rw [elementIds, Attempt.bind_ok (Engine.keysMatching_run (KeyPattern.parse_listing kind) rfl rfl e),
    hkeys]
  exact congrArg (fun l => (Except.ok l, e)) hids

theorem verticesWithLabel_run (h : e.Keeps g) {l : String} (hl : Key.isToken l = true)
    (hsorted : (Survey.vertices (.labeled l)).Sorted g) :
    (verticesWithLabel l).run.run e = (.ok (g.labeled l), e) := by
  have hkeys := Survey.keys_eq (v := .vertices (.labeled l)) hl hsorted h
  have hids : ((g.labeled l).map (Survey.vertices (.labeled l)).key).filterMap labeledId? =
      g.labeled l := by
    rw [List.filterMap_map]
    refine (List.filterMap_congr fun id hid => ?_).trans (List.filterMap_some)
    have hitem := Survey.Named.item?_key (v := .vertices (.labeled l)) hl (h.sound.isToken_labeled hid)
    simpa [Survey.listing, Finder.listing, Listing.item?, Survey.kind, Traverser.ofElement] using hitem
  rw [verticesWithLabel,
    Attempt.bind_ok (Engine.keysMatching_run (KeyPattern.parse_labelEntries hl) rfl rfl e)]
  rw [show e.keys.filter (KeyPattern.labelEntries l).accepts = _ from hkeys]
  exact congrArg (fun l => (Except.ok l, e)) hids

end Selections

/-! ## After a history -/

/-- Whatever operations ran from an empty store, all elements of a kind come each once and in the
order of their ids, which is the order they were created in; of given ids, one by one or in an array,
those come that are there, repeated as they are given; and the vertices of a label come each once and
in the order of their ids, whether the optimizer goes through the entries of the label or not. -/
theorem Engine.enumeration_history {σ : Type} [Backend σ] [LawfulBackend σ] {e : Engine σ}
    (hempty : ∀ key, e.contents key = none) {ops : List RecordOp} (hops : ∀ op ∈ ops, op.Named)
    (hids : GoodIds e.ids (Multigraph.history e.ids ops (.empty, e.issued)).2) :
    let g := (Multigraph.history e.ids ops (.empty, e.issued)).1
    let e' := ((RecordOp.runAll ops).run e).2
    (∀ kind, (g.ids kind).Pairwise (fun a b => compare a b = .lt) ∧
      (Chain.select kind []).Yields e' (elementItems kind (g.ids kind)) ∧
      (elementIds kind).run.run e' = (.ok (g.ids kind), e')) ∧
    (∀ kind (ids : List String), (∀ id ∈ ids, Key.isToken id = true) →
      let there := elementItems kind (ids.filter (· ∈ g.ids kind))
      (ids ≠ [] → (Chain.select kind (ids.map .str)).Yields e' there) ∧
        (Chain.select kind [.arr (ids.map .str)]).Yields e' there) ∧
    ∀ l, (g.labeled l).Pairwise (fun a b => compare a b = .lt) ∧
      (∀ id, id ∈ g.labeled l ↔ ⟨id, l⟩ ∈ g.vertices) ∧
      (labelQuery l).Yields e' (vertexItems (g.labeled l)) ∧
      (Key.isToken l = true → (verticesWithLabel l).run.run e' = (.ok (g.labeled l), e')) := by
  intro g e'
  obtain ⟨htracks, -⟩ := (Tracks.empty hempty).run hops hids
  have h : e'.Keeps g := htracks.keeps
  have hsorted : ∀ v : Survey, v.Sorted g :=
    Survey.sorted_of_ascending ((Multigraph.Ascending.empty e.ids e.issued).history hids) hids
  refine ⟨fun kind => ⟨?_, h.yields_all hsorted kind, elementIds_run h kind (hsorted _)⟩,
    fun kind ids htokens => ⟨fun hne => ?_, ?_⟩,
    fun l => ⟨(hsorted (.vertices (.labeled l))).ascending, fun _ => Multigraph.mem_labeled,
      h.yields_labeled hsorted l, fun hl => verticesWithLabel_run h hl (hsorted _)⟩⟩
  · rw [← Survey.ids_all kind]
    exact (hsorted (.all kind)).ascending
  · rcases Arguments.selection_strings kind.selecting htokens hne with hargs | ⟨id, rfl, hargs⟩
    · exact h.yields_given hargs (by simp) htokens
    · exact h.yields_given hargs (by simp) (htokens id (by simp))
  · exact h.yields_given (Arguments.selection_array _ htokens) (by simp) htokens

/-- Two edges of three are left; of four ids that are given, one is not a vertex. -/
theorem enumeration_linkingOps :
    let kept := ((RecordOp.runAll linkingOps).run (Engine.ofStore Memory.empty)).2
    (Chain.select .edge []).Yields kept (elementItems .edge [elementId 3, elementId 4]) ∧
      (Chain.select .vertex ([elementId 1, elementId 2, elementId 0, elementId 1].map .str)).Yields kept
        (elementItems .vertex [elementId 1, elementId 0, elementId 1]) ∧
      (labelQuery "person").Yields kept (vertexItems [elementId 0, elementId 1]) := by
  obtain ⟨hall, hgiven, hlabeled⟩ := @Engine.enumeration_history Memory _ _
    (Engine.ofStore Memory.empty) (fun _ => rfl) linkingOps (by decide) (by decide)
  exact ⟨(hall .edge).2.1, (hgiven .vertex _ (by decide)).1 (by decide), (hlabeled "person").2.2.1⟩

end PropertyGraph
