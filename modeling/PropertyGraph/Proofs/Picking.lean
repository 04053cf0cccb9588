/-
Queries that go through all elements of a kind, keep those that pass some filters, and of these so
many at most (`Chain.Picks`). What they come to is told by the graph (`Multigraph.picks`). Whatever
becomes of the elements that came, the steps behind are supplied with just these, by the plan as it
stands and by the one of the default optimizer, which goes through the entries of a label where the
first filter asks for it (`Chain.Picks.exists_supplies`).
-/
import PropertyGraph.Proofs.Survey

namespace PropertyGraph

open PropertyGraph.Graph

/-- So many items at most, or all. -/
def upTo {α : Type} (limit : Option Nat) (items : List α) : List α :=
  match limit with
  | none => items
  | some n => items.take n

/-- The steps of filters. -/
def filterSteps (filters : List (String × Json)) : List Step := filters.map fun f => .has f.1 f.2

/-- The step of a limit, if there is one. -/
def limitSteps (limit : Option Nat) : List Step := limit.toList.map .limit

namespace Multigraph

/-! ## What is picked -/

/-- The elements that pass filters, so many at most, in the order they were created. -/
def picks (g : Multigraph) (kind : ElementKind) (filters : List (String × Json))
    (limit : Option Nat) : List String :=
  upTo limit ((g.ids kind).filter fun id => g.passes? kind id filters = some true)

/-- The filters can be read of every element looked at: where they cannot, as many as are wanted
pass before it. -/
def Shows (g : Multigraph) (kind : ElementKind) (filters : List (String × Json)) (limit : Option Nat)
    (ids : List String) : Prop :=
  ∀ before id behind, ids = before ++ id :: behind → g.passes? kind id filters = none →
    ∃ n, limit = some n ∧ n ≤ (before.filter fun id => g.passes? kind id filters = some true).length

variable {g : Multigraph} {kind : ElementKind} {filters : List (String × Json)} {limit : Option Nat}
  {ids : List String} {l : String}

theorem shows_of_read (h : ∀ id ∈ ids, g.passes? kind id filters ≠ none) :
    g.Shows kind filters limit ids := by
  rintro before id behind rfl hnone
  exact absurd hnone (h id (by simp))

theorem picks_sublist (g : Multigraph) (kind : ElementKind) (filters : List (String × Json))
    (limit : Option Nat) : (g.picks kind filters limit).Sublist (g.ids kind) := by
  cases limit with
  | none => exact List.filter_sublist
  | some n => exact (List.take_sublist _ _).trans List.filter_sublist

theorem Sound.isToken_picks (hg : g.Sound) {id : String} (hid : id ∈ g.picks kind filters limit) :
    Key.isToken id = true :=
  hg.isToken_of_has (x := (kind, id)) ((g.picks_sublist kind filters limit).subset hid)

/-- The vertices of a label are those that a filter by the label lets pass. -/
theorem Sound.labeled_eq (hg : g.Sound) (l : String) :
    g.labeled l = (g.ids .vertex).filter fun id =>
      g.admits? .vertex id Key.labelToken (.str l) = some true := by
  rw [labeled, Multigraph.ids, List.filter_map]
  refine congrArg _ (List.filter_congr fun v hv => ?_)
  have hadmits : g.admits? .vertex v.id Key.labelToken (.str l) =
      some (Json.str l == .str v.label) := by
    rw [admits?, if_pos rfl, label?, (vertex?_eq_some hg).2 hv]
    rfl
  rw [Function.comp_apply, hadmits]
  by_cases hl : v.label = l
  · simp [hl]
  · simp [hl, Ne.symm hl]

/-- A filter by a label can always be read. -/
theorem passes?_label (g : Multigraph) (id l : String) (filters : List (String × Json)) :
    g.passes? .vertex id ((Key.labelToken, .str l) :: filters) =
      if g.admits? .vertex id Key.labelToken (.str l) = some true then g.passes? .vertex id filters
      else some false := by
  have hfound : ∃ found, g.admits? .vertex id Key.labelToken (.str l) = some found :=
    ⟨_, if_pos rfl⟩
  obtain ⟨found, hfound⟩ := hfound
  cases found <;> simp [passes?, hfound]

theorem filter_passes?_label (g : Multigraph) (l : String) (filters : List (String × Json))
    (ids : List String) :
    ids.filter (fun id => g.passes? .vertex id ((Key.labelToken, .str l) :: filters) = some true) =
      (ids.filter fun id => g.admits? .vertex id Key.labelToken (.str l) = some true).filter
        fun id => g.passes? .vertex id filters = some true := by
  rw [List.filter_filter]
  refine List.filter_congr fun id _ => ?_
  rw [passes?_label]
  by_cases hl : g.admits? .vertex id Key.labelToken (.str l) = some true
  · simp [hl]
  · simp [hl]

/-- Without filters and a limit, all elements are picked. -/
theorem picks_all (g : Multigraph) (kind : ElementKind) : g.picks kind [] none = g.ids kind := by
  simp [picks, upTo, passes?]

theorem shows_all (g : Multigraph) {kind : ElementKind} : g.Shows kind [] none (g.ids kind) :=
  shows_of_read fun id _ => by simp [passes?]

/-- A filter by a label picks the vertices of the label. -/
theorem Sound.picks_label (hg : g.Sound) (l : String) :
    g.picks .vertex [(Key.labelToken, .str l)] none = g.labeled l := by
  rw [picks, upTo, g.filter_passes?_label, hg.labeled_eq]
  simp [passes?]

theorem shows_label (g : Multigraph) (l : String) :
    g.Shows .vertex [(Key.labelToken, .str l)] none (g.ids .vertex) :=
  shows_of_read fun id _ => by
    rw [passes?_label]
    split <;> simp [passes?]

/-- Of the elements with the label, the filters behind the first can be read. -/
theorem Shows.behind_label (h : g.Shows .vertex ((Key.labelToken, .str l) :: filters) limit ids) :
    g.Shows .vertex filters limit (ids.filter fun id =>
      g.admits? .vertex id Key.labelToken (.str l) = some true) := by
  intro before id behind hsplit hnone
  obtain ⟨front, back, rfl, rfl, hback⟩ := List.filter_eq_append_iff.1 hsplit
  obtain ⟨skipped, rest, rfl, hskipped, hlabel, -⟩ := List.filter_eq_cons_iff.1 hback
  obtain ⟨n, hn, hle⟩ := h (front ++ skipped) id rest (by simp)
    (by rw [passes?_label, if_pos (of_decide_eq_true hlabel), hnone])
  refine ⟨n, hn, ?_⟩
  have hempty : (skipped.filter fun id =>
      g.admits? .vertex id Key.labelToken (.str l) = some true) = [] :=
    List.filter_eq_nil_iff.2 hskipped
  rwa [filter_passes?_label, List.filter_append, hempty, List.append_nil] at hle

end Multigraph

variable {σ : Type} [Backend σ] [LawfulBackend σ] {g : Multigraph} {kind : ElementKind}
  {filters : List (String × Json)} {limit : Option Nat}

/-- Behind filters and a limit come the elements that they pick, and then the end. -/
theorem Stream.Supplies.picking {ids : List String} {s : Stream}
    (h : s.Supplies σ kind True ids g) (hids : ids.Nodup) (htokens : ∀ id ∈ ids, Key.isToken id = true)
    (hkeys : ∀ f ∈ filters, Key.isToken f.1 = true) (hshows : g.Shows kind filters limit ids) :
    (s.ofSteps (filterSteps filters ++ limitSteps limit)).Supplies σ kind True
      (upTo limit (ids.filter fun id => g.passes? kind id filters = some true)) g := by
  rw [Stream.ofSteps_append]
  cases hunread : ids.find? fun id => g.passes? kind id filters = none with
  | none =>
    have hread : ∀ id ∈ ids, g.passes? kind id filters ≠ none := by
      simpa using List.find?_eq_none.1 hunread
    have hpassing := h.passing hids htokens hkeys hread
    cases limit with
    | none => exact hpassing
    | some n => exact hpassing.limit fun _ => trivial
  | some id =>
    -- the limit is reached before the first element of which a filter cannot be read
    obtain ⟨hnone, before, behind, rfl, hbefore⟩ := List.find?_eq_some_iff_append.1 hunread
    obtain ⟨n, rfl, hn⟩ := hshows before id behind rfl (of_decide_eq_true hnone)
    have hread : ∀ i ∈ before, g.passes? kind i filters ≠ none := by simpa using hbefore
    have hpassing := h.front.passing (List.nodup_append.1 hids).1
      (fun i hi => htokens i (List.mem_append_left _ hi)) hkeys hread
    have hlimit := hpassing.limit (n := n) fun hlt => absurd hn (by omega)
    have hpicked : upTo (some n) ((before ++ id :: behind).filter fun id =>
        g.passes? kind id filters = some true) =
          (before.filter fun id => g.passes? kind id filters = some true).take n := by
      rw [upTo, List.filter_append, List.take_append_of_le_length hn]
    rw [hpicked]
    exact hlimit

namespace Chain

variable {chain : Chain} {behind : List Step}

/-- A chain that goes through all elements of a kind, keeps those that pass filters, so many at most,
and takes some steps from there. -/
def Picks (chain : Chain) (kind : ElementKind) (filters : List (String × Json)) (limit : Option Nat)
    (behind : List Step) : Prop :=
  ∃ steps, chain.resolve = .ok (.root :: steps) ∧
    steps.map (·.step) =
      (Survey.all kind).step :: (filterSteps filters ++ limitSteps limit ++ behind)

theorem Picks.walks (h : chain.Picks kind filters limit behind) :
    ∀ step ∈ filterSteps filters ++ limitSteps limit ++ behind, step.Walks := by
  obtain ⟨steps, hresolve, hsteps⟩ := h
  obtain ⟨first, rest, hcons, hwalks⟩ := walks_of_resolve hresolve
  obtain rfl := List.tail_eq_of_cons_eq hcons
  obtain ⟨-, hrest⟩ := List.cons.inj hsteps
  intro step hstep
  rw [← hrest] at hstep
  obtain ⟨s, hs, rfl⟩ := List.mem_map.1 hstep
  exact hwalks s hs

/-- The keys of filters are tokens. -/
theorem Picks.isToken_key (h : chain.Picks kind filters limit behind) :
    ∀ f ∈ filters, Key.isToken f.1 = true := fun f hf =>
  h.walks (.has f.1 f.2)
    (List.mem_append_left _ (List.mem_append_left _ (List.mem_map.2 ⟨f, hf, rfl⟩)))

/-- Whatever the optimizer, the steps behind are supplied with the elements that are picked. -/
theorem Picks.exists_supplies (h : chain.Picks kind filters limit behind)
    (hbehind : ∀ key value, behind.head? ≠ some (.has key value)) (hsound : g.Sound)
    (hsorted : ∀ v : Survey, v.Sorted g) (hshows : g.Shows kind filters limit (g.ids kind))
    (c : Config) :
    ∃ s : Stream, s.Supplies σ kind True (g.picks kind filters limit) g ∧
      ∀ e : Engine σ, (chain.openStream c.optimizer).run.run e = (.ok (s.ofSteps behind), e) := by
  have hkeys := h.isToken_key
  obtain ⟨steps, hresolve, hsteps⟩ := h
  obtain ⟨first, rest, hcons, hwalks⟩ := walks_of_resolve hresolve
  obtain rfl := List.tail_eq_of_cons_eq hcons
  obtain ⟨hfirst, hrest⟩ := List.cons.inj hsteps
  have htokens : ∀ {v : Survey}, ∀ id ∈ v.ids g, Key.isToken id = true :=
    fun id hid => Survey.isToken_of_mem hsound hid
  -- as it stands, the plan goes through all elements
  have hplain : ∀ o : Optimizer, o.improve (.root :: first :: rest) = (.root :: first :: rest, []) →
      ∃ s : Stream, s.Supplies σ kind True (g.picks kind filters limit) g ∧
        ∀ e : Engine σ, (chain.openStream o).run.run e = (.ok (s.ofSteps behind), e) := by
    intro o himprove
    have hplan := o.plan_of_resolve hresolve
    rw [himprove] at hplan
    have hall := (Survey.all kind).supplies (σ := σ) (Survey.named_all kind) (hsorted _)
    rw [Survey.kind_all] at hall
    have hpicking := hall.picking (hsorted _).nodup htokens hkeys (by rwa [Survey.ids_all])
    rw [Survey.ids_all] at hpicking
    refine ⟨_, hpicking, fun e => ?_⟩
    rw [openStream_run hplan e, List.map_cons, List.map_cons, hrest, ← Stream.ofSteps_append]
    rw [show first.step = (Survey.all kind).step from hfirst]
    exact congrArg (fun s => (Except.ok s, e)) (Survey.ofSteps_step _ _)
  rcases c.optimizer_cases with hc | hc
  · rw [hc]
    rcases @Optimizer.improve_default first rest hwalks with
      hsame | ⟨second, others, l, rfl, hvertices, hsecond, hl, himprove⟩
    · exact hplain _ hsame
    · -- the first filter is by the label, and the entries of the label take its place
      rw [List.map_cons, hsecond] at hrest
      obtain ⟨filters', rfl, hothers⟩ : ∃ filters', filters = (Key.labelToken, .str l) :: filters' ∧
          others.map (·.step) = filterSteps filters' ++ limitSteps limit ++ behind := by
        cases filters with
        | cons f filters' =>
          obtain ⟨key, value⟩ := f
          obtain ⟨hf, hothers⟩ := List.cons.inj hrest
          cases hf
          exact ⟨filters', rfl, hothers⟩
        | nil =>
          cases limit with
          | none => exact absurd (congrArg List.head? hrest.symm) (hbehind _ _)
          | some n => cases (List.cons.inj hrest).1
      obtain rfl : kind = .vertex := by
        cases kind with
        | vertex => rfl
        | edge => exact absurd (hfirst.symm.trans hvertices) (by simp [Survey.all, Survey.step])
      have hplan := Optimizer.default.plan_of_resolve hresolve
      rw [himprove] at hplan
      let v : Survey := .vertices (.labeled l)
      have hlabeled := v.supplies (σ := σ) hl (hsorted v)
      have hids : v.ids g = _ := hsound.labeled_eq l
      have hpicking := hlabeled.picking (hsorted v).nodup htokens
        (fun f hf => hkeys f (List.mem_cons_of_mem _ hf)) (hids ▸ hshows.behind_label)
      have hpicks := g.filter_passes?_label l filters' (g.ids .vertex)
      rw [hids, show v.kind = .vertex from rfl, ← hpicks] at hpicking
      refine ⟨_, hpicking, fun e => ?_⟩
      rw [openStream_run hplan e, List.map_cons, List.map_cons, hothers, ← Stream.ofSteps_append]
      exact congrArg (fun s => (Except.ok s, e)) (v.ofSteps_step _)
  · rw [hc]
    exact hplain _ rfl

end Chain

end PropertyGraph
