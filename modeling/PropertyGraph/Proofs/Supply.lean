/-
Queries that change what they go through. A stream supplies elements where they come in turn,
although each that came may be touched before the next is asked for: dropped, or given a property
(`Stream.Supplies`). What a filter finds of an element is the same whatever became of those before
it, so filters and limits supply what they should of the elements there were at first
(`Supplies.passing`, `Supplies.limit`). A drop at the end takes each of them out, and a property is
set of each (`Supplies.runs_drop`, `Supplies.runs_setting`).
-/
import PropertyGraph.Proofs.Simulation

namespace PropertyGraph

open PropertyGraph.Graph

namespace Multigraph

/-! ## What filters find -/

/-- The label of an element. -/
def label? (g : Multigraph) : ElementKind → String → Option String
  | .vertex, id => (g.vertex? id).map (·.label)
  | .edge, id => (g.edge? id).map (·.label)

/-- Whether an element has a value under a key: a label, an id, or a property as it is read back.
Nothing if the property cannot be read. -/
def admits? (g : Multigraph) (kind : ElementKind) (id key : String) (value : Json) : Option Bool :=
  if key = Key.labelToken then some ((g.label? kind id).any (value == .str ·))
  else if key = Key.idToken then some (value == .str id)
  else match g.property kind id key with
    | none => some false
    | some stored => (Json.parse? stored.text).map (·.scalarEqual value)

/-- Whether an element passes filters one after the other. Behind one that keeps it back nothing is
looked at. -/
def passes? (g : Multigraph) (kind : ElementKind) (id : String) : List (String × Json) → Option Bool
  | [] => some true
  | (key, value) :: filters => do
    if ← g.admits? kind id key value then g.passes? kind id filters else some false

/-! ## Elements that are touched -/

/-- Takes an element out, a vertex with the edges at it. -/
def drop (g : Multigraph) : ElementKind → String → Multigraph
  | .vertex, id => g.dropVertex id
  | .edge, id => g.dropEdge id

/-- What a query may make of a graph with an element it comes to. -/
inductive Touched (kind : ElementKind) (id : String) (g : Multigraph) : Multigraph → Prop
  | kept : Touched kind id g g
  | dropped : Touched kind id g (g.drop kind id)
  | set (key : String) (value : Json) : Touched kind id g (g.setProperty kind id key value)

namespace Touched

variable {g g' : Multigraph} {kind : ElementKind} {id i : String}

/-- All other vertices are still there, in their order. -/
theorem vertices (h : g.Touched .vertex id g') : ∃ keep : String → Bool,
    (∀ i, i ≠ id → keep i = true) ∧ g'.vertices = g.vertices.filter (keep ·.id) := by
  cases h with
  | kept | set => exact ⟨fun _ => true, fun _ _ => rfl, (List.filter_true _).symm⟩
  | dropped => exact ⟨(· != id), fun i hne => by simpa using hne, rfl⟩

/-- All other edges are still there, in their order. -/
theorem edges (h : g.Touched .edge id g') : ∃ keep : String → Bool,
    (∀ i, i ≠ id → keep i = true) ∧ g'.edges = g.edges.filter (keep ·.id) := by
  cases h with
  | kept | set => exact ⟨fun _ => true, fun _ _ => rfl, (List.filter_true _).symm⟩
  | dropped => exact ⟨fun i => ! [id].contains i, fun i hne => by simpa using hne, rfl⟩

theorem label? (h : g.Touched kind id g') (hne : i ≠ id) : g'.label? kind i = g.label? kind i := by
  cases h with
  | kept => rfl
  | set key value => cases kind <;> rfl
  | dropped =>
    cases kind with
    | vertex =>
      simp only [Multigraph.label?, drop, dropVertex, vertex?_removeVertex, if_neg hne]
      rfl
    | edge => simp [Multigraph.label?, drop, dropEdge, edge?_removeEdges, hne]

theorem property (h : g.Touched kind id g') (hne : i ≠ id) (key : String) :
    g'.property kind i key = g.property kind i key := by
  cases h with
  | kept => rfl
  | set key value => simp [setProperty, hne]
  | dropped => cases kind <;> simp [drop, dropVertex, dropEdge, removeVertex, removeEdges, hne]

/-- What a filter finds of all others is the same. -/
theorem admits? (h : g.Touched kind id g') (hne : i ≠ id) (key : String) (value : Json) :
    g'.admits? kind i key value = g.admits? kind i key value := by
  simp only [Multigraph.admits?, h.label? hne, h.property hne]

end Touched

/-- The first filter finds something if all do. -/
theorem passes?_cons {g : Multigraph} {kind : ElementKind} {id key : String} {value : Json}
    {filters : List (String × Json)} (h : g.passes? kind id ((key, value) :: filters) ≠ none) :
    ∃ found, g.admits? kind id key value = some found ∧
      g.passes? kind id ((key, value) :: filters) =
        if found then g.passes? kind id filters else some false := by
  cases hadmits : g.admits? kind id key value with
  | none => exact absurd (by simp [passes?, hadmits]) h
  | some found => exact ⟨found, rfl, by simp [passes?, hadmits]⟩

end Multigraph

variable {σ : Type} [Backend σ] [LawfulBackend σ] {e : Engine σ} {g : Multigraph} {kind : ElementKind}
  {id key : String} {value : Json}

/-! ## Stages at an element -/

theorem Engine.Keeps.getLabel_run (h : e.Keeps g) (hid : Key.isToken id = true) :
    (getLabel kind id).run.run e = (.ok (g.label? kind id), e) := by
  obtain ⟨-, neighbors, -, hholds⟩ := h
  have hread := (does_readText (r := .plain (.label kind id)) hid _).run_of_reads (reads_readText _)
    hholds
  have hlabel : ((g.layout neighbors).record (.plain (.label kind id))).map Blob.string =
      g.label? kind id := by
    cases kind <;>
    · simp only [Layout.record, Multigraph.layout, Multigraph.label?, Option.map_map]
      rfl
  rwa [hlabel] at hread

/-- What is stored of a property is the text of its value. -/
theorem Engine.Keeps.get_property_run (h : e.Keeps g) (kind : ElementKind) (hid : Key.isToken id = true)
    (hkey : Key.isToken key = true) :
    ∃ entry, (Engine.call (Backend.get (Key.property kind id key))).run.run e = (.ok entry, e) ∧
      entry.map (·.value) = (g.property kind id key).map (.text ·.text) := by
  obtain ⟨-, neighbors, -, hholds⟩ := h
  exact ⟨_, Engine.get_run _ e, hholds.stored (.plain (.property kind id key)) ⟨hid, hkey⟩⟩

/-- What is stored of a property is read if it can be. -/
theorem Engine.Keeps.getProperty_run (h : e.Keeps g) (hid : Key.isToken id = true)
    (hkey : Key.isToken key = true) (read : Option Json)
    (hread : ∀ stored, g.property kind id key = some stored →
      Json.parse? stored.text = read ∧ read ≠ none)
    (hnone : g.property kind id key = none → read = none) :
    (getProperty kind id key).run.run e = (.ok read, e) := by
  obtain ⟨entry, hget, hstored⟩ := h.get_property_run kind hid hkey
  rw [getProperty]
  cases entry with
  | none =>
    rw [hnone (Option.map_eq_none_iff.1 hstored.symm)]
    exact Attempt.bind_ok hget _
  | some entry =>
    obtain ⟨stored, hproperty, htext⟩ := Option.map_eq_some_iff.1 hstored.symm
    obtain ⟨hparse, hne⟩ := hread stored hproperty
    obtain ⟨j, rfl⟩ := Option.ne_none_iff_exists'.1 hne
    have hjson : readJson entry = .ok j := by
      rw [readJson, ← show Blob.text stored.text = entry.value from htext, Blob.json?, hparse]
    refine (Attempt.bind_ok hget _).trans ?_
    dsimp only
    rw [hjson]
    rfl

/-- A filter finds of an element what the graph tells. -/
theorem Engine.Keeps.holds_run (h : e.Keeps g) (hid : Key.isToken id = true)
    (hkey : Key.isToken key = true) {found : Bool}
    (hadmits : g.admits? kind id key value = some found) :
    (Filter.holds kind id key value).run.run e = (.ok found, e) := by
  rw [Multigraph.admits?] at hadmits
  rw [Filter.holds]
  by_cases hlabel : key = Key.labelToken
  · rw [if_pos hlabel] at hadmits
    obtain rfl := Option.some.inj hadmits
    rw [if_pos (by simpa using hlabel)]
    refine (Attempt.bind_ok (h.getLabel_run hid) _).trans ?_
    cases g.label? kind id <;> rfl
  rw [if_neg hlabel] at hadmits
  rw [if_neg (by simpa using hlabel)]
  by_cases hidToken : key = Key.idToken
  · rw [if_pos hidToken] at hadmits
    obtain rfl := Option.some.inj hadmits
    rw [if_pos (by simpa using hidToken)]
    rfl
  rw [if_neg hidToken] at hadmits
  rw [if_neg (by simpa using hidToken)]
  cases hproperty : g.property kind id key with
  | none =>
    rw [hproperty] at hadmits
    obtain rfl := Option.some.inj hadmits
    exact Attempt.bind_ok (h.getProperty_run hid hkey none (by simp [hproperty])
      fun _ => rfl) _
  | some stored =>
    rw [hproperty] at hadmits
    obtain ⟨j, hparse, rfl⟩ := Option.map_eq_some_iff.1 hadmits
    exact Attempt.bind_ok (h.getProperty_run hid hkey (some j)
      (fun s hs => by
        obtain rfl := Option.some.inj (hproperty.symm.trans hs)
        exact ⟨hparse, by simp⟩) (by simp [hproperty])) _

omit [Backend σ] [LawfulBackend σ] in
theorem requireElement_ofElement (step : String) (kind : ElementKind) (id : String) :
    (requireElement step (.ofElement kind id) : Attempt σ _) = pure (kind, id) := by
  cases kind <;> rfl

/-- A filter lets an element pass or not, and changes nothing. -/
theorem Engine.Keeps.react_having (h : e.Keeps g) (hid : Key.isToken id = true)
    (hkey : Key.isToken key = true) {found : Bool}
    (hadmits : g.admits? kind id key value = some found) :
    ((Stage.filter (.having key value)).react (.item (.ok (.ofElement kind id)))).run e =
      ((if found then .item (.ok (.ofElement kind id)) else .skip,
        .stage (.filter (.having key value))), e) := by
  have happly : (Filter.apply (.having key value) (.ofElement kind id)).run.run e =
      (.ok (if found then some (.ofElement kind id) else none), e) := by
    rw [Filter.apply, requireElement_ofElement, pure_bind]
    refine (Attempt.bind_ok (h.holds_run hid hkey hadmits) _).trans ?_
    cases found <;> rfl
  rw [Stage.react_filter happly]
  cases found <;> rfl

/-- A drop takes an element out. -/
theorem Engine.Keeps.react_drop (h : e.Keeps g) (kind : ElementKind) (hid : Key.isToken id = true) :
    ∃ e', ((Stage.sink .drop).react (.item (.ok (.ofElement kind id)))).run e =
        ((.skip, .stage (.sink .drop)), e') ∧
      e'.Keeps (g.drop kind id) ∧ e.Beside e' := by
  obtain ⟨e', habsorb, hkeeps, hb⟩ : ∃ e',
      (Sink.drop.absorb (.ofElement kind id)).run.run e = (.ok .drop, e') ∧
        e'.Keeps (g.drop kind id) ∧ e.Beside e' := by
    cases kind with
    | vertex =>
      obtain ⟨e', hrun, hkeeps, hb⟩ := h.dropVertex hid
      refine ⟨e', ?_, hkeeps, hb⟩
      rw [Traverser.ofElement, Sink.absorb, Attempt.lift_bind, hrun]
      rfl
    | edge =>
      obtain ⟨e', hrun, hkeeps, hb⟩ := h.dropEdge hid
      refine ⟨e', ?_, hkeeps, hb⟩
      rw [Traverser.ofElement, Sink.absorb, Attempt.lift_bind, hrun]
      rfl
  refine ⟨e', ?_, hkeeps, hb⟩
  simp only [Stage.react, Run.bind_run, Engine.outcome, habsorb]
  rfl

/-- A property is set of an element, and no other key changes. -/
theorem Engine.Keeps.react_setting (h : e.Keeps g) (kind : ElementKind)
    (hid : Key.isToken id = true) (hkey : IsPropertyKey key) (value : Json) :
    ∃ e', ((Stage.filter (.setting key value)).react (.item (.ok (.ofElement kind id)))).run e =
        ((.item (.ok (.ofElement kind id)), .stage (.filter (.setting key value))), e') ∧
      e'.Keeps (g.setProperty kind id key value) ∧ e.Beside e' ∧
      ∀ k, e'.contents k =
        if k = Key.property kind id key then some (.text value.text) else e.contents k := by
  have hset : (Graph.setProperty kind id key value).run.run e = (.ok (), { e with
      store := LawfulBackend.write (Key.property kind id key) (.text value.text) e.store }) := by
    rw [Graph.setProperty, Validation.propertyKey_eq_ok.2 hkey]
    exact Attempt.bind_ok (Engine.update_run (Key.property kind id key) (.text value.text) e) _
  obtain ⟨e', hrun, hkeeps, hb⟩ := h.setProperty kind hid hkey value
  rw [hset] at hrun
  have hwritten := (Prod.mk.inj hrun).2
  rw [hwritten] at hset
  refine ⟨e', ?_, hkeeps, hb, fun k => hwritten ▸ e.contents_write _ _ k⟩
  have happly : (Filter.apply (.setting key value) (.ofElement kind id)).run.run e =
      (.ok (some (.ofElement kind id)), e') := by
    rw [Filter.apply, requireElement_ofElement, pure_bind]
    exact Attempt.bind_ok hset _
  exact Stage.react_filter happly

/-! ## Streams that supply elements -/

namespace Stream

variable {ends : Prop} {ids : List String} {s : Stream}

omit [LawfulBackend σ] in
/-- Pieces of work that bring nothing may come before what a stream comes to. -/
theorem Skips.comes_trans {s s' s'' : Stream} {e e' e'' : Engine σ} {event : Event}
    (h : Skips s e s' e') (h' : s'.Comes e' event s'' e'') : s.Comes e event s'' e'' := by
  cases event with
  | skip => exact h.trans h'
  | item | done =>
    obtain ⟨s₁, e₁, hskips, hs⟩ := h'
    exact ⟨s₁, e₁, h.trans hskips, hs⟩

omit [LawfulBackend σ] in
/-- What a stream comes to, seen through a stage that waits for it. -/
theorem Comes.behind {s s' : Stream} {e e' : Engine σ} {event : Event} (h : s.Comes e event s' e')
    (stage : Stage) (hwork : (stage.work? : Option (Run σ _)) = none) :
    (Stream.through stage s).Comes e ((stage.react event).run e').1.1
      (((stage.react event).run e').1.2.over s') ((stage.react event).run e').2 :=
  h.through hwork

/-- In whatever store keeps the graph, these elements of a kind come in turn, and each may be touched
before the next is asked for. Behind them is the end, if so said. -/
def Supplies (σ : Type) [Backend σ] [LawfulBackend σ] (kind : ElementKind) (ends : Prop) :
    List String → Multigraph → Stream → Prop
  | [], g, s => ends → ∀ e : Engine σ, e.Keeps g → ∃ s', s.Comes e .done s' e
  | id :: ids, g, s => ∀ e : Engine σ, e.Keeps g →
    ∃ s', s.Comes e (.item (.ok (.ofElement kind id))) s' e ∧
      ∀ g', g.Touched kind id g' → Supplies σ kind ends ids g' s'

/-- Elements are supplied also behind pieces of work that bring nothing. -/
theorem Supplies.of_skips
    (h : ∀ e : Engine σ, e.Keeps g → ∃ s', Skips s e s' e ∧ s'.Supplies σ kind ends ids g) :
    s.Supplies σ kind ends ids g := by
  cases ids with
  | nil =>
    intro hends e he
    obtain ⟨s', hskips, hsupplies⟩ := h e he
    obtain ⟨s'', hcomes⟩ := hsupplies hends e he
    exact ⟨s'', hskips.comes_trans hcomes⟩
  | cons id ids =>
    intro e he
    obtain ⟨s', hskips, hsupplies⟩ := h e he
    obtain ⟨s'', hcomes, hrest⟩ := hsupplies e he
    exact ⟨s'', hskips.comes_trans hcomes, hrest⟩

/-- Who supplies elements supplies the first of them. -/
theorem Supplies.front {more : List String} (h : s.Supplies σ kind ends (ids ++ more) g) :
    s.Supplies σ kind False ids g := by
  induction ids generalizing g s with
  | nil => exact False.elim
  | cons id ids ih =>
    intro e he
    obtain ⟨s', hcomes, hrest⟩ := h e he
    exact ⟨s', hcomes, fun g' hg' => ih (hrest g' hg')⟩

/-- Behind a filter come the elements that it finds something of. -/
theorem Supplies.having (h : s.Supplies σ kind ends ids g) (hids : ids.Nodup)
    (htokens : ∀ id ∈ ids, Key.isToken id = true) (hkey : Key.isToken key = true)
    {found : String → Bool} (hfound : ∀ id ∈ ids, g.admits? kind id key value = some (found id)) :
    (Stream.through (.filter (.having key value)) s).Supplies σ kind ends (ids.filter found) g := by
  induction ids generalizing g s with
  | nil =>
    intro hends e he
    obtain ⟨s', hcomes⟩ := h hends e he
    exact ⟨_, hcomes.behind (.filter (.having key value)) rfl⟩
  | cons id ids ih =>
    obtain ⟨hnew, hids⟩ := List.nodup_cons.1 hids
    have hrest : ∀ {g' s'}, g.Touched kind id g' → s'.Supplies σ kind ends ids g' →
        (Stream.through (.filter (.having key value)) s').Supplies σ kind ends
          (ids.filter found) g' := by
      intro g' s' hg' hsupplies
      refine ih hsupplies hids (fun i hi => htokens i (List.mem_cons_of_mem _ hi)) fun i hi => ?_
      have hne : i ≠ id := fun hii => hnew (hii ▸ hi)
      rw [hg'.admits? hne]
      exact hfound i (List.mem_cons_of_mem _ hi)
    have hreact := fun (e : Engine σ) (he : e.Keeps g) =>
      he.react_having (htokens id (by simp)) hkey (hfound id (by simp))
    by_cases hpass : found id = true
    · rw [List.filter_cons_of_pos hpass]
      intro e he
      obtain ⟨s', hcomes, hsupplies⟩ := h e he
      have hthrough := hcomes.behind (.filter (.having key value)) rfl
      rw [hreact e he, if_pos hpass] at hthrough
      exact ⟨_, hthrough, fun g' hg' => hrest hg' (hsupplies g' hg')⟩
    · rw [List.filter_cons_of_neg hpass]
      refine .of_skips fun e he => ?_
      obtain ⟨s', hcomes, hsupplies⟩ := h e he
      have hthrough := hcomes.behind (.filter (.having key value)) rfl
      rw [hreact e he, if_neg hpass] at hthrough
      exact ⟨_, hthrough, hrest .kept (hsupplies g .kept)⟩

/-- Behind filters come the elements that pass them all. -/
theorem Supplies.passing (h : s.Supplies σ kind ends ids g) (hids : ids.Nodup)
    (htokens : ∀ id ∈ ids, Key.isToken id = true) {filters : List (String × Json)}
    (hkeys : ∀ f ∈ filters, Key.isToken f.1 = true)
    (hfound : ∀ id ∈ ids, g.passes? kind id filters ≠ none) :
    (s.ofSteps (filters.map fun f => .has f.1 f.2)).Supplies σ kind ends
      (ids.filter fun id => g.passes? kind id filters = some true) g := by
  induction filters generalizing ids s with
  | nil =>
    have hall : (ids.filter fun id => g.passes? kind id [] = some true) = ids := by
      simp [Multigraph.passes?]
    rw [hall]
    exact h
  | cons f filters ih =>
    obtain ⟨key, value⟩ := f
    let found := fun id => g.admits? kind id key value = some true
    have hadmits : ∀ id ∈ ids, g.admits? kind id key value = some (decide (found id)) ∧
        g.passes? kind id ((key, value) :: filters) =
          if found id then g.passes? kind id filters else some false := by
      intro id hid
      obtain ⟨b, hb, hpasses⟩ := Multigraph.passes?_cons (hfound id hid)
      cases b <;> simp [found, hb, hpasses]
    have hfirst := h.having hids htokens (hkeys (key, value) (by simp))
      fun id hid => (hadmits id hid).1
    have hrest := ih hfirst (hids.filter _) (fun id hid => htokens id (List.mem_filter.1 hid).1)
      (fun f hf => hkeys f (List.mem_cons_of_mem _ hf)) fun id hid => by
        obtain ⟨hid, hpass⟩ := List.mem_filter.1 hid
        have := hfound id hid
        rwa [(hadmits id hid).2, if_pos (of_decide_eq_true hpass)] at this
    rw [List.filter_filter] at hrest
    have hsame : (ids.filter fun id => g.passes? kind id ((key, value) :: filters) = some true) =
        ids.filter fun id => decide (g.passes? kind id filters = some true) && decide (found id) := by
      refine List.filter_congr fun id hid => ?_
      rw [(hadmits id hid).2]
      by_cases hpass : found id
      · simp [hpass]
      · simp [hpass]
    rw [hsame]
    exact hrest

/-- Behind a limit come so many elements at most, and then the end. -/
theorem Supplies.limit (h : s.Supplies σ kind ends ids g) {n : Nat} (hn : ids.length < n → ends) :
    (Stream.through (.limit n) s).Supplies σ kind True (ids.take n) g := by
  induction n generalizing ids g s with
  | zero => exact fun _ e _ => ⟨_, (Skips.refl _ e).comes rfl⟩
  | succ n ih =>
    cases ids with
    | nil =>
      intro _ e he
      obtain ⟨s', hcomes⟩ := h (hn (by simp)) e he
      exact ⟨_, hcomes.behind (.limit (n + 1)) rfl⟩
    | cons id ids =>
      intro e he
      obtain ⟨s', hcomes, hrest⟩ := h e he
      exact ⟨_, hcomes.behind (.limit (n + 1)) rfl,
        fun g' hg' => ih (hrest g' hg') fun hlt => hn (by simpa using hlt)⟩

/-! ## Runs -/

omit [LawfulBackend σ] in
theorem Comes.runs_done {s s' : Stream} {e : Engine σ} (h : s.Comes e .done s' e) : s.Runs e [] e := by
  obtain ⟨s₁, e₁, hskips, hs⟩ := h
  exact hskips.runs (.done hs)

omit [LawfulBackend σ] in
theorem Comes.runs_item {s s' : Stream} {e e' e'' : Engine σ} {i : Item}
    {trace : List (Item × Engine σ)} (h : s.Comes e (.item i) s' e') (hrest : s'.Runs e' trace e'') :
    s.Runs e ((i, e') :: trace) e'' := by
  obtain ⟨s₁, e₁, hskips, hs⟩ := h
  exact hskips.runs (.item hs hrest)

/-- Where nothing is touched, the elements are what a run brings. -/
theorem Supplies.runs (h : s.Supplies σ kind True ids g) (he : e.Keeps g) :
    s.Runs e (ids.map fun id => (.ok (.ofElement kind id), e)) e := by
  induction ids generalizing s with
  | nil =>
    obtain ⟨s', hcomes⟩ := h trivial e he
    exact hcomes.runs_done
  | cons id ids ih =>
    obtain ⟨s', hcomes, hrest⟩ := h e he
    exact hcomes.runs_item (ih (hrest g .kept))

/-- Where nothing is touched, a filter at the end makes of each element what it finds. -/
theorem Supplies.runs_applied (h : s.Supplies σ kind True ids g) (he : e.Keeps g) (f : Filter)
    (found : String → Except Error (Option Traverser))
    (hf : ∀ id ∈ ids, (f.apply (.ofElement kind id)).run.run e = (found id, e)) :
    (Stream.through (.filter f) s).Runs e
      ((ids.flatMap fun id => Item.ofOutcome (found id)).map (·, e)) e := by
  induction ids generalizing s with
  | nil =>
    obtain ⟨s', hcomes⟩ := h trivial e he
    exact (hcomes.behind (.filter f) rfl).runs_done
  | cons id ids ih =>
    obtain ⟨s', hcomes, hrest⟩ := h e he
    have hthrough := hcomes.behind (.filter f) rfl
    rw [Stage.react_filter (hf id List.mem_cons_self)] at hthrough
    have hlater := ih (hrest g .kept) fun i hi => hf i (List.mem_cons_of_mem _ hi)
    rw [List.flatMap_cons, List.map_append]
    cases hfound : found id with
    | error err =>
      rw [hfound] at hthrough
      exact hthrough.runs_item hlater
    | ok kept =>
      rw [hfound] at hthrough
      cases kept with
      | none => exact Skips.runs hthrough hlater
      | some t => exact hthrough.runs_item hlater

/-- Where nothing is touched, an expansion at the end puts in the place of each element what it
brings. -/
theorem Supplies.runs_expanded (h : s.Supplies σ kind True ids g) (he : e.Keeps g)
    (expander : Expander) (items : String → List Item)
    (hx : ∀ id ∈ ids, ∃ x, (expander.expand (.ofElement kind id)).run e = (x, e) ∧
      x.Brings e (items id)) :
    (Stream.through (.expand expander none) s).Runs e ((ids.flatMap items).map (·, e)) e := by
  induction ids generalizing s with
  | nil =>
    obtain ⟨s', hcomes⟩ := h trivial e he
    exact (hcomes.behind (.expand expander none) rfl).runs_done
  | cons id ids ih =>
    obtain ⟨s', hcomes, hrest⟩ := h e he
    obtain ⟨x, hexpand, hbrings⟩ := hx id List.mem_cons_self
    have hthrough : Skips (.through (.expand expander none) s) e
        (.through (.expand expander (some x)) s') e := by
      have hbehind := hcomes.behind (.expand expander none) rfl
      simp only [Stage.react, Run.bind_run, hexpand] at hbehind
      exact hbehind
    rw [List.flatMap_cons, List.map_append]
    exact hthrough.runs (.current hbrings
      (ih (hrest g .kept) fun i hi => hx i (List.mem_cons_of_mem _ hi)))

/-- With a drop at the end, a run takes the elements out. -/
theorem Supplies.runs_drop (h : s.Supplies σ kind True ids g)
    (htokens : ∀ id ∈ ids, Key.isToken id = true) (he : e.Keeps g) :
    ∃ e', (Stream.through (.sink .drop) s).Runs e [] e' ∧
      e'.Keeps (ids.foldl (·.drop kind) g) ∧ e.Beside e' := by
  induction ids generalizing g s e with
  | nil =>
    obtain ⟨s', hcomes⟩ := h trivial e he
    have hsink : Skips (.through (.sink .drop) s) e (.given []) e :=
      hcomes.behind (.sink .drop) rfl
    exact ⟨e, hsink.runs (.done rfl), he, .refl e⟩
  | cons id ids ih =>
    obtain ⟨s', hcomes, hrest⟩ := h e he
    obtain ⟨e₁, hreact, hkeeps, hb⟩ := he.react_drop kind (htokens id (by simp))
    have hthrough := hcomes.behind (.sink .drop) rfl
    rw [hreact] at hthrough
    obtain ⟨e', hruns, hkeeps', hb'⟩ := ih (hrest _ .dropped)
      (fun i hi => htokens i (List.mem_cons_of_mem _ hi)) hkeeps
    exact ⟨e', Skips.runs hthrough hruns, hkeeps', hb.trans hb'⟩

/-- With a property at the end, a run sets it of the elements and brings them, and no other key
changes. -/
theorem Supplies.runs_setting (h : s.Supplies σ kind True ids g)
    (htokens : ∀ id ∈ ids, Key.isToken id = true) (hkey : IsPropertyKey key) (value : Json)
    (he : e.Keeps g) :
    ∃ trace e', (Stream.through (.filter (.setting key value)) s).Runs e trace e' ∧
      trace.map (·.1) = ids.map (fun id => .ok (.ofElement kind id)) ∧
      e'.Keeps (ids.foldl (fun g id => g.setProperty kind id key value) g) ∧ e.Beside e' ∧
      ∀ k, e'.contents k =
        if k ∈ ids.map (Key.property kind · key) then some (.text value.text)
        else e.contents k := by
  induction ids generalizing g s e with
  | nil =>
    obtain ⟨s', hcomes⟩ := h trivial e he
    have hthrough := hcomes.behind (.filter (.setting key value)) rfl
    exact ⟨[], e, hthrough.runs_done, rfl, he, .refl e, by simp⟩
  | cons id ids ih =>
    obtain ⟨s', hcomes, hrest⟩ := h e he
    obtain ⟨e₁, hreact, hkeeps, hb, hcontents⟩ :=
      he.react_setting kind (htokens id (by simp)) hkey value
    have hthrough := hcomes.behind (.filter (.setting key value)) rfl
    rw [hreact] at hthrough
    obtain ⟨trace, e', hruns, htrace, hkeeps', hb', hcontents'⟩ := ih (hrest _ (.set key value))
      (fun i hi => htokens i (List.mem_cons_of_mem _ hi)) hkeeps
    refine ⟨_, e', hthrough.runs_item hruns, ?_, hkeeps', hb.trans hb', fun k => ?_⟩
    · rw [List.map_cons, List.map_cons, htrace]
    · rw [hcontents', hcontents, List.map_cons]
      by_cases hlater : k ∈ ids.map (Key.property kind · key)
      · rw [if_pos hlater, if_pos (List.mem_cons_of_mem _ hlater)]
      · have hiff : k ∈ Key.property kind id key :: ids.map (Key.property kind · key) ↔
            k = Key.property kind id key := List.mem_cons.trans (or_iff_left hlater)
        rw [if_neg hlater]
        simp only [hiff]

end Stream

end PropertyGraph
