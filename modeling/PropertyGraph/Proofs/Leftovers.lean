/-
What a query leaves behind. As long as properties are only set at elements that are there, whatever a
store has about an element belongs to one that is listed. A query may break that in one way: it sets
a property of an element that it dropped while it had the id in hand (`Engine.leftovers_history`).
It does so wherever an edge leads to a vertex that is dropped from its other end first
(`Engine.Keeps.overtaking_runs`).
-/
import PropertyGraph.Proofs.Interleaving
import PropertyGraph.Proofs.Strays

namespace PropertyGraph

open PropertyGraph.Graph

/-! ## Operations on what is there -/

namespace RecordOp

/-- A property is set at an element that is there. -/
def OnLive (g : Multigraph) : RecordOp → Prop
  | .setProperty kind id _ _ => id ∈ g.ids kind
  | .createVertex _ | .createEdge _ _ _ | .dropEdge _ | .dropVertex _ | .dropAll => True

instance (g : Multigraph) : (op : RecordOp) → Decidable (op.OnLive g)
  | .setProperty kind id _ _ => inferInstanceAs (Decidable (id ∈ g.ids kind))
  | .createVertex _ | .createEdge _ _ _ | .dropEdge _ | .dropVertex _ | .dropAll =>
    inferInstanceAs (Decidable True)

/-- Each operation finds its element there when its turn comes. -/
def AllOnLive (ids : Nat → String) : List RecordOp → Multigraph × Nat → Prop
  | [], _ => True
  | op :: ops, s => op.OnLive s.1 ∧ AllOnLive ids ops (Multigraph.step ids s op)

instance decidableAllOnLive (ids : Nat → String) :
    (ops : List RecordOp) → (s : Multigraph × Nat) → Decidable (AllOnLive ids ops s)
  | [], _ => inferInstanceAs (Decidable True)
  | op :: ops, s =>
    have := decidableAllOnLive ids ops (Multigraph.step ids s op)
    inferInstanceAs (Decidable (op.OnLive s.1 ∧ AllOnLive ids ops (Multigraph.step ids s op)))

end RecordOp

namespace Multigraph

variable {ids : Nat → String} {s : Multigraph × Nat} {x : ElementRef} {key : String} {value : Json}

/-- An operation on what is there leaves no property behind. -/
theorem Leftover.of_step {op : RecordOp} (hop : op.OnLive s.1)
    (h : (step ids s op).1.Leftover x key value) : s.1.Leftover x key value := by
  cases op with
  | createVertex label =>
    simp only [step] at h
    split at h
    · exact h.of_addVertex
    · exact h
  | createEdge label source target =>
    simp only [step] at h
    split at h
    · exact h.of_addEdge
    · exact h
  | setProperty kind id k v =>
    simp only [step] at h
    split at h
    · rcases Leftover.of_setProperty (y := (kind, id)) h with h | ⟨-, -, -, hnot⟩
      · exact h
      · exact absurd hop hnot
    · exact h
  | dropEdge id => exact h.of_removeEdges
  | dropVertex id => exact h.of_dropVertex
  | dropAll => cases h.1

theorem Leftover.of_history {ops : List RecordOp} (hops : RecordOp.AllOnLive ids ops s)
    (h : (history ids ops s).1.Leftover x key value) : s.1.Leftover x key value := by
  induction ops generalizing s with
  | nil => exact h
  | cons op ops ih => exact (ih hops.2 h).of_step hops.1

/-! ## What a key belongs to -/

/-- What is stored about an element is stored about one that is there, or it is a property. -/
theorem has_of_record {g : Multigraph} {neighbors : Scope → List String} (hg : g.Sound)
    {r : RecordKey} {kind : ElementKind} {id : String} {rest : List String}
    (htokens : r.tokens = kind.root :: id :: rest) (h : (g.layout neighbors).record r ≠ none) :
    g.Has (kind, id) ∨ ∃ key value, r = .plain (.property kind id key) ∧
      g.property kind id key = some value := by
  have hscope : ∀ (s : Scope) (a : Adjacency) (more : List String), g.opened s = true →
      s.tokens a ++ more = kind.root :: id :: rest → g.Has (kind, id) := by
    intro s a more hopen htokens
    simp only [Scope.tokens, Key.family, List.cons_append, List.cons.injEq,
      ElementKind.node_eq_root] at htokens
    obtain ⟨rfl, rfl, -⟩ := htokens
    exact hg.live s hopen
  cases r with
  | plain k =>
    cases k with
    | element kind' id' =>
      simp only [RecordKey.tokens, PlainKey.tokens, List.cons.injEq, ElementKind.root_inj] at htokens
      obtain ⟨rfl, rfl, -⟩ := htokens
      cases kind' <;> exact .inl (by simpa [Layout.record, layout, Has] using h)
    | listing kind' id' =>
      simp only [RecordKey.tokens, PlainKey.tokens, List.cons.injEq] at htokens
      exact absurd htokens.1.symm ElementKind.root_ne_listing
    | label kind' id' =>
      simp only [RecordKey.tokens, PlainKey.tokens, List.cons.injEq, ElementKind.root_inj] at htokens
      obtain ⟨rfl, rfl, -⟩ := htokens
      left
      cases kind' with
      | vertex => exact not_not.1 (mt vertex?_eq_none.2 (by simpa [Layout.record, layout] using h))
      | edge => exact not_not.1 (mt edge?_eq_none.2 (by simpa [Layout.record, layout] using h))
    | labelEntry id' l =>
      simp only [RecordKey.tokens, PlainKey.tokens, List.cons.injEq, ElementKind.node_eq_root] at htokens
      obtain ⟨rfl, rfl, -⟩ := htokens
      have hmem : (⟨id', l⟩ : Vertex) ∈ g.vertices := by simpa [Layout.record, layout] using h
      exact .inl (List.mem_map_of_mem hmem)
    | property kind' id' key =>
      simp only [RecordKey.tokens, PlainKey.tokens, List.cons.injEq, ElementKind.root_inj] at htokens
      obtain ⟨rfl, rfl, -⟩ := htokens
      obtain ⟨value, hvalue⟩ := Option.ne_none_iff_exists'.1
        (show g.property kind' id' key ≠ none by simpa [Layout.record, layout] using h)
      exact .inr ⟨key, value, rfl, hvalue⟩
    | source id' | target id' =>
      simp only [RecordKey.tokens, PlainKey.tokens, List.cons.injEq, ElementKind.edge_eq_root] at htokens
      obtain ⟨rfl, rfl, -⟩ := htokens
      exact .inl (not_not.1 (mt edge?_eq_none.2 (by simpa [Layout.record, layout] using h)))
  | marker s a target =>
    refine .inl (hscope s a [target] ?_ htokens)
    by_contra hclosed
    simp [Layout.record, Layout.listed, layout, hclosed] at h
  | index s a =>
    refine .inl (hscope s a [Key.indexToken] ?_ htokens)
    by_contra hclosed
    simp [Layout.record, layout, hclosed] at h

end Multigraph

section Keys

variable {σ : Type} [Backend σ] [LawfulBackend σ] {e : Engine σ} {g : Multigraph}

/-- An element has its marker and its entry in the listing of its kind. -/
def Engine.Lists (e : Engine σ) (x : ElementRef) : Prop :=
  e.contents (Key.element x.1 x.2) ≠ none ∧ e.contents (Key.enumeration x.1 x.2) ≠ none

/-- Whatever is stored about an element, the element is listed. -/
def Engine.Tidy (e : Engine σ) : Prop :=
  ∀ kind id rest key, Key.tokens key = kind.root :: id :: rest → e.contents key ≠ none →
    e.Lists (kind, id)

/-- An element is listed while it is there. -/
theorem Engine.Keeps.lists_iff (h : e.Keeps g) {x : ElementRef} (hx : Key.isToken x.2 = true) :
    e.Lists x ↔ g.Has x := by
  have hmarker := h.contents_element x.1 hx
  obtain ⟨-, neighbors, -, hholds⟩ := h
  have hlisting : e.contents (Key.enumeration x.1 x.2) ≠ none ↔ g.Has x := by
    rw [Key.enumeration_eq, hholds.stored (.plain (.listing x.1 x.2)) hx]
    simp [Layout.record, Multigraph.layout, Multigraph.Has]
  rw [Engine.Lists, hmarker, hlisting]
  exact and_self_iff

/-- A key about an element belongs to one that is listed, or it is that of a property left over. -/
theorem Engine.Keeps.belongs (h : e.Keeps g) {kind : ElementKind} {id : String} {rest : List String}
    {key : String} (htokens : Key.tokens key = kind.root :: id :: rest)
    (hstored : e.contents key ≠ none) :
    e.Lists (kind, id) ∨ ∃ name value, key = Key.property kind id name ∧
      e.contents key = some (.text value.text) ∧ g.Leftover (kind, id) name value := by
  have hsound := h.sound
  obtain ⟨neighbors, -, hholds⟩ := h.holds
  obtain ⟨r, hr, rfl⟩ := hholds.only key hstored
  rw [hr.tokens_text] at htokens
  rw [hholds.stored r hr] at hstored ⊢
  have hid : Key.isToken id = true := hr.isToken_of_mem (by simp [htokens])
  by_cases hhas : g.Has (kind, id)
  · exact .inl ((h.lists_iff hid).2 hhas)
  · rcases Multigraph.has_of_record hsound htokens hstored with hthere | ⟨name, value, rfl, hvalue⟩
    · exact absurd hthere hhas
    · refine .inr ⟨name, value, rfl, ?_, hvalue, hhas⟩
      simp [Layout.record, Multigraph.layout, hvalue]

/-- A property that is left over belongs to no element that is listed. -/
theorem Engine.Keeps.not_tidy (h : e.Keeps g) {x : ElementRef} {name : String} {value : Json}
    (hleft : g.Leftover x name value) :
    e.contents (Key.property x.1 x.2 name) = some (.text value.text) ∧ ¬e.Tidy := by
  have hvalid : (RecordKey.plain (.property x.1 x.2 name)).Valid :=
    h.sound.properties x.1 x.2 name (by simp [hleft.1])
  obtain ⟨neighbors, -, hholds⟩ := h.holds
  have hstored : e.contents (Key.property x.1 x.2 name) = some (.text value.text) := by
    rw [Key.property_eq, hholds.stored _ hvalid]
    simp [Layout.record, Multigraph.layout, hleft.1]
  refine ⟨hstored, fun htidy => hleft.2 ((h.lists_iff hvalid.1).1 ?_)⟩
  exact htidy x.1 x.2 ["property", name] _ hvalid.tokens_text (hstored ▸ Option.some_ne_none _)

end Keys

/-! ## One query -/

section Queries

variable {σ : Type} [Backend σ]

/-- What a host does that opens one chain and has its stream do pieces of work. -/
def queryActs (c : Config) (chain : Chain) (pieces : Nat) : List QueryAct :=
  .start c chain :: List.replicate pieces (.pull 0 1)

/-- A fold over a stream does pieces of work, as pulls with a budget of one do. -/
theorem Stream.fold?_pieces {β : Type} (f : β → Item → Except Error β) (budget : Nat) (b : β)
    (s : Stream) (e : Engine σ) :
    ∃ pieces ≤ budget, ((s.fold? f budget b).run.run e).2 =
      ((⟨e, [s]⟩ : Family σ).run (List.replicate pieces (.pull 0 1))).engine := by
  induction budget generalizing b s e with
  | zero => exact ⟨0, Nat.le_refl _, rfl⟩
  | succ budget ih =>
    rcases hrun : s.advance.run e with ⟨⟨event, s'⟩, e'⟩
    have hgoes : ∀ pieces, (⟨e, [s]⟩ : Family σ).act (.pull 0 1) = ⟨e', [s']⟩ →
        ((⟨e', [s']⟩ : Family σ).run (List.replicate pieces (.pull 0 1))).engine =
          ((⟨e, [s]⟩ : Family σ).run (List.replicate (pieces + 1) (.pull 0 1))).engine := by
      intro pieces hact
      rw [List.replicate_succ, Family.run, Family.run, List.foldl_cons, hact]
    have hact : ∀ {outcome}, (s.pull 1).run e = (outcome, e') →
        (⟨e, [s]⟩ : Family σ).act (.pull 0 1) = ⟨e', [outcome.rest]⟩ := by
      intro outcome hpull
      simp [Family.act, pulled, hpull]
    cases event with
    | item i =>
      rw [fold?_item hrun]
      cases hf : f b i with
      | ok b' =>
        obtain ⟨pieces, hle, h⟩ := ih b' s' e'
        exact ⟨pieces + 1, by omega, h.trans (hgoes pieces (hact (pull_item hrun 0)))⟩
      | error err => exact ⟨1, by omega, (hgoes 0 (hact (pull_item hrun 0)))⟩
    | skip =>
      rw [fold?_skip hrun]
      obtain ⟨pieces, hle, h⟩ := ih b s' e'
      exact ⟨pieces + 1, by omega, h.trans (hgoes pieces (hact (pull_skip hrun 0)))⟩
    | done =>
      rw [fold?_done hrun]
      refine ⟨1, by omega, ?_⟩
      show e' = ((⟨e, [s]⟩ : Family σ).act (.pull 0 1)).engine
      rw [hact (pull_done hrun 0)]

/-- Running through a chain does what a host can do that opens it. -/
theorem Chain.fold?_pieces {β : Type} (f : β → Item → Except Error β) (budget : Nat) (b : β)
    (c : Config) (chain : Chain) (e : Engine σ) :
    ∃ pieces ≤ budget,
      ((do (← chain.openStream c.optimizer).fold? f budget b : Attempt σ _).run.run e).2 =
        ((⟨e, []⟩ : Family σ).run (queryActs c chain pieces)).engine := by
  rcases chain.openStream_opens c e with ⟨err, hrun⟩ | ⟨s, hrun, -⟩
  · refine ⟨0, Nat.zero_le _, ?_⟩
    rw [Attempt.bind_error hrun]
    show e = ((⟨e, []⟩ : Family σ).act (.start c chain)).engine
    rw [Family.act, hrun]
  · obtain ⟨pieces, hle, h⟩ := s.fold?_pieces f budget b e
    refine ⟨pieces, hle, ?_⟩
    have hact : (⟨e, []⟩ : Family σ).act (.start c chain) = ⟨e, [s]⟩ := by
      rw [Family.act, hrun]
      rfl
    rw [Attempt.bind_ok hrun, h, queryActs, Family.run, Family.run, List.foldl_cons, hact]

end Queries

/-- Whatever operations on live elements ran from an empty store, and whatever a query then does, to
its end or up to where it is given up: what the store has about an element belongs to one that is
listed, save for properties that the query sets of elements that it dropped itself while it had them
in hand. -/
theorem Engine.leftovers_history {σ β : Type} [Backend σ] [LawfulBackend σ] {e : Engine σ}
    (hempty : ∀ key, e.contents key = none) {ops : List RecordOp} (hops : ∀ op ∈ ops, op.Named)
    (hlive : RecordOp.AllOnLive e.ids ops (.empty, e.issued)) (c : Config) (chain : Chain)
    (f : β → Item → Except Error β) (b : β) (budget : Nat)
    (hids : GoodIds e.ids ((Multigraph.history e.ids ops (.empty, e.issued)).2 + budget)) :
    let start : Family σ := ⟨((RecordOp.runAll ops).run e).2, []⟩
    let finish : Engine σ := ((do (← chain.openStream c.optimizer).fold? f budget b :
      Attempt σ _).run.run start.engine).2
    ∃ pieces ≤ budget, finish = (start.run (queryActs c chain pieces)).engine ∧
      ∀ kind id rest key, Key.tokens key = kind.root :: id :: rest → finish.contents key ≠ none →
        finish.Lists (kind, id) ∨ ∃ name value, key = Key.property kind id name ∧
          finish.contents key = some (.text value.text) ∧
          ⟨.property, [.str name, value]⟩ ∈ chain ∧
          start.Lost (queryActs c chain pieces) (kind, id) := by
  intro start finish
  obtain ⟨pieces, hle, hfinish⟩ : ∃ pieces ≤ budget, finish =
      (start.run (queryActs c chain pieces)).engine := chain.fold?_pieces f budget b c start.engine
  refine ⟨pieces, hle, hfinish, fun kind id rest key htokens hstored => ?_⟩
  have hsum : ((queryActs c chain pieces).map QueryAct.budget).sum = pieces := by
    simp [queryActs, QueryAct.budget]
  obtain ⟨htracks, -⟩ := (Tracks.empty hempty).run hops (hids.mono (Nat.le_add_right _ _))
  have hsafe := htracks.safe (fun x k v hx => Multigraph.not_leftover_empty x k v (hx.of_history hlive))
    fun k v => ⟨.property, [.str k, v]⟩ ∈ chain
  obtain ⟨g, n, -, hsafe⟩ := hsafe.run (queryActs c chain pieces)
    (by simp +contextual [queryActs, List.mem_replicate])
    (hids.mono (Nat.add_le_add_left (hsum.le.trans hle) _))
  have hkeeps : finish.Keeps g := hfinish ▸ hsafe.tracks.keeps
  refine (hkeeps.belongs htokens hstored).imp_right ?_
  rintro ⟨name, value, hkey, hvalue, hleft⟩
  obtain ⟨hlost, hsets⟩ := hsafe.leftover (kind, id) name value hleft
  exact ⟨name, value, hkey, hvalue, hsets, hlost⟩

/-- Two vertices and an edge. -/
def overtakingOps : List RecordOp :=
  [.createVertex "person", .createVertex "person",
    .createEdge "knows" (elementId 0) (elementId 1)]

/-- Names both, and drops the second while the first is worked on. -/
def overtakingChain : Chain :=
  [⟨.edges, [.str (elementId 2)]⟩, ⟨.bothVertices, []⟩, ⟨.property, [.str "name", .nat 1]⟩,
    ⟨.outVertices, [.str "knows"]⟩, ⟨.drop, []⟩]

theorem leftovers_overtakingChain :
    let start : Family Memory :=
      ⟨((RecordOp.runAll overtakingOps).run (Engine.ofStore Memory.empty)).2, []⟩
    let finish : Engine Memory :=
      ((do (← overtakingChain.openStream .default).fold? (fun n _ => .ok (n + 1)) 6 0 :
        Attempt Memory (Option Nat)).run.run start.engine).2
    ∃ pieces ≤ 6, finish = (start.run (queryActs {} overtakingChain pieces)).engine ∧
      ∀ kind id rest key, Key.tokens key = kind.root :: id :: rest → finish.contents key ≠ none →
        finish.Lists (kind, id) ∨ ∃ name value, key = Key.property kind id name ∧
          finish.contents key = some (.text value.text) ∧
          ⟨.property, [.str name, value]⟩ ∈ overtakingChain ∧
          start.Lost (queryActs {} overtakingChain pieces) (kind, id) :=
  Engine.leftovers_history (e := Engine.ofStore Memory.empty) (fun _ => rfl) (by decide) (by decide)
    {} overtakingChain (fun n _ => .ok (n + 1)) 0 6 (by decide +kernel)

/-! ## A drop that overtakes -/

section Overtaking

variable {σ : Type} [Backend σ] {e e' e'' : Engine σ} {source s' : Stream} {t : Traverser}

theorem Stream.advance_begins {expander : Expander} {task : Task} {x : Expansion}
    (h : task.begin.run.run e = (.ok x, e')) :
    (Stream.through (.expand expander (some (.task task))) source).advance.run e =
      ((.skip, .through (.expand expander (some x)) source), e') := by
  rw [advance_work rfl]
  simp only [Run.bind_run, Expansion.advance, Engine.outcome, h]
  rfl

theorem Stream.advance_expands {expander : Expander} {x : Expansion}
    (hs : source.advance.run e = ((.item (.ok t), s'), e')) (hx : (expander.expand t).run e' = (x, e'')) :
    (Stream.through (.expand expander none) source).advance.run e =
      ((.skip, .through (.expand expander (some x)) s'), e'') := by
  rw [advance_react rfl hs]
  simp only [Stage.react, Run.bind_run, hx]
  rfl

theorem Stream.advance_passes {f : Filter} {t' : Traverser}
    (hs : source.advance.run e = ((.item (.ok t), s'), e'))
    (h : (f.apply t).run.run e' = (.ok (some t'), e'')) :
    (Stream.through (.filter f) source).advance.run e =
      ((.item (.ok t'), .through (.filter f) s'), e'') := by
  rw [advance_react rfl hs]
  simp only [Stage.react, Run.bind_run, Engine.outcome, h]
  rfl

theorem Stream.advance_absorbs {sink sink' : Sink}
    (hs : source.advance.run e = ((.item (.ok t), s'), e'))
    (h : (sink.absorb t).run.run e' = (.ok sink', e'')) :
    (Stream.through (.sink sink) source).advance.run e = ((.skip, .through (.sink sink') s'), e'') := by
  rw [advance_react rfl hs]
  simp only [Stage.react, Run.bind_run, Engine.outcome, h]
  rfl

/-- A query that sets a property of both ends of an edge and drops what they lead to by edges of the
same label: where it stands at its neighbours, its ends, its edge and its root. -/
def Edge.overtaking (x : Edge) (key : String) (value : Json)
    (neighbors ends edge root : Option Expansion) (given : List Item) : Stream :=
  .through (.sink .drop) <|
  .through (.expand (.step (.adjacent .outgoing .vertices [x.label])) neighbors) <|
  .through (.filter (.setting key value)) <|
  .through (.expand (.step (.edgeVertex .both)) ends) <|
  .through (.expand (.step (.edges (.one x.id))) edge) <|
  .through (.expand (.step .root) root) (.given given)

/-- What the query does: it sets the first end's property, drops the second, and then sets the
second's, which it had in hand. -/
theorem Edge.overtaking_runs {x : Edge} {key : String} {value : Json} {e₁ e₂ e₃ : Engine σ}
    (hpick : (Task.begin (.selectOne .edge x.id)).run.run e =
      (.ok (.items [.ok (.edge x.id)]), e))
    (hends : (Task.begin (.edgeVertex x.id .both)).run.run e =
      (.ok (.items [.ok (.vertex x.source), .ok (.vertex x.target)]), e))
    (hfirst : (Filter.apply (.setting key value) (.vertex x.source)).run.run e =
      (.ok (some (.vertex x.source)), e₁))
    (hleads : (Task.begin (.adjacent x.source .outgoing .vertices [x.label])).run.run e₁ =
      (.ok (.items [.ok (.vertex x.target)]), e₁))
    (hdrop : (Sink.drop.absorb (.vertex x.target)).run.run e₁ = (.ok .drop, e₂))
    (hsecond : (Filter.apply (.setting key value) (.vertex x.target)).run.run e₂ =
      (.ok (some (.vertex x.target)), e₃))
    (hgone : (Task.begin (.adjacent x.target .outgoing .vertices [x.label])).run.run e₃ =
      (.ok .none, e₃)) :
    (x.overtaking key value none none none none [.ok .graph]).Runs e [] e₃ := by
  -- the pieces of work that touch the store; between them items are handed on and expansions end
  have picks : (x.overtaking key value none none (some (.task (.selectOne .edge x.id)))
      (some .none) []).advance.run e =
      ((.skip, x.overtaking key value none none (some (.items [.ok (.edge x.id)])) (some .none) []),
        e) :=
    Stream.advance_skipped rfl <| Stream.advance_skipped rfl <| Stream.advance_skipped rfl <|
      Stream.advance_skipped rfl <| Stream.advance_begins hpick
  have finds : (x.overtaking key value none (some (.task (.edgeVertex x.id .both))) (some .none)
      (some .none) []).advance.run e =
      ((.skip, x.overtaking key value none
        (some (.items [.ok (.vertex x.source), .ok (.vertex x.target)])) (some .none) (some .none) []),
        e) :=
    Stream.advance_skipped rfl <| Stream.advance_skipped rfl <| Stream.advance_skipped rfl <|
      Stream.advance_begins hends
  have sets : (x.overtaking key value none
      (some (.items [.ok (.vertex x.source), .ok (.vertex x.target)])) (some .none) (some .none)
      []).advance.run e =
      ((.skip, x.overtaking key value
        (some (.task (.adjacent x.source .outgoing .vertices [x.label])))
        (some (.items [.ok (.vertex x.target)])) (some .none) (some .none) []), e₁) :=
    Stream.advance_skipped rfl <| Stream.advance_expands (Stream.advance_passes rfl hfirst) rfl
  have leads : (x.overtaking key value
      (some (.task (.adjacent x.source .outgoing .vertices [x.label])))
      (some (.items [.ok (.vertex x.target)])) (some .none) (some .none) []).advance.run e₁ =
      ((.skip, x.overtaking key value (some (.items [.ok (.vertex x.target)]))
        (some (.items [.ok (.vertex x.target)])) (some .none) (some .none) []), e₁) :=
    Stream.advance_skipped rfl <| Stream.advance_begins hleads
  have drops : (x.overtaking key value (some (.items [.ok (.vertex x.target)]))
      (some (.items [.ok (.vertex x.target)])) (some .none) (some .none) []).advance.run e₁ =
      ((.skip, x.overtaking key value (some .none) (some (.items [.ok (.vertex x.target)]))
        (some .none) (some .none) []), e₂) :=
    Stream.advance_absorbs rfl hdrop
  have overtaken : (x.overtaking key value none (some (.items [.ok (.vertex x.target)]))
      (some .none) (some .none) []).advance.run e₂ =
      ((.skip, x.overtaking key value
        (some (.task (.adjacent x.target .outgoing .vertices [x.label]))) (some .none) (some .none)
        (some .none) []), e₃) :=
    Stream.advance_skipped rfl <| Stream.advance_expands (Stream.advance_passes rfl hsecond) rfl
  have ends : (x.overtaking key value
      (some (.task (.adjacent x.target .outgoing .vertices [x.label]))) (some .none) (some .none)
      (some .none) []).advance.run e₃ =
      ((.skip, x.overtaking key value (some .none) (some .none) (some .none) (some .none) []), e₃) :=
    Stream.advance_skipped rfl <| Stream.advance_begins hgone
  exact .skip rfl <| .skip rfl <| .skip picks <| .skip rfl <| .skip finds <| .skip sets <|
    .skip leads <| .skip drops <| .skip rfl <| .skip overtaken <| .skip ends <| .skip rfl <|
    .skip rfl <| .skip rfl <| .skip rfl <| .skip rfl <| .done rfl

variable [LawfulBackend σ] {g : Multigraph}

/-- Where all edges of a label from a vertex lead to one other vertex, the query leaves a property of
that vertex behind. -/
theorem Engine.Keeps.overtaking_runs (h : e.Keeps g) {x : Edge} (hx : x ∈ g.edges)
    (hends : x.source ≠ x.target)
    (honly : ∀ y ∈ g.edges, y.source = x.source → y.label = x.label → y.target = x.target)
    {key : String} (hkey : IsPropertyKey key) (value : Json) :
    ∃ e' g', (x.overtaking key value none none none none [.ok .graph]).Runs e [] e' ∧
      e'.Keeps g' ∧ g'.Leftover (.vertex, x.target) key value := by
  have hnamed := h.sound.edges x hx
  have hlabels : ∀ l ∈ [x.label], Key.isToken l = true := by simpa using hnamed.label
  have hpick : (Task.begin (.selectOne .edge x.id)).run.run e =
      (.ok (.items [.ok (.edge x.id)]), e) := by
    obtain ⟨found, hrun, hiff⟩ := elementExists_run h .edge hnamed.id.1
    obtain rfl : found = true := hiff.2 (List.mem_map_of_mem hx)
    exact Attempt.bind_ok hrun _
  have hboth : (Task.begin (.edgeVertex x.id .both)).run.run e =
      (.ok (.items [.ok (.vertex x.source), .ok (.vertex x.target)]), e) := by
    refine (Attempt.bind_ok (edgeEndpoints_run h hnamed.id.1) _).trans ?_
    simp only [(Multigraph.edge?_eq_some h.sound).2 hx, Option.map_some, endsOf]
    rw [if_neg (by simpa using hends)]
    rfl
  have hsets : ∀ {e : Engine σ} {g : Multigraph} {v : String}, IsName v → e.Keeps g →
      ∃ e', (Filter.apply (.setting key value) (.vertex v)).run.run e =
        (.ok (some (.vertex v)), e') ∧ e'.Keeps (g.setProperty .vertex v key value) := by
    intro e g v hv h
    obtain ⟨e', hrun, hkeeps, -⟩ := Filter.setting_run hkey (t := .vertex v) rfl hv.1 h
    exact ⟨e', hrun, hkeeps⟩
  obtain ⟨e₁, hfirst, hkeeps₁⟩ := hsets hnamed.source h
  have hleads : (Task.begin (.adjacent x.source .outgoing .vertices [x.label])).run.run e₁ =
      (.ok (.items [.ok (.vertex x.target)]), e₁) := by
    obtain ⟨ws, hrun, hnodup, hmem⟩ := vertices_run hkeeps₁ hnamed.source.1 hlabels .outgoing
    have hws : ws.Perm [x.target] := by
      refine (List.perm_ext_iff_of_nodup hnodup (List.nodup_singleton _)).2 fun w => ?_
      simp only [hmem, Multigraph.mem_edgesBy, List.mem_singleton]
      constructor
      · rintro ⟨y, ⟨hy, hsource, hlabel⟩, rfl⟩
        exact honly y hy hsource (hlabel.resolve_left (by simp))
      · rintro rfl
        exact ⟨x, ⟨hx, rfl, .inr rfl⟩, rfl⟩
    rw [List.perm_singleton.1 hws] at hrun
    exact Attempt.bind_ok hrun _
  obtain ⟨e₂, hrun, hkeeps₂, -⟩ := hkeeps₁.dropVertex hnamed.target.1
  have hdrop : (Sink.drop.absorb (.vertex x.target)).run.run e₁ = (.ok .drop, e₂) := by
    rw [Sink.absorb, Attempt.lift_bind, hrun]
    rfl
  obtain ⟨e₃, hsecond, hkeeps₃⟩ := hsets hnamed.target hkeeps₂
  have hnot : x.target ∉ (((g.setProperty .vertex x.source key value).dropVertex
      x.target).setProperty .vertex x.target key value).ids .vertex :=
    fun hid => (Multigraph.mem_ids_removeVertex.1 hid).2 ⟨rfl, rfl⟩
  have hgone : (Task.begin (.adjacent x.target .outgoing .vertices [x.label])).run.run e₃ =
      (.ok .none, e₃) := by
    obtain ⟨ws, hrun, -, hmem⟩ := vertices_run hkeeps₃ hnamed.target.1 hlabels .outgoing
    rw [Multigraph.edgesBy_eq_nil hkeeps₃.sound hnot] at hmem
    obtain rfl : ws = [] := List.eq_nil_iff_forall_not_mem.2 (by simpa using hmem)
    exact Attempt.bind_ok hrun _
  refine ⟨e₃, _, Edge.overtaking_runs hpick hboth hfirst hleads hdrop hsecond hgone, hkeeps₃, ?_, hnot⟩
  simp [Multigraph.setProperty]

end Overtaking

/-- The run comes to its end, and the store then has a property of a vertex that went. -/
theorem Engine.not_tidy_overtakingChain :
    (∀ op ∈ overtakingOps, op.Named) ∧ RecordOp.AllOnLive elementId overtakingOps (.empty, 0) ∧
      ∃ (budget : Nat) (finish : Engine Memory),
        (overtakingChain.iterate? .default budget).run.run
            ((RecordOp.runAll overtakingOps).run (Engine.ofStore Memory.empty)).2 =
          (.ok (some ()), finish) ∧
        finish.contents (Key.property .vertex (elementId 1) "name") = some (.text "1") ∧
        ¬finish.Tidy := by
  have htracks : Tracks elementId (Multigraph.history elementId overtakingOps (.empty, 0))
      ((RecordOp.runAll overtakingOps).run (Engine.ofStore Memory.empty)).2 :=
    ((Tracks.empty (e := Engine.ofStore Memory.empty) fun _ => rfl).run (by decide) (by decide)).1
  have hkey : IsPropertyKey "name" := by decide
  obtain ⟨finish, g, hruns, hkeeps, hleft⟩ := htracks.keeps.overtaking_runs
    (x := ⟨elementId 2, "knows", elementId 0, elementId 1⟩) (by decide) (by decide) (by decide) hkey
    (.nat 1)
  obtain ⟨budget, hfold⟩ := hruns.fold?_run
  have hplan : Optimizer.default.plan overtakingChain = .ok (⟨.root :: [
    ⟨"E", [.str (elementId 2)], .graph, .edge, .edges (.one (elementId 2))⟩,
    ⟨"bothV", [], .edge, .vertex, .edgeVertex .both⟩,
    ⟨"property", [.str "name", .nat 1], .vertex, .vertex, .property "name" (.nat 1)⟩,
    ⟨"out", [.str "knows"], .vertex, .vertex, .adjacent .outgoing .vertices ["knows"]⟩,
    ⟨"drop", [], .vertex, .value, .drop⟩]⟩, []) := rfl
  have hopen := Chain.openStream_run hplan
    ((RecordOp.runAll overtakingOps).run (Engine.ofStore Memory.empty)).2
  obtain ⟨hstored, hnot⟩ := hkeeps.not_tidy hleft
  refine ⟨by decide, by decide, budget, finish, ?_, hstored, hnot⟩
  exact (Attempt.bind_ok hopen _).trans (hfold budget (Nat.le_refl _) _ ())

end PropertyGraph
