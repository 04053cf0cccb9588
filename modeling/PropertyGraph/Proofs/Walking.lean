/-
What stages that walk do to a graph. While a query is under way the graph may change as a
`Drift` allows; a stage that walks keeps to the drift, and makes of items whose ids are tokens
items of the next type of which that is true again (`Stage.work_walks`, `Stage.react_walks`).
The steps of a chain are such stages, one behind the other (`Chain.path_of_resolveFrom`).
-/
import PropertyGraph.Proofs.Navigation

namespace PropertyGraph

open PropertyGraph.Graph

/-! ## How a graph may change -/

/-- What may become of a graph while a query is under way. -/
structure Drift where
  rel : Multigraph → Multigraph → Prop
  refl : ∀ g, rel g g
  trans : ∀ {a b c}, rel a b → rel b c → rel a c

variable {σ α β : Type} [Backend σ] [LawfulBackend σ]

/-- What is kept in one state is kept in the other, changed as a drift allows. -/
def Engine.Drifts (d : Drift) (e e' : Engine σ) : Prop :=
  ∀ g, e.Keeps g → ∃ g', e'.Keeps g' ∧ d.rel g g'

theorem Engine.Keeps.of_store {e e' : Engine σ} {g : Multigraph} (h : e.Keeps g)
    (hs : e'.store = e.store) : e'.Keeps g := by
  obtain ⟨hsound, neighbors, hfits, hholds⟩ := h
  have hcontents : ∀ key, e'.contents key = e.contents key := by
    intro key
    rw [Engine.contents, hs, Engine.contents]
  exact ⟨hsound, neighbors, hfits, fun r hr => (hcontents _).trans (hholds.stored r hr),
    fun key hkey => hholds.only key (hcontents key ▸ hkey)⟩

theorem Engine.Drifts.of_store (d : Drift) {e e' : Engine σ} (hs : e'.store = e.store) :
    e.Drifts d e' :=
  fun g hg => ⟨g, hg.of_store hs, d.refl g⟩

theorem Engine.Drifts.refl (d : Drift) (e : Engine σ) : e.Drifts d e := .of_store d rfl

theorem Engine.Drifts.trans {d : Drift} {e e' e'' : Engine σ} (h : e.Drifts d e')
    (h' : e'.Drifts d e'') : e.Drifts d e'' := by
  intro g hg
  obtain ⟨g', hg', hrel⟩ := h g hg
  obtain ⟨g'', hg'', hrel'⟩ := h' g' hg'
  exact ⟨g'', hg'', d.trans hrel hrel'⟩

/-! ## Items of a type -/

/-- An item of a type, with an id that can stand in keys. -/
def Traverser.Known : Traverser → ResultType → Prop
  | .vertex id, .vertex | .edge id, .edge => Key.isToken id = true
  | .value _, .value => True
  | _, _ => False

/-- An error, or an item of a type. -/
def Item.Known (b : ResultType) (i : Item) : Prop := ∀ t, i = .ok t → t.Known b

/-- Only items of a type come. -/
def Event.Known (b : ResultType) : Event → Prop
  | .item i => Item.Known b i
  | .skip | .done => True

/-- The type of what a list of neighbours holds. -/
def Adjacency.type : Adjacency → ResultType
  | .vertices => .vertex
  | .edges => .edge

/-- A task that brings items of a type and creates nothing. -/
def Task.Walks : Task → ResultType → Prop
  | .adjacent v _ adjacency labels, b =>
    Key.isToken v = true ∧ (∀ l ∈ labels, Key.isToken l = true) ∧ b = adjacency.type
  | .bothEdges v labels, b =>
    Key.isToken v = true ∧ (∀ l ∈ labels, Key.isToken l = true) ∧ b = .edge
  | .edgeVertex id _, b => Key.isToken id = true ∧ b = .vertex
  | .properties _ _, b => b = .value
  | .select _, _ | .selectOne _ _, _ | .addVertex _, _ | .addEdge _ _ _, _ | .selectLabel _, _ =>
    False

/-- An expansion that brings items of a type. -/
def Expansion.Walks : Expansion → ResultType → Prop
  | .items l, b => ∀ i ∈ l, Item.Known b i
  | .task t, b => t.Walks b
  | .probe _ _, _ | .scan _ _, _ => False

/-- A step that goes from items of a type to others. -/
def Step.Goes : Step → ResultType → ResultType → Prop
  | .adjacent _ adjacency labels, a, b =>
    a = .vertex ∧ (∀ l ∈ labels, Key.isToken l = true) ∧ b = adjacency.type
  | .bothEdges labels, a, b => a = .vertex ∧ (∀ l ∈ labels, Key.isToken l = true) ∧ b = .edge
  | .edgeVertex _, a, b => a = .edge ∧ b = .vertex
  | _, _, _ => False

/-- A stage that makes items of type `b` out of items of type `a`, and changes graphs as a drift
allows. -/
def Stage.Walks (d : Drift) (a b : ResultType) : Stage → Prop
  | .expand (.step step) current => step.Goes a b ∧ ∀ x, current = some x → x.Walks b
  | .expand (.properties _) current => b = .value ∧ ∀ x, current = some x → x.Walks b
  | .filter (.having _ _) | .limit _ => a = b
  | .filter (.setting key value) =>
    a = b ∧ IsPropertyKey key ∧ ∀ g kind id, d.rel g (g.setProperty kind id key value)
  | .filter .ids | .filter .labels | .filter (.valueMaps _) | .sink (.count _) => b = .value
  | .sink .drop => (a = .vertex → ∀ g id, d.rel g (g.dropVertex id)) ∧
    (a = .edge → ∀ g id, d.rel g (g.dropEdge id))
  | .sink .dropGraph => False

/-- The same of what a stage leaves behind; a stream that needs no source is at hand. -/
def Leaves.Walks (d : Drift) (a b : ResultType) : Leaves → Prop
  | .stage st => st.Walks d a b
  | .stream s => ∃ l, s = .given l ∧ ∀ i ∈ l, Item.Known b i

/-! ## What operations give -/

/-- Whatever an operation gives when it does not fail. -/
def Gives (operation : Attempt σ α) (p : α → Prop) : Prop :=
  ∀ e a, (operation.run.run e).1 = .ok a → p a

omit [Backend σ] [LawfulBackend σ] in
theorem Gives.pure {p : α → Prop} {a : α} (h : p a) : Gives (pure a : Attempt σ α) p := by
  intro e a' ha
  cases ha
  exact h

omit [Backend σ] [LawfulBackend σ] in
theorem Gives.bind_of {x : Attempt σ α} {f : α → Attempt σ β} {q : α → Prop} {p : β → Prop}
    (hx : Gives x q) (hf : ∀ a, q a → Gives (f a) p) : Gives (x >>= f) p := by
  intro e b hb
  rw [Attempt.bind_run] at hb
  cases hrun : (x.run.run e).1 with
  | ok a =>
    rw [hrun] at hb
    exact hf a (hx e a hrun) _ b hb
  | error err =>
    rw [hrun] at hb
    cases hb

omit [Backend σ] [LawfulBackend σ] in
theorem Gives.bind {x : Attempt σ α} {f : α → Attempt σ β} {p : β → Prop}
    (hf : ∀ a, Gives (f a) p) : Gives (x >>= f) p :=
  .bind_of (q := fun _ => True) (fun _ _ _ => trivial) fun a _ => hf a

namespace Filter

theorem reads_holds (kind : ElementKind) (id key : String) (value : Json) :
    Reads (holds kind id key value : Attempt σ _) := by
  rw [holds]
  split
  · exact .map _ (reads_readText _)
  · split
    · exact .pure _
    · exact .map _ (reads_getProperty kind id key)

theorem reads_having (key : String) (value : Json) (t : Traverser) :
    Reads (apply (.having key value) t : Attempt σ _) :=
  .bind (reads_requireElement _ t) fun _ => .map _ (reads_holds _ _ _ _)

omit [LawfulBackend σ] in
theorem reads_ids (t : Traverser) : Reads (apply .ids t : Attempt σ _) :=
  .bind (reads_requireElement _ t) fun _ => .pure _

theorem reads_labels (t : Traverser) : Reads (apply .labels t : Attempt σ _) := by
  refine .bind (reads_requireElement _ t) fun element => .bind (reads_readText _) fun label => ?_
  cases label with
  | some label => exact .pure _
  | none => exact .bind (.note _) fun _ => .pure _

theorem reads_valueMaps (keys : List String) (t : Traverser) :
    Reads (apply (.valueMaps keys) t : Attempt σ _) :=
  .bind (reads_requireElement _ t) fun _ => .map _ (reads_readProperties _ _ _)

/-- A filter that sets nothing reads. -/
theorem reads_apply {f : Filter} (hf : ∀ key value, f ≠ .setting key value) (t : Traverser) :
    Reads (f.apply t : Attempt σ _) := by
  cases f with
  | having key value => exact reads_having key value t
  | setting key value => exact absurd rfl (hf key value)
  | ids => exact reads_ids t
  | labels => exact reads_labels t
  | valueMaps keys => exact reads_valueMaps keys t

omit [LawfulBackend σ] in
theorem gives_having (key : String) (value : Json) (t : Traverser) :
    Gives (apply (.having key value) t : Attempt σ _) fun found => ∀ t', found = some t' → t' = t := by
  refine .bind fun element => .bind fun holds => .pure ?_
  intro t' ht
  cases holds with
  | true => exact (Option.some.inj ht).symm
  | false => cases ht

omit [LawfulBackend σ] in
theorem gives_setting (key : String) (value : Json) (t : Traverser) :
    Gives (apply (.setting key value) t : Attempt σ _) fun found => ∀ t', found = some t' → t' = t := by
  refine .bind fun element => .bind fun _ => .pure ?_
  intro t' ht
  exact (Option.some.inj ht).symm

omit [LawfulBackend σ] in
theorem gives_ids (t : Traverser) :
    Gives (apply .ids t : Attempt σ _) fun found => ∀ t', found = some t' → t'.Known .value := by
  refine .bind fun element => .pure ?_
  intro t' ht
  cases ht
  trivial

omit [LawfulBackend σ] in
theorem gives_labels (t : Traverser) :
    Gives (apply .labels t : Attempt σ _) fun found => ∀ t', found = some t' → t'.Known .value := by
  refine .bind fun element => .bind fun label => ?_
  cases label with
  | some label =>
    refine .pure ?_
    intro t' ht
    cases ht
    trivial
  | none =>
    refine .bind fun _ => .pure ?_
    intro t' ht
    cases ht

omit [LawfulBackend σ] in
theorem gives_valueMaps (keys : List String) (t : Traverser) :
    Gives (apply (.valueMaps keys) t : Attempt σ _) fun found =>
      ∀ t', found = some t' → t'.Known .value := by
  refine .bind fun element => .bind fun fields => .pure ?_
  intro t' ht
  cases ht
  trivial

/-- Setting a property of an element. -/
theorem setting_run {key : String} {value : Json} (hkey : IsPropertyKey key) {t : Traverser}
    {kind : ElementKind} {id : String} (ht : t.element? = some (kind, id))
    (hid : Key.isToken id = true) {e : Engine σ} {g : Multigraph} (h : e.Keeps g) :
    ∃ e', (apply (.setting key value) t).run.run e = (.ok (some t), e') ∧
      e'.Keeps (g.setProperty kind id key value) ∧ e.Beside e' := by
  obtain ⟨e', hrun, hkeeps, hb⟩ := h.setProperty kind hid hkey value
  have helement : (requireElement "property" t : Attempt σ _).run.run e = (.ok (kind, id), e) := by
    rw [requireElement, ht]
    rfl
  refine ⟨e', ?_, hkeeps, hb⟩
  exact (Attempt.bind_ok helement _).trans (Attempt.bind_ok hrun _)

/-- A filter that walks keeps to the drift, and what it lets pass is known. -/
theorem apply_walks {d : Drift} {a b : ResultType} {f : Filter} (hf : (Stage.filter f).Walks d a b)
    {t : Traverser} (ht : t.Known a) (e : Engine σ) :
    e.Drifts d ((f.apply t).run.run e).2 ∧
      ∀ t', ((f.apply t).run.run e).1 = .ok (some t') → t'.Known b := by
  cases f with
  | having key value =>
    obtain rfl : a = b := hf
    refine ⟨.of_store d ((reads_having key value t).store e), fun t' h => ?_⟩
    rwa [gives_having key value t e _ h t' rfl]
  | setting key value =>
    obtain ⟨rfl, hkey, hrel⟩ := hf
    cases helement : t.element? with
    | none =>
      have hrun : ((apply (.setting key value) t : Attempt σ _).run.run e).2.store = e.store ∧
          ∀ t', ((apply (.setting key value) t : Attempt σ _).run.run e).1 ≠ .ok (some t') := by
        rw [apply, requireElement, helement]
        exact ⟨rfl, fun _ h => by cases h⟩
      exact ⟨.of_store d hrun.1, fun t' h => absurd h (hrun.2 t')⟩
    | some element =>
      obtain ⟨kind, id⟩ := element
      have hid : Key.isToken id = true := by
        cases t with
        | graph | value => cases helement
        | vertex | edge =>
          cases helement
          cases a <;> first | exact ht | exact ht.elim
      constructor
      · intro g hg
        obtain ⟨e', hrun, hkeeps, -⟩ := setting_run hkey helement hid hg
        rw [hrun]
        exact ⟨_, hkeeps, hrel g kind id⟩
      · intro t' h
        rwa [gives_setting key value t e _ h t' rfl]
  | ids =>
    obtain rfl : b = .value := hf
    exact ⟨.of_store d ((reads_ids t).store e), fun t' h => gives_ids t e _ h t' rfl⟩
  | labels =>
    obtain rfl : b = .value := hf
    exact ⟨.of_store d ((reads_labels t).store e), fun t' h => gives_labels t e _ h t' rfl⟩
  | valueMaps keys =>
    obtain rfl : b = .value := hf
    exact ⟨.of_store d ((reads_valueMaps keys t).store e), fun t' h => gives_valueMaps keys t e _ h t' rfl⟩

end Filter

/-- A sink that walks keeps to the drift. -/
theorem Sink.absorb_walks {d : Drift} {a b : ResultType} {s : Sink} (hs : (Stage.sink s).Walks d a b)
    {t : Traverser} (ht : t.Known a) (e : Engine σ) :
    e.Drifts d ((s.absorb t).run.run e).2 ∧
      ∀ s', ((s.absorb t).run.run e).1 = .ok s' → (Stage.sink s').Walks d a b := by
  cases s with
  | count total =>
    refine ⟨.refl d e, fun s' h => ?_⟩
    cases h
    exact hs
  | drop =>
    cases t with
    | vertex id =>
      obtain rfl : a = .vertex := by cases a <;> first | rfl | exact ht.elim
      constructor
      · intro g hg
        obtain ⟨e', hrun, hkeeps, -⟩ := hg.dropVertex (show Key.isToken id = true from ht)
        have : ((Sink.drop.absorb (.vertex id)).run.run e).2 = e' := congrArg Prod.snd hrun
        rw [this]
        exact ⟨_, hkeeps, hs.1 rfl g id⟩
      · intro s' h
        cases h
        exact hs
    | edge id =>
      obtain rfl : a = .edge := by cases a <;> first | rfl | exact ht.elim
      constructor
      · intro g hg
        obtain ⟨e', hrun, hkeeps, -⟩ := hg.dropEdge (show Key.isToken id = true from ht)
        have : ((Sink.drop.absorb (.edge id)).run.run e).2 = e' := congrArg Prod.snd hrun
        rw [this]
        exact ⟨_, hkeeps, hs.2 rfl g id⟩
      · intro s' h
        cases h
        exact hs
    | graph => exact ht.elim
    | value v =>
      refine ⟨.of_store d rfl, fun s' h => ?_⟩
      cases h
  | dropGraph => exact hs.elim

/-! ## What expansions bring -/

section Expansions

variable {e : Engine σ} {g : Multigraph}

theorem edgeEndpoints_run (h : e.Keeps g) {id : String} (hid : Key.isToken id = true) :
    (edgeEndpoints id).run.run e =
      (.ok ⟨(g.edge? id).map (·.source), (g.edge? id).map (·.target)⟩, e) := by
  obtain ⟨_, neighbors, _, hholds⟩ := h
  have hsource : (readText (Key.edgeFrom id)).run.run e =
      (.ok ((g.edge? id).map (·.source)), e) :=
    (does_readPlain (k := .source id) hid (g.layout neighbors) (by
      simp [Multigraph.layout, Function.comp_def])).run_of_reads (reads_readText _) hholds
  have htarget : (readText (Key.edgeTo id)).run.run e =
      (.ok ((g.edge? id).map (·.target)), e) :=
    (does_readPlain (k := .target id) hid (g.layout neighbors) (by
      simp [Multigraph.layout, Function.comp_def])).run_of_reads (reads_readText _) hholds
  refine (Attempt.bind_ok hsource _).trans ((Attempt.bind_ok htarget _).trans ?_)
  cases g.edge? id <;> rfl

/-- Every end a step goes to is one of the two. -/
theorem mem_endsOf {ends : Endpoints} {which : EdgeTo} {w : String} (h : w ∈ endsOf ends which) :
    ends.source = some w ∨ ends.target = some w := by
  obtain ⟨source, target⟩ := ends
  cases which with
  | target => exact .inr (by simpa [endsOf] using h)
  | source => exact .inl (by simpa [endsOf] using h)
  | both =>
    simp only [endsOf] at h
    split at h
    · exact .inl (by simpa using h)
    · rcases List.mem_append.1 h with h | h
      · exact .inl (by simpa using h)
      · exact .inr (by simpa using h)
  | other known =>
    cases known <;> cases source <;> cases target <;>
      simp only [endsOf, otherEnd, Option.mem_toList] at h ⊢ <;> grind

theorem isToken_of_mem_union (h : e.Keeps g) {seen : List String} {v : String} {d : Direction}
    {labels : List String} (hseen : ∀ id ∈ seen, Key.isToken id = true) :
    ∀ id ∈ union seen ((g.edgesBy v d labels).map (·.id)), Key.isToken id = true := by
  intro id hid
  rcases mem_union.1 hid with hid | hid
  · exact hseen id hid
  · obtain ⟨x, hx, rfl⟩ := List.mem_map.1 hid
    exact (h.sound.edges x (Multigraph.mem_edgesBy.1 hx).1).id.1

/-- A task that walks finds known items, and only reads. -/
theorem Task.begin_walks {t : Task} {b : ResultType} (ht : t.Walks b) (h : e.Keeps g) :
    (t.begin.run.run e).2.store = e.store ∧ ∀ x, (t.begin.run.run e).1 = .ok x →
      ∃ l, x = .items l ∧ ∀ i ∈ l, Item.Known b i := by
  cases t with
  | adjacent v d adjacency labels =>
    obtain ⟨hv, hlabels, rfl⟩ := ht
    cases adjacency with
    | edges =>
      have hrun : (Task.begin (.adjacent v d .edges labels)).run.run e = (.ok (.items _), e) :=
        Attempt.bind_ok (edges_run h hv hlabels d []) _
      rw [hrun]
      refine ⟨rfl, fun x hx => ⟨_, (Except.ok.inj hx).symm, ?_⟩⟩
      intro i hi t hit
      obtain ⟨id, hid, rfl⟩ := List.mem_map.1 hi
      cases hit
      exact isToken_of_mem_union h (by simp) id hid
    | vertices =>
      obtain ⟨ws, hws, -, hmem⟩ := vertices_run h hv hlabels d
      have hrun : (Task.begin (.adjacent v d .vertices labels)).run.run e = (.ok (.items _), e) :=
        Attempt.bind_ok hws _
      rw [hrun]
      refine ⟨rfl, fun x hx => ⟨_, (Except.ok.inj hx).symm, ?_⟩⟩
      intro i hi t hit
      obtain ⟨w, hw, rfl⟩ := List.mem_map.1 hi
      cases hit
      obtain ⟨x, hx, rfl⟩ := (hmem w).1 hw
      exact ((h.sound.edges x (Multigraph.mem_edgesBy.1 hx).1).far d).1
  | bothEdges v labels =>
    obtain ⟨hv, hlabels, rfl⟩ := ht
    have hrun : (Task.begin (.bothEdges v labels)).run.run e = (.ok (.items _), e) :=
      (Attempt.bind_ok (edges_run h hv hlabels .outgoing []) _).trans
        (Attempt.bind_ok (edges_run h hv hlabels .incoming _) _)
    rw [hrun]
    refine ⟨rfl, fun x hx => ⟨_, (Except.ok.inj hx).symm, ?_⟩⟩
    intro i hi t hit
    obtain ⟨id, hid, rfl⟩ := List.mem_map.1 hi
    cases hit
    exact isToken_of_mem_union h (isToken_of_mem_union h (by simp)) id hid
  | edgeVertex id ends =>
    obtain ⟨hid, rfl⟩ := ht
    have hrun : (Task.begin (.edgeVertex id ends)).run.run e = (.ok (.items _), e) :=
      Attempt.bind_ok (edgeEndpoints_run h hid) _
    rw [hrun]
    refine ⟨rfl, fun x hx => ⟨_, (Except.ok.inj hx).symm, ?_⟩⟩
    intro i hi t hit
    obtain ⟨w, hw, rfl⟩ := List.mem_map.1 hi
    cases hit
    rcases mem_endsOf hw with hw | hw
    · obtain ⟨x, hx, rfl⟩ := Option.map_eq_some_iff.1 hw
      exact (h.sound.edges x (List.mem_of_find?_eq_some hx)).source.1
    · obtain ⟨x, hx, rfl⟩ := Option.map_eq_some_iff.1 hw
      exact (h.sound.edges x (List.mem_of_find?_eq_some hx)).target.1
  | properties t keys =>
    obtain rfl : b = .value := ht
    have hreads : Reads (Task.begin (.properties t keys) : Attempt σ _) :=
      .bind (reads_requireElement _ t) fun _ => .map _ (reads_readProperties _ _ _)
    refine ⟨hreads.store e, fun x hx => ?_⟩
    have hgives : Gives (Task.begin (.properties t keys) : Attempt σ _) fun x =>
        ∃ l, x = .items l ∧ ∀ i ∈ l, Item.Known .value i := by
      refine .bind fun element => .bind fun fields => .pure ⟨_, rfl, ?_⟩
      intro i hi t hit
      obtain ⟨field, -, rfl⟩ := List.mem_map.1 hi
      cases hit
      trivial
    exact hgives e x hx
  | select | selectOne | addVertex | addEdge | selectLabel => exact ht.elim

/-- An expansion that walks brings known items, and only reads. -/
theorem Expansion.advance_walks {x : Expansion} {b : ResultType} (hx : x.Walks b) (h : e.Keeps g) :
    (x.advance.run e).2.store = e.store ∧ (x.advance.run e).1.1.Known b ∧
      (x.advance.run e).1.2.Walks b := by
  cases x with
  | items l =>
    cases l with
    | nil => exact ⟨rfl, trivial, hx⟩
    | cons i l => exact ⟨rfl, hx i (by simp), fun j hj => hx j (List.mem_cons_of_mem _ hj)⟩
  | task t =>
    obtain ⟨hstore, hitems⟩ := t.begin_walks hx h
    simp only [Expansion.advance, Run.bind_run, Engine.outcome]
    generalize t.begin.run.run e = r at hstore hitems
    obtain ⟨outcome, e'⟩ := r
    cases outcome with
    | ok x =>
      obtain ⟨l, rfl, hl⟩ := hitems x rfl
      exact ⟨hstore, trivial, hl⟩
    | error err =>
      refine ⟨hstore, ?_, ?_⟩
      · intro t ht
        cases ht
      · intro i hi
        cases hi
  | probe | scan => exact hx.elim

end Expansions

/-! ## What stages do -/

section Stages

variable {d : Drift} {a b : ResultType} {stage : Stage}

omit [Backend σ] [LawfulBackend σ] in
/-- An item that is known is expanded without a look at the store. -/
theorem Expander.expand_walks {expander : Expander} {current : Option Expansion}
    (hx : (Stage.expand expander current).Walks d a b) {t : Traverser} (ht : t.Known a)
    (e : Engine σ) : ∃ x : Expansion, (expander.expand t).run e = (x, e) ∧ x.Walks b := by
  cases expander with
  | properties keys => exact ⟨_, rfl, hx.1⟩
  | step of =>
    obtain ⟨hgoes, -⟩ := hx
    cases of with
    | adjacent dir adjacency labels =>
      obtain ⟨rfl, hlabels, rfl⟩ := hgoes
      cases t with
      | vertex id => exact ⟨_, rfl, ht, hlabels, rfl⟩
      | graph | edge | value => exact ht.elim
    | bothEdges labels =>
      obtain ⟨rfl, hlabels, rfl⟩ := hgoes
      cases t with
      | vertex id => exact ⟨_, rfl, ht, hlabels, rfl⟩
      | graph | edge | value => exact ht.elim
    | edgeVertex ends =>
      obtain ⟨rfl, rfl⟩ := hgoes
      cases t with
      | edge id => exact ⟨_, rfl, ht, rfl⟩
      | graph | vertex | value => exact ht.elim
    | _ => exact hgoes.elim

theorem Stage.Walks.with_current {expander : Expander} {current current' : Option Expansion}
    (h : (Stage.expand expander current).Walks d a b) (hx : ∀ x, current' = some x → x.Walks b) :
    (Stage.expand expander current').Walks d a b := by
  cases expander with
  | step of => exact ⟨h.1, hx⟩
  | properties keys => exact ⟨h.1, hx⟩

theorem Stage.Walks.current {expander : Expander} {x : Expansion}
    (h : (Stage.expand expander (some x)).Walks d a b) : x.Walks b := by
  cases expander with
  | step of => exact h.2 x rfl
  | properties keys => exact h.2 x rfl

/-- The work of a stage that walks. -/
theorem Stage.work_walks (hstage : stage.Walks d a b) {work : Run σ (Event × Leaves)}
    (hwork : stage.work? = some work) {e : Engine σ} {g : Multigraph} (h : e.Keeps g) :
    e.Drifts d (work.run e).2 ∧ (work.run e).1.1.Known b ∧ (work.run e).1.2.Walks d a b := by
  cases stage with
  | expand expander current =>
    cases current with
    | none => cases hwork
    | some x =>
      cases hwork
      obtain ⟨hstore, hknown, hx⟩ := Expansion.advance_walks hstage.current h
      simp only [Run.bind_run]
      generalize x.advance.run e = r at hstore hknown hx
      obtain ⟨⟨event, x'⟩, e'⟩ := r
      have hnext : (Stage.expand expander (some x')).Walks d a b :=
        hstage.with_current fun y hy => Option.some.inj hy ▸ hx
      cases event with
      | item i => exact ⟨.of_store d hstore, hknown, hnext⟩
      | skip => exact ⟨.of_store d hstore, trivial, hnext⟩
      | done =>
        exact ⟨.of_store d hstore, trivial, hstage.with_current fun y hy => by cases hy⟩
  | limit left =>
    cases left with
    | zero =>
      cases hwork
      exact ⟨.refl d e, trivial, [], rfl, by simp⟩
    | succ left => cases hwork
  | filter => cases hwork
  | sink => cases hwork

theorem item_error_known (err : Error) : Item.Known b (.error err) := by
  intro t ht
  cases ht

/-- What a stage that walks does with what its source brings. -/
theorem Stage.react_walks (hstage : stage.Walks d a b) {event : Event} (hevent : event.Known a)
    (e : Engine σ) :
    e.Drifts d ((stage.react event).run e).2 ∧ ((stage.react event).run e).1.1.Known b ∧
      ((stage.react event).run e).1.2.Walks d a b := by
  have hempty : (Leaves.stream .empty).Walks d a b := ⟨[], rfl, by simp⟩
  cases event with
  | skip => cases stage <;> exact ⟨.refl d e, trivial, hstage⟩
  | done =>
    cases stage with
    | sink s =>
      refine ⟨.refl d e, trivial, _, rfl, ?_⟩
      cases s with
      | count total =>
        obtain rfl : b = .value := hstage
        intro i hi t ht
        rw [Sink.finish, List.mem_singleton] at hi
        cases hi.symm.trans ht
        trivial
      | drop | dropGraph =>
        intro i hi
        cases hi
    | expand | filter | limit => exact ⟨.refl d e, trivial, hempty⟩
  | item item =>
    cases item with
    | error err =>
      cases stage with
      | sink => exact ⟨.refl d e, item_error_known err, hempty⟩
      | limit => exact ⟨.refl d e, item_error_known err, hstage⟩
      | expand | filter => exact ⟨.refl d e, item_error_known err, hstage⟩
    | ok t =>
      have ht : t.Known a := hevent t rfl
      cases stage with
      | expand expander current =>
        obtain ⟨x, hexpand, hx⟩ := Expander.expand_walks hstage ht e
        simp only [Stage.react, Run.bind_run, hexpand]
        exact ⟨.refl d e, trivial, hstage.with_current fun y hy => Option.some.inj hy ▸ hx⟩
      | filter f =>
        obtain ⟨hdrifts, hknown⟩ := Filter.apply_walks hstage ht e
        simp only [Stage.react, Run.bind_run, Engine.outcome]
        generalize (f.apply t).run.run e = r at hdrifts hknown
        obtain ⟨outcome, e'⟩ := r
        rcases outcome with err | (_ | t')
        case ok.some =>
          refine ⟨hdrifts, ?_, hstage⟩
          intro t'' ht''
          cases ht''
          exact hknown t' rfl
        case ok.none => exact ⟨hdrifts, trivial, hstage⟩
        case error => exact ⟨hdrifts, item_error_known err, hstage⟩
      | limit left =>
        obtain rfl : a = b := hstage
        exact ⟨.refl d e, hevent, rfl⟩
      | sink s =>
        obtain ⟨hdrifts, hwalks⟩ := Sink.absorb_walks hstage ht e
        simp only [Stage.react, Run.bind_run, Engine.outcome]
        generalize (s.absorb t).run.run e = r at hdrifts hwalks
        obtain ⟨outcome, e'⟩ := r
        cases outcome with
        | ok s' => exact ⟨hdrifts, trivial, hwalks s' rfl⟩
        | error err => exact ⟨hdrifts, item_error_known err, hempty⟩

end Stages

/-! ## Chains of steps that walk -/

/-- What a step does to a graph is allowed: setting a property, or dropping what it gets. -/
structure Drift.Allows (d : Drift) (a : ResultType) (step : Step) : Prop where
  setProperty : ∀ key value, step = .property key value →
    ∀ g kind id, d.rel g (g.setProperty kind id key value)
  dropVertex : step = .drop → a = .vertex → ∀ g id, d.rel g (g.dropVertex id)
  dropEdge : step = .drop → a = .edge → ∀ g id, d.rel g (g.dropEdge id)

/-- The stage of a step the grammar allows walks from the type before it to the type behind. -/
theorem Step.stage_walks {d : Drift} {op : Operation} {a : ResultType} {args : List Json}
    {step : Step} {rule : OperationRule} (hrule : a.rule? op = some rule) (ha : a ≠ .graph)
    (h : Step.ofCall op a args = .ok step) (hd : d.Allows a step) :
    step.stage.Walks d a rule.output := by
  have hwalks := Step.walks_of_ofCall hrule ha h
  have hnone : ∀ x : Expansion, (none : Option Expansion) = some x → x.Walks rule.output := by simp
  cases op with
  | vertices | edges | addVertex | addEdge =>
    cases a <;> first | exact absurd rfl ha | cases hrule
  | drop =>
    obtain ⟨_, -, h⟩ := bind_eq_ok.1 h
    have hne : (a == .graph) = false := by simpa using ha
    rw [hne] at h
    cases h
    exact ⟨hd.dropVertex rfl, hd.dropEdge rfl⟩
  | outVertices | inVertices | outEdges | inEdges | bothEdges =>
    obtain ⟨labels, -, h⟩ := bind_eq_ok.1 h
    cases h
    cases a <;> cases hrule
    exact ⟨⟨rfl, hwalks, rfl⟩, hnone⟩
  | outVertex | inVertex | bothVertices =>
    obtain ⟨_, -, h⟩ := bind_eq_ok.1 h
    cases h
    cases a <;> cases hrule
    exact ⟨⟨rfl, rfl⟩, hnone⟩
  | otherVertex =>
    obtain ⟨_, -, h⟩ := bind_eq_ok.1 h
    obtain ⟨_, -, h⟩ := bind_eq_ok.1 h
    cases h
    cases a <;> cases hrule
    exact ⟨⟨rfl, rfl⟩, hnone⟩
  | id | label =>
    obtain ⟨_, -, h⟩ := bind_eq_ok.1 h
    cases h
    cases a <;> cases hrule <;> rfl
  | count =>
    obtain ⟨_, -, h⟩ := bind_eq_ok.1 h
    cases h
    cases a <;> cases hrule <;> rfl
  | has =>
    obtain ⟨_, -, h⟩ := bind_eq_ok.1 h
    obtain ⟨_, -, h⟩ := bind_eq_ok.1 h
    obtain ⟨_, -, h⟩ := bind_eq_ok.1 h
    cases h
    cases a <;> cases hrule <;> rfl
  | property =>
    obtain ⟨_, -, h⟩ := bind_eq_ok.1 h
    obtain ⟨key, -, h⟩ := bind_eq_ok.1 h
    obtain ⟨value, -, h⟩ := bind_eq_ok.1 h
    cases h
    have hset := hd.setProperty key value rfl
    cases a <;> cases hrule <;> exact ⟨rfl, hwalks, hset⟩
  | properties =>
    obtain ⟨_, -, h⟩ := bind_eq_ok.1 h
    cases h
    cases a <;> cases hrule <;> exact ⟨rfl, hnone⟩
  | valueMap =>
    obtain ⟨_, -, h⟩ := bind_eq_ok.1 h
    cases h
    cases a <;> cases hrule <;> rfl
  | limit =>
    obtain ⟨_, -, h⟩ := bind_eq_ok.1 h
    obtain ⟨_, -, h⟩ := bind_eq_ok.1 h
    cases h
    cases a <;> cases hrule <;> rfl

/-- Stages that walk, one behind the other. -/
inductive Drift.Path (d : Drift) : ResultType → List Step → ResultType → Prop
  | nil (a : ResultType) : Path d a [] a
  | cons {a b c : ResultType} {step : Step} {steps : List Step} (h : step.stage.Walks d a b)
    (rest : Path d b steps c) : Path d a (step :: steps) c

/-- The steps behind a result that is not the graph are such stages. -/
theorem Chain.path_of_resolveFrom {d : Drift} {chain : Chain} {a : ResultType}
    {steps : List PlannedStep} (h : resolveFrom a chain = .ok steps) (ha : a ≠ .graph)
    (hd : ∀ s ∈ steps, d.Allows s.input s.step) : ∃ b, d.Path a (steps.map (·.step)) b := by
  induction chain generalizing a steps with
  | nil =>
    cases h
    exact ⟨a, .nil a⟩
  | cons call rest ih =>
    obtain ⟨rule, hrule, h⟩ := bind_eq_ok.1 h
    obtain ⟨step, hstep, h⟩ := bind_eq_ok.1 h
    obtain ⟨others, hothers, h⟩ := bind_eq_ok.1 h
    cases h
    have hfound := resolve_eq_ok hrule
    obtain ⟨b, hpath⟩ := ih hothers (rule_output_ne hfound) fun s hs => hd s (List.mem_cons_of_mem _ hs)
    exact ⟨b, .cons (Step.stage_walks hfound ha hstep (hd _ List.mem_cons_self)) hpath⟩

end PropertyGraph
