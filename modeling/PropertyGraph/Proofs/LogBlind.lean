/-
Nothing the engine does goes by its log. An operation is `Blind` if, started on another log, it
gives the same and leaves the same behind but for the log; sequences, loops and scans of such
operations are such operations, and so is every operation on a graph, up to one piece of work on a
stream (`Blind.advance_stream`). Two engines are `Engine.Alike` if they differ in their logs at
most, and stay so under what is blind (`Blind.alike`).
-/
import PropertyGraph.Proofs.StreamRun

namespace PropertyGraph

open PropertyGraph.Graph

variable {σ α β : Type}

/-- Nothing differs but the log. -/
def Engine.Alike (e e' : Engine σ) : Prop := ∃ log, e' = { e with log := log }

namespace Engine.Alike

variable {e e' e'' : Engine σ}

theorem refl (e : Engine σ) : e.Alike e := ⟨e.log, rfl⟩

theorem symm (h : e.Alike e') : e'.Alike e := by
  obtain ⟨log, rfl⟩ := h
  exact ⟨e.log, rfl⟩

theorem trans (h : e.Alike e') (h' : e'.Alike e'') : e.Alike e'' := by
  obtain ⟨log, rfl⟩ := h
  obtain ⟨log', rfl⟩ := h'
  exact ⟨log', rfl⟩

/-- In particular the store is the same. -/
theorem store (h : e.Alike e') : e'.store = e.store := by
  obtain ⟨log, rfl⟩ := h
  rfl

end Engine.Alike

/-- An operation does not go by the log: on another one it gives the same, and leaves the same
behind but for the log. -/
def Blind (x : Run σ α) : Prop :=
  ∀ e log, ∃ log', x.run { e with log := log } = ((x.run e).1, { (x.run e).2 with log := log' })

theorem Blind.alike {x : Run σ α} (h : Blind x) {e e' e₁ : Engine σ} (he : e.Alike e') {a : α}
    (hrun : x.run e = (a, e₁)) : ∃ e₁', x.run e' = (a, e₁') ∧ e₁.Alike e₁' := by
  obtain ⟨log, rfl⟩ := he
  obtain ⟨log', hrun'⟩ := h e log
  rw [hrun] at hrun'
  exact ⟨_, hrun', log', rfl⟩

namespace Blind

/-! ## Sequences -/

theorem pure (a : α) : Blind (Pure.pure a : Run σ α) := fun _ log => ⟨log, rfl⟩

theorem bind {x : Run σ α} {f : α → Run σ β} (hx : Blind x) (hf : ∀ a, Blind (f a)) :
    Blind (x >>= f) := by
  intro e log
  obtain ⟨log', hrun⟩ := hx e log
  rw [Run.bind_run, hrun]
  exact hf _ _ log'

theorem andThen {x : Attempt σ α} {f : α → Attempt σ β} (hx : Blind x.run)
    (hf : ∀ a, Blind (f a).run) : Blind (x >>= f).run := by
  show Blind (x.run >>= ExceptT.bindCont f)
  refine bind hx fun outcome => ?_
  cases outcome with
  | ok a => exact hf a
  | error err => exact .pure (Except.error err)

theorem lift {x : Run σ α} (hx : Blind x) : Blind (liftM x : Attempt σ α).run :=
  bind hx fun a => .pure (Except.ok a)

theorem ofExcept (x : Except Error α) : Blind (MonadExcept.ofExcept x : Attempt σ α).run := by
  cases x <;> exact .pure _

theorem forM {f : α → Run σ Unit} (hf : ∀ a, Blind (f a)) (l : List α) : Blind (l.forM f) := by
  induction l with
  | nil => exact .pure ()
  | cons a l ih => exact bind (hf a) fun _ => ih

theorem forEach {f : α → Attempt σ Unit} (hf : ∀ a, Blind (f a).run) (l : List α) :
    Blind (l.forM f).run := by
  induction l with
  | nil => exact .pure (Except.ok ())
  | cons a l ih => exact andThen (hf a) fun _ => ih

theorem foldlM {f : β → α → Attempt σ β} (hf : ∀ b a, Blind (f b a).run) (l : List α) (b : β) :
    Blind (l.foldlM f b).run := by
  induction l generalizing b with
  | nil => exact .pure (Except.ok b)
  | cons a l ih =>
    rw [List.foldlM_cons]
    exact andThen (hf b a) fun b => ih b

/-! ## The engine -/

theorem note (notice : Notice) : Blind (Engine.note notice : Run σ Unit) :=
  fun _ log => ⟨notice :: log, rfl⟩

theorem breach (cause : Breach) : Blind (Engine.breach cause : Run σ Error) :=
  bind (.note _) fun _ => .pure _

theorem freshId : Blind (Engine.freshId : Run σ String) := fun _ log => ⟨log, rfl⟩

theorem call (access : Access σ α) : Blind (Engine.call access).run := fun _ log => ⟨log, rfl⟩

theorem quietly {key : String} {instead : α} {x : Attempt σ α} (hx : Blind x.run) :
    Blind (Engine.quietly key instead x) := by
  refine bind hx fun outcome => ?_
  cases outcome with
  | ok a => exact .pure a
  | error err => exact bind (.note _) fun _ => .pure instead

variable [Backend σ]

theorem advance_keys (stream : KeyStream) : Blind (Engine.advance stream : Run σ _) :=
  fun _ log => ⟨log, rfl⟩

theorem foldStream {f : β → Except Error String → Attempt σ β}
    (hf : ∀ b item, Blind (f b item).run) (fuel : Nat) (b : β) (stream : KeyStream) :
    Blind (Engine.foldStream f fuel b stream).run := by
  induction fuel generalizing b stream with
  | zero => exact .pure (Except.ok b)
  | succ fuel ih =>
    refine andThen (.lift (.advance_keys stream)) fun (event, stream) => ?_
    cases event with
    | key key => exact andThen (hf b (.ok key)) fun b => ih b stream
    | failed err => exact andThen (hf b (.error err)) fun b => ih b stream
    | skip => exact ih b stream
    | done => exact .pure (Except.ok b)

theorem foldKeys {f : β → Except Error String → Attempt σ β}
    (hf : ∀ b item, Blind (f b item).run) (b : β) (patterns : List String) :
    Blind (Engine.foldKeys f b patterns).run := by
  refine andThen (.call _) fun stream e log => ?_
  rw [Attempt.get_bind, Attempt.get_bind]
  exact foldStream hf _ b stream e log

theorem keysMatching (pattern : String) : Blind (Engine.keysMatching pattern : Attempt σ _).run :=
  andThen (.foldKeys (fun _ item => andThen (.ofExcept item) fun _ => .pure _) [] [pattern])
    fun _ => .pure _

theorem keysDespite (key : String) (patterns : List String) :
    Blind (Engine.keysDespite key patterns : Attempt σ _).run := by
  refine andThen (.foldKeys (fun found item => ?_) [] patterns) fun _ => .pure _
  cases item with
  | ok key => exact .pure _
  | error err => exact andThen (.lift (.note _)) fun _ => .pure _

/-! ## Lists of ids -/

theorem deleteQuietly (key : String) : Blind (deleteQuietly key : Run σ Unit) := .quietly (.call _)

theorem readIndex (key : String) : Blind (readIndex key : Attempt σ _).run := by
  refine andThen (.call _) fun entry => ?_
  cases entry with
  | none => exact .pure _
  | some entry =>
    dsimp only
    split
    · exact .pure _
    · exact andThen (.lift (.note _)) fun _ => .pure _

theorem pushIndex (key id : String) (distinct : Bool) :
    Blind (pushIndex key id distinct : Attempt σ Unit).run := by
  refine andThen (.readIndex key) fun found => ?_
  dsimp only
  split
  · exact .pure _
  · exact andThen (.call _) fun _ => .pure _

theorem removeFromIndex (key id : String) (all : Bool) :
    Blind (removeFromIndex key id all : Attempt σ Bool).run := by
  refine andThen (.readIndex key) fun found => ?_
  cases found with
  | none => exact .pure _
  | some ids =>
    dsimp only
    generalize (if all then ids.filter (· != id) else ids.erase id) = left
    split
    · exact andThen (.call _) fun _ => .pure _
    · exact .pure _

theorem adjacentIds (vertex : String) (direction : Direction) (adjacency : Adjacency)
    (label : Option String) :
    Blind (adjacentIds vertex direction adjacency label : Attempt σ _).run := by
  refine andThen (.readIndex _) fun found => ?_
  cases found with
  | some ids => exact .pure _
  | none => exact andThen (.keysMatching _) fun _ => .pure _

theorem incidentEdges (vertex : String) : Blind (incidentEdges vertex : Attempt σ _).run :=
  andThen (.adjacentIds _ _ _ _) fun _ => andThen (.adjacentIds _ _ _ _) fun _ => .pure _

theorem linkEdge (edge label source target : String) :
    Blind (linkEdge edge label source target : Attempt σ Unit).run := by
  have hend : ∀ (e : EdgeEnd String) label, Blind (linkEnd edge e label : Attempt σ Unit).run :=
    fun e label => andThen (.call _) fun _ => andThen (.call _) fun _ =>
      andThen (.pushIndex _ _ _) fun _ => .pushIndex _ _ _
  exact forEach (fun e => andThen (hend e none) fun _ => hend e (some label)) _

theorem unlinkEnd (edge vertex : String) (direction : Direction) (other label : Option String) :
    Blind (unlinkEnd edge vertex direction other label : Run σ Unit) := by
  refine bind (.deleteQuietly _) fun _ => bind (.quietly (.removeFromIndex _ _ _)) fun _ => ?_
  cases other with
  | none => exact .pure ()
  | some other =>
    refine bind (.quietly (.removeFromIndex _ _ _)) fun stillLinked => ?_
    cases stillLinked with
    | true => exact .pure ()
    | false => exact .deleteQuietly _

theorem unlinkEdge (edge : String) (label source target : Option String) :
    Blind (unlinkEdge edge label source target : Run σ Unit) := by
  refine forM (fun e => ?_) _
  cases e.vertex with
  | none => exact .pure ()
  | some vertex =>
    refine bind (.unlinkEnd _ _ _ _ _) fun _ => ?_
    cases label with
    | none => exact .pure ()
    | some label => exact .unlinkEnd _ _ _ _ _

/-! ## Records -/

theorem elementExists (kind : ElementKind) (id : String) :
    Blind (elementExists kind id : Attempt σ Bool).run :=
  andThen (.call _) fun _ => .pure _

theorem readText (key : String) : Blind (readText key : Attempt σ _).run :=
  andThen (.call _) fun _ => .pure _

theorem getLabel (kind : ElementKind) (id : String) : Blind (getLabel kind id : Attempt σ _).run :=
  .readText _

theorem getProperty (kind : ElementKind) (id key : String) :
    Blind (getProperty kind id key : Attempt σ _).run := by
  refine andThen (.call _) fun entry => ?_
  cases entry with
  | none => exact .pure _
  | some entry => exact andThen (.ofExcept _) fun _ => .pure _

theorem readProperties (kind : ElementKind) (id : String) (keys : List String) :
    Blind (readProperties kind id keys : Attempt σ _).run := by
  rw [Graph.readProperties]
  split
  · refine .foldKeys (fun found item => andThen (.ofExcept item) fun key => ?_) _ _
    refine andThen (.call _) fun entry => ?_
    cases entry with
    | none => exact .pure _
    | some entry => exact andThen (.ofExcept _) fun _ => .pure _
  · refine .foldlM (fun found key => andThen ?_ fun value => ?_) keys []
    · rw [readNamed]
      split
      · exact .pure _
      · split
        · exact andThen (.getLabel kind id) fun _ => .pure _
        · exact .getProperty kind id key
    · cases value <;> exact .pure _

theorem edgeEndpoints (id : String) : Blind (edgeEndpoints id : Attempt σ _).run := by
  refine andThen (.readText _) fun source => andThen (.readText _) fun target => ?_
  split
  · exact andThen (.lift (.note _)) fun _ => .pure _
  · exact .pure _

theorem createKey (key value : String) : Blind (createKey key value : Attempt σ Unit).run :=
  andThen (.call _) fun _ => .pure _

theorem createVertex (label : String) : Blind (createVertex label : Attempt σ String).run :=
  andThen (.ofExcept _) fun _ => andThen (.lift .freshId) fun _ =>
    andThen (.createKey _ _) fun _ => andThen (.createKey _ _) fun _ =>
    andThen (.createKey _ _) fun _ => andThen (.createKey _ _) fun _ => .pure _

theorem requireVertex (id : String) : Blind (requireVertex id : Attempt σ Unit).run := by
  refine andThen (.elementExists _ _) fun found => ?_
  cases found <;> exact .pure _

theorem createEdge (label source target : String) :
    Blind (createEdge label source target : Attempt σ String).run :=
  andThen (.ofExcept _) fun _ => andThen (.ofExcept _) fun _ => andThen (.ofExcept _) fun _ =>
    andThen (.requireVertex _) fun _ => andThen (.requireVertex _) fun _ =>
    andThen (.lift .freshId) fun _ => andThen (.createKey _ _) fun _ =>
    andThen (.createKey _ _) fun _ => andThen (.createKey _ _) fun _ =>
    andThen (.createKey _ _) fun _ => andThen (.linkEdge _ _ _ _) fun _ =>
    andThen (.createKey _ _) fun _ => .pure _

theorem setProperty (kind : ElementKind) (id key : String) (value : Json) :
    Blind (setProperty kind id key value : Attempt σ Unit).run :=
  andThen (.ofExcept _) fun _ => andThen (.call _) fun _ => .pure _

/-! ## Dropping -/

theorem deleteChildren (kind : ElementKind) (id : String) :
    Blind (deleteChildren kind id : Run σ Unit) :=
  bind (.quietly (.keysDespite _ _)) fun keys => .forM .deleteQuietly keys

theorem dropEdge (id : String) : Blind (dropEdge id : Run σ Unit) :=
  bind (.quietly (.getLabel _ _)) fun _ => bind (.quietly (.readText _)) fun _ =>
    bind (.quietly (.readText _)) fun _ => bind (.deleteQuietly _) fun _ =>
    bind (.unlinkEdge _ _ _ _) fun _ => bind (.deleteChildren _ _) fun _ => .deleteQuietly _

theorem clearNeighbors (id : String) (direction : Direction) :
    Blind (clearNeighbors id direction : Run σ Unit) := by
  have hforget : ∀ neighbor direction label,
      Blind (forgetNeighbor neighbor direction label id : Run σ Unit) := fun _ _ _ =>
    bind (.deleteQuietly _) fun _ => bind (.quietly (.removeFromIndex _ _ _)) fun _ => .pure ()
  refine bind (.quietly (.keysDespite _ _)) fun keys => bind (.forM (fun key => ?_) keys)
    fun _ => bind (.quietly (.keysDespite _ _)) fun keys => .forM (fun key => ?_) keys
  · dsimp only
    split
    · exact hforget _ _ _
    · exact .pure ()
  · split
    · split
      · exact hforget _ _ _
      · exact .pure ()
    · exact .pure ()

theorem dropVertex (id : String) : Blind (dropVertex id : Run σ Unit) :=
  bind (.quietly (.incidentEdges id)) fun incident => bind (.deleteQuietly _) fun _ =>
    bind (.forM .dropEdge incident) fun _ => bind (.clearNeighbors _ _) fun _ =>
    bind (.clearNeighbors _ _) fun _ => bind (.deleteChildren _ _) fun _ => .deleteQuietly _

theorem dropAll : Blind (dropAll : Attempt σ Unit).run :=
  andThen (.keysDespite _ _) fun doomed => .lift (.forM .deleteQuietly doomed)

/-! ## Expansions -/

omit [Backend σ] in
theorem mismatch (step expected : String) (found : Traverser) :
    Blind (mismatch step expected found : Run σ Error) := .breach _

omit [Backend σ] in
theorem requireElement (step : String) (t : Traverser) :
    Blind (requireElement step t : Attempt σ _).run := by
  rw [PropertyGraph.requireElement]
  split
  · exact .pure _
  · exact andThen (.lift (.mismatch _ _ _)) fun _ => .pure _

theorem neighbors (vertex : String) (direction : Direction) (adjacency : Adjacency)
    (labels seen : List String) :
    Blind (neighbors vertex direction adjacency labels seen : Attempt σ _).run :=
  .foldlM (fun _ _ => andThen (.adjacentIds _ _ _ _) fun _ => .pure _) _ _

theorem begin (task : Task) : Blind (task.begin : Attempt σ Expansion).run := by
  cases task with
  | select => exact andThen (.call _) fun _ => .pure _
  | selectOne =>
    refine andThen (.elementExists _ _) fun found => ?_
    cases found <;> exact .pure _
  | addVertex => exact andThen (.createVertex _) fun _ => .pure _
  | addEdge => exact andThen (.createEdge _ _ _) fun _ => .pure _
  | selectLabel => exact andThen (.call _) fun _ => .pure _
  | adjacent => exact andThen (.neighbors _ _ _ _ _) fun _ => .pure _
  | bothEdges =>
    exact andThen (.neighbors _ _ _ _ _) fun _ => andThen (.neighbors _ _ _ _ _) fun _ => .pure _
  | edgeVertex => exact andThen (.edgeEndpoints _) fun _ => .pure _
  | properties =>
    exact andThen (.requireElement _ _) fun _ => andThen (.readProperties _ _ _) fun _ => .pure _

theorem advance_expansion (x : Expansion) : Blind (x.advance : Run σ _) := by
  cases x with
  | items l => cases l <;> exact .pure _
  | task pending =>
    refine bind (.begin pending) fun outcome => ?_
    cases outcome <;> exact .pure _
  | probe kind ids =>
    cases ids with
    | nil => exact .pure _
    | cons id ids =>
      refine bind (.elementExists kind id) fun outcome => ?_
      rcases outcome with _ | (_ | _) <;> exact .pure _
  | scan listing stream =>
    refine bind (.advance_keys stream) fun (event, stream) => ?_
    cases event with
    | key key =>
      dsimp only
      split <;> exact .pure _
    | _ => exact .pure _

omit [Backend σ] in
theorem expand (expander : Expander) (t : Traverser) :
    Blind (expander.expand t : Run σ Expansion) := by
  have hfailed : ∀ {x : Run σ Error}, Blind x →
      Blind (x >>= fun err => Pure.pure (Expansion.failed err)) := fun hx => bind hx fun _ => .pure _
  have hgraph : ∀ name x, Blind (Expansion.fromGraph name t x : Run σ Expansion) := by
    intro name x
    cases t with
    | graph => exact .pure _
    | _ => exact hfailed (.mismatch _ _ _)
  cases expander with
  | properties => exact .pure _
  | step of =>
    cases of with
    | root => exact .pure _
    | vertices | edges | addVertex | addEdge | verticesWithLabel => exact hgraph _ _
    | adjacent | bothEdges | edgeVertex =>
      cases t with
      | vertex | edge => first | exact .pure _ | exact hfailed (.mismatch _ _ _)
      | graph | value => exact hfailed (.mismatch _ _ _)
    | _ => exact hfailed (.breach _)

/-! ## Stages and streams -/

theorem holds (kind : ElementKind) (id key : String) (value : Json) :
    Blind (Filter.holds kind id key value : Attempt σ Bool).run := by
  rw [Filter.holds]
  split
  · exact andThen (.getLabel kind id) fun label => by cases label <;> exact .pure _
  · split
    · exact .pure _
    · exact andThen (.getProperty kind id key) fun stored => by cases stored <;> exact .pure _

theorem apply (f : Filter) (t : Traverser) : Blind (f.apply t : Attempt σ _).run := by
  cases f with
  | having key value =>
    refine andThen (.requireElement _ _) fun (kind, id) => andThen (.holds _ _ _ _) fun kept => ?_
    exact .pure _
  | setting key value =>
    exact andThen (.requireElement _ _) fun _ => andThen (.setProperty _ _ _ _) fun _ => .pure _
  | ids => exact andThen (.requireElement _ _) fun _ => .pure _
  | labels =>
    refine andThen (.requireElement _ _) fun (kind, id) => andThen (.getLabel _ _) fun label => ?_
    cases label with
    | some label => exact .pure _
    | none => exact andThen (.lift (.note _)) fun _ => .pure _
  | valueMaps keys =>
    exact andThen (.requireElement _ _) fun _ => andThen (.readProperties _ _ _) fun _ => .pure _

theorem absorb (s : Sink) (t : Traverser) : Blind (s.absorb t : Attempt σ Sink).run := by
  cases s with
  | count total => exact .pure _
  | drop =>
    cases t with
    | vertex id => exact andThen (.lift (.dropVertex id)) fun _ => .pure _
    | edge id => exact andThen (.lift (.dropEdge id)) fun _ => .pure _
    | graph | value => exact andThen (.lift (.mismatch _ _ _)) fun _ => .pure _
  | dropGraph =>
    cases t with
    | graph => exact andThen .dropAll fun _ => .pure _
    | _ => exact andThen (.lift (.mismatch _ _ _)) fun _ => .pure _

theorem work {stage : Stage} {x : Run σ (Event × Leaves)} (h : stage.work? = some x) : Blind x := by
  cases stage with
  | expand expander current =>
    cases current with
    | none => cases h
    | some current =>
      cases h
      refine bind (.advance_expansion current) fun (event, current) => ?_
      cases event <;> exact .pure _
  | limit left =>
    cases left with
    | zero =>
      cases h
      exact .pure _
    | succ left => cases h
  | filter | sink => cases h

theorem react (stage : Stage) (event : Event) : Blind (stage.react event : Run σ _) := by
  rcases event with (_ | t) | _ | _
  · cases stage <;> exact .pure _
  · cases stage with
    | expand => exact bind (.expand _ _) fun _ => .pure _
    | filter f =>
      refine bind (.apply f t) fun outcome => ?_
      rcases outcome with _ | (_ | _) <;> exact .pure _
    | limit => exact .pure _
    | sink s =>
      refine bind (.absorb s t) fun outcome => ?_
      cases outcome <;> exact .pure _
  · cases stage <;> exact .pure _
  · cases stage <;> exact .pure _

/-- No stream goes by the log. -/
theorem advance_stream (s : Stream) : Blind (s.advance : Run σ _) := by
  induction s with
  | given items => cases items <;> exact .pure _
  | through stage source ih =>
    intro e log
    cases hwork : (stage.work? : Option (Run σ _)) with
    | some work =>
      obtain ⟨log', hrun⟩ := Blind.work hwork e log
      rw [Stream.advance_work hwork, Stream.advance_work hwork, hrun]
      exact ⟨log', rfl⟩
    | none =>
      obtain ⟨log', hrun⟩ := ih e log
      obtain ⟨log'', hreact⟩ := Blind.react stage (source.advance.run e).1.1
        (source.advance.run e).2 log'
      rw [Stream.advance_react hwork hrun, Stream.advance_react hwork rfl, hreact]
      exact ⟨log'', rfl⟩

end Blind

end PropertyGraph
