/-
Operations that only read: they may note something in the log, and leave everything else alone
(`Reads`). What a stage reads on the way leaves it alone too, whatever it finds
(`reads_adjacentIds`, `reads_readProperties` and their companions).
-/
import PropertyGraph.Proofs.EdgeLayout
import PropertyGraph.Stream.Expansion

namespace PropertyGraph

variable {σ α β : Type}

/-! ## Whatever the log holds -/

/-- Whatever the log holds, an operation comes to this and leaves everything but the log alone. -/
def Engine.Finds (e : Engine σ) (operation : Run σ α) (a : α) : Prop :=
  ∀ log, ∃ log', operation.run { e with log := log } = (a, { e with log := log' })

namespace Engine.Finds

variable {e : Engine σ}

theorem pure (e : Engine σ) (a : α) : e.Finds (pure a) a := fun log => ⟨log, rfl⟩

theorem bind {x : Run σ α} {f : α → Run σ β} {a : α} {b : β} (hx : e.Finds x a)
    (hf : e.Finds (f a) b) : e.Finds (x >>= f) b := by
  intro log
  obtain ⟨log', hx⟩ := hx log
  obtain ⟨log'', hf⟩ := hf log'
  exact ⟨log'', by rw [Run.bind_run, hx]; exact hf⟩

/-- A notice goes to the log. -/
theorem note (e : Engine σ) (notice : Notice) : e.Finds (Engine.note notice) () :=
  fun log => ⟨notice :: log, rfl⟩

theorem breach (e : Engine σ) (cause : Breach) : e.Finds (Engine.breach cause) (.broken cause) :=
  (note e _).bind (pure e _)

theorem bind_ok {x : Attempt σ α} {f : α → Attempt σ β} {a : α} {outcome : Except Error β}
    (hx : e.Finds x.run (.ok a)) (hf : e.Finds (f a).run outcome) :
    e.Finds (x >>= f).run outcome :=
  hx.bind (f := ExceptT.bindCont f) hf

theorem bind_error {x : Attempt σ α} {err : Error} (hx : e.Finds x.run (.error err))
    (f : α → Attempt σ β) : e.Finds (x >>= f).run (.error err) :=
  hx.bind (f := ExceptT.bindCont f) (pure e _)

theorem lift {x : Run σ α} {a : α} (h : e.Finds x a) :
    e.Finds (liftM x : Attempt σ α).run (.ok a) := by
  intro log
  obtain ⟨log', hrun⟩ := h log
  refine ⟨log', ?_⟩
  show (Except.ok (x.run _).1, (x.run _).2) = _
  rw [hrun]

/-- A piece of work on a scan. -/
theorem advance [Backend σ] [LawfulBackend σ] (e : Engine σ) (stream : KeyStream) :
    e.Finds (Engine.advance stream) ((stream.scan.advance e.fetch).1,
      { stream with scan := (stream.scan.advance e.fetch).2 }) :=
  fun log => ⟨log, Engine.advance_run stream _⟩

end Engine.Finds

/-- An operation leaves everything but the log alone, and does not look at the log. -/
def Reads (operation : Attempt σ α) : Prop := ∀ e : Engine σ, ∃ outcome, e.Finds operation.run outcome

/-- What an operation finds in a state. -/
def Engine.answer (e : Engine σ) (operation : Attempt σ α) : Except Error α :=
  (operation.run.run e).1

theorem Engine.Finds.answer {e : Engine σ} {operation : Attempt σ α} {outcome : Except Error α}
    (h : e.Finds operation.run outcome) : e.answer operation = outcome := by
  obtain ⟨log, hrun⟩ := h e.log
  exact congrArg (·.1) hrun

namespace Reads

theorem finds {operation : Attempt σ α} (h : Reads operation) (e : Engine σ) :
    e.Finds operation.run (e.answer operation) := by
  obtain ⟨outcome, hfinds⟩ := h e
  rwa [hfinds.answer]

theorem state {operation : Attempt σ α} (h : Reads operation) (e : Engine σ) :
    ∃ log, (operation.run.run e).2 = { e with log := log } := by
  obtain ⟨log, hrun⟩ := h.finds e e.log
  exact ⟨log, congrArg (·.2) hrun⟩

theorem store {operation : Attempt σ α} (h : Reads operation) (e : Engine σ) :
    (operation.run.run e).2.store = e.store := by
  obtain ⟨log, hrun⟩ := h.state e
  rw [hrun]

theorem pure (a : α) : Reads (pure a : Attempt σ α) := fun e => ⟨.ok a, .pure e _⟩

theorem throw (err : Error) : Reads (throw err : Attempt σ α) := fun e => ⟨.error err, .pure e _⟩

theorem ofExcept (x : Except Error α) : Reads (MonadExcept.ofExcept x : Attempt σ α) := by
  cases x with
  | ok a => exact pure a
  | error err => exact throw err

theorem bind {x : Attempt σ α} {f : α → Attempt σ β} (hx : Reads x) (hf : ∀ a, Reads (f a)) :
    Reads (x >>= f) := by
  intro e
  obtain ⟨_ | a, hfirst⟩ := hx e
  · exact ⟨_, hfirst.bind_error f⟩
  · obtain ⟨outcome, hrest⟩ := hf a e
    exact ⟨outcome, hfirst.bind_ok hrest⟩

theorem map {x : Attempt σ α} (f : α → β) (hx : Reads x) : Reads (f <$> x) :=
  bind hx fun a => pure (f a)

/-- What is found behind an operation that reads is found without it. -/
theorem answer_bind {x : Attempt σ α} {f : α → Attempt σ β} (hx : Reads x) (hf : ∀ a, Reads (f a))
    (e : Engine σ) : e.answer (x >>= f) = e.answer x >>= fun a => e.answer (f a) := by
  have hfirst := hx.finds e
  cases h : e.answer x with
  | error err =>
    rw [h] at hfirst
    exact (hfirst.bind_error f).answer
  | ok a =>
    rw [h] at hfirst
    exact (hfirst.bind_ok ((hf a).finds e)).answer

theorem answer_map {x : Attempt σ α} (f : α → β) (hx : Reads x) (e : Engine σ) :
    e.answer (f <$> x) = (e.answer x).map f :=
  (answer_bind hx (fun a => pure (f a)) e).trans (by cases e.answer x <;> rfl)

theorem note (notice : Notice) : Reads (liftM (Engine.note notice : Run σ Unit) : Attempt σ Unit) :=
  fun e => ⟨.ok (), (Engine.Finds.note e notice).lift⟩

theorem breach (cause : Breach) : Reads (liftM (Engine.breach cause : Run σ Error) : Attempt σ Error) :=
  fun e => ⟨.ok _, (Engine.Finds.breach e cause).lift⟩

theorem foldlM {f : β → α → Attempt σ β} (hf : ∀ b a, Reads (f b a)) (l : List α) (b : β) :
    Reads (l.foldlM f b) := by
  induction l generalizing b with
  | nil => exact pure b
  | cons a l ih =>
    rw [List.foldlM_cons]
    exact bind (hf b a) fun b => ih b

variable [Backend σ] [LawfulBackend σ]

theorem get (key : String) : Reads (Engine.call (Backend.get key) : Attempt σ _) :=
  fun e => ⟨.ok ((LawfulBackend.entries e.store).get? key),
    fun log => ⟨log, Engine.get_run key { e with log := log }⟩⟩

theorem keys (patterns : List String) : Reads (Engine.call (Backend.keys patterns) : Attempt σ _) := by
  intro e
  cases hread : KeyPattern.parseAll patterns with
  | error err => exact ⟨.error err, fun log => ⟨log, Engine.keys_refused hread _⟩⟩
  | ok ps => exact ⟨.ok (.ofScan (.start ps)), fun log => ⟨log, Engine.keys_run hread _⟩⟩

theorem foldStream {f : β → Except Error String → Attempt σ β} (hf : ∀ b item, Reads (f b item))
    (fuel : Nat) (b : β) (stream : KeyStream) : Reads (Engine.foldStream f fuel b stream) := by
  induction fuel generalizing b stream with
  | zero => exact pure b
  | succ fuel ih =>
    rw [Engine.foldStream]
    refine bind (fun e => ⟨.ok _, (Engine.Finds.advance e stream).lift⟩) fun r => ?_
    obtain ⟨event, stream'⟩ := r
    cases event with
    | key key => exact bind (hf b (.ok key)) fun b => ih b stream'
    | failed err => exact bind (hf b (.error err)) fun b => ih b stream'
    | skip => exact ih b stream'
    | done => exact pure b

theorem foldKeys {f : β → Except Error String → Attempt σ β} (hf : ∀ b item, Reads (f b item))
    (b : β) (patterns : List String) : Reads (Engine.foldKeys f b patterns) := by
  rw [Engine.foldKeys]
  refine bind (keys patterns) fun stream e => ?_
  obtain ⟨outcome, hfold⟩ := foldStream hf (stream.effort (Backend.size e.store)) b stream e
  refine ⟨outcome, fun log => ?_⟩
  obtain ⟨log', hrun⟩ := hfold log
  refine ⟨log', ?_⟩
  rw [Attempt.get_bind]
  exact hrun

theorem keysMatching (pattern : String) : Reads (Engine.keysMatching pattern : Attempt σ _) :=
  map _ (foldKeys (fun _ item => map _ (ofExcept item)) [] [pattern])

theorem keysDespite (key : String) (patterns : List String) :
    Reads (Engine.keysDespite key patterns : Attempt σ _) := by
  refine map _ (foldKeys (fun found item => ?_) _ _)
  cases item with
  | ok key => exact pure _
  | error err => exact bind (note _) fun _ => pure _

end Reads

/-- An operation that reads, in a store with records that say what it finds. -/
theorem Does.run_of_reads [Backend σ] [LawfulBackend σ] {operation : Attempt σ α} {m m' : Records}
    {a : α} (h : Does operation m a m') (hr : Reads operation) {e : Engine σ} (he : e.Holds m) :
    operation.run.run e = (.ok a, e) := by
  obtain ⟨e', hrun, -, hb⟩ := h e he
  have hstore := hr.store e
  rw [hrun] at hstore ⊢
  obtain ⟨store', issued', log', ids'⟩ := e'
  obtain ⟨store, issued, log, ids⟩ := e
  obtain ⟨hissued, hlog, hids⟩ := hb
  simp only at hstore hissued hlog hids
  rw [hstore, hissued, hlog, hids]

/-! ## What stages read -/

namespace Graph

variable [Backend σ] [LawfulBackend σ]

theorem reads_readText (key : String) : Reads (readText key : Attempt σ _) := .map _ (.get key)

theorem reads_readIndex (key : String) : Reads (readIndex key : Attempt σ _) := by
  refine .bind (.get key) fun entry => ?_
  cases entry with
  | none => exact .pure _
  | some entry =>
    cases hids : entry.value.ids? with
    | some ids =>
      simp only [hids]
      exact .pure _
    | none =>
      simp only [hids]
      exact .bind (.note _) fun _ => .pure _

theorem reads_adjacentIds (vertex : String) (direction : Direction) (adjacency : Adjacency)
    (label : Option String) : Reads (adjacentIds vertex direction adjacency label : Attempt σ _) := by
  refine .bind (reads_readIndex _) fun ids => ?_
  cases ids with
  | some ids => exact .pure ids
  | none => exact .map _ (.keysMatching _)

theorem reads_getProperty (kind : ElementKind) (id key : String) :
    Reads (getProperty kind id key : Attempt σ _) := by
  refine .bind (.get _) fun entry => ?_
  cases entry with
  | none => exact .pure _
  | some entry => exact .map _ (.ofExcept _)

theorem reads_properties (kind : ElementKind) (id : String) :
    Reads (properties kind id : Attempt σ _) := by
  refine .foldKeys (fun found item => .bind (.ofExcept item) fun key => .bind (.get key) ?_) _ _
  intro entry
  cases entry with
  | none => exact .pure _
  | some entry => exact .map _ (.ofExcept _)

theorem reads_readNamed (kind : ElementKind) (id key : String) :
    Reads (readNamed kind id key : Attempt σ _) := by
  rw [readNamed]
  split
  · exact .pure _
  · split
    · exact .map _ (reads_readText _)
    · exact reads_getProperty kind id key

theorem reads_readProperties (kind : ElementKind) (id : String) (keys : List String) :
    Reads (readProperties kind id keys : Attempt σ _) := by
  rw [readProperties]
  split
  · exact reads_properties kind id
  · refine .foldlM (fun found key => .bind (reads_readNamed kind id key) fun value => ?_) _ _
    cases value <;> exact .pure _

end Graph

/-- An item of the wrong type is refused, and noted. -/
theorem reads_requireElement (step : String) (t : Traverser) :
    Reads (requireElement step t : Attempt σ _) := by
  rw [requireElement]
  cases t.element? with
  | some element => exact .pure _
  | none => exact .bind (.breach _) fun err => .throw err

end PropertyGraph
