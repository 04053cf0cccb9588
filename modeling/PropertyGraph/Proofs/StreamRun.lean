/-
Runs of a query. `Stream.Runs` follows a stream piece by piece to its end; a fold over the
stream with enough budget goes through the items of its run (`Stream.Runs.fold?_run`). A stage
either has work of its own (`Stage.work?`) or reacts to what the source brings
(`Stage.react`), and runs of what only reads are put together from those of its parts
(`Stream.Brings`).
-/
import PropertyGraph.Proofs.EngineRun
import PropertyGraph.Query

namespace PropertyGraph

variable {σ β : Type} [Backend σ]

namespace Stream

/-! ## Runs -/

/-- A run of a stream from a state to its end: the items that come, each with the state in
which it came, and the state at the end. -/
inductive Runs : Stream → Engine σ → List (Item × Engine σ) → Engine σ → Prop
  | done {s s' : Stream} {e e' : Engine σ} (h : s.advance.run e = ((.done, s'), e')) :
    Runs s e [] e'
  | skip {s s' : Stream} {e e' e'' : Engine σ} {trace : List (Item × Engine σ)}
    (h : s.advance.run e = ((.skip, s'), e')) (rest : Runs s' e' trace e'') : Runs s e trace e''
  | item {s s' : Stream} {e e' e'' : Engine σ} {i : Item} {trace : List (Item × Engine σ)}
    (h : s.advance.run e = ((.item i, s'), e')) (rest : Runs s' e' trace e'') :
    Runs s e ((i, e') :: trace) e''

/-- What a fold makes of the items of a run, and where an error stops it. -/
def foldTrace (f : β → Item → Except Error β) :
    β → List (Item × Engine σ) → Engine σ → Except Error (Option β) × Engine σ
  | b, [], e => (.ok (some b), e)
  | b, (i, e') :: trace, e =>
    match f b i with
    | .ok b => foldTrace f b trace e
    | .error err => (.error err, e')

theorem fold?_item {s s' : Stream} {e e' : Engine σ} {i : Item}
    (h : s.advance.run e = ((.item i, s'), e')) (f : β → Item → Except Error β) (budget : Nat)
    (b : β) :
    (fold? f (budget + 1) b s).run.run e =
      match f b i with
      | .ok b => (fold? f budget b s').run.run e'
      | .error err => (.error err, e') := by
  rw [fold?, Attempt.lift_bind, h]
  dsimp only
  cases f b i <;> rfl

theorem fold?_skip {s s' : Stream} {e e' : Engine σ} (h : s.advance.run e = ((.skip, s'), e'))
    (f : β → Item → Except Error β) (budget : Nat) (b : β) :
    (fold? f (budget + 1) b s).run.run e = (fold? f budget b s').run.run e' := by
  rw [fold?, Attempt.lift_bind, h]

theorem fold?_done {s s' : Stream} {e e' : Engine σ} (h : s.advance.run e = ((.done, s'), e'))
    (f : β → Item → Except Error β) (budget : Nat) (b : β) :
    (fold? f (budget + 1) b s).run.run e = (.ok (some b), e') := by
  rw [fold?, Attempt.lift_bind, h]
  rfl

/-- With enough budget, a fold goes through the items of a run. -/
theorem Runs.fold?_run {s : Stream} {e e' : Engine σ} {trace : List (Item × Engine σ)}
    (h : s.Runs e trace e') :
    ∃ n, ∀ budget, n ≤ budget → ∀ {β : Type} (f : β → Item → Except Error β) (b : β),
      (fold? f budget b s).run.run e = foldTrace f b trace e' := by
  induction h with
  | done h =>
    refine ⟨1, fun budget hbudget β f b => ?_⟩
    obtain ⟨budget, rfl⟩ : ∃ k, budget = k + 1 := ⟨budget - 1, by omega⟩
    exact fold?_done h f budget b
  | skip h _ ih =>
    obtain ⟨n, hn⟩ := ih
    refine ⟨n + 1, fun budget hbudget β f b => ?_⟩
    obtain ⟨budget, rfl⟩ : ∃ k, budget = k + 1 := ⟨budget - 1, by omega⟩
    rw [fold?_skip h]
    exact hn budget (by omega) f b
  | @item s s' e e' e'' i trace h _ ih =>
    obtain ⟨n, hn⟩ := ih
    refine ⟨n + 1, fun budget hbudget β f b => ?_⟩
    obtain ⟨budget, rfl⟩ : ∃ k, budget = k + 1 := ⟨budget - 1, by omega⟩
    rw [fold?_item h, foldTrace]
    cases f b i with
    | ok b => exact hn budget (by omega) f b
    | error err => rfl

omit [Backend σ] in
theorem foldTrace_collect (trace : List (Item × Engine σ)) (found : List Item) (e : Engine σ) :
    foldTrace (fun found i => .ok (i :: found)) found trace e =
      (.ok (some ((trace.map (·.1)).reverse ++ found)), e) := by
  induction trace generalizing found with
  | nil => rfl
  | cons p trace ih =>
    rw [foldTrace]
    dsimp only
    rw [ih]
    simp

/-- With enough budget, all items of a run are collected. -/
theorem Runs.items?_run {s : Stream} {e e' : Engine σ} {trace : List (Item × Engine σ)}
    (h : s.Runs e trace e') :
    ∃ n, ∀ budget, n ≤ budget →
      (s.items? budget).run.run e = (.ok (some (trace.map (·.1))), e') := by
  obtain ⟨n, hn⟩ := h.fold?_run
  refine ⟨n, fun budget hbudget => ?_⟩
  have hfold := (hn budget hbudget (fun found i => .ok (i :: found)) []).trans
    (foldTrace_collect trace [] e')
  rw [items?, Attempt.bind_ok hfold, List.append_nil]
  exact congrArg (fun l => (Except.ok (some l), e')) (List.reverse_reverse _)

end Stream

/-! ## Stages -/

/-- What a filter makes of an item: an item, nothing, or a failure in its place. -/
def Item.ofOutcome : Except Error (Option Traverser) → List Item
  | .ok found => found.toList.map .ok
  | .error err => [.error err]

/-- The same as an event. -/
def Event.ofOutcome : Except Error (Option Traverser) → Event
  | .ok (some t) => .item (.ok t)
  | .ok none => .skip
  | .error err => .item (.error err)

/-- What a stage leaves behind after a piece of work: itself over its source, or a stream that
needs no source. -/
inductive Leaves where
  | stage (stage : Stage)
  | stream (stream : Stream)

/-- The stream that is left, where the source may be needed. -/
def Leaves.over : Leaves → Stream → Stream
  | .stage st, source => .through st source
  | .stream s, _ => s

namespace Stage

/-- The work a stage has of its own, before it asks its source. -/
def work? : Stage → Option (Run σ (Event × Leaves))
  | .expand expander (some current) => some do
    let (event, current) ← current.advance
    match event with
    | .done => return (.skip, .stage (.expand expander none))
    | event => return (event, .stage (.expand expander (some current)))
  | .limit 0 => some (return (.done, .stream .empty))
  | _ => none

/-- What a stage that waits for its source does with what comes. -/
def react : Stage → Event → Run σ (Event × Leaves)
  | .expand expander _, .item (.ok t) => do
    return (.skip, .stage (.expand expander (some (← expander.expand t))))
  | .filter f, .item (.ok t) => do
    match ← Engine.outcome (f.apply t) with
    | .ok (some t) => return (.item (.ok t), .stage (.filter f))
    | .ok none => return (.skip, .stage (.filter f))
    | .error e => return (.item (.error e), .stage (.filter f))
  | .limit left, .item item => return (.item item, .stage (.limit (left - 1)))
  | .sink s, .item (.ok t) => do
    match ← Engine.outcome (s.absorb t) with
    | .ok s => return (.skip, .stage (.sink s))
    | .error e => return (.item (.error e), .stream .empty)
  | .sink _, .item (.error e) => return (.item (.error e), .stream .empty)
  | .sink s, .done => return (.skip, .stream (.given s.finish))
  | _, .done => return (.done, .stream .empty)
  | stage, event => return (event, .stage stage)

/-- A stage that waits for its source passes on that nothing came yet. -/
theorem react_skip (stage : Stage) (e : Engine σ) :
    (stage.react .skip).run e = ((.skip, .stage stage), e) := by
  cases stage <;> rfl

/-- A filter passes on what it makes of an item. -/
theorem react_filter {f : Filter} {t : Traverser} {found : Except Error (Option Traverser)}
    {e e' : Engine σ} (h : (f.apply t).run.run e = (found, e')) :
    ((Stage.filter f).react (.item (.ok t))).run e = ((.ofOutcome found, .stage (.filter f)), e') := by
  simp only [react, Run.bind_run, Engine.outcome, h]
  rcases found with err | _ | t <;> rfl

end Stage

namespace Stream

variable {e e' : Engine σ}

theorem advance_work {stage : Stage} {work : Run σ (Event × Leaves)}
    (h : stage.work? = some work) (source : Stream) :
    (Stream.through stage source).advance.run e =
      (((work.run e).1.1, (work.run e).1.2.over source), (work.run e).2) := by
  cases stage with
  | expand expander current =>
    cases current with
    | none => cases h
    | some current =>
      cases h
      simp only [advance, Run.bind_run]
      generalize current.advance.run e = r
      obtain ⟨⟨event, current⟩, e'⟩ := r
      dsimp only
      cases event <;> rfl
  | limit left =>
    cases left with
    | zero =>
      cases h
      rfl
    | succ left => cases h
  | filter => cases h
  | sink => cases h

theorem advance_react {stage : Stage} (h : (stage.work? : Option (Run σ _)) = none)
    {source source' : Stream} {event : Event} (hs : source.advance.run e = ((event, source'), e')) :
    (Stream.through stage source).advance.run e =
      ((((stage.react event).run e').1.1, ((stage.react event).run e').1.2.over source'),
        ((stage.react event).run e').2) := by
  cases stage with
  | expand expander current =>
    cases current with
    | some current => cases h
    | none =>
      simp only [advance, Run.bind_run, hs]
      cases event with
      | item item => cases item <;> rfl
      | skip => rfl
      | done => rfl
  | limit left =>
    cases left with
    | zero => cases h
    | succ left =>
      simp only [advance, Run.bind_run, hs]
      cases event <;> rfl
  | filter filter =>
    simp only [advance, Run.bind_run, hs]
    cases event with
    | item item =>
      cases item with
      | error err => rfl
      | ok t =>
        simp only [Stage.react, Run.bind_run]
        generalize (Engine.outcome (filter.apply t)).run e' = r
        obtain ⟨outcome, e''⟩ := r
        rcases outcome with err | (_ | t) <;> rfl
    | skip => rfl
    | done => rfl
  | sink sink =>
    simp only [advance, Run.bind_run, hs]
    cases event with
    | item item =>
      cases item with
      | error err => rfl
      | ok t =>
        simp only [Stage.react, Run.bind_run]
        generalize (Engine.outcome (sink.absorb t)).run e' = r
        obtain ⟨outcome, e''⟩ := r
        cases outcome <;> rfl
    | skip => rfl
    | done => rfl

theorem advance_skipped {stage : Stage} (h : (stage.work? : Option (Run σ _)) = none)
    {source source' : Stream} (hs : source.advance.run e = ((.skip, source'), e')) :
    (Stream.through stage source).advance.run e = ((.skip, .through stage source'), e') := by
  rw [advance_react h hs, Stage.react_skip]
  rfl

/-! ## Streams that only read -/

/-- A stream brings these items and changes nothing. -/
inductive Brings (e : Engine σ) : Stream → List Item → Prop
  | done {s s' : Stream} (h : s.advance.run e = ((.done, s'), e)) : Brings e s []
  | skip {s s' : Stream} {items : List Item} (h : s.advance.run e = ((.skip, s'), e))
    (rest : Brings e s' items) : Brings e s items
  | item {s s' : Stream} {i : Item} {items : List Item}
    (h : s.advance.run e = ((.item i, s'), e)) (rest : Brings e s' items) : Brings e s (i :: items)

theorem Brings.runs {s : Stream} {items : List Item} (h : s.Brings e items) :
    s.Runs e (items.map (·, e)) e := by
  induction h with
  | done h => exact .done h
  | skip h _ ih => exact .skip h ih
  | item h _ ih => exact .item h ih

theorem brings_given (items : List Item) (e : Engine σ) : (Stream.given items).Brings e items := by
  induction items with
  | nil => exact .done rfl
  | cons i items ih => exact .item rfl ih

end Stream

/-- An expansion brings these items and changes nothing. -/
inductive Expansion.Brings (e : Engine σ) : Expansion → List Item → Prop
  | items (l : List Item) : Brings e (.items l) l
  | task {t : Task} {x : Expansion} {l : List Item} (h : t.begin.run.run e = (.ok x, e))
    (rest : Brings e x l) : Brings e (.task t) l
  | failed {t : Task} {err : Error} (h : t.begin.run.run e = (.error err, e)) :
    Brings e (.task t) [.error err]

/-- Beginning a task leaves what it leads to. -/
theorem Expansion.advance_task {t : Task} {x : Expansion} {e e' : Engine σ}
    (h : t.begin.run.run e = (.ok x, e')) : (Expansion.task t).advance.run e = ((.skip, x), e') := by
  simp only [advance, Run.bind_run, Engine.outcome, h]
  rfl

/-- A task that fails brings its failure. -/
theorem Expansion.advance_failed {t : Task} {err : Error} {e e' : Engine σ}
    (h : t.begin.run.run e = (.error err, e')) :
    (Expansion.task t).advance.run e = ((.item (.error err), .items []), e') := by
  simp only [advance, Run.bind_run, Engine.outcome, h]
  rfl

namespace Stream

variable {e : Engine σ} {expander : Expander} {source : Stream}

theorem advance_task {t : Task} {x : Expansion} {e' : Engine σ} (h : t.begin.run.run e = (.ok x, e')) :
    (Stream.through (.expand expander (some (.task t))) source).advance.run e =
      ((.skip, .through (.expand expander (some x)) source), e') := by
  rw [advance_work rfl, Run.bind_run, Expansion.advance_task h]
  rfl

theorem advance_failed {t : Task} {err : Error} {e' : Engine σ}
    (h : t.begin.run.run e = (.error err, e')) :
    (Stream.through (.expand expander (some (.task t))) source).advance.run e =
      ((.item (.error err), .through (.expand expander (some (.items []))) source), e') := by
  rw [advance_work rfl, Run.bind_run, Expansion.advance_failed h]
  rfl

/-- The expansion under way comes first. -/
theorem Brings.current {x : Expansion} {l items : List Item} (hx : x.Brings e l)
    (hrest : (Stream.through (.expand expander none) source).Brings e items) :
    (Stream.through (.expand expander (some x)) source).Brings e (l ++ items) := by
  induction hx with
  | items l =>
    induction l with
    | nil => exact .skip rfl hrest
    | cons i l ih => exact .item rfl ih
  | task h _ ih => exact .skip (advance_task h) ih
  | failed h => exact .item (advance_failed h) (.skip rfl hrest)

/-- The same of a run. -/
theorem Runs.current {x : Expansion} {e' : Engine σ} {l : List Item} {trace : List (Item × Engine σ)}
    (hx : x.Brings e l)
    (hrest : (Stream.through (.expand expander none) source).Runs e trace e') :
    (Stream.through (.expand expander (some x)) source).Runs e (l.map (·, e) ++ trace) e' := by
  induction hx with
  | items l =>
    induction l with
    | nil => exact .skip rfl hrest
    | cons i l ih => exact .item rfl ih
  | task h _ ih => exact .skip (advance_task h) ih
  | failed h => exact .item (advance_failed h) (.skip rfl hrest)

/-- A count takes in all items, and brings their number. -/
theorem Runs.counted {s : Stream} {e e' : Engine σ} {trace : List (Item × Engine σ)}
    (h : s.Runs e trace e') {l : List Traverser} (hl : trace.map (·.1) = l.map .ok) (total : Nat) :
    (Stream.through (.sink (.count total)) s).Runs e
      [(.ok (.value (.nat (total + l.length))), e')] e' := by
  induction h generalizing l total with
  | done h =>
    obtain rfl : l = [] := by simpa [eq_comm] using hl
    exact .skip (by rw [advance_react rfl h]; rfl) (.item rfl (.done rfl))
  | skip h _ ih => exact .skip (advance_skipped rfl h) (ih hl total)
  | @item s s' e e' e'' i trace h _ ih =>
    cases l with
    | nil => cases hl
    | cons t l =>
      obtain ⟨rfl, hrest⟩ := List.cons.inj hl
      have hcounted := ih hrest (total + 1)
      rw [List.length_cons, ← Nat.add_assoc, Nat.add_right_comm]
      exact .skip (by rw [advance_react rfl h]; rfl) hcounted

/-- Putting expansions in the places of items, where nothing is changed. -/
theorem Brings.expand {l : List Traverser} (hs : source.Brings e (l.map .ok))
    {f : Traverser → List Item}
    (hx : ∀ t ∈ l, ∃ x : Expansion, (expander.expand t).run e = (x, e) ∧ x.Brings e (f t)) :
    (Stream.through (.expand expander none) source).Brings e (l.flatMap f) := by
  generalize hitems : l.map Except.ok = items at hs
  induction hs generalizing l with
  | done h =>
    obtain rfl : l = [] := by simpa using hitems
    exact .done (by rw [advance_react rfl h]; rfl)
  | skip h _ ih => exact .skip (by rw [advance_react rfl h]; rfl) (ih hx hitems)
  | @item s s' i items h _ ih =>
    cases l with
    | nil => cases hitems
    | cons t l =>
      obtain ⟨rfl, hrest⟩ := List.cons.inj hitems
      obtain ⟨x, hexpand, hbrings⟩ := hx t (by simp)
      have hreact : (Stream.through (.expand expander none) s).advance.run e =
          ((.skip, .through (.expand expander (some x)) s'), e) := by
        rw [advance_react rfl h]
        simp only [Stage.react, Run.bind_run, hexpand]
        rfl
      exact .skip hreact
        (.current hbrings (ih (fun u hu => hx u (List.mem_cons_of_mem _ hu)) hrest))

/-- Behind a filter comes what it makes of each item, where nothing is changed. -/
theorem Brings.apply {l : List Traverser} (hs : source.Brings e (l.map .ok)) {f : Filter}
    {found : Traverser → Except Error (Option Traverser)}
    (hf : ∀ t ∈ l, (f.apply t).run.run e = (found t, e)) :
    (Stream.through (.filter f) source).Brings e (l.flatMap fun t => Item.ofOutcome (found t)) := by
  generalize hitems : l.map Except.ok = items at hs
  induction hs generalizing l with
  | done h =>
    obtain rfl : l = [] := by simpa using hitems
    exact .done (by rw [advance_react rfl h]; rfl)
  | skip h _ ih => exact .skip (by rw [advance_react rfl h]; rfl) (ih hf hitems)
  | @item s s' i items h _ ih =>
    cases l with
    | nil => cases hitems
    | cons t l =>
      obtain ⟨rfl, hrest⟩ := List.cons.inj hitems
      have hadvance : (Stream.through (.filter f) s).advance.run e =
          ((.ofOutcome (found t), .through (.filter f) s'), e) := by
        rw [advance_react rfl h, Stage.react_filter (hf t List.mem_cons_self)]
        rfl
      have hlater := ih (fun u hu => hf u (List.mem_cons_of_mem _ hu)) hrest
      rw [List.flatMap_cons]
      cases hfound : found t with
      | error err =>
        rw [hfound] at hadvance
        exact .item hadvance hlater
      | ok kept =>
        rw [hfound] at hadvance
        cases kept with
        | none => exact .skip hadvance hlater
        | some u => exact .item hadvance hlater

/-- The same where the filter does not fail. -/
theorem Brings.filterMap {l : List Traverser} (hs : source.Brings e (l.map .ok)) {f : Filter}
    {p : Traverser → Option Traverser}
    (hf : ∀ t ∈ l, (f.apply t).run.run e = (.ok (p t), e)) :
    (Stream.through (.filter f) source).Brings e ((l.filterMap p).map .ok) := by
  have hbrings := hs.apply hf
  have hitems : (l.flatMap fun t => Item.ofOutcome (.ok (p t))) = (l.filterMap p).map .ok := by
    rw [List.filterMap_eq_flatMap_toList, List.map_flatMap]
    rfl
  rwa [hitems] at hbrings

end Stream

end PropertyGraph
