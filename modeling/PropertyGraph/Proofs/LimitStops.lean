/-
A limit stops what stands before it. Over a store that writes down the calls it passes on, a
query is watched at the stream in front of its limit: every piece of work on that stream is
listed with what it brought and the calls it made (`Stream.watch`), and watching changes nothing
(`Stream.items?_watched`). However the stages behind the limit work, the stream in front of it is
not asked again once its last item or its end has come (`Stream.Limited.fits`). With no stage
behind, the limit does what pulling so many items does (`Stream.items?_limit_iff`).
-/
import PropertyGraph.Proofs.Planning
import PropertyGraph.Proofs.StreamRun

namespace PropertyGraph

/-! ## Calls written down -/

/-- A call on a store, with what it is given. -/
inductive Request where
  | get (key : String)
  | put (key : String) (value : Blob)
  | update (key : String) (value : Blob)
  | create (key : String) (value : Blob)
  | delete (key : String)
  | keys (patterns : List String)
  /-- One piece of work on an open stream of keys. -/
  | advance (stream : KeyStream)

/-- A store with the calls that were made on it, the oldest first. -/
structure Traced (σ : Type) where
  store : σ
  requests : List Request

namespace Traced

variable {σ α : Type}

/-- Makes a call on the store itself and writes it down. -/
def passing (request : Request) (call : StateM σ α) : StateM (Traced σ) α := fun t =>
  let (a, store) := call t.store
  (a, ⟨store, t.requests ++ [request]⟩)

instance [Backend σ] : Backend (Traced σ) where
  get key := ExceptT.mk (passing (.get key) (Backend.get key).run)
  put key value := ExceptT.mk (passing (.put key value) (Backend.put key value).run)
  update key value := ExceptT.mk (passing (.update key value) (Backend.update key value).run)
  create key value := ExceptT.mk (passing (.create key value) (Backend.create key value).run)
  delete key := ExceptT.mk (passing (.delete key) (Backend.delete key).run)
  keys patterns := ExceptT.mk (passing (.keys patterns) (Backend.keys patterns).run)
  advance stream := passing (.advance stream) (Backend.advance stream)
  size t := Backend.size t.store

end Traced

variable {σ : Type} [Backend σ]

/-! ## Watching a stream in front of others -/

/-- A piece of work: what it brought, and the calls it made. -/
structure Work where
  event : Event
  requests : List Request

/-- Whether a pull is over with it: an item came, or the end. -/
def Work.answers (w : Work) : Bool :=
  match w.event with
  | .skip => false
  | .item _ | .done => true

namespace Stream

/-- Works on a stream and lists the work this makes for the stream so many stages down. -/
def watch : (depth : Nat) → Stream → Run (Traced σ) ((Event × Stream) × List Work)
  | 0, s => do
    let before ← get
    let (event, rest) ← s.advance
    let after ← get
    return ((event, rest), [⟨event, after.store.requests.drop before.store.requests.length⟩])
  | depth + 1, .through stage source =>
    match (stage.work? : Option (Run (Traced σ) (Event × Leaves))) with
    | some work => do
      let (event, left) ← work
      return ((event, left.over source), [])
    | none => do
      let ((event, source), works) ← watch depth source
      let (event, left) ← stage.react event
      return ((event, left.over source), works)
  | _ + 1, s => return (← s.advance, [])

/-- All items, with the work this makes for the stream so many stages down. -/
def watchItems (depth : Nat) : (budget : Nat) → Stream →
    Run (Traced σ) (Option (List Item) × List Work)
  | 0, _ => return (none, [])
  | budget + 1, s => do
    let ((event, rest), works) ← s.watch depth
    match event with
    | .item item =>
      let (items, more) ← watchItems depth budget rest
      return (items.map (item :: ·), works ++ more)
    | .skip =>
      let (items, more) ← watchItems depth budget rest
      return (items, works ++ more)
    | .done => return (some [], works)

/-- Watching does not change what a piece of work does. -/
theorem watch_run (depth : Nat) (s : Stream) (e : Engine (Traced σ)) :
    ((s.watch depth).run e).1.1 = (s.advance.run e).1 ∧
      ((s.watch depth).run e).2 = (s.advance.run e).2 := by
  induction depth generalizing s with
  | zero => exact ⟨rfl, rfl⟩
  | succ depth ih =>
    cases s with
    | given items => exact ⟨rfl, rfl⟩
    | through stage source =>
      rw [watch]
      cases hwork : (stage.work? : Option (Run (Traced σ) _)) with
      | some work =>
        rw [advance_work hwork]
        exact ⟨rfl, rfl⟩
      | none =>
        obtain ⟨hevent, hstate⟩ := ih source
        rw [advance_react hwork (Prod.ext hevent hstate).symm]
        exact ⟨rfl, rfl⟩

/-- Nor what all items are. -/
theorem items?_watched (depth budget : Nat) (s : Stream) (e : Engine (Traced σ)) :
    (s.items? budget).run.run e =
      (.ok ((s.watchItems depth budget).run e).1.1, ((s.watchItems depth budget).run e).2) := by
  have hfold : ∀ found : List Item,
      (s.fold? (fun found item => .ok (item :: found)) budget found).run.run e =
        (.ok (((s.watchItems depth budget).run e).1.1.map (·.reverse ++ found)),
          ((s.watchItems depth budget).run e).2) := by
    induction budget generalizing s e with
    | zero => exact fun _ => rfl
    | succ budget ih =>
      intro found
      obtain ⟨hevent, hstate⟩ := s.watch_run depth e
      rw [watchItems, Run.bind_run]
      generalize (s.watch depth).run e = r at hevent hstate
      obtain ⟨⟨⟨event, rest⟩, works⟩, e'⟩ := r
      have hs : s.advance.run e = ((event, rest), e') := Prod.ext hevent.symm hstate.symm
      cases event with
      | item item =>
        rw [fold?_item hs]
        dsimp only
        rw [ih rest e' (item :: found)]
        simp only [Run.bind_run]
        generalize (watchItems depth budget rest).run e' = r
        obtain ⟨⟨_ | items, works⟩, e''⟩ := r
        · rfl
        · simp [pure, StateT.pure, StateT.run]
      | skip =>
        rw [fold?_skip hs]
        exact ih rest e' found
      | done =>
        rw [fold?_done hs]
        rfl
  rw [items?, Attempt.bind_ok (hfold [])]
  generalize ((s.watchItems depth budget).run e) = r
  obtain ⟨⟨_ | items, works⟩, e'⟩ := r
  · rfl
  · simp [pure, ExceptT.pure, StateT.pure, StateT.run, ExceptT.run, ExceptT.mk]

end Stream

/-! ## What a limit asks for -/

/-- So many items may still be asked for after a piece of work: one less after an item, none
after the end. -/
def Work.leaves (left : Nat) (w : Work) : Nat :=
  match w.event with
  | .item _ => left - 1
  | .skip => left
  | .done => 0

/-- No work is done where nothing may be asked for any more. -/
def Work.Fits : Nat → List Work → Prop
  | _, [] => True
  | left, w :: works => 0 < left ∧ Work.Fits (w.leaves left) works

namespace Work

variable {left : Nat}

theorem fits_append {before works : List Work} :
    Fits left (before ++ works) ↔ Fits left before ∧ Fits (before.foldl leaves left) works := by
  induction before generalizing left with
  | nil => simp [Fits]
  | cons w before ih => simp [Fits, ih, and_assoc]

/-- What was asked for in front of some work, and what was not. -/
theorem Fits.before {before after : List Work} {w : Work} (h : Fits left (before ++ w :: after)) :
    before.countP answers < left ∧ ∀ v ∈ before, v.event ≠ .done := by
  induction before generalizing left with
  | nil => exact ⟨h.1, by simp⟩
  | cons v before ih =>
    obtain ⟨hleft, h⟩ := h
    obtain ⟨hcount, hdone⟩ := ih h
    rw [List.countP_cons, List.forall_mem_cons]
    cases hv : v.event with
    | item i =>
      simp only [leaves, hv] at hcount
      exact ⟨by simp [answers, hv]; omega, by simp, hdone⟩
    | skip =>
      simp only [leaves, hv] at hcount
      exact ⟨by simpa [answers, hv], by simp, hdone⟩
    | done =>
      simp only [leaves, hv] at hcount
      omega

theorem Fits.countP_le {works : List Work} (h : Fits left works) :
    works.countP answers ≤ left := by
  cases hworks : works.reverse with
  | nil => simp [List.reverse_eq_nil_iff.1 hworks]
  | cons w before =>
    obtain rfl : works = before.reverse ++ [w] := by
      rw [← List.reverse_cons, ← hworks, List.reverse_reverse]
    have hcount := h.before.1
    rw [List.countP_append, List.countP_singleton]
    split <;> omega

end Work

/-- What a stage leaves is a stage over its source again, or items at hand. -/
def Leaves.Plain : Leaves → Prop
  | .stage _ => True
  | .stream s => ∃ items, s = .given items

theorem Stage.work_plain {stage : Stage} {work : Run σ (Event × Leaves)}
    (h : stage.work? = some work) (e : Engine σ) : (work.run e).1.2.Plain := by
  cases stage with
  | expand expander current =>
    cases current with
    | none => cases h
    | some current =>
      cases h
      simp only [Run.bind_run]
      generalize current.advance.run e = r
      obtain ⟨⟨event, current⟩, e'⟩ := r
      cases event <;> trivial
  | limit left =>
    cases left with
    | zero =>
      cases h
      exact ⟨[], rfl⟩
    | succ left => cases h
  | filter => cases h
  | sink => cases h

theorem Stage.react_plain (stage : Stage) (event : Event) (e : Engine σ) :
    ((stage.react event).run e).1.2.Plain := by
  cases stage with
  | expand expander current =>
    rcases event with (_ | _) | _ | _
    · trivial
    · trivial
    · trivial
    · exact ⟨[], rfl⟩
  | limit left =>
    rcases event with (_ | _) | _ | _
    · trivial
    · trivial
    · trivial
    · exact ⟨[], rfl⟩
  | filter f =>
    rcases event with (_ | t) | _ | _
    · trivial
    · simp only [Stage.react, Run.bind_run]
      generalize (Engine.outcome (f.apply t)).run e = r
      obtain ⟨_ | _ | _, e'⟩ := r <;> trivial
    · trivial
    · exact ⟨[], rfl⟩
  | sink s =>
    rcases event with (_ | t) | _ | _
    · exact ⟨[], rfl⟩
    · simp only [Stage.react, Run.bind_run]
      generalize (Engine.outcome (s.absorb t)).run e = r
      obtain ⟨_ | _, e'⟩ := r
      · exact ⟨[], rfl⟩
      · trivial
    · trivial
    · exact ⟨s.finish, rfl⟩

namespace Stream

/-- Some stages over a limit that lets so many items pass. -/
inductive Limited (left : Nat) : (depth : Nat) → Stream → Prop
  | limit (source : Stream) : Limited left 1 (.through (.limit left) source)
  | through (stage : Stage) {depth : Nat} {source : Stream} (h : Limited left depth source) :
    Limited left (depth + 1) (.through stage source)
  | given (depth : Nat) (items : List Item) : Limited left (depth + 1) (.given items)

theorem Limited.over {left depth : Nat} {source : Stream} (h : Limited left depth source)
    {leaves : Leaves} (hleaves : leaves.Plain) : Limited left (depth + 1) (leaves.over source) := by
  cases leaves with
  | stage stage => exact .through stage h
  | stream s =>
    obtain ⟨items, rfl⟩ := hleaves
    exact .given depth items

/-- A piece of work on stages over a limit works on the stream in front of it only where the
limit lets an item pass, and leaves the limit with what comes from there counted. -/
theorem Limited.watch {left depth : Nat} {s : Stream} (h : Limited left depth s)
    (e : Engine (Traced σ)) :
    Work.Fits left ((s.watch depth).run e).1.2 ∧
      Limited (((s.watch depth).run e).1.2.foldl Work.leaves left) depth
        ((s.watch depth).run e).1.1.2 := by
  induction h generalizing e with
  | limit source =>
    cases left with
    | zero => exact ⟨trivial, .given 0 []⟩
    | succ left =>
      simp only [Stream.watch, Stage.work?, Run.bind_run]
      generalize (source.advance : Run (Traced σ) _).run _ = r
      obtain ⟨⟨event, source'⟩, e'⟩ := r
      cases event with
      | item => exact ⟨⟨Nat.succ_pos left, trivial⟩, .limit source'⟩
      | skip => exact ⟨⟨Nat.succ_pos left, trivial⟩, .limit source'⟩
      | done => exact ⟨⟨Nat.succ_pos left, trivial⟩, .given 0 []⟩
  | @through stage depth source h ih =>
    rw [Stream.watch]
    cases hwork : (stage.work? : Option (Run (Traced σ) _)) with
    | some work => exact ⟨trivial, h.over (Stage.work_plain hwork e)⟩
    | none =>
      obtain ⟨hfits, hlimited⟩ := ih e
      exact ⟨hfits, hlimited.over (Stage.react_plain stage _ _)⟩
  | given depth items => exact ⟨trivial, by cases items <;> exact .given depth _⟩

/-- In a whole run, nothing is done in front of a limit once its last item or the end has come
from there. -/
theorem Limited.fits {left depth : Nat} {s : Stream} (h : Limited left depth s) (budget : Nat)
    (e : Engine (Traced σ)) : Work.Fits left ((s.watchItems depth budget : Run (Traced σ) _).run e).1.2 := by
  induction budget generalizing left s e with
  | zero => trivial
  | succ budget ih =>
    obtain ⟨hfits, hlimited⟩ := h.watch e
    rw [watchItems, Run.bind_run]
    generalize (s.watch depth).run e = r at hfits hlimited
    obtain ⟨⟨⟨event, rest⟩, works⟩, e'⟩ := r
    cases event with
    | item => exact Work.fits_append.2 ⟨hfits, ih hlimited e'⟩
    | skip => exact Work.fits_append.2 ⟨hfits, ih hlimited e'⟩
    | done => exact hfits

theorem Limited.ofSteps {left depth : Nat} {s : Stream} (h : Limited left depth s)
    (steps : List Step) : Limited left (depth + steps.length) (s.ofSteps steps) := by
  induction steps generalizing s depth with
  | nil => exact h
  | cons step steps ih =>
    rw [List.length_cons, ← Nat.add_assoc, Nat.add_right_comm]
    exact ih (h.through step.stage)

/-! ## A limit with nothing behind -/

/-- A stream is pulled until so many items or its end have come. -/
inductive Yields : Nat → Stream → Engine σ → List Item → Engine σ → Prop
  | enough (s : Stream) (e : Engine σ) : Yields 0 s e [] e
  | item {n : Nat} {s s' : Stream} {e e' e'' : Engine σ} {i : Item} {items : List Item}
    (h : s.advance.run e = ((.item i, s'), e')) (rest : Yields n s' e' items e'') :
    Yields (n + 1) s e (i :: items) e''
  | skip {n : Nat} {s s' : Stream} {e e' e'' : Engine σ} {items : List Item}
    (h : s.advance.run e = ((.skip, s'), e')) (rest : Yields (n + 1) s' e' items e'') :
    Yields (n + 1) s e items e''
  | done {n : Nat} {s s' : Stream} {e e' : Engine σ}
    (h : s.advance.run e = ((.done, s'), e')) : Yields (n + 1) s e [] e'

/-- All items of a stream, and the state at its end, where the budget is large enough. -/
def Collects (s : Stream) (e : Engine σ) (items : List Item) (e' : Engine σ) : Prop :=
  ∃ least, ∀ budget, least ≤ budget → (s.items? budget).run.run e = (.ok (some items), e')

/-- The items of so many pulls, or of fewer that come to the end of the stream, and the state
after them, where the budget is large enough. -/
def Takes (n : Nat) (s : Stream) (e : Engine σ) (items : List Item) (e' : Engine σ) : Prop :=
  ∃ least, ∀ budget, least ≤ budget → ∃ left, (s.take budget n).run e = ((items, left), e') ∧
    (left = none ∨ items.length = n)

section Yields

variable {n : Nat} {s rest : Stream} {e e' e'' : Engine σ} {i : Item} {items : List Item}

theorem Yields.pull (h : Yields (n + 1) s e items e') :
    (∃ i rest e₁ items', items = i :: items' ∧ Yields n rest e₁ items' e' ∧
      ∃ least, ∀ budget, least ≤ budget → (s.pull budget).run e = (.item i rest, e₁)) ∨
    (items = [] ∧ ∃ least, ∀ budget, least ≤ budget → (s.pull budget).run e = (.ended, e')) := by
  generalize hn : n + 1 = m at h
  induction h with
  | enough => cases hn
  | @item m s s' e e₁ e'' i items h rest _ =>
    cases hn
    refine .inl ⟨i, s', e₁, items, rfl, rest, 1, fun budget hbudget => ?_⟩
    obtain ⟨budget, rfl⟩ : ∃ k, budget = k + 1 := ⟨budget - 1, by omega⟩
    rw [Stream.pull, Run.bind_run, h]
    rfl
  | @skip m s s' e e₁ e'' items h _ ih =>
    have hskip : ∀ budget, (s.pull (budget + 1)).run e = (s'.pull budget).run e₁ := by
      intro budget
      rw [Stream.pull, Run.bind_run, h]
    rcases ih hn with ⟨i, rest, e₂, items', rfl, hrest, least, hpull⟩ | ⟨rfl, least, hpull⟩
    · refine .inl ⟨i, rest, e₂, items', rfl, hrest, least + 1, fun budget hbudget => ?_⟩
      obtain ⟨budget, rfl⟩ : ∃ k, budget = k + 1 := ⟨budget - 1, by omega⟩
      rw [hskip, hpull budget (by omega)]
    · refine .inr ⟨rfl, least + 1, fun budget hbudget => ?_⟩
      obtain ⟨budget, rfl⟩ : ∃ k, budget = k + 1 := ⟨budget - 1, by omega⟩
      rw [hskip, hpull budget (by omega)]
  | @done m s s' e e₁ h =>
    refine .inr ⟨rfl, 1, fun budget hbudget => ?_⟩
    obtain ⟨budget, rfl⟩ : ∃ k, budget = k + 1 := ⟨budget - 1, by omega⟩
    rw [Stream.pull, Run.bind_run, h]
    rfl

theorem Yields.takes (h : Yields n s e items e') : Takes n s e items e' := by
  induction n generalizing s e items with
  | zero =>
    cases h
    exact ⟨0, fun budget _ => ⟨some s, rfl, .inr rfl⟩⟩
  | succ n ih =>
    rcases h.pull with ⟨i, rest, e₁, items', rfl, hrest, least, hpull⟩ | ⟨rfl, least, hpull⟩
    · obtain ⟨least', htake⟩ := ih hrest
      refine ⟨max least least', fun budget hbudget => ?_⟩
      obtain ⟨left, hrun, hleft⟩ := htake budget (by omega)
      refine ⟨left, ?_, hleft.imp_right (congrArg Nat.succ)⟩
      rw [take, Run.bind_run, hpull budget (by omega)]
      dsimp only
      rw [Run.bind_run, hrun]
      rfl
    · refine ⟨least, fun budget hbudget => ⟨none, ?_, .inl rfl⟩⟩
      rw [take, Run.bind_run, hpull budget hbudget]
      rfl

theorem yields_of_pull_item {budget : Nat} (h : (s.pull budget).run e = (.item i rest, e'))
    (hrest : Yields n rest e' items e'') : Yields (n + 1) s e (i :: items) e'' := by
  induction budget generalizing s e with
  | zero => cases h
  | succ budget ih =>
    rw [Stream.pull, Run.bind_run] at h
    cases hs : s.advance.run e with
    | mk r e₁ =>
      obtain ⟨event, s'⟩ := r
      rw [hs] at h
      cases event with
      | item =>
        cases h
        exact .item hs hrest
      | skip => exact .skip hs (ih h)
      | done => cases h

theorem yields_of_pull_ended {budget : Nat} (h : (s.pull budget).run e = (.ended, e')) :
    Yields (n + 1) s e [] e' := by
  induction budget generalizing s e with
  | zero => cases h
  | succ budget ih =>
    rw [Stream.pull, Run.bind_run] at h
    cases hs : s.advance.run e with
    | mk r e₁ =>
      obtain ⟨event, s'⟩ := r
      rw [hs] at h
      cases event with
      | item => cases h
      | skip => exact .skip hs (ih h)
      | done =>
        cases h
        exact .done hs

theorem yields_of_take {budget : Nat} {left : Option Stream}
    (h : (s.take budget n).run e = ((items, left), e')) (hleft : left = none ∨ items.length = n) :
    Yields n s e items e' := by
  induction n generalizing s e items with
  | zero =>
    cases h
    exact .enough s _
  | succ n ih =>
    rw [take, Run.bind_run] at h
    cases hpull : (s.pull budget).run e with
    | mk pulled e₁ =>
      rw [hpull] at h
      cases pulled with
      | item i rest =>
        simp only [Run.bind_run] at h
        cases htake : (rest.take budget n).run e₁ with
        | mk r e₂ =>
          obtain ⟨items', left'⟩ := r
          rw [htake] at h
          cases h
          exact yields_of_pull_item hpull (ih htake (hleft.imp_right (by simp)))
      | ended =>
        cases h
        exact yields_of_pull_ended hpull
      | unfinished =>
        cases h
        rcases hleft with hleft | hleft <;> cases hleft

theorem takes_iff : Takes n s e items e' ↔ Yields n s e items e' := by
  refine ⟨fun ⟨least, h⟩ => ?_, Yields.takes⟩
  obtain ⟨left, hrun, hleft⟩ := h least le_rfl
  exact yields_of_take hrun hleft

theorem Yields.runs (h : Yields n s e items e') :
    ∃ trace, (Stream.through (.limit n) s).Runs e trace e' ∧ trace.map (·.1) = items := by
  induction h with
  | enough s e => exact ⟨[], .done rfl, rfl⟩
  | @item n s s' e e₁ e'' i items h _ ih =>
    obtain ⟨trace, hruns, rfl⟩ := ih
    exact ⟨(i, e₁) :: trace, .item (by rw [advance_react rfl h]; rfl) hruns, rfl⟩
  | skip h _ ih =>
    obtain ⟨trace, hruns, rfl⟩ := ih
    exact ⟨trace, .skip (by rw [advance_react rfl h]; rfl) hruns, rfl⟩
  | done h => exact ⟨[], .done (by rw [advance_react rfl h]; rfl), rfl⟩

theorem yields_of_fold? {budget : Nat} {found all : List Item}
    (h : ((Stream.through (.limit n) s).fold? (fun found item => .ok (item :: found)) budget
      found).run.run e = (.ok (some all), e')) :
    ∃ items, all = items.reverse ++ found ∧ Yields n s e items e' := by
  induction budget generalizing n s e found with
  | zero => cases h
  | succ budget ih =>
    cases n with
    | zero =>
      have hadvance : (Stream.through (.limit 0) s).advance.run e = ((.done, .empty), e) := rfl
      rw [fold?_done hadvance] at h
      cases h
      exact ⟨[], rfl, .enough s _⟩
    | succ n =>
      cases hs : s.advance.run e with
      | mk r e₁ =>
        obtain ⟨event, s'⟩ := r
        have hwork : ((Stage.limit (n + 1)).work? : Option (Run σ (Event × Leaves))) = none := rfl
        have hadvance := advance_react hwork hs
        cases event with
        | item i =>
          rw [fold?_item hadvance] at h
          obtain ⟨items, rfl, hrest⟩ := ih h
          exact ⟨i :: items, by simp, .item hs hrest⟩
        | skip =>
          rw [fold?_skip hadvance] at h
          obtain ⟨items, rfl, hrest⟩ := ih h
          exact ⟨items, rfl, .skip hs hrest⟩
        | done =>
          rw [fold?_done hadvance] at h
          cases h
          exact ⟨[], rfl, .done hs⟩

/-- A limit brings what so many pulls bring, and leaves the engine as they leave it. -/
theorem items?_limit_iff :
    (Stream.through (.limit n) s).Collects e items e' ↔ Takes n s e items e' := by
  rw [takes_iff]
  constructor
  · rintro ⟨least, h⟩
    have hrun := h least le_rfl
    rw [items?, Attempt.bind_run] at hrun
    cases hfold : ((Stream.through (.limit n) s).fold? (fun found item => .ok (item :: found)) least
      []).run.run e with
    | mk outcome e₁ =>
      rw [hfold] at hrun
      cases outcome with
      | error => cases hrun
      | ok all =>
        cases all with
        | none => cases hrun
        | some all =>
          cases hrun
          obtain ⟨items, rfl, hyields⟩ := yields_of_fold? hfold
          simpa using hyields
  · intro h
    obtain ⟨trace, hruns, rfl⟩ := h.runs
    exact hruns.items?_run

end Yields

end Stream

/-! ## Chains with a limit in them -/

namespace Chain

theorem resolveFrom_append {P Q : Chain} {state : ResultType} {steps : List PlannedStep}
    (h : resolveFrom state (P ++ Q) = .ok steps) :
    ∃ before after state', steps = before ++ after ∧ before.length = P.length ∧
      resolveFrom state P = .ok before ∧ resolveFrom state' Q = .ok after := by
  induction P generalizing state steps with
  | nil => exact ⟨[], steps, state, rfl, rfl, rfl, h⟩
  | cons call P ih =>
    obtain ⟨rule, hrule, h⟩ := bind_eq_ok.1 h
    obtain ⟨step, hstep, h⟩ := bind_eq_ok.1 h
    obtain ⟨others, hothers, h⟩ := bind_eq_ok.1 h
    cases h
    obtain ⟨before, after, state', rfl, hlength, hbefore, hafter⟩ := ih hothers
    refine ⟨_ :: before, after, state', rfl, congrArg Nat.succ hlength, ?_, hafter⟩
    rw [resolveFrom, hrule]
    simp only [Bind.bind, Except.bind, hstep, hbefore]
    rfl

theorem length_of_resolveFrom {chain : Chain} {state : ResultType} {steps : List PlannedStep}
    (h : resolveFrom state chain = .ok steps) : steps.length = chain.length := by
  obtain ⟨before, after, state', rfl, hlength, -, hafter⟩ :=
    resolveFrom_append (Q := []) (by rwa [List.append_nil])
  cases hafter
  rw [List.append_nil, hlength]

/-- The step of a limit. -/
theorem resolveFrom_limit {arguments : List Json} {Q : Chain} {state : ResultType}
    {steps : List PlannedStep} (h : resolveFrom state (⟨.limit, arguments⟩ :: Q) = .ok steps) :
    ∃ n planned rest, Arguments.limit .limit arguments[0]? = .ok n ∧ steps = planned :: rest ∧
      planned.step = .limit n ∧ rest.length = Q.length := by
  obtain ⟨rule, -, h⟩ := bind_eq_ok.1 h
  obtain ⟨step, hstep, h⟩ := bind_eq_ok.1 h
  obtain ⟨others, hothers, h⟩ := bind_eq_ok.1 h
  cases h
  obtain ⟨_, -, hstep⟩ := bind_eq_ok.1 hstep
  obtain ⟨n, hn, hstep⟩ := bind_eq_ok.1 hstep
  cases hstep
  exact ⟨n, _, others, hn, rfl, rfl, length_of_resolveFrom hothers⟩

end Chain

/-- Steps behind a limit do not matter to what the default optimizer makes of those before it. -/
theorem Optimizer.improve_default_limit (first : PlannedStep) {limit : PlannedStep} {others rest : List PlannedStep}
    {n : Nat} (hlimit : limit.step = .limit n)
    (hwalks : ∀ s ∈ others ++ limit :: rest, s.step.Walks) :
    ∃ steps, default.improve (.root :: first :: others) = (.root :: steps, []) ∧
      default.improve (.root :: (first :: others ++ limit :: rest)) =
        (.root :: (steps ++ limit :: rest), []) := by
  have hothers : ∀ s ∈ others, s.step.Walks := fun s hs => hwalks s (List.mem_append_left _ hs)
  cases others with
  | nil =>
    -- neither the first step alone nor one with a limit behind is replaced
    have halone : Rule.vertexLabelScan.1.replace ([first].take 2) = Option.none := by
      by_contra h
      obtain ⟨_, hreplace⟩ := Option.ne_none_iff_exists'.1 h
      obtain ⟨_, _, _, hsteps, -⟩ := Rule.replace_eq_some hreplace
      cases hsteps
    have hpair : Rule.vertexLabelScan.1.replace ((first :: limit :: rest).take 2) = Option.none := by
      by_contra h
      obtain ⟨_, hreplace⟩ := Option.ne_none_iff_exists'.1 h
      obtain ⟨_, _, _, hsteps, -, hsecond, -⟩ := Rule.replace_eq_some hreplace
      cases hsteps
      rw [hlimit] at hsecond
      cases hsecond
    exact ⟨[first], improve_default_of_none hothers halone, improve_default_of_none hwalks hpair⟩
  | cons second others =>
    cases hreplace : Rule.vertexLabelScan.1.replace ((first :: second :: others).take 2) with
    | none =>
      exact ⟨first :: second :: others, improve_default_of_none hothers hreplace,
        improve_default_of_none hwalks hreplace⟩
    | some replacement =>
      refine ⟨replacement ++ others, improve_default_of_some hothers hreplace, ?_⟩
      rw [List.append_assoc]
      exact improve_default_of_some hwalks hreplace

/-- The plan of a chain with a limit in it is that of the calls before the limit, the limit and
the steps behind it. -/
theorem Chain.plan_limit {c : Config} {P Q : Chain} {arguments : List Json} (hP : P ≠ [])
    {plan : Plan} {notices : List Notice}
    (h : c.optimizer.plan (P ++ ⟨.limit, arguments⟩ :: Q) = .ok (plan, notices)) :
    ∃ n steps planned rest, Arguments.limit .limit arguments[0]? = .ok n ∧
      planned.step = .limit n ∧ rest.length = Q.length ∧
      c.optimizer.plan P = .ok (⟨.root :: steps⟩, []) ∧
      c.optimizer.plan (P ++ ⟨.limit, arguments⟩ :: Q) =
        .ok (⟨.root :: (steps ++ planned :: rest)⟩, []) := by
  obtain ⟨found, hresolve, -⟩ := bind_eq_ok.1 h
  obtain ⟨first', others', hfound, hwalks⟩ := Chain.walks_of_resolve hresolve
  obtain ⟨_, -, hfrom⟩ := bind_eq_ok.1 hresolve
  obtain ⟨steps, hsteps, hfrom⟩ := bind_eq_ok.1 hfrom
  cases hfrom
  obtain ⟨before, after, state, rfl, hlength, hbefore, hafter⟩ := Chain.resolveFrom_append hsteps
  obtain ⟨n, planned, rest, hn, rfl, hplanned, hrest⟩ := Chain.resolveFrom_limit hafter
  obtain _ | ⟨first, others⟩ := before
  · exact absurd (List.length_eq_zero_iff.1 hlength.symm) hP
  obtain ⟨rfl, rfl⟩ : first = first' ∧ others ++ planned :: rest = others' := by simpa using hfound
  have hresolveP : P.resolve = .ok (.root :: first :: others) := by
    have hne : require (!P.isEmpty) Refusal.emptyChain = .ok () := by
      obtain ⟨call, P, rfl⟩ := List.exists_cons_of_ne_nil hP
      rfl
    rw [Chain.resolve, hne]
    simp only [Bind.bind, Except.bind, hbefore]
    rfl
  have hwhole := c.optimizer.plan_of_resolve hresolve
  have hplanP := c.optimizer.plan_of_resolve hresolveP
  rcases c.optimizer_cases with hc | hc
  · obtain ⟨steps, hP, hall⟩ := Optimizer.improve_default_limit first hplanned hwalks
    rw [hc] at hwhole hplanP ⊢
    rw [hP] at hplanP
    rw [hall] at hwhole
    exact ⟨n, steps, planned, rest, hn, hplanned, hrest, hplanP, hwhole⟩
  · rw [hc] at hwhole hplanP ⊢
    exact ⟨n, first :: others, planned, rest, hn, hplanned, hrest, hplanP, hwhole⟩

/-- A limit stops what stands before it: whatever stands behind, a run asks the stream before it
for so many items at most, and does no work there, so makes no call for it, once it has them or
the end has come. With nothing behind, a run brings the items of so many pulls, makes the calls
they make and leaves the store as they leave it. -/
theorem Chain.limit_stops {c : Config} {P Q : Chain} {arguments : List Json} (hP : P ≠ [])
    {plan : Plan} {notices : List Notice}
    (h : c.optimizer.plan (P ++ ⟨.limit, arguments⟩ :: Q) = .ok (plan, notices)) :
    ∃ n source rest, Arguments.limit .limit arguments[0]? = .ok n ∧ rest.length = Q.length ∧
      (∀ e : Engine (Traced σ), (P.openStream c.optimizer).run.run e = (.ok source, e)) ∧
      (∀ e : Engine (Traced σ), ((P ++ ⟨.limit, arguments⟩ :: Q).openStream c.optimizer).run.run e =
        (.ok ((Stream.through (.limit n) source).ofSteps rest), e)) ∧
      (∀ (e : Engine (Traced σ)) (budget : Nat), ∃ items works e',
        (((Stream.through (.limit n) source).ofSteps rest).items? budget).run.run e =
          (.ok items, e') ∧
        (((Stream.through (.limit n) source).ofSteps rest).watchItems (Q.length + 1) budget).run e =
          ((items, works), e') ∧
        works.countP Work.answers ≤ n ∧
        ∀ before w after, works = before ++ w :: after →
          before.countP Work.answers < n ∧ ∀ v ∈ before, v.event ≠ .done) ∧
      (∀ (e : Engine (Traced σ)) items e',
        (Stream.through (.limit n) source).Collects e items e' ↔ source.Takes n e items e') ∧
      (n = 0 → ∀ e : Engine (Traced σ), (Stream.through (.limit n) source).Collects e [] e) := by
  obtain ⟨n, steps, planned, rest, hn, hplanned, hlength, hplanP, hplan⟩ := Chain.plan_limit hP h
  have hlength' : (rest.map (·.step)).length = Q.length := by rw [List.length_map, hlength]
  refine ⟨n, (Stream.given [.ok .graph]).ofSteps ((PlannedStep.root :: steps).map (·.step)),
    rest.map (·.step), hn, hlength', Chain.openStream_run hplanP, fun e => ?_, fun e budget => ?_,
    fun e items e' => Stream.items?_limit_iff, ?_⟩
  · rw [Chain.openStream_run hplan e]
    simp only [Stream.ofSteps, List.map_cons, List.map_append, List.foldl_cons, List.foldl_append,
      hplanned, Step.stage]
  · have hlimited : Stream.Limited n (Q.length + 1)
        ((Stream.through (.limit n) ((Stream.given [.ok .graph]).ofSteps
          ((PlannedStep.root :: steps).map (·.step)))).ofSteps (rest.map (·.step))) := by
      rw [← hlength', Nat.add_comm]
      exact (Stream.Limited.limit _).ofSteps _
    have hfits := hlimited.fits budget e
    exact ⟨_, _, _, Stream.items?_watched (Q.length + 1) budget _ e, rfl, hfits.countP_le,
      fun before w after hworks => (hworks ▸ hfits).before⟩
  · rintro rfl e
    rw [Stream.items?_limit_iff, Stream.takes_iff]
    exact .enough _ e

/-- The first two vertices, counted: the stream of all vertices is pulled twice at most. -/
theorem limit_stops_twoVertices :
    ∃ source rest, (∀ e : Engine (Traced Memory),
      (Chain.openStream .default [⟨.vertices, []⟩, ⟨.limit, [.nat 2]⟩, ⟨.count, []⟩]).run.run e =
        (.ok ((Stream.through (.limit 2) source).ofSteps rest), e)) ∧
      ∀ (e : Engine (Traced Memory)) (budget : Nat), ∃ items works e',
        (((Stream.through (.limit 2) source).ofSteps rest).watchItems 2 budget).run e =
          ((items, works), e') ∧ works.countP Work.answers ≤ 2 := by
  obtain ⟨plan, hplan⟩ : ∃ plan, ({} : Config).optimizer.plan
    ([⟨.vertices, []⟩] ++ ⟨.limit, [.nat 2]⟩ :: [⟨.count, []⟩]) = .ok (plan, []) := ⟨_, rfl⟩
  obtain ⟨n, source, rest, hn, -, -, hopen, hruns, -⟩ :=
    Chain.limit_stops (σ := Memory) (by simp) hplan
  obtain rfl : 2 = n := Except.ok.inj hn
  refine ⟨source, rest, hopen, fun e budget => ?_⟩
  obtain ⟨items, works, e', -, hwatch, hcount, -⟩ := hruns e budget
  exact ⟨items, works, e', hwatch, hcount⟩

end PropertyGraph
