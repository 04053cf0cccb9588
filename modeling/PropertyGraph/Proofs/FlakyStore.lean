/-
A store that fails some of the deletes asked of it, after any schedule, and writes down which.
What makes no delete is done there as on a store that does not fail (`Steady`). `Trails` compares
an engine over such a store with one that went the same way without a failure: a key that was
there at the start is gone where no delete fails just if a delete was asked for, and is left
behind just if each of them failed (`Trails.left_iff`). Deletes on both sides keep that
(`Trails.delete`), and so does one that is only repeated on the failing side.
-/
import PropertyGraph.Proofs.DamagedLists

namespace PropertyGraph

open PropertyGraph.Graph

variable {σ α β : Type}

/-! ## Stores that fail deletes -/

/-- A delete that was asked for. -/
structure DeleteCall where
  key : String
  failed : Bool

/-- A store that fails deletes. -/
structure Flaky (σ : Type) where
  store : σ
  /-- Whether a delete fails before which so many were asked for. -/
  fails : Nat → Bool
  /-- The deletes that were asked for, the latest first. -/
  deletes : List DeleteCall

namespace Flaky

/-- Makes a call on the store itself. -/
def inside (call : Access σ α) : Access (Flaky σ) α :=
  ExceptT.mk (Backend.within Flaky.store (fun s f => { f with store := s }) call.run)

instance [Backend σ] : Backend (Flaky σ) where
  get key := inside (Backend.get key)
  put key value := inside (Backend.put key value)
  update key value := inside (Backend.update key value)
  create key value := inside (Backend.create key value)
  delete key := do
    let f ← get
    let failed := f.fails f.deletes.length
    set { f with deletes := ⟨key, failed⟩ :: f.deletes }
    if failed then throw (.storage (.injected .delete key))
    inside (Backend.delete key)
  keys patterns := inside (Backend.keys patterns)
  advance stream :=
    Backend.within Flaky.store (fun s f => { f with store := s }) (Backend.advance stream)
  size f := Backend.size f.store

/-- A delete of the key was asked for. -/
def Tried (f : Flaky σ) (key : String) : Prop := ∃ call ∈ f.deletes, call.key = key

/-- Every delete of the key that was asked for failed. -/
def Refused (f : Flaky σ) (key : String) : Prop :=
  ∀ call ∈ f.deletes, call.key = key → call.failed = true

end Flaky

namespace Engine

/-- The engine over the store itself. -/
def steady (e : Engine (Flaky σ)) : Engine σ := { e with store := e.store.store }

/-- The engine on a store that fails deletes from now on. -/
def flaky (e : Engine σ) (fails : Nat → Bool) : Engine (Flaky σ) :=
  { e with store := ⟨e.store, fails, []⟩ }

/-- The engine after something was done on the store itself. -/
def onward (e : Engine (Flaky σ)) (after : Engine σ) : Engine (Flaky σ) :=
  { after with store := { e.store with store := after.store } }

end Engine

/-! ## What makes no delete -/

/-- An operation does on a store that fails deletes what it does on the store itself. -/
def Steady (x : Run σ α) (x' : Run (Flaky σ) α) : Prop :=
  ∀ e : Engine (Flaky σ), x'.run e = ((x.run e.steady).1, e.onward (x.run e.steady).2)

namespace Steady

open Engine

theorem pure (a : α) : Steady (Pure.pure a : Run σ α) (Pure.pure a) := fun _ => rfl

theorem bind {x : Run σ α} {x' : Run (Flaky σ) α} {f : α → Run σ β} {f' : α → Run (Flaky σ) β}
    (hx : Steady x x') (hf : ∀ a, Steady (f a) (f' a)) : Steady (x >>= f) (x' >>= f') := by
  intro e
  rw [Run.bind_run, hx e]
  exact hf _ _

theorem andThen {x : Attempt σ α} {x' : Attempt (Flaky σ) α} {f : α → Attempt σ β}
    {f' : α → Attempt (Flaky σ) β} (hx : Steady x.run x'.run)
    (hf : ∀ a, Steady (f a).run (f' a).run) : Steady (x >>= f).run (x' >>= f').run := by
  show Steady (x.run >>= ExceptT.bindCont f) (x'.run >>= ExceptT.bindCont f')
  refine bind hx fun outcome => ?_
  cases outcome with
  | ok a => exact hf a
  | error err => exact .pure (Except.error err)

theorem note (notice : Notice) :
    Steady (Engine.note notice : Run σ Unit) (Engine.note notice) := fun _ => rfl

theorem quietly {key : String} {instead : α} {x : Attempt σ α} {x' : Attempt (Flaky σ) α}
    (hx : Steady x.run x'.run) :
    Steady (Engine.quietly key instead x) (Engine.quietly key instead x') := by
  refine bind hx fun outcome => ?_
  cases outcome with
  | ok a => exact .pure a
  | error err => exact bind (.note _) fun _ => .pure instead

theorem call (access : Access σ α) :
    Steady (Engine.call access).run (Engine.call (Flaky.inside access)).run := fun _ => rfl

variable [Backend σ]

theorem advance (stream : KeyStream) :
    Steady (liftM (Engine.advance stream : Run σ _) : Attempt σ _).run
      (liftM (Engine.advance stream : Run (Flaky σ) _) : Attempt (Flaky σ) _).run := fun _ => rfl

theorem foldStream {f : β → Except Error String → Attempt σ β}
    {f' : β → Except Error String → Attempt (Flaky σ) β}
    (hf : ∀ b item, Steady (f b item).run (f' b item).run) (fuel : Nat) (b : β)
    (stream : KeyStream) :
    Steady (Engine.foldStream f fuel b stream).run (Engine.foldStream f' fuel b stream).run := by
  induction fuel generalizing b stream with
  | zero => exact .pure (Except.ok b)
  | succ fuel ih =>
    refine andThen (Steady.advance stream) fun (event, stream) => ?_
    cases event with
    | key key => exact andThen (hf b (.ok key)) fun b => ih b stream
    | failed err => exact andThen (hf b (.error err)) fun b => ih b stream
    | skip => exact ih b stream
    | done => exact .pure (Except.ok b)

theorem foldKeys {f : β → Except Error String → Attempt σ β}
    {f' : β → Except Error String → Attempt (Flaky σ) β}
    (hf : ∀ b item, Steady (f b item).run (f' b item).run) (b : β) (patterns : List String) :
    Steady (Engine.foldKeys f b patterns).run (Engine.foldKeys f' b patterns).run := by
  refine andThen (call (Backend.keys patterns)) fun stream e => ?_
  rw [Attempt.get_bind, Attempt.get_bind]
  exact foldStream hf (stream.effort (Backend.size e.store.store)) b stream e

theorem keysDespite (key : String) (patterns : List String) :
    Steady (Engine.keysDespite key patterns : Attempt σ _).run
      (Engine.keysDespite key patterns).run := by
  refine andThen (foldKeys (fun found item => ?_) [] patterns) fun _ => .pure _
  cases item with
  | ok key => exact .pure _
  | error err => exact fun _ => rfl

theorem collectQuietly (pattern : String) :
    Steady (collectQuietly pattern : Run σ _) (collectQuietly pattern) :=
  quietly (keysDespite pattern [pattern])

theorem keysMatching (pattern : String) :
    Steady (Engine.keysMatching pattern : Attempt σ _).run (Engine.keysMatching pattern).run := by
  refine andThen (foldKeys (fun found item => ?_) [] [pattern]) fun _ => .pure _
  cases item with
  | ok key => exact .pure _
  | error err => exact .pure _

theorem readText (key : String) :
    Steady (readText key : Attempt σ _).run (readText key).run :=
  andThen (call (Backend.get key)) fun _ => .pure _

theorem readIndex (key : String) :
    Steady (readIndex key : Attempt σ _).run (readIndex key).run := by
  refine andThen (call (Backend.get key)) fun entry => ?_
  cases entry with
  | none => exact .pure _
  | some entry =>
    dsimp only
    split
    · exact .pure _
    · exact fun _ => rfl

theorem removeFromIndex (key id : String) (all : Bool) :
    Steady (removeFromIndex key id all : Attempt σ _).run (removeFromIndex key id all).run := by
  refine andThen (readIndex key) fun ids => ?_
  cases ids with
  | none => exact .pure _
  | some ids =>
    dsimp only
    generalize (if all then ids.filter (· != id) else ids.erase id) = left
    split
    · exact andThen (call (Backend.update key (idList left))) fun _ => .pure _
    · exact .pure _

theorem adjacentIds (vertex : String) (direction : Direction) (adjacency : Adjacency)
    (label : Option String) :
    Steady (adjacentIds vertex direction adjacency label : Attempt σ _).run
      (adjacentIds vertex direction adjacency label).run := by
  refine andThen (readIndex _) fun ids => ?_
  cases ids with
  | some ids => exact .pure _
  | none => exact andThen (keysMatching _) fun _ => .pure _

theorem incidentEdges (vertex : String) :
    Steady (incidentEdges vertex : Attempt σ _).run (incidentEdges vertex).run :=
  andThen (adjacentIds _ _ _ _) fun _ => andThen (adjacentIds _ _ _ _) fun _ => .pure _

end Steady

/-! ## Deletes -/

/-- What a delete that is asked for comes to. -/
theorem Flaky.delete_run [Backend σ] (key : String) (f : Flaky σ) :
    (Backend.delete key : Access (Flaky σ) Unit).run.run f =
      if f.fails f.deletes.length then
        (.error (.storage (.injected .delete key)), { f with deletes := ⟨key, true⟩ :: f.deletes })
      else (inside (Backend.delete key)).run.run { f with deletes := ⟨key, false⟩ :: f.deletes } := by
  show ((do
    if f.fails f.deletes.length then throw (.storage (.injected .delete key))
    inside (Backend.delete key) : Access (Flaky σ) Unit).run.run
      { f with deletes := ⟨key, f.fails f.deletes.length⟩ :: f.deletes }) = _
  cases f.fails f.deletes.length <;> rfl

variable [Backend σ] [LawfulBackend σ]

/-- A delete changes the key it is about, and nothing if it fails; it is written down. -/
theorem Engine.deleteQuietly_flaky (key : String) (e : Engine (Flaky σ)) :
    ∃ failed, ((deleteQuietly key).run e).2.store.deletes = ⟨key, failed⟩ :: e.store.deletes ∧
      ∀ k, ((deleteQuietly key).run e).2.steady.contents k =
        if k = key ∧ failed = false then none else e.steady.contents k := by
  have hrun := Flaky.delete_run key e.store
  cases hfails : e.store.fails e.store.deletes.length with
  | true =>
    rw [hfails, if_pos rfl] at hrun
    refine ⟨true, ?_⟩
    rw [deleteQuietly, quietly, Run.bind_run, call_run, hrun]
    exact ⟨rfl, fun k => (if_neg (by simp)).symm⟩
  | false =>
    rw [hfails, if_neg (by simp)] at hrun
    have hmade : (deleteQuietly key).run e.steady = _ := quietly_ok (delete_run key e.steady)
    have hsame : (deleteQuietly key).run e =
        (quietly key () (call (Flaky.inside (Backend.delete key)))).run
          { e with store := { e.store with deletes := ⟨key, false⟩ :: e.store.deletes } } := by
      rw [deleteQuietly, quietly, quietly, Run.bind_run, Run.bind_run, call_run, call_run, hrun]
    refine ⟨false, ?_⟩
    rw [hsame, Steady.quietly (.call _)]
    refine ⟨rfl, fun k => ?_⟩
    show ((deleteQuietly key).run e.steady).2.contents k = _
    rw [hmade, contents_erase]
    simp

/-- The deletes that were asked for after one more. -/
theorem Engine.tried_deleteQuietly (key : String) (e : Engine (Flaky σ)) (k : String) :
    ((deleteQuietly key).run e).2.store.Tried k ↔ k = key ∨ e.store.Tried k := by
  obtain ⟨failed, hdeletes, -⟩ := deleteQuietly_flaky key e
  simp only [Flaky.Tried, hdeletes, List.mem_cons, exists_eq_or_imp, eq_comm]

/-- The deletes that were asked for after several more. -/
theorem Engine.tried_deleteAll (keys : List String) (e : Engine (Flaky σ)) (k : String) :
    ((keys.forM deleteQuietly).run e).2.store.Tried k ↔ k ∈ keys ∨ e.store.Tried k := by
  induction keys generalizing e with
  | nil => simp [pure, StateT.run, StateT.pure]
  | cons key keys ih =>
    show ((keys.forM deleteQuietly).run ((deleteQuietly key).run e).2).2.store.Tried k ↔ _
    rw [ih, tried_deleteQuietly, List.mem_cons]
    tauto

/-- A delete where none fails. -/
theorem Engine.contents_deleteQuietly (key : String) (e : Engine σ) (k : String) :
    ((deleteQuietly key).run e).2.contents k = if k = key then none else e.contents k := by
  rw [deleteQuietly, quietly_ok (Engine.delete_run key e), contents_erase]

/-- Deletes where none fails. -/
theorem Engine.contents_deleteAll (keys : List String) (e : Engine σ) (k : String) :
    ((keys.forM deleteQuietly).run e).2.contents k = if k ∈ keys then none else e.contents k := by
  induction keys generalizing e with
  | nil => rfl
  | cons key keys ih =>
    show ((keys.forM deleteQuietly).run ((deleteQuietly key).run e).2).2.contents k = _
    rw [ih, contents_deleteQuietly]
    simp only [List.mem_cons]
    grind

/-! ## Reading -/

/-- A scan finds what is left. -/
theorem Engine.collectQuietly_flaky {pattern : String} {p : KeyPattern}
    (hread : KeyPattern.parse pattern = .ok p) (heverything : p.isEverything = false)
    (hexact : p.isExact = false) (e : Engine (Flaky σ)) :
    (collectQuietly pattern).run e = (e.steady.keys.filter p.accepts, e) := by
  rw [Steady.collectQuietly, collectQuietly_run hread heverything hexact]
  rfl

theorem Engine.readQuietly_run (key : String) (e : Engine σ) :
    (quietly key none (readText key)).run e = ((e.contents key).map Blob.string, e) := by
  refine quietly_ok ?_
  rw [readText, Attempt.bind_ok (get_run key e), contents, Option.map_map]
  rfl

theorem Engine.readQuietly_flaky (key : String) (e : Engine (Flaky σ)) :
    (quietly key none (readText key)).run e = ((e.steady.contents key).map Blob.string, e) := by
  rw [Steady.quietly (Steady.readText key), readQuietly_run]
  rfl

/-! ## Runs with failures beside runs without -/

/-- How far an engine on a store that fails deletes has come, where `e` went the same way from the
same start on a store that does not. -/
structure Trails (start : String → Option Blob) (e : Engine σ) (e' : Engine (Flaky σ)) :
    Prop where
  /-- Where nothing fails, just the keys are gone of which a delete was asked for. -/
  kept : ∀ key, e.contents key ≠ none ↔ start key ≠ none ∧ ¬e'.store.Tried key
  untried : ∀ key, ¬e'.store.Tried key → e'.steady.contents key = e.contents key
  tried : ∀ key, e'.store.Tried key →
    (e'.steady.contents key ≠ none ↔ start key ≠ none ∧ e'.store.Refused key)

namespace Trails

variable {start : String → Option Blob} {e e₁ : Engine σ} {e' : Engine (Flaky σ)} {key : String}

/-- At the start. -/
theorem refl (e : Engine σ) (fails : Nat → Bool) : Trails e.contents e (e.flaky fails) where
  kept key := by simp [Flaky.Tried, Engine.flaky]
  untried key _ := rfl
  tried key h := by simp [Flaky.Tried, Engine.flaky] at h

/-- After writes to keys of which no delete was asked for, the same on both sides. -/
theorem write (h : Trails start e e') {e₁' : Engine (Flaky σ)}
    (hdeletes : e₁'.store.deletes = e'.store.deletes)
    (hthere : ∀ key, e₁.contents key ≠ none ↔ e.contents key ≠ none)
    (hsame : ∀ key, ¬e'.store.Tried key → e₁'.steady.contents key = e₁.contents key)
    (hleft : ∀ key, e'.store.Tried key → e₁'.steady.contents key = e'.steady.contents key) :
    Trails start e₁ e₁' := by
  have htried : ∀ key, e₁'.store.Tried key ↔ e'.store.Tried key := fun key => by
    rw [Flaky.Tried, Flaky.Tried, hdeletes]
  constructor
  · intro key
    rw [hthere, htried]
    exact h.kept key
  · exact fun key hkey => hsame key (mt (htried key).2 hkey)
  · intro key hkey
    have hbefore := (htried key).1 hkey
    rw [hleft key hbefore, h.tried key hbefore, Flaky.Refused, Flaky.Refused, hdeletes]

/-- Only what is there where nothing fails counts on that side. -/
theorem congr (h : Trails start e e') (hcontents : ∀ key, e₁.contents key = e.contents key) :
    Trails start e₁ e' :=
  h.write rfl (fun key => by rw [hcontents]) (fun key hkey => by rw [hcontents, h.untried key hkey])
    fun _ _ => rfl

/-- What is there where nothing fails is the same where deletes fail. -/
theorem same (h : Trails start e e') (hkey : e.contents key ≠ none) :
    e'.steady.contents key = e.contents key :=
  h.untried key ((h.kept key).1 hkey).2

/-- What is left where deletes fail: what is left where none does, and what every delete failed
of. -/
theorem left_iff (h : Trails start e e') (key : String) :
    e'.steady.contents key ≠ none ↔ e.contents key ≠ none ∨
      start key ≠ none ∧ e'.store.Tried key ∧ e'.store.Refused key := by
  by_cases hkey : e'.store.Tried key
  · rw [h.tried key hkey, h.kept key]
    simp [hkey]
  · rw [h.untried key hkey]
    simp [hkey]

theorem started (h : Trails start e e') (hkey : e'.steady.contents key ≠ none) :
    start key ≠ none := by
  rcases (h.left_iff key).1 hkey with hkept | hleft
  · exact ((h.kept key).1 hkept).1
  · exact hleft.1

/-- A delete that is asked for where deletes fail, where the key is gone then on the other side. -/
theorem delete (h : Trails start e e')
    (hgone : ∀ k, e₁.contents k = if k = key then none else e.contents k) :
    Trails start e₁ ((deleteQuietly key).run e').2 := by
  obtain ⟨failed, hdeletes, hcontents⟩ := Engine.deleteQuietly_flaky key e'
  have htried := Engine.tried_deleteQuietly key e'
  have hrefused : ∀ k, ((deleteQuietly key).run e').2.store.Refused k ↔
      (k = key → failed = true) ∧ e'.store.Refused k := by
    intro k
    simp only [Flaky.Refused, hdeletes, List.mem_cons, forall_eq_or_imp]
    grind
  constructor
  · intro k
    rw [hgone, htried]
    have := h.kept k
    grind
  · intro k hk
    rw [htried, not_or] at hk
    rw [hcontents, hgone, if_neg (fun h => hk.1 h.1), if_neg hk.1]
    exact h.untried k hk.2
  · intro k hk
    rw [hcontents, hrefused]
    rcases (htried k).1 hk with rfl | hbefore
    · -- the deletes before it, if there were any, failed as well
      have hfresh : ¬e'.store.Tried k → e'.store.Refused k :=
        fun hnot call hcall hcallKey => absurd ⟨call, hcall, hcallKey⟩ hnot
      cases failed with
      | false => simp
      | true =>
        rw [if_neg (by simp), h.left_iff k, h.kept k]
        simp only [forall_const, true_and]
        grind
    · by_cases hmade : k = key ∧ failed = false
      · simp [hmade]
      · rw [if_neg hmade, h.tried k hbefore]
        grind

/-- Deletes of several keys. -/
theorem deleteAll {keys : List String} (h : Trails start e e')
    (hgone : ∀ k, e₁.contents k = if k ∈ keys then none else e.contents k) :
    Trails start e₁ ((keys.forM deleteQuietly).run e').2 := by
  induction keys generalizing e e' with
  | nil => exact h.congr (by simpa using hgone)
  | cons key keys ih =>
    refine ih (h.delete (Engine.contents_deleteQuietly key e)) fun k => ?_
    rw [hgone, Engine.contents_deleteQuietly]
    simp only [List.mem_cons]
    grind

end Trails

end PropertyGraph
