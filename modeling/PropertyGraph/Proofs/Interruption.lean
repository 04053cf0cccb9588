/-
Operations on a store of which rules fail some calls. What the store holds behind its rules is
seen through its records. `Endures` says with what value, which records and which new notices an
operation ends, whatever the rules fail. A call that is failed changes nothing
(`endures_guarded`), so what an operation leaves is what its calls wrote before one of them was
failed. A scan that is failed part-way still has all keys to bring to whoever goes on with it
(`Engine.foldStream_interrupted`).
-/
import PropertyGraph.Proofs.DamagedLists
import PropertyGraph.Proofs.FallibleStore

namespace PropertyGraph

open PropertyGraph.Graph

variable {σ α β : Type}

/-! ## Engines with rules before their store -/

namespace Engine

/-- The engine over the store behind the rules. -/
def behind (e : Engine (Faulty σ)) : Engine σ := { e with store := e.store.store }

/-- An engine with rules before its store. -/
def under (e : Engine σ) (rules : List FaultRule) : Engine (Faulty σ) :=
  { e with store := ⟨e.store, rules⟩ }

/-- Beside the store, nothing but notices is added. -/
structure Onward (e : Engine σ) (new : List Notice) (e' : Engine σ) : Prop where
  issued : e'.issued = e.issued
  ids : e'.ids = e.ids
  log : e'.log = new ++ e.log

theorem Onward.refl (e : Engine σ) : e.Onward [] e := ⟨rfl, rfl, rfl⟩

theorem Onward.trans {e e' e'' : Engine σ} {new new' : List Notice} (h : e.Onward new e')
    (h' : e'.Onward new' e'') : e.Onward (new' ++ new) e'' :=
  ⟨h'.issued.trans h.issued, h'.ids.trans h.ids, by rw [h'.log, h.log, List.append_assoc]⟩

/-- An engine that is the same behind the rules. -/
theorem Onward.of_behind {e e' : Engine (Faulty σ)} (h : e'.behind = e.behind) : e.Onward [] e' :=
  ⟨show e'.behind.issued = e.behind.issued by rw [h], show e'.behind.ids = e.behind.ids by rw [h],
    show e'.behind.log = e.behind.log by rw [h]⟩

end Engine

variable [Backend σ] [LawfulBackend σ]

/-- On a store that holds `m` behind its rules, an operation ends with a value, with records and
with new notices that have a property together, whatever the rules fail. -/
def Endures (m : Records) (operation : Run (Faulty σ) α)
    (Q : α → Records → List Notice → Prop) : Prop :=
  ∀ e : Engine (Faulty σ), e.behind.Holds m → ∃ m' new, (operation.run e).2.behind.Holds m' ∧
    e.Onward new (operation.run e).2 ∧ Q (operation.run e).1 m' new

/-! ## Sequences -/

section Sequences

variable {m : Records} {a : α} {Q : α → Records → List Notice → Prop}
  {R : β → Records → List Notice → Prop}

theorem Endures.pure (h : Q a m []) : Endures m (pure a : Run (Faulty σ) α) Q :=
  fun e he => ⟨m, [], he, .refl e, h⟩

theorem Endures.bind {x : Run (Faulty σ) α} {f : α → Run (Faulty σ) β} (hx : Endures m x Q)
    (hf : ∀ a m' new, Q a m' new → Endures m' (f a) fun b m'' new' => R b m'' (new' ++ new)) :
    Endures m (x >>= f) R := by
  intro e he
  obtain ⟨m', new, he', honward, hq⟩ := hx e he
  obtain ⟨m'', new', he'', honward', hr⟩ := hf _ m' new hq _ he'
  exact ⟨m'', new' ++ new, he'', honward.trans honward', hr⟩

theorem Endures.mono {x : Run (Faulty σ) α} {Q' : α → Records → List Notice → Prop}
    (hx : Endures m x Q) (h : ∀ a m' new, Q a m' new → Q' a m' new) : Endures m x Q' := by
  intro e he
  obtain ⟨m', new, he', honward, hq⟩ := hx e he
  exact ⟨m', new, he', honward, h _ _ _ hq⟩

/-- An operation that may fail, before another one. -/
theorem Endures.andThen {x : Attempt (Faulty σ) α} {f : α → Attempt (Faulty σ) β}
    {Q : Except Error α → Records → List Notice → Prop}
    {R : Except Error β → Records → List Notice → Prop} (hx : Endures m x.run Q)
    (hok : ∀ a m' new, Q (.ok a) m' new →
      Endures m' (f a).run fun b m'' new' => R b m'' (new' ++ new))
    (herror : ∀ err m' new, Q (.error err) m' new → R (.error err) m' new) :
    Endures m (x >>= f).run R := by
  refine Endures.bind (f := ExceptT.bindCont f) hx fun outcome m' new hq => ?_
  cases outcome with
  | ok a => exact hok a m' new hq
  | error err => exact .pure (herror err m' new hq)

/-- An operation that does not fail, among those that may. -/
theorem Endures.lift {x : Run (Faulty σ) α} (hx : Endures m x Q) :
    Endures m (liftM x : Attempt (Faulty σ) α).run fun outcome m' new =>
      ∃ a, outcome = .ok a ∧ Q a m' new := by
  intro e he
  obtain ⟨m', new, he', honward, hq⟩ := hx e he
  exact ⟨m', new, he', honward, _, rfl, hq⟩

theorem endures_note (m : Records) (notice : Notice) :
    Endures m (Engine.note notice : Run (Faulty σ) Unit) fun _ m' new => m' = m ∧ new = [notice] :=
  fun _ he => ⟨m, [notice], ⟨he.stored, he.only⟩, ⟨rfl, rfl, rfl⟩, rfl, rfl⟩

/-- An operation whose failure is noted. -/
theorem Endures.quietly {key : String} {instead : α} {x : Attempt (Faulty σ) α}
    {Q : Except Error α → Records → List Notice → Prop}
    {R : α → Records → List Notice → Prop} (hx : Endures m x.run Q)
    (hok : ∀ a m' new, Q (.ok a) m' new → R a m' new)
    (herror : ∀ err m' new, Q (.error err) m' new → R instead m' (.cleanupFailed key err :: new)) :
    Endures m (Engine.quietly key instead x) R := by
  refine Endures.bind hx fun outcome m' new hq => ?_
  cases outcome with
  | ok a => exact .pure (hok a m' new hq)
  | error err =>
    refine Endures.bind (endures_note m' _) fun _ m'' new' hnote => ?_
    obtain ⟨rfl, rfl⟩ := hnote
    exact .pure (herror err m'' new hq)

end Sequences

/-! ## Calls on the store -/

section Calls

open Engine

/-- The rule that fires is about the call it fails. -/
theorem FaultRule.call_of_strike {kind : StoreCall} {key : String} {rules : List FaultRule}
    {rule : FaultRule} (h : (strike (isAbout kind key) rules).1 = some rule) : rule.call = kind := by
  induction rules with
  | nil => cases h
  | cons r rules ih =>
    rw [strike] at h
    split at h
    · rename_i hits
      have hcall : r.call = kind := by
        rw [isAbout, Bool.and_eq_true, beq_iff_eq] at hits
        exact hits.1
      have hkept : r.hit.2.call = r.call := by
        unfold hit
        split <;> rfl
      split at h
      · rename_i r' hfires
        cases h
        rw [← hcall, ← hkept, hfires]
      · exact ih h
    · exact ih h

omit [Backend σ] [LawfulBackend σ] in
/-- A call is failed and changes nothing behind the rules, or it is made there. -/
theorem Engine.guarded_run (kind : StoreCall) (key : String) (inner : Access σ α)
    (e : Engine (Faulty σ)) :
    let r := (call (Faulty.guarded kind key inner)).run.run e
    (r.1 = .error (.storage (.injected kind key)) ∧ r.2.behind = e.behind) ∨
      (r.1, r.2.behind) = (call inner).run.run e.behind := by
  have hstrike := Faulty.strike_run (FaultRule.isAbout kind key) e.store
  rw [call_run, Faulty.guarded, Access.bind_ok hstrike]
  cases hfired : (FaultRule.strike (FaultRule.isAbout kind key) e.store.rules).1 with
  | some rule =>
    have hcall := FaultRule.call_of_strike hfired
    subst hcall
    exact .inl ⟨rfl, rfl⟩
  | none => exact .inr rfl

omit [Backend σ] [LawfulBackend σ] in
/-- A call that no rule fails is made behind the rules. -/
theorem Engine.guarded_passed {kind : StoreCall} {key : String} {rules rules' : List FaultRule}
    (hstrike : FaultRule.strike (FaultRule.isAbout kind key) rules = (none, rules'))
    {inner : Access σ α} {e e' : Engine σ} {outcome : Except Error α}
    (h : (call inner).run.run e = (outcome, e')) :
    (call (Faulty.guarded kind key inner)).run.run (e.under rules) = (outcome, e'.under rules') := by
  have hrun := Faulty.strike_run (FaultRule.isAbout kind key) (e.under rules).store
  rw [show (e.under rules).store.rules = rules from rfl, hstrike] at hrun
  rw [call_run] at h
  obtain ⟨rfl, rfl⟩ := Prod.mk.inj h
  rw [call_run, Faulty.guarded, Access.bind_ok hrun]
  rfl

omit [Backend σ] [LawfulBackend σ] in
/-- A call that a rule fails is not made. -/
theorem Engine.guarded_failed {kind : StoreCall} {key : String} {rules rules' : List FaultRule}
    {rule : FaultRule}
    (hstrike : FaultRule.strike (FaultRule.isAbout kind key) rules = (some rule, rules'))
    (inner : Access σ α) (e : Engine σ) :
    (call (Faulty.guarded kind key inner)).run.run (e.under rules) =
      (.error (rule.fault key), e.under rules') := by
  have hrun := Faulty.strike_run (FaultRule.isAbout kind key) (e.under rules).store
  rw [show (e.under rules).store.rules = rules from rfl, hstrike] at hrun
  rw [call_run, Faulty.guarded, Access.bind_ok hrun]
  rfl

variable {m : Records} {r : RecordKey}

/-- What a call comes to, failed or made. -/
theorem endures_guarded {kind : StoreCall} {key : String} {inner : Access σ α}
    {Q : Except Error α → Records → List Notice → Prop}
    (hfailed : Q (.error (.storage (.injected kind key))) m [])
    (hmade : ∀ e : Engine σ, e.Holds m → ∃ m', ((call inner).run.run e).2.Holds m' ∧
      Q ((call inner).run.run e).1 m' []) :
    Endures m (call (Faulty.guarded kind key inner)).run Q := by
  intro e he
  rcases guarded_run kind key inner e with ⟨houtcome, hsame⟩ | hrun
  · refine ⟨m, [], ?_, .of_behind hsame, ?_⟩
    · rwa [hsame]
    · rwa [houtcome]
  · obtain ⟨m', hholds, hq⟩ := hmade e.behind he
    rw [← hrun] at hholds hq
    exact ⟨m', [], hholds, ⟨rfl, rfl, rfl⟩, hq⟩

theorem endures_get (hr : r.Valid) (m : Records) :
    Endures m (call (Backend.get r.text) : Attempt (Faulty σ) _).run fun outcome m' new =>
      m' = m ∧ new = [] ∧ ∀ found, outcome = .ok found → found.map (·.value) = m r := by
  refine endures_guarded ⟨rfl, rfl, fun _ h => by cases h⟩ fun e he => ?_
  rw [Engine.get_run]
  refine ⟨m, he, rfl, rfl, fun found h => ?_⟩
  obtain rfl := Except.ok.inj h
  exact he.stored r hr

/-- A record is written, or nothing happens. -/
def Written (m : Records) (r : RecordKey) (value : Option Blob) (outcome : Except Error α)
    (m' : Records) : Prop :=
  (∃ err, outcome = .error err ∧ m' = m) ∨ ∃ a, outcome = .ok a ∧ m' = m.set r value

omit [Backend σ] [LawfulBackend σ] in
theorem Written.of_ok {value : Option Blob} {a : α} {m' : Records}
    (h : Written m r value (.ok a) m') : m' = m.set r value := by
  obtain ⟨_, h, -⟩ | ⟨_, -, h⟩ := h
  · cases h
  · exact h

omit [Backend σ] [LawfulBackend σ] in
theorem Written.of_error {value : Option Blob} {err : Error} {m' : Records}
    (h : Written m r value (.error err : Except Error α) m') : m' = m := by
  obtain ⟨_, -, h⟩ | ⟨_, h, -⟩ := h
  · exact h
  · cases h

theorem endures_put (hr : r.Valid) (m : Records) (value : Blob) :
    Endures m (call (Backend.put r.text value) : Attempt (Faulty σ) _).run fun outcome m' new =>
      new = [] ∧ Written m r (some value) outcome m' := by
  refine endures_guarded ⟨rfl, .inl ⟨_, rfl, rfl⟩⟩ fun e he => ?_
  rw [Engine.put_run]
  exact ⟨_, he.write hr value, rfl, .inr ⟨_, rfl, rfl⟩⟩

theorem endures_update (hr : r.Valid) (m : Records) (value : Blob) :
    Endures m (call (Backend.update r.text value) : Attempt (Faulty σ) _).run fun outcome m' new =>
      new = [] ∧ Written m r (some value) outcome m' := by
  refine endures_guarded ⟨rfl, .inl ⟨_, rfl, rfl⟩⟩ fun e he => ?_
  rw [Engine.update_run]
  exact ⟨_, he.write hr value, rfl, .inr ⟨_, rfl, rfl⟩⟩

theorem endures_delete (hr : r.Valid) (m : Records) :
    Endures m (call (Backend.delete r.text) : Attempt (Faulty σ) _).run fun outcome m' new =>
      new = [] ∧ Written m r none outcome m' := by
  refine endures_guarded ⟨rfl, .inl ⟨_, rfl, rfl⟩⟩ fun e he => ?_
  rw [Engine.delete_run]
  exact ⟨_, he.erase hr, rfl, .inr ⟨_, rfl, rfl⟩⟩

/-- Creating a record that is not there fails only if a rule fails it. -/
theorem endures_create (hr : r.Valid) (m : Records) (value : Blob) :
    Endures m (call (Backend.create r.text value) : Attempt (Faulty σ) _).run fun outcome m' new =>
      new = [] ∧ Written m r (some value) outcome m' ∧
        ∀ err, outcome = .error err → m r = none → err = .storage (.injected .create r.text) := by
  refine endures_guarded ⟨rfl, .inl ⟨_, rfl, rfl⟩, fun err h _ => (Except.error.inj h).symm⟩
    fun e he => ?_
  by_cases hfree : e.contents r.text = none
  · rw [Engine.create_run hfree]
    exact ⟨_, he.write hr value, rfl, .inr ⟨_, rfl, rfl⟩, fun _ h => by cases h⟩
  · have hthere : (LawfulBackend.entries e.store).contains r.text = true := by
      rw [contents, Option.map_eq_none_iff] at hfree
      exact Option.isSome_iff_ne_none.2 hfree
    have hnot : m r ≠ none := by rwa [← he.stored r hr]
    rw [call_run, LawfulBackend.create_run, hthere]
    exact ⟨m, he, rfl, .inl ⟨_, rfl, rfl⟩, fun _ _ hnone => absurd hnone hnot⟩

theorem endures_createKey (hr : r.Valid) (m : Records) (value : String) :
    Endures m (createKey r.text value : Attempt (Faulty σ) Unit).run fun outcome m' new =>
      new = [] ∧ Written m r (some (.text value)) outcome m' ∧
        ∀ err, outcome = .error err → m r = none → err = .storage (.injected .create r.text) := by
  refine Endures.andThen (endures_create hr m _) (fun n m' _ h => ?_) fun err m' _ h => ?_
  · exact .pure ⟨h.1, .inr ⟨(), rfl, h.2.1.of_ok⟩, fun _ herror => by cases herror⟩
  · exact ⟨h.1, .inl ⟨err, rfl, h.2.1.of_error⟩,
      fun _ herror => h.2.2 _ (congrArg _ (Except.error.inj herror))⟩

/-- Creating the key of a record, before another operation. -/
theorem Endures.createKey_andThen (hr : r.Valid) {value : String}
    {f : Unit → Attempt (Faulty σ) β} {R : Except Error β → Records → List Notice → Prop}
    (hok : Endures (m.set r (some (.text value))) (f ()).run R)
    (herror : ∀ err, (m r = none → err = .storage (.injected .create r.text)) →
      R (.error err) m []) :
    Endures m (createKey r.text value >>= f).run R := by
  refine Endures.andThen (endures_createKey hr m value) (fun _ m' new h => ?_) fun err m' new h => ?_
  · obtain ⟨rfl, hwritten, -⟩ := h
    simpa only [hwritten.of_ok, List.append_nil] using hok
  · obtain ⟨rfl, hwritten, hinjected⟩ := h
    rw [hwritten.of_error]
    exact herror err (hinjected err rfl)

/-- Deleting a record; a failure is noted. -/
theorem endures_deleteQuietly (hr : r.Valid) (m : Records) :
    Endures m (deleteQuietly r.text : Run (Faulty σ) Unit) fun _ m' new =>
      (m' = m ∧ ∃ err, new = [.cleanupFailed r.text err]) ∨ (m' = m.set r none ∧ new = []) := by
  refine Endures.quietly (endures_delete hr m) (fun _ m' new h => ?_) fun err m' new h => ?_
  · exact .inr ⟨h.2.of_ok, h.1⟩
  · exact .inl ⟨h.2.of_error, err, by rw [h.1]⟩

/-- The text of a record. -/
theorem endures_readText (hr : r.Valid) (m : Records) :
    Endures m (readText r.text : Attempt (Faulty σ) _).run fun outcome m' _ =>
      m' = m ∧ ∀ text, outcome = .ok text → text = (m r).map Blob.string := by
  refine Endures.andThen (endures_get hr m) ?_ ?_
  · rintro found m' new ⟨rfl, rfl, hfound⟩
    refine .pure ⟨rfl, fun text h => ?_⟩
    obtain rfl := Except.ok.inj h
    rw [← hfound found rfl, Option.map_map]
    rfl
  · rintro err m' new ⟨rfl, -, -⟩
    exact ⟨rfl, fun _ h => by cases h⟩

end Calls

/-! ## Lists of ids -/

section Lists

open Engine

variable {m : Records} {r : RecordKey}

/-- Reading a list, which counts as absent if it cannot be read. -/
theorem endures_readIndex (hr : r.Valid) (m : Records) :
    Endures m (readIndex r.text : Attempt (Faulty σ) _).run fun outcome m' _ =>
      m' = m ∧ ∀ ids, outcome = .ok ids → ids = m.ids? r := by
  refine Endures.andThen (endures_get hr m) ?_ ?_
  · rintro found m' new ⟨rfl, rfl, hfound⟩
    have hids : m'.ids? r = found.bind (·.value.ids?) := by
      rw [Records.ids?, ← hfound found rfl, Option.bind_map]
      rfl
    cases found with
    | none => exact .pure ⟨rfl, fun ids h => by rw [hids, ← Except.ok.inj h]; rfl⟩
    | some entry =>
      dsimp only
      cases hread : entry.value.ids? with
      | some ids =>
        refine .pure ⟨rfl, fun _ h => ?_⟩
        rw [hids, ← Except.ok.inj h, Option.bind_some, hread]
      | none =>
        refine Endures.andThen (.lift (endures_note m' _)) ?_ ?_
        · rintro _ _ _ ⟨_, -, rfl, -⟩
          refine .pure ⟨rfl, fun _ h => ?_⟩
          rw [hids, ← Except.ok.inj h, Option.bind_some, hread]
        · rintro _ _ _ ⟨_, h, -⟩
          cases h
  · rintro err m' new ⟨rfl, -, -⟩
    exact ⟨rfl, fun _ h => by cases h⟩

/-- Appending to a list, which starts anew if it cannot be read. -/
theorem endures_pushIndex (hr : r.Valid) (m : Records) (id : String) (distinct : Bool) :
    Endures m (pushIndex r.text id distinct : Attempt (Faulty σ) Unit).run fun _ m' _ =>
      m' = m ∨ m' = m.set r (some (idList ((m.ids? r).getD [] ++ [id]))) := by
  refine Endures.andThen (endures_readIndex hr m) ?_ ?_
  · rintro ids m' new ⟨rfl, hids⟩
    obtain rfl := hids ids rfl
    dsimp only
    split
    · exact .pure (.inl rfl)
    · refine Endures.andThen (endures_update hr m' _) (fun _ _ _ h => ?_) fun _ _ _ h => ?_
      · exact .pure (.inr h.2.of_ok)
      · exact .inl h.2.of_error
  · rintro err m' new ⟨rfl, -⟩
    exact .inl rfl

end Lists

/-! ## Scans -/

section Scans

open Engine

/-- An operation keeps what the store holds behind its rules, and if it gives a value, this one. -/
def Engine.Tries (e : Engine (Faulty σ)) (operation : Attempt (Faulty σ) β) (b : β) : Prop :=
  ∃ outcome new e', operation.run.run e = (outcome, e') ∧ e'.behind.store = e.behind.store ∧
    e.Onward new e' ∧ ∀ b', outcome = .ok b' → b' = b

omit [Backend σ] [LawfulBackend σ] in
theorem Engine.Tries.pure (e : Engine (Faulty σ)) (b : β) : e.Tries (pure b) b :=
  ⟨_, [], e, rfl, rfl, .refl e, fun _ h => (Except.ok.inj h).symm⟩

omit [Backend σ] [LawfulBackend σ] in
theorem Engine.Tries.bind {e : Engine (Faulty σ)} {x : Attempt (Faulty σ) α}
    {f : α → Attempt (Faulty σ) β} {a : α} {b : β} (hx : e.Tries x a)
    (hf : ∀ e' : Engine (Faulty σ), e'.behind.store = e.behind.store → e'.Tries (f a) b) :
    e.Tries (x >>= f) b := by
  obtain ⟨outcome, new, e', hrun, hstore, honward, hvalue⟩ := hx
  cases outcome with
  | error err => exact ⟨_, new, e', Attempt.bind_error hrun f, hstore, honward, fun _ h => by cases h⟩
  | ok a' =>
    obtain rfl := hvalue a' rfl
    obtain ⟨outcome, new', e'', hrun', hstore', honward', hvalue'⟩ := hf e' hstore
    exact ⟨outcome, new' ++ new, e'', (Attempt.bind_ok hrun f).trans hrun', hstore'.trans hstore,
      honward.trans honward', hvalue'⟩

/-- A piece of work on a stream that is not failed now is the work of the store behind. -/
theorem Engine.advance_behind {i : Option (Nat × Error)} (hi : ∀ err, i ≠ some (0, err))
    (s : KeyScan) (e : Engine (Faulty σ)) :
    (advance ⟨s, i⟩).run e = (((s.advance e.behind.fetch).1,
      ⟨(s.advance e.behind.fetch).2, Faulty.approach (s.advance e.behind.fetch).1 i⟩), e) := by
  have hinside : (Backend.advance ⟨s, i⟩ : StateM (Faulty σ) _).run e.store =
      ((((Backend.advance ⟨s, i⟩ : StateM σ _).run e.store.store).1.1,
        ⟨((Backend.advance ⟨s, i⟩ : StateM σ _).run e.store.store).1.2.scan,
          Faulty.approach ((Backend.advance ⟨s, i⟩ : StateM σ _).run e.store.store).1.1 i⟩),
        ⟨((Backend.advance ⟨s, i⟩ : StateM σ _).run e.store.store).2, e.store.rules⟩) := by
    match i with
    | some (0, err) => exact absurd rfl (hi err)
    | none | some (n + 1, err) => rfl
  rw [LawfulBackend.advance_eq (σ := σ)] at hinside
  show (((Backend.advance ⟨s, i⟩ : StateM (Faulty σ) _).run e.store).1,
    ({ e with store := ((Backend.advance ⟨s, i⟩ : StateM (Faulty σ) _).run e.store).2 } :
      Engine (Faulty σ))) = _
  rw [hinside]
  rfl

/-- Running through a scan that is failed part-way: whoever passes over the failure takes in all
keys. The failure takes one more piece of work. -/
theorem Engine.foldStream_interrupted {f : β → Except Error String → Attempt (Faulty σ) β}
    {g : β → String → β}
    (hkey : ∀ b key (e : Engine (Faulty σ)), e.Tries (f b (.ok key)) (g b key))
    (hfailed : ∀ b err (e : Engine (Faulty σ)), e.Tries (f b (.error err)) b) {fuel : Nat}
    {s : KeyScan} (hs : s.Sound) {i : Option (Nat × Error)} {e : Engine (Faulty σ)}
    (hfuel : s.work e.behind.keys + i.toList.length < fuel) (b : β) :
    e.Tries (foldStream f fuel b ⟨s, i⟩) ((s.brings (s.pending e.behind.keys)).foldl g b) := by
  induction fuel generalizing s i e b with
  | zero => omega
  | succ fuel ih =>
    have hsame : ∀ {e' : Engine (Faulty σ)}, e'.behind.store = e.behind.store →
        e'.behind.keys = e.behind.keys := fun h => by rw [keys, keys, h]
    by_cases hnow : ∃ err, i = some (0, err)
    · obtain ⟨err, rfl⟩ := hnow
      have hstep : (foldStream f (fuel + 1) b ⟨s, some (0, err)⟩).run.run e =
          (f b (.error err) >>= fun b => foldStream f fuel b ⟨s, none⟩).run.run e := rfl
      have hrest : e.Tries (f b (.error err) >>= fun b => foldStream f fuel b ⟨s, none⟩)
          ((s.brings (s.pending e.behind.keys)).foldl g b) := by
        refine (hfailed b err e).bind fun e' hstore => ?_
        rw [← hsame hstore]
        refine ih hs ?_ b
        rw [hsame hstore]
        simp only [Option.toList_some, List.length_singleton, Option.toList_none,
          List.length_nil] at hfuel ⊢
        omega
      rw [Tries, hstep]
      exact hrest
    · have hrun := advance_behind (i := i) (fun err h => hnow ⟨err, h⟩) s e
      have hadv := KeyScan.advance_advances e.behind.serves_fetch hs
      have hnearer : (Faulty.approach (s.advance e.behind.fetch).1 i).toList.length ≤
          i.toList.length := by
        unfold Faulty.approach
        split <;> simp
      rw [Tries, foldStream, Attempt.lift_bind, hrun]
      dsimp only
      generalize (s.advance e.behind.fetch).1 = event at hadv hnearer ⊢
      generalize (s.advance e.behind.fetch).2 = s' at hadv ⊢
      generalize Faulty.approach event i = i' at hnearer ⊢
      have hsound := hadv.sound e.behind.pairwise_keys hs
      have hbrings := hadv.brings e.behind.pairwise_keys hs
      have hwork := hadv.work e.behind.pairwise_keys hs
      cases event with
      | key key =>
        have := hwork (by simp)
        have hlist : s.brings (s.pending e.behind.keys) =
          key :: s'.brings (s'.pending e.behind.keys) := hbrings
        rw [hlist]
        refine (hkey b key e).bind fun e' hstore => ?_
        rw [← hsame hstore]
        exact ih hsound (by rw [hsame hstore]; omega) _
      | skip =>
        have := hwork (by simp)
        have hlist : s.brings (s.pending e.behind.keys) =
          s'.brings (s'.pending e.behind.keys) := hbrings
        rw [hlist]
        exact ih hsound (by omega) b
      | done =>
        have hlist : s.brings (s.pending e.behind.keys) = [] := hbrings
        rw [hlist]
        exact Tries.pure e b
      | failed err => exact absurd hbrings id

/-- A scan is not opened, or starts at the patterns. -/
theorem Engine.keys_behind {patterns : List String} {ps : List KeyPattern}
    (hread : KeyPattern.parseAll patterns = .ok ps) (e : Engine (Faulty σ)) :
    ∃ outcome e', (call (Backend.keys patterns) : Attempt (Faulty σ) _).run.run e = (outcome, e') ∧
      e'.behind = e.behind ∧ ∀ stream, outcome = .ok stream → ∃ i, stream = ⟨.start ps, i⟩ := by
  have hstrike := Faulty.strike_run (FaultRule.isAmong .keys patterns) e.store
  generalize FaultRule.strike (FaultRule.isAmong .keys patterns) e.store.rules = struck at hstrike
  obtain ⟨fired, rules⟩ := struck
  rw [call_run, Faulty.keys_eq, Access.bind_ok hstrike]
  cases fired with
  | some rule => exact ⟨_, _, rfl, rfl, fun _ h => by cases h⟩
  | none =>
    have hopen : (Backend.keys patterns : Access σ _).run.run e.store.store =
        (.ok (.ofScan (.start ps)), e.store.store) := by
      rw [LawfulBackend.keys_eq, Backend.openScan, hread]
      rfl
    have hinside := Faulty.inside_run (Backend.keys patterns) ⟨e.store.store, rules⟩
    rw [hopen] at hinside
    dsimp only at hinside ⊢
    rw [Access.bind_ok hinside]
    refine ⟨_, _, rfl, rfl, fun stream h => ⟨stream.interruption, ?_⟩⟩
    rw [← Except.ok.inj h]
    exact congrArg (KeyStream.mk · _) (Faulty.interrupted_scan _ _)

/-- Running through the keys that match one of some patterns. -/
theorem Engine.foldKeys_interrupted {f : β → Except Error String → Attempt (Faulty σ) β}
    {g : β → String → β}
    (hkey : ∀ b key (e : Engine (Faulty σ)), e.Tries (f b (.ok key)) (g b key))
    (hfailed : ∀ b err (e : Engine (Faulty σ)), e.Tries (f b (.error err)) b)
    {patterns : List String} {ps : List KeyPattern} (hread : KeyPattern.parseAll patterns = .ok ps)
    (hne : ps ≠ []) (hps : ∀ p ∈ ps, p.isEverything = false ∧ p.isExact = false) (b : β)
    (e : Engine (Faulty σ)) :
    e.Tries (foldKeys f b patterns)
      (((KeyScan.start ps).brings ((KeyScan.start ps).pending e.behind.keys)).foldl g b) := by
  obtain ⟨outcome, e', hrun, hbehind, hstream⟩ := keys_behind hread e
  cases outcome with
  | error err =>
    exact ⟨_, [], e', Attempt.bind_error hrun _, congrArg _ hbehind, .of_behind hbehind,
      fun _ h => by cases h⟩
  | ok stream =>
    obtain ⟨i, rfl⟩ := hstream stream rfl
    have hsize : Backend.size e'.store = e.behind.keys.length := by
      show Backend.size e'.behind.store = _
      rw [hbehind, size_eq_length]
    have hfuel : (KeyScan.start ps).work e'.behind.keys + i.toList.length <
        (KeyStream.mk (.start ps) i).effort e.behind.keys.length := by
      have hwork := KeyScan.work_start_le ps e.behind.keys
      have hstems : (KeyScan.start ps).stems.length * (2 * e.behind.keys.length + 2) ≤
          ((KeyScan.start ps).stems.length + 1) * (2 * e.behind.keys.length + 2) :=
        Nat.mul_le_mul_right _ (Nat.le_succ _)
      have hlate : i.toList.length ≤ 1 := by cases i <;> simp
      rw [hbehind, KeyStream.effort]
      dsimp only
      omega
    obtain ⟨outcome, new, e'', hrun', hstore, honward, hvalue⟩ :=
      foldStream_interrupted hkey hfailed (KeyScan.sound_start hne hps) hfuel b
    rw [hbehind] at hstore hvalue
    refine ⟨outcome, new ++ [], e'', ?_, hstore, (Onward.of_behind hbehind).trans honward, hvalue⟩
    rw [foldKeys, Attempt.bind_ok hrun, Attempt.get_bind, hsize]
    exact hrun'

/-- What is tried, on the records behind the rules. -/
theorem Endures.of_tries {m : Records} {operation : Attempt (Faulty σ) β} {P : β → Prop}
    (h : ∀ e : Engine (Faulty σ), e.behind.Holds m → ∃ b, e.Tries operation b ∧ P b) :
    Endures m operation.run fun outcome m' _ => m' = m ∧ ∀ b, outcome = .ok b → P b := by
  intro e he
  obtain ⟨b, ⟨outcome, new, e', hrun, hstore, honward, hvalue⟩, hp⟩ := h e he
  rw [hrun]
  refine ⟨m, new, ⟨fun r hr => ?_, fun key => ?_⟩, honward, rfl, fun b' hb' => ?_⟩
  · rw [contents, hstore]
    exact he.stored r hr
  · rw [contents, hstore]
    exact he.only key
  · rwa [hvalue b' hb']

variable {m : Records} {pattern : String} {p : KeyPattern}

/-- The records that are there and match a pattern. -/
def Records.Found (m : Records) (p : KeyPattern) (rs : List RecordKey) : Prop :=
  ∀ r, r ∈ rs ↔ r.Valid ∧ m r ≠ none ∧ p.accepts r.text = true

/-- The keys that match a pattern are those of the records that do. -/
theorem Engine.Holds.exists_found {e : Engine σ} (he : e.Holds m) (p : KeyPattern) :
    ∃ rs : List RecordKey, e.keys.filter p.accepts = rs.map RecordKey.text ∧ m.Found p rs := by
  obtain ⟨rs, hkeys, hrs⟩ := he.exists_records fun key hkey => List.mem_of_mem_filter hkey
  refine ⟨rs, hkeys, fun r => ⟨fun hr => ?_, fun ⟨hvalid, hthere, haccepts⟩ => ?_⟩⟩
  · obtain ⟨hvalid, hthere⟩ := hrs r hr
    have hmem : r.text ∈ e.keys.filter p.accepts := hkeys ▸ List.mem_map_of_mem hr
    exact ⟨hvalid, hthere, (List.mem_filter.1 hmem).2⟩
  · rw [← mem_of_text_mem (fun r hr => (hrs r hr).1) hvalid, ← hkeys, List.mem_filter]
    exact ⟨(he.mem_keys_iff hvalid).2 hthere, haccepts⟩

section

variable (hread : KeyPattern.parse pattern = .ok p) (heverything : p.isEverything = false)
  (hexact : p.isExact = false)

include hread heverything hexact

/-- Collecting the keys that match a pattern, where an error among them either ends it or is
passed over. -/
theorem endures_foldKeys {f : List String → Except Error String → Attempt (Faulty σ) (List String)}
    (hkey : ∀ found key (e : Engine (Faulty σ)), e.Tries (f found (.ok key)) (key :: found))
    (hfailed : ∀ found err (e : Engine (Faulty σ)), e.Tries (f found (.error err)) found) :
    Endures m (do
      let found ← foldKeys f [] [pattern]
      return found.reverse : Attempt (Faulty σ) _).run fun outcome m' _ =>
      m' = m ∧ ∀ keys, outcome = .ok keys → ∃ rs, keys = rs.map RecordKey.text ∧ m.Found p rs := by
  have hreadAll := KeyPattern.parseAll_singleton hread
  have hps : ∀ q ∈ [p], q.isEverything = false ∧ q.isExact = false := by
    simpa using ⟨heverything, hexact⟩
  refine .of_tries fun e he => ?_
  obtain ⟨rs, hkeys, hfound⟩ := he.exists_found p
  have hfold := foldKeys_interrupted hkey hfailed hreadAll (by simp) hps [] e
  rw [KeyScan.brings_single heverything, hkeys] at hfold
  refine ⟨_, hfold.bind fun e' _ => .pure e' _, rs, ?_, hfound⟩
  exact foldl_cons_reverse _ []

theorem endures_keysMatching (m : Records) :
    Endures m (keysMatching pattern : Attempt (Faulty σ) _).run fun outcome m' _ =>
      m' = m ∧ ∀ keys, outcome = .ok keys → ∃ rs, keys = rs.map RecordKey.text ∧ m.Found p rs :=
  endures_foldKeys hread heverything hexact (fun _ _ e => .pure e _) fun found err e =>
    ⟨_, [], e, rfl, rfl, .refl e, fun _ h => by cases h⟩

/-- Collecting keys where failures are noted: all that match are found, unless the scan did not
open. -/
theorem endures_collectQuietly (m : Records) :
    Endures m (collectQuietly pattern : Run (Faulty σ) _) fun keys m' new =>
      m' = m ∧ ∃ rs, keys = rs.map RecordKey.text ∧
        (m.Found p rs ∨ rs = [] ∧ ∃ err, .cleanupFailed pattern err ∈ new) := by
  have hscan : Endures m (keysDespite pattern [pattern] : Attempt (Faulty σ) _).run
      fun outcome m' _ => m' = m ∧ ∀ keys, outcome = .ok keys →
        ∃ rs, keys = rs.map RecordKey.text ∧ m.Found p rs :=
    endures_foldKeys hread heverything hexact (fun _ _ e => .pure e _) fun found err e =>
      ⟨_, [.cleanupFailed pattern err], _, rfl, rfl, ⟨rfl, rfl, rfl⟩,
        fun _ h => (Except.ok.inj h).symm⟩
  refine hscan.quietly (fun keys m' new h => ⟨h.1, ?_⟩) fun err m' new h => ⟨h.1, [], rfl, ?_⟩
  · obtain ⟨rs, hkeys, hfound⟩ := h.2 keys rfl
    exact ⟨rs, hkeys, .inl hfound⟩
  · exact .inr ⟨rfl, err, List.mem_cons_self⟩

end

end Scans

end PropertyGraph
