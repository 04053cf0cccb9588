/-
Stores whose calls may fail. What a store holds is seen as a memory; a call either does to
it what it does to a memory, or ends in a storage error and changes nothing
(`FallibleBackend`). Which calls fail is left open. Every lawful store is one of these, and so
is a store that counts its calls or has some of them failed by rules.
-/
import PropertyGraph.Proofs.Buckets
import PropertyGraph.Store.Counted
import PropertyGraph.Store.Faulty

namespace PropertyGraph

/-- What interrupts a stream of keys is an error of the store. -/
def KeyStream.Honest (stream : KeyStream) : Prop :=
  ∀ n err, stream.interruption = some (n, err) → ∃ fault, err = .storage fault

/-- A store each of whose calls works as on a memory, or fails and changes nothing. -/
class FallibleBackend (σ : Type) [Backend σ] where
  /-- What the store holds. -/
  held : σ → Memory
  page : σ → (stem : String) → (after : Option String) → (limit : Nat) → List String
  make_cases (c : KeyCall) (s : σ) :
    c.make.run (held s) = ((c.make.run s).1, held (c.make.run s).2) ∨
      (∃ fault, (c.make.run s).1 = .error (.storage fault)) ∧ held (c.make.run s).2 = held s
  keys_cases (patterns : List String) (s : σ) :
    held ((Backend.keys patterns : Access σ _).run.run s).2 = held s ∧
      ((∃ fault, ((Backend.keys patterns : Access σ _).run.run s).1 = .error (.storage fault)) ∨
        match KeyPattern.parseAll patterns with
        | .ok ps => ∃ stream, ((Backend.keys patterns : Access σ _).run.run s).1 = .ok stream ∧
          stream.scan = .start ps ∧ stream.Honest
        | .error err => ((Backend.keys patterns : Access σ _).run.run s).1 = .error err)
  advance_cases {stream : KeyStream} (h : stream.Honest) (s : σ) :
    held ((Backend.advance stream : StateM σ _).run s).2 = held s ∧
      ((Backend.advance stream : StateM σ _).run s).1.2.Honest ∧
      ((∃ fault, ((Backend.advance stream : StateM σ _).run s).1.1 = .failed (.storage fault)) ∧
          ((Backend.advance stream : StateM σ _).run s).1.2.scan = stream.scan ∨
        stream.scan.advance (fun stem after limit => .ok (page s stem after limit)) =
          (((Backend.advance stream : StateM σ _).run s).1.1,
            ((Backend.advance stream : StateM σ _).run s).1.2.scan))
  /-- A page holds keys of the store. -/
  mem_page {s : σ} {stem : String} {after : Option String} {limit : Nat} {key : String} :
    key ∈ page s stem after limit → key ∈ (held s).entries.keys

theorem Access.bind_ok {σ α β : Type} {x : Access σ α} {s s' : σ} {a : α}
    (h : x.run.run s = (.ok a, s')) (f : α → Access σ β) :
    (x >>= f).run.run s = (f a).run.run s' := by
  show (ExceptT.bindCont f (x.run.run s).1).run (x.run.run s).2 = _
  rw [h]
  rfl

theorem Access.bind_error {σ α β : Type} {x : Access σ α} {s s' : σ} {err : Error}
    (h : x.run.run s = (.error err, s')) (f : α → Access σ β) :
    (x >>= f).run.run s = (.error err, s') := by
  show (ExceptT.bindCont f (x.run.run s).1).run (x.run.run s).2 = _
  rw [h]
  rfl

namespace FallibleBackend

variable {σ : Type} [Backend σ] [FallibleBackend σ]

/-- A call ends in a storage error and changes nothing. -/
def Failed {α : Type} (s : σ) (r : Except Error α × σ) : Prop :=
  (∃ fault, r.1 = .error (.storage fault)) ∧ held r.2 = held s

theorem map_eq_ok {α β : Type} {f : α → β} {x : Except Error α} {b : β} (h : x.map f = .ok b) :
    ∃ a, x = .ok a ∧ f a = b := by
  cases x with
  | ok a => exact ⟨a, rfl, Except.ok.inj h⟩
  | error err => cases h

theorem map_eq_error {α β : Type} {f : α → β} {x : Except Error α} {err : Error}
    (h : x.map f = .error err) : x = .error err := by
  cases x with
  | ok a => cases h
  | error err' => exact congrArg _ (Except.error.inj h)

theorem Failed.of_map {α β : Type} {f : α → β} {call : Access σ α} {s : σ}
    (h : (∃ fault, ((f <$> call).run.run s).1 = .error (.storage fault)) ∧
      held ((f <$> call).run.run s).2 = held s) : Failed s (call.run.run s) := by
  rw [Access.map_run] at h
  obtain ⟨⟨fault, herr⟩, hheld⟩ := h
  exact ⟨⟨fault, map_eq_error herr⟩, hheld⟩

theorem get_cases (key : String) (s : σ) :
    let r := (Backend.get key : Access σ _).run.run s
    Failed s r ∨ r.1 = .ok ((held s).entries.get? key) ∧ held r.2 = held s := by
  rcases make_cases (.get key) s with h | h
  · obtain ⟨houtcome, hheld⟩ := Prod.mk.inj h
    rw [KeyCall.make, Access.map_run] at houtcome hheld
    obtain ⟨entry, hentry, hfound⟩ := map_eq_ok houtcome.symm
    cases hfound
    exact .inr ⟨hentry, hheld.symm⟩
  · exact .inl (.of_map h)

/-- A call that writes a value under a key: it fails, or it works as on a memory. -/
theorem write_cases {c : KeyCall} {call : Access σ Nat} {key : String} {value : Blob} {s : σ}
    (hmake : (c.make : StateM σ _) = (KeyAnswer.written <$> call : Access σ _).run)
    (hmemory : c.make.run (held s) =
      (.ok (.written ((held s).revision + 1)), (held s).write key value)) :
    Failed s (call.run.run s) ∨ (call.run.run s).1 = .ok ((held s).revision + 1) ∧
      held (call.run.run s).2 = (held s).write key value := by
  rcases make_cases c s with h | h
  · rw [hmemory, hmake] at h
    obtain ⟨houtcome, hheld⟩ := Prod.mk.inj h
    rw [Access.map_run] at houtcome hheld
    obtain ⟨n, hn, hwritten⟩ := map_eq_ok houtcome.symm
    cases hwritten
    exact .inr ⟨hn, hheld.symm⟩
  · rw [hmake] at h
    exact .inl (.of_map h)

theorem put_cases (key : String) (value : Blob) (s : σ) :
    let r := (Backend.put key value : Access σ _).run.run s
    Failed s r ∨ r.1 = .ok ((held s).revision + 1) ∧ held r.2 = (held s).write key value :=
  write_cases (c := .put key value) rfl rfl

theorem update_cases (key : String) (value : Blob) (s : σ) :
    let r := (Backend.update key value : Access σ _).run.run s
    Failed s r ∨ r.1 = .ok ((held s).revision + 1) ∧ held r.2 = (held s).write key value :=
  write_cases (c := .update key value) rfl rfl

theorem create_cases (key : String) (value : Blob) (s : σ) :
    let r := (Backend.create key value : Access σ _).run.run s
    Failed s r ∨ (r.1 = .error (.keyExists key) ∧ held r.2 = held s) ∨
      r.1 = .ok ((held s).revision + 1) ∧ held r.2 = (held s).write key value := by
  have hmemory := KeyCall.create_run key value (held s)
  by_cases hkey : (held s).entries.contains key = true
  · rw [if_pos hkey] at hmemory
    rcases make_cases (.create key value) s with h | h
    · rw [hmemory, KeyCall.make, Access.map_run] at h
      obtain ⟨houtcome, hheld⟩ := Prod.mk.inj h
      exact .inr (.inl ⟨map_eq_error houtcome.symm, hheld.symm⟩)
    · exact .inl (.of_map h)
  · rw [if_neg hkey] at hmemory
    exact (write_cases (c := .create key value) rfl hmemory).imp_right .inr

theorem delete_cases (key : String) (s : σ) :
    let r := (Backend.delete key : Access σ _).run.run s
    Failed s r ∨ r.1 = .ok () ∧
      held r.2 = { held s with entries := (held s).entries.erase key } := by
  rcases make_cases (.delete key) s with h | h
  · obtain ⟨houtcome, hheld⟩ := Prod.mk.inj h
    rw [KeyCall.make, Access.map_run] at houtcome hheld
    obtain ⟨a, ha, -⟩ := map_eq_ok houtcome.symm
    exact .inr ⟨ha, hheld.symm⟩
  · exact .inl (.of_map h)

end FallibleBackend

/-! ## Stores that do not fail -/

/-- A lawful store, none of whose calls fails. -/
abbrev FallibleBackend.ofLawful {σ : Type} [Backend σ] [LawfulBackend σ]
    (mem_page : ∀ {s : σ} {stem : String} {after : Option String} {limit : Nat} {key : String},
      key ∈ LawfulBackend.page s stem after limit → key ∈ (LawfulBackend.entries s).keys) :
    FallibleBackend σ where
  held := LawfulBackend.asMemory
  page := LawfulBackend.page
  make_cases c s := .inl (c.make_run s)
  keys_cases patterns s := by
    rw [LawfulBackend.keys_eq, Backend.openScan]
    cases hparse : KeyPattern.parseAll patterns with
    | ok ps => exact ⟨rfl, .inr ⟨_, rfl, rfl, by simp [KeyStream.Honest, KeyStream.ofScan]⟩⟩
    | error err => exact ⟨rfl, .inr rfl⟩
  advance_cases h s := by
    rw [LawfulBackend.advance_eq]
    exact ⟨rfl, h, .inr rfl⟩
  mem_page := mem_page

theorem Memory.mem_page {m : Memory} {stem : String} {after : Option String} {limit : Nat}
    {key : String} (h : key ∈ m.page stem after limit) : key ∈ m.entries.keys := by
  have htaken := List.mem_of_mem_take h
  exact (List.dropWhile_sublist _).subset ((List.takeWhile_sublist _).subset htaken)

theorem Database.mem_page {db : Database} {bucket stem : String} {after : Option String}
    {limit : Nat} {key : String} (h : key ∈ db.page bucket stem after limit) :
    key ∈ (db.entries bucket).keys := by
  rw [keys_entries]
  exact List.mem_of_mem_filter (List.mem_of_mem_take h)

instance : FallibleBackend Memory := .ofLawful Memory.mem_page

instance : FallibleBackend Bucket := .ofLawful Database.mem_page

instance : FallibleBackend Handle := .ofLawful fun {h _ _ _ _} =>
  match h with
  | .memory _ => Memory.mem_page
  | .database _ => Database.mem_page

/-! ## Stores that count, stores that fail on purpose -/

variable {σ : Type} [Backend σ]

namespace Counted

/-- What a call adds to the counters. -/
def tick : KeyCall → Counters → Counters
  | .get _, c => { c with gets := c.gets + 1 }
  | .put _ _, c => { c with puts := c.puts + 1 }
  | .update _ _, c => { c with updates := c.updates + 1 }
  | .create _ _, c => { c with creates := c.creates + 1 }
  | .delete _, c => { c with deletes := c.deletes + 1 }

theorem make_run (call : KeyCall) (c : Counted σ) :
    call.make.run c =
      ((call.make.run c.store).1, ⟨(call.make.run c.store).2, tick call c.counters⟩) := by
  cases call <;> (simp only [KeyCall.make, Access.map_run]; rfl)

theorem keys_run (patterns : List String) (c : Counted σ) :
    (Backend.keys patterns : Access (Counted σ) _).run.run c =
      (((Backend.keys patterns : Access σ _).run.run c.store).1,
        ⟨((Backend.keys patterns : Access σ _).run.run c.store).2,
          { c.counters with keyScans := c.counters.keyScans + 1 }⟩) := rfl

theorem advance_run (stream : KeyStream) (c : Counted σ) :
    (Backend.advance stream : StateM (Counted σ) _).run c =
      (((Backend.advance stream : StateM σ _).run c.store).1,
        ⟨((Backend.advance stream : StateM σ _).run c.store).2,
          tally ((Backend.advance stream : StateM σ _).run c.store).1.1 c.counters⟩) := rfl

end Counted

instance [FallibleBackend σ] : FallibleBackend (Counted σ) where
  held c := FallibleBackend.held c.store
  page c := FallibleBackend.page c.store
  make_cases call c := by
    rw [Counted.make_run]
    exact FallibleBackend.make_cases call c.store
  keys_cases patterns c := by
    rw [Counted.keys_run]
    exact FallibleBackend.keys_cases patterns c.store
  advance_cases h c := by
    rw [Counted.advance_run]
    exact FallibleBackend.advance_cases h c.store
  mem_page h := FallibleBackend.mem_page h

namespace Faulty

omit [Backend σ] in
theorem strike_run (hits : FaultRule → Bool) (f : Faulty σ) :
    (strike hits).run.run f =
      (.ok (FaultRule.strike hits f.rules).1, ⟨f.store, (FaultRule.strike hits f.rules).2⟩) := rfl

omit [Backend σ] in
theorem inside_run {α : Type} (inner : Access σ α) (f : Faulty σ) :
    (inside inner).run.run f =
      ((inner.run.run f.store).1, ⟨(inner.run.run f.store).2, f.rules⟩) := rfl

omit [Backend σ] in
/-- The rules fail a call, or it is made. -/
theorem guarded_run {α : Type} (call : StoreCall) (key : String) (inner : Access σ α)
    (f : Faulty σ) : ∃ rules,
      (∃ fault, (guarded call key inner).run.run f = (.error (.storage fault), ⟨f.store, rules⟩)) ∨
        (guarded call key inner).run.run f =
          ((inner.run.run f.store).1, ⟨(inner.run.run f.store).2, rules⟩) := by
  refine ⟨(FaultRule.strike (FaultRule.isAbout call key) f.rules).2, ?_⟩
  rw [guarded, Access.bind_ok (strike_run (FaultRule.isAbout call key) f)]
  cases (FaultRule.strike (FaultRule.isAbout call key) f.rules).1 with
  | some rule => exact .inl ⟨_, rfl⟩
  | none => exact .inr rfl

/-- The rules fail a call on a key, or it is made. -/
theorem make_cases (call : KeyCall) (f : Faulty σ) : ∃ rules,
    (∃ fault, call.make.run f = (.error (.storage fault), ⟨f.store, rules⟩)) ∨
      call.make.run f = ((call.make.run f.store).1, ⟨(call.make.run f.store).2, rules⟩) := by
  have hmap {α : Type} (g : α → KeyAnswer) (kind : StoreCall) (key : String)
      (inner : Access σ α) : ∃ rules,
      (∃ fault, (g <$> guarded kind key inner).run.run f =
        (.error (.storage fault), ⟨f.store, rules⟩)) ∨
      (g <$> guarded kind key inner).run.run f =
        (((g <$> inner).run.run f.store).1, ⟨((g <$> inner).run.run f.store).2, rules⟩) := by
    obtain ⟨rules, ⟨fault, h⟩ | h⟩ := guarded_run kind key inner f
    · exact ⟨rules, .inl ⟨fault, by rw [Access.map_run, h]; rfl⟩⟩
    · exact ⟨rules, .inr (by rw [Access.map_run, Access.map_run, h])⟩
  cases call <;> exact hmap _ _ _ _

/-- A stream as a rule that fired leaves it. -/
def interrupted (stream : KeyStream) : Option FaultRule → KeyStream
  | some rule => { stream with interruption := some (rule.position, rule.fault rule.subject) }
  | none => stream

omit [Backend σ] in
theorem interrupted_scan (stream : KeyStream) (fired : Option FaultRule) :
    (interrupted stream fired).scan = stream.scan := by
  cases fired <;> rfl

omit [Backend σ] in
theorem interrupted_honest {stream : KeyStream} (h : stream.Honest) (fired : Option FaultRule) :
    (interrupted stream fired).Honest := by
  cases fired with
  | some rule =>
    rintro n err hinterruption
    cases hinterruption
    exact ⟨_, rfl⟩
  | none => exact h

/-- Opening a scan. -/
theorem keys_eq (patterns : List String) : (Backend.keys patterns : Access (Faulty σ) _) = do
    match ← strike (FaultRule.isAmong .keys patterns) with
    | some rule => throw (rule.fault rule.subject)
    | none =>
      let stream ← inside (Backend.keys patterns)
      let fired ← strike (FaultRule.isAmong .stream patterns)
      return interrupted stream fired := by
  refine bind_congr fun fired => ?_
  cases fired with
  | some rule => rfl
  | none =>
    refine bind_congr fun stream => bind_congr fun fired => ?_
    cases fired <;> rfl

/-- An event that is passed on brings an interruption nearer, but does not change its error. -/
theorem honest_approach {stream stream' : KeyStream} (h : stream.Honest) (event : ScanEvent) :
    ({ stream' with interruption := approach event stream.interruption } : KeyStream).Honest := by
  intro n err hinterruption
  obtain ⟨scan, interruption⟩ := stream
  match event, interruption with
  | .key _, some (n + 1, e) | .failed _, some (n + 1, e) =>
    cases hinterruption
    exact h (n + 1) err rfl
  | .key _, some (0, e) | .failed _, some (0, e) | .skip, some _ | .done, some _ =>
    exact h n err hinterruption
  | .key _, none | .failed _, none | .skip, none | .done, none => cases hinterruption

end Faulty

/-- A scan that is not failed by rules is the scan of the store behind them. -/
instance [FallibleBackend σ] : FallibleBackend (Faulty σ) where
  held f := FallibleBackend.held f.store
  page f := FallibleBackend.page f.store
  make_cases call f := by
    obtain ⟨rules, ⟨fault, h⟩ | h⟩ := Faulty.make_cases call f
    · rw [h]
      exact .inr ⟨⟨fault, rfl⟩, rfl⟩
    · rw [h]
      exact FallibleBackend.make_cases call f.store
  keys_cases patterns f := by
    obtain ⟨hheld, hinner⟩ := FallibleBackend.keys_cases patterns f.store
    have hstrike := Faulty.strike_run (FaultRule.isAmong .keys patterns) f
    generalize FaultRule.strike (FaultRule.isAmong .keys patterns) f.rules = struck at hstrike
    obtain ⟨fired, rules⟩ := struck
    rw [Faulty.keys_eq, Access.bind_ok hstrike]
    cases fired with
    | some rule => exact ⟨rfl, .inl ⟨_, rfl⟩⟩
    | none =>
      have hinside := Faulty.inside_run (Backend.keys patterns) ⟨f.store, rules⟩
      dsimp only at hinside ⊢
      generalize (Backend.keys patterns : Access σ _).run.run f.store = opened at hheld hinner hinside
      obtain ⟨outcome | stream, store⟩ := opened
      · rw [Access.bind_error hinside]
        refine ⟨hheld, hinner.imp id fun h => ?_⟩
        revert h
        cases KeyPattern.parseAll patterns with
        | error err => exact id
        | ok ps => exact fun ⟨_, h, _⟩ => by cases h
      · rw [Access.bind_ok hinside]
        refine ⟨hheld, .inr ?_⟩
        rcases hinner with ⟨_, h⟩ | h
        · cases h
        revert h
        cases KeyPattern.parseAll patterns with
        | error err => exact fun h => by cases h
        | ok ps =>
          rintro ⟨_, h, hscan, hhonest⟩
          cases h
          exact ⟨_, rfl, (Faulty.interrupted_scan ..).trans hscan, Faulty.interrupted_honest hhonest _⟩
  advance_cases {stream} h f := by
    obtain ⟨scan, interruption⟩ := stream
    have hinner := FallibleBackend.advance_cases h f.store
    match interruption with
    | some (0, err) =>
      obtain ⟨fault, rfl⟩ := h 0 err rfl
      have hhonest : (KeyStream.mk scan none).Honest := fun _ _ hnone => nomatch hnone
      exact ⟨rfl, hhonest, .inl ⟨⟨fault, rfl⟩, rfl⟩⟩
    | some (n + 1, err) => exact ⟨hinner.1, Faulty.honest_approach h _, hinner.2.2⟩
    | none => exact ⟨hinner.1, Faulty.honest_approach h _, hinner.2.2⟩
  mem_page h := FallibleBackend.mem_page h

end PropertyGraph
