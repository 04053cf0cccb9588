/-
How operations of the engine run on a store that keeps its promises: sequences, calls on the
store, and scans. A scan over a store that does not change meanwhile brings exactly the keys
its patterns match (`Engine.keysMatching_run`, `Engine.keysDespite_run`).
-/
import PropertyGraph.Graph.Engine
import PropertyGraph.Proofs.Scan

namespace PropertyGraph

variable {σ α β : Type}

/-! ## Running operations -/

theorem Run.bind_run (x : Run σ α) (f : α → Run σ β) (e : Engine σ) :
    (x >>= f).run e = (f (x.run e).1).run (x.run e).2 := rfl

theorem Attempt.bind_run (x : Attempt σ α) (f : α → Attempt σ β) (e : Engine σ) :
    (x >>= f).run.run e =
      match (x.run.run e).1 with
      | .ok a => (f a).run.run (x.run.run e).2
      | .error err => (.error err, (x.run.run e).2) := by
  show (ExceptT.bindCont f (x.run.run e).1).run (x.run.run e).2 = _
  cases (x.run.run e).1 <;> rfl

theorem Attempt.bind_ok {x : Attempt σ α} {e e' : Engine σ} {a : α}
    (h : x.run.run e = (.ok a, e')) (f : α → Attempt σ β) :
    (x >>= f).run.run e = (f a).run.run e' := by
  rw [Attempt.bind_run, h]

theorem Attempt.bind_error {x : Attempt σ α} {e e' : Engine σ} {err : Error}
    (h : x.run.run e = (.error err, e')) (f : α → Attempt σ β) :
    (x >>= f).run.run e = (.error err, e') := by
  rw [Attempt.bind_run, h]

theorem Attempt.lift_bind (x : Run σ α) (f : α → Attempt σ β) (e : Engine σ) :
    ((liftM x : Attempt σ α) >>= f).run.run e = (f (x.run e).1).run.run (x.run e).2 := rfl

theorem Attempt.ofExcept_ok_bind {x : Except Error α} {a : α} (h : x = .ok a) (f : α → Attempt σ β)
    (e : Engine σ) :
    ((MonadExcept.ofExcept x : Attempt σ α) >>= f).run.run e = (f a).run.run e := by
  rw [h]
  rfl

theorem Attempt.get_bind (f : Engine σ → Attempt σ α) (e : Engine σ) :
    ((get : Attempt σ (Engine σ)) >>= f).run.run e = (f e).run.run e := rfl

namespace Engine

/-- Handing out an id. -/
theorem freshId_bind (f : String → Attempt σ β) (e : Engine σ) :
    ((liftM (freshId : Run σ String) : Attempt σ String) >>= f).run.run e =
      (f (e.ids e.issued)).run.run { e with issued := e.issued + 1 } := rfl

theorem call_run (access : Access σ α) (e : Engine σ) :
    (call access).run.run e =
      ((access.run.run e.store).1, { e with store := (access.run.run e.store).2 }) := rfl

theorem quietly_ok {key : String} {instead a : α} {operation : Attempt σ α} {e e' : Engine σ}
    (h : operation.run.run e = (.ok a, e')) : (quietly key instead operation).run e = (a, e') := by
  rw [quietly, Run.bind_run, h]
  rfl

end Engine

variable [Backend σ] [LawfulBackend σ]

open LawfulBackend

namespace Engine

/-- What the store keeps under a key. -/
def contents (e : Engine σ) (key : String) : Option Blob :=
  ((entries e.store).get? key).map (·.value)

/-- The keys of the store, in order. -/
def keys (e : Engine σ) : List String := (entries e.store).keys

theorem pairwise_keys (e : Engine σ) : e.keys.Pairwise fun a b => compare a b = .lt :=
  (entries e.store).pairwise_keys

theorem mem_keys_iff {e : Engine σ} {key : String} : key ∈ e.keys ↔ e.contents key ≠ none := by
  rw [keys, SortedMap.mem_keys_iff, contents]
  cases (entries e.store).get? key <;> simp

/-- Nothing differs beside the stores. -/
structure Beside (e e' : Engine σ) : Prop where
  issued : e'.issued = e.issued
  log : e'.log = e.log
  ids : e'.ids = e.ids

omit [Backend σ] [LawfulBackend σ] in
theorem Beside.refl (e : Engine σ) : e.Beside e := ⟨rfl, rfl, rfl⟩

omit [Backend σ] [LawfulBackend σ] in
theorem Beside.trans {e e' e'' : Engine σ} (h : e.Beside e') (h' : e'.Beside e'') :
    e.Beside e'' :=
  ⟨h'.issued.trans h.issued, h'.log.trans h.log, h'.ids.trans h.ids⟩

/-! ## Calls on the store -/

theorem get_run (key : String) (e : Engine σ) :
    (call (Backend.get key)).run.run e = (.ok ((entries e.store).get? key), e) := by
  rw [call_run, LawfulBackend.get_run]

theorem put_run (key : String) (value : Blob) (e : Engine σ) :
    (call (Backend.put key value)).run.run e =
      (.ok (revision e.store + 1), { e with store := write key value e.store }) := by
  rw [call_run, LawfulBackend.put_run]

theorem update_run (key : String) (value : Blob) (e : Engine σ) :
    (call (Backend.update key value)).run.run e =
      (.ok (revision e.store + 1), { e with store := write key value e.store }) := by
  rw [call_run, LawfulBackend.update_run]

theorem create_run {key : String} {e : Engine σ} (h : e.contents key = none) (value : Blob) :
    (call (Backend.create key value)).run.run e =
      (.ok (revision e.store + 1), { e with store := write key value e.store }) := by
  have hnot : (entries e.store).contains key = false := by
    rw [contents, Option.map_eq_none_iff] at h
    rw [SortedMap.contains, h]
    rfl
  rw [call_run, LawfulBackend.create_run, hnot]
  rfl

theorem delete_run (key : String) (e : Engine σ) :
    (call (Backend.delete key)).run.run e =
      (.ok (), { e with store := erase key e.store }) := by
  rw [call_run, LawfulBackend.delete_run]

theorem contents_write (e : Engine σ) (key : String) (value : Blob) (k : String) :
    ({ e with store := write key value e.store } : Engine σ).contents k =
      if k = key then some value else e.contents k := by
  simp only [contents, entries_write]
  split
  · rename_i h
    subst h
    simp
  · rename_i h
    rw [SortedMap.get?_insert_of_ne _ _ h]

theorem contents_erase (e : Engine σ) (key k : String) :
    ({ e with store := erase key e.store } : Engine σ).contents k =
      if k = key then none else e.contents k := by
  simp only [contents, entries_erase]
  split
  · rename_i h
    subst h
    simp
  · rename_i h
    rw [SortedMap.get?_erase_of_ne _ h]

/-! ## Scans -/

/-- The fetch of pages from a store. -/
def fetch (e : Engine σ) : Fetch := fun stem after limit => .ok (page e.store stem after limit)

theorem serves_fetch (e : Engine σ) : KeyScan.Serves e.keys e.fetch := by
  intro r hr
  rw [fetch, page_eq _ _ hr.stem hr.after]
  rfl

theorem advance_run (stream : KeyStream) (e : Engine σ) :
    (advance stream).run e =
      (((stream.scan.advance e.fetch).1, { stream with scan := (stream.scan.advance e.fetch).2 }),
        e) := by
  show (((Backend.advance stream : StateM σ _).run e.store).1,
    ({ e with store := ((Backend.advance stream : StateM σ _).run e.store).2 } : Engine σ)) = _
  rw [advance_eq]
  rfl

/-- Opening a scan. -/
theorem keys_run {patterns : List String} {ps : List KeyPattern}
    (hread : KeyPattern.parseAll patterns = .ok ps) (e : Engine σ) :
    (call (Backend.keys patterns) : Attempt σ KeyStream).run.run e = (.ok (.ofScan (.start ps)), e) := by
  rw [call_run, keys_eq, Backend.openScan, hread]
  rfl

theorem keys_refused {patterns : List String} {err : Error}
    (hread : KeyPattern.parseAll patterns = .error err) (e : Engine σ) :
    (call (Backend.keys patterns) : Attempt σ KeyStream).run.run e = (.error err, e) := by
  rw [call_run, keys_eq, Backend.openScan, hread]
  rfl

theorem size_eq_length (e : Engine σ) : Backend.size e.store = e.keys.length := by
  rw [size_eq, keys, SortedMap.keys, List.length_map]
  rfl

/-- Running through a scan whose keys are taken in, up to a failure, without a change to anything. -/
theorem foldStream_run {f : β → Except Error String → Attempt σ β} {g : β → String → Except Error β}
    {e : Engine σ} {fuel : Nat} {s : KeyScan} (hs : s.Sound) (hfuel : s.work e.keys < fuel)
    (hf : ∀ key ∈ s.brings (s.pending e.keys), ∀ b, (f b (.ok key)).run.run e = (g b key, e))
    (b : β) :
    (foldStream f fuel b (.ofScan s)).run.run e =
      ((s.brings (s.pending e.keys)).foldlM g b, e) := by
  induction fuel generalizing s b with
  | zero => omega
  | succ fuel ih =>
    have hadv := KeyScan.advance_advances e.serves_fetch hs
    have hstep := advance_run (.ofScan s) e
    rw [foldStream, Attempt.lift_bind, hstep]
    dsimp only [KeyStream.ofScan]
    generalize (s.advance e.fetch).1 = event at hadv ⊢
    generalize (s.advance e.fetch).2 = s' at hadv ⊢
    have hsound := hadv.sound e.pairwise_keys hs
    have hbrings := hadv.brings e.pairwise_keys hs
    have hwork := hadv.work e.pairwise_keys hs
    cases event with
    | key key =>
      have := hwork (by simp)
      have hlist : s.brings (s.pending e.keys) = key :: s'.brings (s'.pending e.keys) := hbrings
      rw [hlist] at hf ⊢
      have htaken := hf key List.mem_cons_self b
      rw [List.foldlM_cons]
      cases hkey : g b key with
      | error err =>
        rw [hkey] at htaken
        exact Attempt.bind_error htaken _
      | ok b' =>
        rw [hkey] at htaken
        refine (Attempt.bind_ok htaken _).trans ?_
        exact ih hsound (by omega) (fun k hk => hf k (List.mem_cons_of_mem _ hk)) _
    | skip =>
      have := hwork (by simp)
      have hlist : s.brings (s.pending e.keys) = s'.brings (s'.pending e.keys) := hbrings
      rw [hlist] at hf ⊢
      exact ih hsound (by omega) hf b
    | done =>
      have hlist : s.brings (s.pending e.keys) = [] := hbrings
      rw [hlist]
      rfl
    | failed err => exact absurd hbrings id

/-- Running through the keys that match one of some patterns, up to a failure. -/
theorem foldKeys_run {f : β → Except Error String → Attempt σ β} {g : β → String → Except Error β}
    {e : Engine σ} {patterns : List String} {ps : List KeyPattern}
    (hread : KeyPattern.parseAll patterns = .ok ps) (hne : ps ≠ [])
    (hps : ∀ p ∈ ps, p.isEverything = false ∧ p.isExact = false)
    (hf : ∀ key ∈ (KeyScan.start ps).brings ((KeyScan.start ps).pending e.keys), ∀ b,
      (f b (.ok key)).run.run e = (g b key, e)) (b : β) :
    (foldKeys f b patterns).run.run e =
      (((KeyScan.start ps).brings ((KeyScan.start ps).pending e.keys)).foldlM g b, e) := by
  rw [foldKeys, Attempt.bind_ok (keys_run hread e), Attempt.get_bind, size_eq_length]
  exact foldStream_run (KeyScan.sound_start hne hps) (KeyScan.work_start_lt ps e.keys) hf b

/-- The same where no key fails. -/
theorem foldKeys_ok_run {f : β → Except Error String → Attempt σ β} {g : β → String → β}
    {e : Engine σ} {patterns : List String} {ps : List KeyPattern}
    (hread : KeyPattern.parseAll patterns = .ok ps) (hne : ps ≠ [])
    (hps : ∀ p ∈ ps, p.isEverything = false ∧ p.isExact = false)
    (hf : ∀ key ∈ (KeyScan.start ps).brings ((KeyScan.start ps).pending e.keys), ∀ b,
      (f b (.ok key)).run.run e = (.ok (g b key), e)) (b : β) :
    (foldKeys f b patterns).run.run e =
      (.ok (((KeyScan.start ps).brings ((KeyScan.start ps).pending e.keys)).foldl g b), e) := by
  rw [foldKeys_run hread hne hps hf b]
  exact congrArg (·, e) List.foldlM_pure

omit [Backend σ] [LawfulBackend σ] in
theorem foldl_cons_reverse (l found : List α) :
    (l.foldl (fun found k => k :: found) found).reverse = found.reverse ++ l := by
  induction l generalizing found with
  | nil => simp
  | cons k l ih =>
    rw [List.foldl_cons, ih, List.reverse_cons, List.append_assoc]
    rfl

/-- The keys that match a pattern. -/
theorem keysMatching_run {pattern : String} {p : KeyPattern} (hread : KeyPattern.parse pattern = .ok p)
    (heverything : p.isEverything = false) (hexact : p.isExact = false) (e : Engine σ) :
    (keysMatching pattern).run.run e = (.ok (e.keys.filter p.accepts), e) := by
  have hreadAll := KeyPattern.parseAll_singleton hread
  have hps : ∀ q ∈ [p], q.isEverything = false ∧ q.isExact = false := by
    simpa using ⟨heverything, hexact⟩
  rw [keysMatching, collectKeys, Attempt.bind_ok (foldKeys_ok_run
    (g := fun found key => key :: found) hreadAll (by simp) hps (fun _ _ _ => rfl) [])]
  rw [KeyScan.brings_single heverything]
  exact congrArg (fun l => (Except.ok l, e)) (foldl_cons_reverse _ [])

/-- The keys that match one of some patterns, where a failure would be passed over. -/
theorem keysDespite_run {patterns : List String} {ps : List KeyPattern}
    (hread : KeyPattern.parseAll patterns = .ok ps) (hne : ps ≠ [])
    (hps : ∀ p ∈ ps, p.isEverything = false ∧ p.isExact = false) (key : String) (e : Engine σ) :
    (keysDespite key patterns).run.run e =
      (.ok ((KeyScan.start ps).brings ((KeyScan.start ps).pending e.keys)), e) := by
  rw [keysDespite, Attempt.bind_ok (foldKeys_ok_run
    (g := fun found key => key :: found) hread hne hps (fun _ _ _ => rfl) [])]
  exact congrArg (fun l => (Except.ok l, e)) (foldl_cons_reverse _ [])

end Engine

end PropertyGraph
