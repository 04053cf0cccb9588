/-
Operations on a store of which anything may fail, and that may hold anything. A regime says
which names may occur in records and which errors may come; an operation `Regime.Ensures` a
property of its value if, from any state in which all names in records are such names, it ends
in such a state, with such a value or such an error. Here are the rules for putting operations
together and those for calls on the store and scans of its keys.
-/
import PropertyGraph.Proofs.EngineRun
import PropertyGraph.Proofs.FallibleStore
import PropertyGraph.Proofs.RecordKey

namespace PropertyGraph

/-- The names that may occur in records, and the errors that may come. Either every name may
occur, and patterns made of names may be refused, or the names are the tokens. -/
structure Regime where
  name : String → Prop
  fault : Error → Prop
  backend : ∀ err : Error, err.kind = .backend → fault err
  names : (∀ s, name s) ∧ (∀ cause, fault (.refused cause)) ∨ ∀ s, name s ↔ Key.isToken s = true

namespace Regime

variable {σ α β : Type} {R : Regime}

/-- A key all of whose tokens are names. -/
def Key (R : Regime) (key : String) : Prop := ∀ t ∈ Key.tokens key, R.name t

/-- A value that may stand under a key: a list of ids holds names, and so does the record of an
end of an edge. -/
structure Record (R : Regime) (key : String) (value : Blob) : Prop where
  index : ∀ vertex direction adjacency label,
    Key.tokens key = Key.family vertex direction adjacency label ++ [Key.indexToken] →
      ∀ ids, value.ids? = some ids → ∀ id ∈ ids, R.name id
  ends : ∀ id, Key.tokens key = ["edge", id, "incoming"] ∨
    Key.tokens key = ["edge", id, "outgoing"] → R.name value.string

variable [Backend σ] [FallibleBackend σ]

/-- All names in a store are names of the regime, and so are all ids to come. -/
structure Holds (R : Regime) (e : Engine σ) : Prop where
  keys : ∀ key ∈ (FallibleBackend.held e.store).entries.keys, R.Key key
  records : ∀ key entry, (FallibleBackend.held e.store).entries.get? key = some entry →
    R.Record key entry.value
  ids : ∀ n, R.name (e.ids n)

/-- A value with a property, or an error that may come. -/
def Outcome (R : Regime) (post : α → Prop) : Except Error α → Prop
  | .ok a => post a
  | .error err => R.fault err

/-- An operation keeps the names and gives a value with a property. -/
def Always (R : Regime) (operation : Run σ α) (post : α → Prop) : Prop :=
  ∀ e : Engine σ, R.Holds e → post (operation.run e).1 ∧ R.Holds (operation.run e).2

/-- The same of an operation that may fail, with an error that may come. -/
def Ensures (R : Regime) (operation : Attempt σ α) (post : α → Prop) : Prop :=
  R.Always operation.run (R.Outcome post)

/-- The regime in which any error may come. -/
def lenient (R : Regime) : Regime where
  name := R.name
  fault _ := True
  backend _ _ := trivial
  names := R.names.imp (fun h => ⟨h.1, fun _ => trivial⟩) id

/-! ## Sequences -/

section Sequences

variable {p : α → Prop} {q : β → Prop}

theorem Always.pure {a : α} (h : p a) : R.Always (pure a : Run σ α) p := fun _ he => ⟨h, he⟩

theorem Always.bind {x : Run σ α} {f : α → Run σ β} (hx : R.Always x p)
    (hf : ∀ a, p a → R.Always (f a) q) : R.Always (x >>= f) q := by
  intro e he
  obtain ⟨hp, he'⟩ := hx e he
  exact hf _ hp _ he'

theorem Always.forM {f : α → Run σ Unit} (hf : ∀ a, R.Always (f a) fun _ => True) (l : List α) :
    R.Always (l.forM f) fun _ => True := by
  induction l with
  | nil => exact .pure trivial
  | cons a l ih => exact .bind (hf a) fun _ _ => ih

theorem Ensures.pure {a : α} (h : p a) : R.Ensures (pure a : Attempt σ α) p := fun _ he => ⟨h, he⟩

theorem Ensures.throw {err : Error} (h : R.fault err) :
    R.Ensures (throw err : Attempt σ α) p := fun _ he => ⟨h, he⟩

theorem Ensures.bind {x : Attempt σ α} {f : α → Attempt σ β} (hx : R.Ensures x p)
    (hf : ∀ a, p a → R.Ensures (f a) q) : R.Ensures (x >>= f) q := by
  intro e he
  rw [Attempt.bind_run]
  obtain ⟨hp, he'⟩ := hx e he
  revert hp
  generalize (x.run.run e).1 = outcome
  intro hp
  cases outcome with
  | ok a => exact hf a hp _ he'
  | error err => exact ⟨hp, he'⟩

theorem Ensures.map {x : Attempt σ α} {f : α → β} (hx : R.Ensures x p) (h : ∀ a, p a → q (f a)) :
    R.Ensures (f <$> x) q :=
  .bind hx fun a ha => .pure (h a ha)

theorem Ensures.lift {x : Run σ α} (hx : R.Always x p) : R.Ensures (liftM x : Attempt σ α) p := hx

theorem Ensures.ofExcept {x : Except Error α} (hx : R.Outcome p x) :
    R.Ensures (MonadExcept.ofExcept x : Attempt σ α) p := by
  intro e he
  cases x <;> exact ⟨hx, he⟩

theorem Ensures.foldlM {f : β → α → Attempt σ β} {l : List α}
    (hf : ∀ b, q b → ∀ a ∈ l, R.Ensures (f b a) q) {b : β} (hb : q b) :
    R.Ensures (l.foldlM f b) q := by
  induction l generalizing b with
  | nil => exact .pure hb
  | cons a l ih =>
    rw [List.foldlM_cons]
    exact .bind (hf b hb a List.mem_cons_self) fun b hb =>
      ih (fun b hb a ha => hf b hb a (List.mem_cons_of_mem _ ha)) hb

theorem Ensures.forM {f : α → Attempt σ Unit} {l : List α}
    (hf : ∀ a ∈ l, R.Ensures (f a) fun _ => True) : R.Ensures (l.forM f) fun _ => True := by
  induction l with
  | nil => exact .pure trivial
  | cons a l ih =>
    exact .bind (hf a List.mem_cons_self) fun _ _ =>
      ih fun a ha => hf a (List.mem_cons_of_mem _ ha)

theorem Ensures.mono {x : Attempt σ α} {p' : α → Prop} (hx : R.Ensures x p)
    (h : ∀ a, p a → p' a) : R.Ensures x p' := by
  intro e he
  obtain ⟨hp, he'⟩ := hx e he
  refine ⟨?_, he'⟩
  revert hp
  generalize (x.run.run e).1 = outcome
  intro hp
  cases outcome with
  | ok a => exact h a hp
  | error err => exact hp

theorem holds_lenient {e : Engine σ} : R.lenient.Holds e ↔ R.Holds e := by
  refine ⟨fun h => ⟨h.keys, fun key entry hget => ?_, h.ids⟩,
    fun h => ⟨h.keys, fun key entry hget => ?_, h.ids⟩⟩ <;>
  exact ⟨(h.records key entry hget).index, (h.records key entry hget).ends⟩

theorem Always.of_lenient {x : Run σ α} (h : R.lenient.Always x p) : R.Always x p := by
  intro e he
  obtain ⟨hp, he'⟩ := h e (holds_lenient.2 he)
  exact ⟨hp, holds_lenient.1 he'⟩

/-- An operation whose failure is noted may fail in any way. -/
theorem Always.quietly {operation : Attempt σ α} {key : String} {instead : α}
    (h : R.lenient.Ensures operation p) (hinstead : p instead) :
    R.Always (Engine.quietly key instead operation) p := by
  refine .of_lenient (.bind h fun outcome houtcome => ?_)
  cases outcome with
  | ok a => exact .pure houtcome
  | error err => exact fun e he => ⟨hinstead, he.keys, he.records, he.ids⟩

theorem Always.note (notice : Notice) :
    R.Always (Engine.note notice : Run σ Unit) fun _ => True :=
  fun _ he => ⟨trivial, he.keys, he.records, he.ids⟩

theorem Always.freshId : R.Always (Engine.freshId : Run σ String) R.name :=
  fun _ he => ⟨he.ids _, he.keys, he.records, he.ids⟩

end Sequences

/-! ## Names -/

theorem name_of_isToken {s : String} (h : Key.isToken s = true) : R.name s := by
  rcases R.names with ⟨hall, -⟩ | htokens
  · exact hall s
  · exact (htokens s).2 h

/-- A pattern that can be read, unless refusals may come. -/
def Pattern (R : Regime) (pattern : String) : Prop :=
  (∃ p, KeyPattern.parse pattern = .ok p) ∨ ∀ cause, R.fault (.refused cause)

/-- A pattern that can be read if some names are tokens. -/
theorem pattern_of_names {pattern : String} (names : List String) (hnames : ∀ s ∈ names, R.name s)
    (h : (∀ s ∈ names, Key.isToken s = true) → ∃ p, KeyPattern.parse pattern = .ok p) :
    R.Pattern pattern := by
  rcases R.names with ⟨-, hrefused⟩ | htokens
  · exact .inr hrefused
  · exact .inl (h fun s hs => (htokens s).1 (hnames s hs))

theorem key_join {ts : List String} (hne : ts ≠ []) (hts : ∀ t ∈ ts, R.name t) :
    R.Key (Key.join ts) := by
  rcases R.names with ⟨hall, -⟩ | htokens
  · exact fun t _ => hall t
  · rw [Key, Key.tokens_join_of_ne_nil hne fun t ht =>
      Key.dot_not_mem_of_isToken ((htokens t).1 (hts t ht))]
    exact hts

/-- A value that holds no list of ids may stand under any key that is not of an end of an edge. -/
theorem record_join {ts : List String} (hne : ts ≠ []) (hts : ∀ t ∈ ts, R.name t) {value : Blob}
    (hindex : ∀ vertex direction adjacency label,
      ts = Key.family vertex direction adjacency label ++ [Key.indexToken] →
        ∀ ids, value.ids? = some ids → ∀ id ∈ ids, R.name id)
    (hends : ∀ id, ts = ["edge", id, "incoming"] ∨ ts = ["edge", id, "outgoing"] →
      R.name value.string) : R.Record (Key.join ts) value := by
  rcases R.names with ⟨hall, -⟩ | htokens
  · exact ⟨fun _ _ _ _ _ _ _ id _ => hall id, fun _ _ => hall _⟩
  · have hjoin := Key.tokens_join_of_ne_nil hne fun t ht =>
      Key.dot_not_mem_of_isToken ((htokens t).1 (hts t ht))
    exact ⟨by rwa [hjoin], by rwa [hjoin]⟩

/-! ## Calls on the store -/

section Calls

open FallibleBackend

theorem Holds.of_held {τ : Type} [Backend τ] [FallibleBackend τ] {e : Engine σ} {e' : Engine τ}
    (h : R.Holds e) (hheld : held e'.store = held e.store)
    (hids : e'.ids = e.ids) : R.Holds e' :=
  ⟨hheld ▸ h.keys, hheld ▸ h.records, hids ▸ h.ids⟩

theorem Holds.write {e e' : Engine σ} (h : R.Holds e) {key : String} {value : Blob}
    (hkey : R.Key key) (hvalue : R.Record key value)
    (hheld : held e'.store = (held e.store).write key value) (hids : e'.ids = e.ids) :
    R.Holds e' := by
  have hget : ∀ k, (held e'.store).entries.get? k =
      if k = key then some ⟨value, (held e.store).revision + 1⟩
      else (held e.store).entries.get? k := by
    intro k
    rw [hheld]
    split
    · subst k
      exact SortedMap.get?_insert_self ..
    · exact SortedMap.get?_insert_of_ne _ _ ‹_›
  refine ⟨fun k hk => ?_, fun k entry hentry => ?_, hids ▸ h.ids⟩
  · rw [SortedMap.mem_keys_iff, hget] at hk
    split at hk
    · rwa [‹k = key›]
    · exact h.keys k (SortedMap.mem_keys_iff _ |>.2 hk)
  · rw [hget] at hentry
    split at hentry
    · cases hentry
      rwa [‹k = key›]
    · exact h.records k entry hentry

theorem Holds.erase {e e' : Engine σ} (h : R.Holds e) {key : String}
    (hheld : held e'.store =
      { held e.store with entries := (held e.store).entries.erase key })
    (hids : e'.ids = e.ids) : R.Holds e' := by
  have hget : ∀ k, (held e'.store).entries.get? k =
      if k = key then none else (held e.store).entries.get? k := by
    intro k
    rw [hheld]
    split
    · subst k
      exact SortedMap.get?_erase_self ..
    · exact SortedMap.get?_erase_of_ne _ ‹_›
  refine ⟨fun k hk => ?_, fun k entry hentry => ?_, hids ▸ h.ids⟩
  · rw [SortedMap.mem_keys_iff, hget] at hk
    split at hk
    · cases hk
    · exact h.keys k (SortedMap.mem_keys_iff _ |>.2 hk)
  · rw [hget] at hentry
    split at hentry
    · cases hentry
    · exact h.records k entry hentry

theorem storage (fault : StorageFault) : R.fault (.storage fault) := R.backend _ rfl

theorem Ensures.failed {e : Engine σ} (he : R.Holds e) {call : Access σ α} {p : α → Prop}
    (h : Failed e.store (call.run.run e.store)) :
    R.Outcome p ((Engine.call call).run.run e).1 ∧ R.Holds ((Engine.call call).run.run e).2 := by
  obtain ⟨⟨fault, herr⟩, hheld⟩ := h
  rw [Engine.call_run, herr]
  exact ⟨storage fault, he.of_held hheld rfl⟩

theorem Ensures.get (key : String) :
    R.Ensures (Engine.call (Backend.get key) : Attempt σ _) fun found =>
      ∀ entry, found = some entry → R.Key key ∧ R.Record key entry.value := by
  intro e he
  rcases get_cases key e.store with h | ⟨hfound, hheld⟩
  · exact Ensures.failed he h
  · rw [Engine.call_run, hfound]
    refine ⟨fun entry hentry => ⟨he.keys key ?_, he.records key entry hentry⟩, he.of_held hheld rfl⟩
    rw [SortedMap.mem_keys_iff, hentry]
    rfl

/-- A write of a value that may stand under its key. -/
theorem Ensures.put {key : String} {value : Blob} (hkey : R.Key key) (hvalue : R.Record key value) :
    R.Ensures (Engine.call (Backend.put key value) : Attempt σ _) fun _ => True := by
  intro e he
  rcases put_cases key value e.store with h | ⟨hdone, hheld⟩
  · exact Ensures.failed he h
  · rw [Engine.call_run, hdone]
    exact ⟨trivial, he.write hkey hvalue hheld rfl⟩

theorem Ensures.update {key : String} {value : Blob} (hkey : R.Key key)
    (hvalue : R.Record key value) :
    R.Ensures (Engine.call (Backend.update key value) : Attempt σ _) fun _ => True := by
  intro e he
  rcases update_cases key value e.store with h | ⟨hdone, hheld⟩
  · exact Ensures.failed he h
  · rw [Engine.call_run, hdone]
    exact ⟨trivial, he.write hkey hvalue hheld rfl⟩

theorem Ensures.create {key : String} {value : Blob} (hkey : R.Key key)
    (hvalue : R.Record key value) :
    R.Ensures (Engine.call (Backend.create key value) : Attempt σ _) fun _ => True := by
  intro e he
  rcases create_cases key value e.store with h | ⟨hexists, hheld⟩ | ⟨hdone, hheld⟩
  · exact Ensures.failed he h
  · rw [Engine.call_run, hexists]
    exact ⟨R.backend _ rfl, he.of_held hheld rfl⟩
  · rw [Engine.call_run, hdone]
    exact ⟨trivial, he.write hkey hvalue hheld rfl⟩

theorem Ensures.delete (key : String) :
    R.Ensures (Engine.call (Backend.delete key) : Attempt σ _) fun _ => True := by
  intro e he
  rcases delete_cases key e.store with h | ⟨hdone, hheld⟩
  · exact Ensures.failed he h
  · rw [Engine.call_run, hdone]
    exact ⟨trivial, he.erase hheld rfl⟩

/-! ## Scans -/

/-- A stream of keys of the regime, interrupted by storage errors only. -/
def Scan (R : Regime) (stream : KeyStream) : Prop :=
  stream.Honest ∧ ∀ key ∈ stream.scan.page, R.Key key

theorem Ensures.keys {patterns : List String} (h : ∀ p ∈ patterns, R.Pattern p) :
    R.Ensures (Engine.call (Backend.keys patterns) : Attempt σ _) R.Scan := by
  intro e he
  obtain ⟨hheld, hopened⟩ := keys_cases patterns e.store
  rw [Engine.call_run]
  refine ⟨?_, he.of_held hheld rfl⟩
  rcases hopened with ⟨fault, herr⟩ | hopened
  · rw [herr]
    exact storage fault
  · cases hparse : KeyPattern.parseAll patterns with
    | ok ps =>
      rw [hparse] at hopened
      obtain ⟨stream, hrun, hscan, hhonest⟩ := hopened
      rw [hrun]
      exact ⟨hhonest, by simp [hscan, KeyScan.start]⟩
    | error err =>
      rw [hparse] at hopened
      rw [hopened]
      show R.fault err
      by_cases hrefused : ∀ cause, R.fault (.refused cause)
      · obtain ⟨_, -, fault, rfl⟩ := KeyPattern.parseAll_error hparse
        exact hrefused _
      · obtain ⟨ps, hps⟩ := KeyPattern.exists_parseAll fun p hp =>
          (h p hp).resolve_right hrefused
        rw [hps] at hparse
        cases hparse

/-- What one piece of work on a stream of keys brings. -/
def Brought (R : Regime) : ScanEvent → Prop
  | .key key => R.Key key
  | .failed err => R.fault err
  | .skip | .done => True

theorem brought_advance {k : KeyScan} (hk : ∀ key ∈ k.page, R.Key key)
    {page : String → Option String → Nat → List String}
    (hpage : ∀ stem after limit, ∀ key ∈ page stem after limit, R.Key key) :
    R.Brought (k.advance fun stem after limit => .ok (page stem after limit)).1 ∧
      ∀ key ∈ (k.advance fun stem after limit => .ok (page stem after limit)).2.page, R.Key key := by
  obtain ⟨patterns, stems, keys, resume, distinct, seen⟩ := k
  cases keys with
  | cons key rest =>
    have hrest : ∀ k ∈ rest, R.Key k := fun k hmem => hk k (List.mem_cons_of_mem _ hmem)
    simp only [KeyScan.advance]
    split
    · refine ⟨hk key List.mem_cons_self, ?_⟩
      split <;> exact hrest
    · exact ⟨trivial, hrest⟩
  | nil =>
    cases resume with
    | some place => exact ⟨trivial, hpage _ _ _⟩
    | none =>
      cases stems with
      | cons stem stems => exact ⟨trivial, hpage _ _ _⟩
      | nil => exact ⟨trivial, hk⟩

theorem Always.advance {stream : KeyStream} (h : R.Scan stream) :
    R.Always (Engine.advance stream : Run σ _) fun r => R.Brought r.1 ∧ R.Scan r.2 := by
  intro e he
  obtain ⟨hheld, hhonest, hcases⟩ := advance_cases h.1 e.store
  refine ⟨?_, he.of_held hheld rfl⟩
  show R.Brought ((Backend.advance stream : StateM σ _).run e.store).1.1 ∧
    R.Scan ((Backend.advance stream : StateM σ _).run e.store).1.2
  rcases hcases with ⟨⟨fault, hfailed⟩, hscan⟩ | hworked
  · rw [hfailed]
    exact ⟨storage fault, hhonest, hscan ▸ h.2⟩
  · have hpage : ∀ stem after limit, ∀ key ∈ page e.store stem after limit, R.Key key :=
      fun _ _ _ key hkey => he.keys key (mem_page hkey)
    have hpages := brought_advance h.2 hpage
    rw [hworked] at hpages
    exact ⟨hpages.1, hhonest, hpages.2⟩

theorem Ensures.foldStream {f : β → Except Error String → Attempt σ β} {q : β → Prop}
    (hf : ∀ b item, q b → R.Outcome R.Key item → R.Ensures (f b item) q) {fuel : Nat} {b : β}
    {stream : KeyStream} (hb : q b) (h : R.Scan stream) :
    R.Ensures (Engine.foldStream f fuel b stream) q := by
  induction fuel generalizing b stream with
  | zero => exact .pure hb
  | succ fuel ih =>
    refine .bind (.lift (.advance h)) fun r hr => ?_
    obtain ⟨event, stream⟩ := r
    cases event with
    | key key => exact .bind (hf b (.ok key) hb hr.1) fun b hb => ih hb hr.2
    | failed err => exact .bind (hf b (.error err) hb hr.1) fun b hb => ih hb hr.2
    | skip => exact ih hb hr.2
    | done => exact .pure hb

theorem Ensures.foldKeys {f : β → Except Error String → Attempt σ β} {q : β → Prop}
    (hf : ∀ b item, q b → R.Outcome R.Key item → R.Ensures (f b item) q) {b : β} (hb : q b)
    {patterns : List String} (h : ∀ p ∈ patterns, R.Pattern p) :
    R.Ensures (Engine.foldKeys f b patterns) q := by
  refine .bind (.keys h) fun stream hstream e he => ?_
  rw [Attempt.get_bind]
  exact Ensures.foldStream hf hb hstream e he

/-- The keys that match a pattern are keys of the regime. -/
theorem Ensures.keysMatching {pattern : String} (h : R.Pattern pattern) :
    R.Ensures (Engine.keysMatching pattern : Attempt σ _) fun keys => ∀ key ∈ keys, R.Key key := by
  refine .map (.foldKeys (q := fun found => ∀ key ∈ found, R.Key key) ?_ (by simp)
    (by simpa using h)) (by simp)
  intro found item hfound hitem
  refine .map (.ofExcept hitem) fun key hkey => ?_
  simpa using ⟨hkey, hfound⟩

theorem Ensures.keysDespite (key : String) {patterns : List String}
    (h : ∀ p ∈ patterns, R.Pattern p) :
    R.Ensures (Engine.keysDespite key patterns : Attempt σ _) fun _ => True := by
  refine .map (.foldKeys (q := fun _ => True) ?_ trivial h) fun _ _ => trivial
  intro found item _ _
  cases item with
  | ok key => exact .pure trivial
  | error err => exact .bind (.lift (.note _)) fun _ _ => .pure trivial

end Calls

end Regime

end PropertyGraph
