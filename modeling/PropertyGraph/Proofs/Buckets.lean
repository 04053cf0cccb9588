/-
The buckets of a connection (`Connection.buckets_history`): whatever calls on other buckets
come between, a bucket answers as a memory of its own that gets its calls alone.

A call on a lawful store answers and changes what is stored as the same call on a memory of
the same entries does (`KeyCall.make_run`). On a connection it does so in its own bucket
(`Connection.memory_onBucket`) and changes no other (`Connection.memory_onBucket_of_ne`),
although the buckets of a database are rows of the same two tables.
-/
import PropertyGraph.Connection
import PropertyGraph.Proofs.LawfulStore

namespace PropertyGraph

/-! ## Calls on a key -/

/-- A call on one key of a store. -/
inductive KeyCall where
  | get (key : String)
  | put (key : String) (value : Blob)
  | update (key : String) (value : Blob)
  | create (key : String) (value : Blob)
  | delete (key : String)
deriving DecidableEq

/-- What such a call returns. -/
inductive KeyAnswer where
  | found (entry : Option Entry)
  | written (revision : Nat)
  | deleted
deriving DecidableEq

/-- What became of such a call. -/
abbrev KeyOutcome := Except Error KeyAnswer

namespace KeyCall

/-- Makes the call. -/
def make {σ : Type} [Backend σ] : KeyCall → StateM σ KeyOutcome
  | .get key => (KeyAnswer.found <$> Backend.get key : Access σ _).run
  | .put key value => (KeyAnswer.written <$> Backend.put key value : Access σ _).run
  | .update key value => (KeyAnswer.written <$> Backend.update key value : Access σ _).run
  | .create key value => (KeyAnswer.written <$> Backend.create key value : Access σ _).run
  | .delete key => ((fun _ => KeyAnswer.deleted) <$> Backend.delete key : Access σ _).run

/-- Makes calls one after the other. -/
def makeAll {σ : Type} [Backend σ] : List KeyCall → σ → List KeyOutcome × σ
  | [], s => ([], s)
  | c :: calls, s =>
    let made := c.make.run s
    let rest := makeAll calls made.2
    (made.1 :: rest.1, rest.2)

end KeyCall

theorem Access.map_run {σ α β : Type} (f : α → β) (call : Access σ α) (s : σ) :
    (f <$> call).run.run s = ((call.run.run s).1.map f, (call.run.run s).2) := by
  rw [ExceptT.run_map]
  rfl

namespace LawfulBackend

variable {σ : Type} [Backend σ] [LawfulBackend σ]

/-- What a store holds, as a memory. -/
def asMemory (s : σ) : Memory := ⟨entries s, revision s⟩

theorem asMemory_write (key : String) (value : Blob) (s : σ) :
    asMemory (write key value s) = (asMemory s).write key value := by
  simp only [asMemory, entries_write, revision_write, Memory.write]

theorem asMemory_erase (key : String) (s : σ) :
    asMemory (erase key s) = { asMemory s with entries := (asMemory s).entries.erase key } := by
  simp only [asMemory, entries_erase, revision_erase]

end LawfulBackend

open LawfulBackend

namespace KeyCall

section Lawful

variable {σ : Type} [Backend σ] [LawfulBackend σ]

/-- What a store is after a call: as before, or with one key written or taken out. -/
theorem make_effect (c : KeyCall) (s : σ) :
    (c.make.run s).2 = s ∨ (∃ key value, (c.make.run s).2 = write key value s) ∨
      ∃ key, (c.make.run s).2 = erase key s := by
  cases c with
  | get key =>
    left
    rw [make, Access.map_run, get_run]
  | put key value =>
    right; left
    exact ⟨key, value, by rw [make, Access.map_run, put_run]⟩
  | update key value =>
    right; left
    exact ⟨key, value, by rw [make, Access.map_run, update_run]⟩
  | create key value =>
    rw [make, Access.map_run, create_run]
    split
    · exact .inl rfl
    · exact .inr (.inl ⟨key, value, rfl⟩)
  | delete key =>
    right; right
    exact ⟨key, by rw [make, Access.map_run, delete_run]⟩

/-- A call on a lawful store is the same call on the memory it amounts to. -/
theorem make_run (c : KeyCall) (s : σ) :
    c.make.run (asMemory s) = ((c.make.run s).1, asMemory (c.make.run s).2) := by
  cases c with
  | get key =>
    simp only [make, Access.map_run, get_run]
    rfl
  | put key value =>
    simp only [make, Access.map_run, put_run, asMemory_write]
    rfl
  | update key value =>
    simp only [make, Access.map_run, update_run, asMemory_write]
    rfl
  | create key value =>
    have hentries : entries (asMemory s) = entries s := rfl
    simp only [make, Access.map_run, create_run, hentries]
    by_cases h : (entries s).contains key = true
    · simp only [h, if_true]
    · simp only [h, if_false, Bool.false_eq_true, asMemory_write]
      rfl
  | delete key =>
    simp only [make, Access.map_run, delete_run, asMemory_erase]
    rfl

end Lawful

/-- Creating a key in memory. -/
theorem create_run (key : String) (value : Blob) (m : Memory) :
    (KeyCall.create key value).make.run m =
      if m.entries.contains key then (.error (.keyExists key), m)
      else (.ok (.written (m.revision + 1)), m.write key value) := by
  rw [KeyCall.make, Access.map_run, LawfulBackend.create_run]
  exact apply_ite (fun p : Except Error Nat × Memory => (p.1.map KeyAnswer.written, p.2)) ..

theorem make_handle_memory (c : KeyCall) (m : Memory) :
    c.make.run (Handle.memory m) = Handle.ofMemory (c.make.run m) := by
  cases c <;> (simp only [make, Access.map_run]; rfl)

theorem make_handle_database (c : KeyCall) (b : Bucket) :
    c.make.run (Handle.database b) = Handle.ofBucket (c.make.run b) := by
  cases c <;> (simp only [make, Access.map_run]; rfl)

end KeyCall

/-! ## The buckets of a database -/

namespace Database

theorem entries_write_of_ne (db : Database) {bucket other : String} (h : other ≠ bucket)
    (key : String) (value : Blob) :
    (db.write bucket key value).entries other = db.entries other := by
  apply SortedMap.ext_get?
  intro k
  have hne : (⟨other, k⟩ : RowKey) ≠ ⟨bucket, key⟩ := by simp [h]
  rw [get?_entries, get?_entries, write, SortedMap.get?_insert_of_ne _ _ hne]

theorem revision_write_of_ne (db : Database) {bucket other : String} (h : other ≠ bucket)
    (key : String) (value : Blob) :
    (db.write bucket key value).revision other = db.revision other := by
  rw [revision, revision, write, SortedMap.get?_insert_of_ne _ _ h]

theorem entries_erase_of_ne (db : Database) {bucket other : String} (h : other ≠ bucket)
    (key : String) : (db.erase bucket key).entries other = db.entries other := by
  apply SortedMap.ext_get?
  intro k
  have hne : (⟨other, k⟩ : RowKey) ≠ ⟨bucket, key⟩ := by simp [h]
  rw [get?_entries, get?_entries, erase, SortedMap.get?_erase_of_ne _ hne]

end Database

theorem KeyCall.make_bucket_name (c : KeyCall) (b : Bucket) :
    (c.make.run b).2.name = b.name := by
  rcases c.make_effect b with h | ⟨_, _, h⟩ | ⟨_, h⟩ <;> rw [h] <;> rfl

/-- A call on a bucket leaves what the other buckets of the database hold. -/
theorem KeyCall.make_bucket_of_ne (c : KeyCall) (b : Bucket) {other : String}
    (h : other ≠ b.name) :
    asMemory (⟨other, (c.make.run b).2.database⟩ : Bucket) =
      asMemory (⟨other, b.database⟩ : Bucket) := by
  have hmemory (db : Database) : asMemory (⟨other, db⟩ : Bucket) =
    ⟨db.entries other, db.revision other⟩ := rfl
  rcases c.make_effect b with hs | ⟨key, value, hs⟩ | ⟨key, hs⟩
  · rw [hs]
  · rw [hs, hmemory, hmemory]
    exact congrArg₂ Memory.mk (b.database.entries_write_of_ne h key value)
      (b.database.revision_write_of_ne h key value)
  · rw [hs, hmemory, hmemory]
    exact congrArg₂ Memory.mk (b.database.entries_erase_of_ne h key) rfl

/-! ## The buckets of a connection -/

namespace Connection

/-- What a bucket holds. -/
def memory (c : Connection) (name : String) : Memory := asMemory (c.handle name)

theorem memory_fresh (kind : BackendKind) (name : String) :
    (fresh kind).memory name = .empty := by
  cases kind <;> rfl

theorem memory_bucket {c c' : Connection} {name : String} (h : c.bucket name = .ok c') :
    c'.memory = c.memory := by
  cases hvalid : Key.isToken name with
  | false =>
    rw [bucket, hvalid] at h
    cases h
  | true =>
    rw [bucket, hvalid] at h
    cases h
    rfl

/-- A call on a bucket of a connection in memory. -/
theorem onBucket_memory (buckets : SortedMap String Memory) (handedOut : SortedMap String Unit)
    (name : String) (call : KeyCall) :
    (onBucket name call.make).run ⟨.memory buckets, handedOut⟩ =
      ((call.make.run ((buckets.get? name).getD .empty)).1,
        ⟨.memory (buckets.insert name (call.make.run ((buckets.get? name).getD .empty)).2),
          handedOut⟩) := by
  show ((call.make.run (Handle.memory _)).1, update _ name (call.make.run (Handle.memory _)).2) = _
  rw [KeyCall.make_handle_memory]
  rfl

/-- A call on a bucket of a connection to a database. -/
theorem onBucket_database (db : Database) (handedOut : SortedMap String Unit) (name : String)
    (call : KeyCall) :
    (onBucket name call.make).run ⟨.database db, handedOut⟩ =
      ((call.make.run (⟨name, db⟩ : Bucket)).1,
        ⟨.database (call.make.run (⟨name, db⟩ : Bucket)).2.database, handedOut⟩) := by
  show ((call.make.run (Handle.database _)).1,
    update _ name (call.make.run (Handle.database _)).2) = _
  rw [KeyCall.make_handle_database]
  rfl

/-- A call on a bucket is the same call on the memory it amounts to. -/
theorem memory_onBucket (c : Connection) (name : String) (call : KeyCall) :
    call.make.run (c.memory name) =
      (((onBucket name call.make).run c).1, ((onBucket name call.make).run c).2.memory name) := by
  obtain ⟨target, handedOut⟩ := c
  cases target with
  | memory buckets =>
    rw [onBucket_memory]
    simp only [memory, handle, SortedMap.get?_insert_self, Option.getD_some]
    rfl
  | database db =>
    have hname := call.make_bucket_name ⟨name, db⟩
    rw [onBucket_database]
    show call.make.run (asMemory (⟨name, db⟩ : Bucket)) = _
    rw [KeyCall.make_run]
    generalize (call.make.run (⟨name, db⟩ : Bucket)) = after at hname ⊢
    obtain ⟨outcome, _, db'⟩ := after
    cases hname
    rfl

/-- A call on a bucket leaves what the other buckets hold. -/
theorem memory_onBucket_of_ne (c : Connection) {name other : String} (h : other ≠ name)
    (call : KeyCall) : ((onBucket name call.make).run c).2.memory other = c.memory other := by
  obtain ⟨target, handedOut⟩ := c
  cases target with
  | memory buckets =>
    rw [onBucket_memory]
    simp only [memory, handle, SortedMap.get?_insert_of_ne _ _ h]
  | database db =>
    rw [onBucket_database]
    exact call.make_bucket_of_ne ⟨name, db⟩ h

end Connection

/-! ## A host at work -/

/-- What a host does with a connection: it asks for a bucket, or makes a call through a
handle it was given. Handles are numbered as they are given. -/
inductive BucketAct where
  | lookup (name : String)
  | call (handle : Nat) (call : KeyCall)

/-- A connection, and the buckets of the handles given. -/
structure BucketHost where
  connection : Connection
  handles : List String

/-- A call that was made: its bucket, and what became of it. -/
structure ServedCall where
  bucket : String
  call : KeyCall
  outcome : KeyOutcome

namespace BucketHost

/-- A host of a fresh connection. -/
def fresh (kind : BackendKind) : BucketHost := ⟨.fresh kind, []⟩

/-- One act, and the call that was made. -/
def act (h : BucketHost) : BucketAct → Option ServedCall × BucketHost
  | .lookup name =>
    match h.connection.bucket name with
    | .ok c => (none, ⟨c, h.handles ++ [name]⟩)
    | .error _ => (none, h)
  | .call handle call =>
    match h.handles[handle]? with
    | some name =>
      let made := (Connection.onBucket name call.make).run h.connection
      (some ⟨name, call, made.1⟩, { h with connection := made.2 })
    | none => (none, h)

/-- Some acts, and the calls that were made. -/
def serve : List BucketAct → BucketHost → List ServedCall × BucketHost
  | [], h => ([], h)
  | a :: acts, h =>
    let made := h.act a
    let rest := serve acts made.2
    (made.1.toList ++ rest.1, rest.2)

end BucketHost

namespace ServedCall

/-- The calls made on a bucket. -/
def on (name : String) (served : List ServedCall) : List ServedCall :=
  served.filter fun s => s.bucket = name

theorem on_self (name : String) (call : KeyCall) (outcome : KeyOutcome) :
    on name [⟨name, call, outcome⟩] = [⟨name, call, outcome⟩] := by
  simp [on]

theorem on_of_ne {bucket name : String} (h : bucket ≠ name) (call : KeyCall)
    (outcome : KeyOutcome) : on name [⟨bucket, call, outcome⟩] = [] := by
  simp [on, h]

/-- The revision of a write that succeeded. -/
def revision? (s : ServedCall) : Option Nat :=
  match s.outcome with
  | .ok (.written revision) => some revision
  | _ => none

/-- The entry of a key after a call, as the call and its answer tell it: what was written
under the revision that was returned, nothing after a delete, else what was there. -/
def entryAfter (key : String) (before : Option Entry) (s : ServedCall) : Option Entry :=
  match s.call, s.outcome with
  | .put k value, .ok (.written revision)
  | .update k value, .ok (.written revision)
  | .create k value, .ok (.written revision) =>
    if k = key then some ⟨value, revision⟩ else before
  | .delete k, .ok .deleted => if k = key then none else before
  | _, _ => before

end ServedCall

namespace BucketHost

theorem act_call (h : BucketHost) {handle : Nat} {bucket : String}
    (hbucket : h.handles[handle]? = some bucket) (call : KeyCall) :
    h.act (.call handle call) =
      (some ⟨bucket, call, ((Connection.onBucket bucket call.make).run h.connection).1⟩,
        { h with connection := ((Connection.onBucket bucket call.make).run h.connection).2 }) := by
  simp only [act, hbucket]

/-- One act, seen from one bucket: a call of its own, or nothing. -/
theorem act_memory (h : BucketHost) (a : BucketAct) (name : String) :
    let mine := ServedCall.on name (h.act a).1.toList
    KeyCall.makeAll (mine.map (·.call)) (h.connection.memory name) =
      (mine.map (·.outcome), (h.act a).2.connection.memory name) := by
  cases a with
  | lookup looked =>
    simp only [act]
    split
    · rename_i c hc
      exact congrArg (Prod.mk []) (congrFun (Connection.memory_bucket hc) name).symm
    · rfl
  | call handle call =>
    cases hbucket : h.handles[handle]? with
    | none =>
      simp only [act, hbucket]
      rfl
    | some bucket =>
      rw [h.act_call hbucket]
      by_cases hb : bucket = name
      · subst hb
        simp only [Option.toList, ServedCall.on_self, List.map_cons, List.map_nil,
          KeyCall.makeAll, Connection.memory_onBucket]
      · simp only [Option.toList, ServedCall.on_of_ne hb, List.map_nil, KeyCall.makeAll,
          Connection.memory_onBucket_of_ne _ (Ne.symm hb)]

end BucketHost

theorem KeyCall.makeAll_append {σ : Type} [Backend σ] (calls more : List KeyCall) (s : σ) :
    makeAll (calls ++ more) s =
      ((makeAll calls s).1 ++ (makeAll more (makeAll calls s).2).1,
        (makeAll more (makeAll calls s).2).2) := by
  induction calls generalizing s with
  | nil => rfl
  | cons c calls ih => simp only [List.cons_append, makeAll, ih]

/-- Whatever a host does, one bucket of its connection gets its own calls alone. -/
theorem BucketHost.serve_memory (h : BucketHost) (acts : List BucketAct) (name : String) :
    let mine := ServedCall.on name (h.serve acts).1
    KeyCall.makeAll (mine.map (·.call)) (h.connection.memory name) =
      (mine.map (·.outcome), (h.serve acts).2.connection.memory name) := by
  induction acts generalizing h with
  | nil => rfl
  | cons a acts ih =>
    have hact := h.act_memory a name
    have hrest := ih (h.act a).2
    simp only [ServedCall.on, serve, List.filter_append, List.map_append,
      KeyCall.makeAll_append] at hact hrest ⊢
    rw [hact, hrest]

/-! ## What the answers tell -/

namespace ServedCall

/-- A call on a memory, by its answer: the entries are as it tells, and a write takes the
next revision. -/
theorem make_memory (name : String) (c : KeyCall) (m : Memory) :
    let s : ServedCall := ⟨name, c, (c.make.run m).1⟩
    (∀ key, (c.make.run m).2.entries.get? key = entryAfter key (m.entries.get? key) s) ∧
      (s.revision? = none ∧ (c.make.run m).2.revision = m.revision ∨
        s.revision? = some (m.revision + 1) ∧ (c.make.run m).2.revision = m.revision + 1) := by
  have hwrite (k : String) (value : Blob) (key : String) :
      (m.write k value).entries.get? key =
        if k = key then some ⟨value, m.revision + 1⟩ else m.entries.get? key := by
    split
    · subst k
      exact SortedMap.get?_insert_self ..
    · exact SortedMap.get?_insert_of_ne _ _ (Ne.symm ‹_›)
  cases c with
  | get k => exact ⟨fun _ => rfl, .inl ⟨rfl, rfl⟩⟩
  | put k value => exact ⟨hwrite k value, .inr ⟨rfl, rfl⟩⟩
  | update k value => exact ⟨hwrite k value, .inr ⟨rfl, rfl⟩⟩
  | create k value =>
    rw [KeyCall.create_run]
    split
    · exact ⟨fun _ => rfl, .inl ⟨rfl, rfl⟩⟩
    · exact ⟨hwrite k value, .inr ⟨rfl, rfl⟩⟩
  | delete k =>
    refine ⟨fun key => ?_, .inl ⟨rfl, rfl⟩⟩
    show (m.entries.erase k).get? key = if k = key then none else m.entries.get? key
    split
    · subst k
      exact SortedMap.get?_erase_self ..
    · exact SortedMap.get?_erase_of_ne _ (Ne.symm ‹_›)

/-- The same of calls one after the other. -/
theorem makeAll_memory {served : List ServedCall} {m after : Memory}
    (h : KeyCall.makeAll (served.map (·.call)) m = (served.map (·.outcome), after)) :
    (∀ key, after.entries.get? key = served.foldl (entryAfter key) (m.entries.get? key)) ∧
      after.revision = m.revision + (served.filterMap revision?).length ∧
      served.filterMap revision? =
        List.range' (m.revision + 1) (served.filterMap revision?).length := by
  induction served generalizing m with
  | nil =>
    cases h
    exact ⟨fun _ => rfl, rfl, rfl⟩
  | cons s served ih =>
    obtain ⟨name, c, outcome⟩ := s
    simp only [List.map_cons, KeyCall.makeAll, Prod.mk.injEq, List.cons.injEq] at h
    obtain ⟨⟨houtcome, houtcomes⟩, hafter⟩ := h
    obtain ⟨hentry, hrevision⟩ := make_memory name c m
    rw [houtcome] at hentry hrevision
    obtain ⟨hentries, hcount, hrange⟩ := ih (Prod.ext houtcomes hafter)
    refine ⟨fun key => by rw [hentries, hentry, List.foldl_cons], ?_⟩
    rcases hrevision with ⟨hnone, hsame⟩ | ⟨hsome, hnext⟩
    · rw [List.filterMap_cons_none hnone, hcount, hsame]
      exact ⟨rfl, by rwa [hsame] at hrange⟩
    · rw [List.filterMap_cons_some hsome, hcount, hnext, List.length_cons, List.range'_succ]
      rw [hnext] at hrange
      exact ⟨by omega, by rw [← hrange]⟩

end ServedCall

/-- Whatever is done on a fresh connection, each bucket answers its calls as a memory of its
own does that gets them alone, and holds what that memory holds. Its writes return the
revisions 1, 2, 3, …; a key holds the value of its last write with the revision this
returned, unless it was deleted since. Another host whose calls on the bucket are the same gets
the same answers there, and handles of one bucket are as good as each other. -/
theorem Connection.buckets_history (kind : BackendKind) (acts : List BucketAct) (name : String) :
    let after := (BucketHost.fresh kind).serve acts
    let mine := ServedCall.on name after.1
    let held := after.2.connection.memory name
    KeyCall.makeAll (mine.map (·.call)) Memory.empty = (mine.map (·.outcome), held) ∧
      mine.filterMap (·.revision?) = List.range' 1 held.revision ∧
      (∀ key, held.entries.get? key = mine.foldl (ServedCall.entryAfter key) none) ∧
      (∀ kind' acts',
        let others := ServedCall.on name ((BucketHost.fresh kind').serve acts').1
        others.map (·.call) = mine.map (·.call) →
          others.map (·.outcome) = mine.map (·.outcome)) ∧
      ∀ i j call, after.2.handles[i]? = after.2.handles[j]? →
        after.2.act (.call i call) = after.2.act (.call j call) := by
  have hmemory (kind : BackendKind) (acts : List BucketAct) :
      let after := (BucketHost.fresh kind).serve acts
      let mine := ServedCall.on name after.1
      KeyCall.makeAll (mine.map (·.call)) Memory.empty =
        (mine.map (·.outcome), after.2.connection.memory name) := by
    rw [← memory_fresh kind name]
    exact (BucketHost.fresh kind).serve_memory acts name
  obtain ⟨hentries, hrevision, hrange⟩ := ServedCall.makeAll_memory (hmemory kind acts)
  refine ⟨hmemory kind acts, ?_, hentries, fun kind' acts' hcalls => ?_, fun i j call hsame => ?_⟩
  · rw [hrange, hrevision]
    simp only [Memory.empty, Nat.zero_add]
  · have hsame := congrArg (KeyCall.makeAll · Memory.empty) hcalls
    exact congrArg Prod.fst ((hmemory kind' acts').symm.trans (hsame.trans (hmemory kind acts)))
  · simp only [BucketHost.act, hsame]

/-- Two buckets in turn: the calls on "left" and their answers. -/
def alternatingActs : List BucketAct :=
  [.lookup "left", .lookup "right", .lookup "left",
    .call 0 (.create "k" (.text "1")), .call 1 (.create "k" (.text "2")),
    .call 2 (.create "k" (.text "3")), .call 1 (.delete "k"), .call 2 (.put "k" (.text "4"))]

/-- The calls on "left" without those on "right". -/
def leftActs : List BucketAct :=
  [.lookup "left", .call 0 (.create "k" (.text "1")), .call 0 (.create "k" (.text "3")),
    .call 0 (.put "k" (.text "4"))]

theorem Connection.buckets_alternatingActs :
    let after := (BucketHost.fresh .database).serve alternatingActs
    let alone := (BucketHost.fresh .memory).serve leftActs
    (ServedCall.on "left" alone.1).map (·.call) = (ServedCall.on "left" after.1).map (·.call) ∧
      (ServedCall.on "left" alone.1).map (·.outcome) =
        (ServedCall.on "left" after.1).map (·.outcome) ∧
      after.2.handles[0]? = after.2.handles[2]? ∧
      after.2.act (.call 0 (.get "k")) = after.2.act (.call 2 (.get "k")) ∧
      (ServedCall.on "left" after.1).map (·.outcome) =
        [.ok (.written 1), .error (.keyExists "k"), .ok (.written 2)] := by
  have h := buckets_history .database alternatingActs "left"
  have hcalls : (ServedCall.on "left" ((BucketHost.fresh .memory).serve leftActs).1).map (·.call) =
      (ServedCall.on "left" ((BucketHost.fresh .database).serve alternatingActs).1).map (·.call) := by
    decide
  have hhandles : ((BucketHost.fresh .database).serve alternatingActs).2.handles[0]? =
      ((BucketHost.fresh .database).serve alternatingActs).2.handles[2]? := by
    decide
  exact ⟨hcalls, h.2.2.2.1 .memory leftActs hcalls, hhandles, h.2.2.2.2 0 2 _ hhandles, by rfl⟩

end PropertyGraph
