/-
Operations on a store seen through its records. `Engine.Holds` says that a store keeps
exactly the records of a table and no other key; `Acts` and `Does` say what an operation
gives and how it changes the table, and that nothing beside the store changes. Operations on
a graph are put together from the rules here.
-/
import PropertyGraph.Graph.Drop
import PropertyGraph.Proofs.EngineRun
import PropertyGraph.Proofs.RecordKey

namespace PropertyGraph

variable {σ α β : Type} [Backend σ] [LawfulBackend σ]

/-- What a store keeps, by record. -/
abbrev Records := RecordKey → Option Blob

namespace Records

/-- The table with another value, or none, for a record. -/
def set (m : Records) (r : RecordKey) (value : Option Blob) : Records :=
  fun r' => if r' = r then value else m r'

@[simp]
theorem set_self (m : Records) (r : RecordKey) (value : Option Blob) : m.set r value r = value := by
  simp [set]

theorem set_of_ne (m : Records) {r r' : RecordKey} (value : Option Blob) (h : r' ≠ r) :
    m.set r value r' = m r' := by
  simp [set, h]

/-- The table without some records. -/
def without (m : Records) (gone : RecordKey → Prop) [DecidablePred gone] : Records :=
  fun r => if gone r then none else m r

/-- Setting what is there already changes nothing. -/
theorem set_eq_self {m : Records} {r : RecordKey} {value : Option Blob} (h : m r = value) :
    m.set r value = m := by
  funext r'
  by_cases hr : r' = r
  · rw [hr, set_self, h]
  · rw [set_of_ne m value hr]

end Records

/-- A store keeps the records of a table, and nothing else. -/
structure Engine.Holds (e : Engine σ) (m : Records) : Prop where
  stored : ∀ r : RecordKey, r.Valid → e.contents r.text = m r
  only : ∀ key, e.contents key ≠ none → ∃ r : RecordKey, r.Valid ∧ key = r.text

/-- Only the entries of valid records count. -/
theorem Engine.Holds.congr {e : Engine σ} {m m' : Records} (h : e.Holds m)
    (hm : ∀ r : RecordKey, r.Valid → m r = m' r) : e.Holds m' :=
  ⟨fun r hr => (h.stored r hr).trans (hm r hr), h.only⟩

/-- On a store that holds `m`, an operation gives `a` and leaves the store with `m'`; nothing
beside the store changes. -/
def Acts (operation : Run σ α) (m : Records) (a : α) (m' : Records) : Prop :=
  ∀ e : Engine σ, e.Holds m → ∃ e', operation.run e = (a, e') ∧ e'.Holds m' ∧ e.Beside e'

/-- The same of an operation that may fail and does not. -/
def Does (operation : Attempt σ α) (m : Records) (a : α) (m' : Records) : Prop :=
  Acts operation.run m (.ok a) m'

theorem Acts.congr {operation : Run σ α} {m m' n : Records} {a : α}
    (h : Acts operation m a m') (hm : ∀ r : RecordKey, r.Valid → m' r = n r) :
    Acts operation m a n := by
  intro e he
  obtain ⟨e', hrun, he', hb⟩ := h e he
  exact ⟨e', hrun, he'.congr hm, hb⟩

/-! ## Sequences -/

section Sequences

variable {m m' m'' : Records} {a : α} {b : β}

theorem Acts.pure (a : α) (m : Records) : Acts (pure a : Run σ α) m a m :=
  fun e h => ⟨e, rfl, h, .refl e⟩

theorem Acts.bind {x : Run σ α} {f : α → Run σ β} (hx : Acts x m a m')
    (hf : Acts (f a) m' b m'') : Acts (x >>= f) m b m'' := by
  intro e he
  obtain ⟨e1, h1, he1, hb1⟩ := hx e he
  obtain ⟨e2, h2, he2, hb2⟩ := hf e1 he1
  refine ⟨e2, ?_, he2, hb1.trans hb2⟩
  rw [Run.bind_run, h1]
  exact h2

theorem Does.pure (a : α) (m : Records) : Does (pure a : Attempt σ α) m a m :=
  fun e h => ⟨e, rfl, h, .refl e⟩

theorem Does.bind {x : Attempt σ α} {f : α → Attempt σ β} (hx : Does x m a m')
    (hf : Does (f a) m' b m'') : Does (x >>= f) m b m'' := by
  intro e he
  obtain ⟨e1, h1, he1, hb1⟩ := hx e he
  obtain ⟨e2, h2, he2, hb2⟩ := hf e1 he1
  exact ⟨e2, (Attempt.bind_ok h1 f).trans h2, he2, hb1.trans hb2⟩

theorem Acts.quietly {key : String} {instead : α} {x : Attempt σ α} (h : Does x m a m') :
    Acts (Engine.quietly key instead x) m a m' := by
  intro e he
  obtain ⟨e1, h1, he1, hb1⟩ := h e he
  exact ⟨e1, Engine.quietly_ok h1, he1, hb1⟩

end Sequences

/-! ## Calls on the store -/

section Calls

open Engine

variable {m m' : Records} {r : RecordKey} {a : α}

/-- Writing a record changes the table there. -/
theorem Engine.Holds.write {e : Engine σ} (h : e.Holds m) (hr : r.Valid) (value : Blob) :
    ({ e with store := LawfulBackend.write r.text value e.store } : Engine σ).Holds
      (m.set r (some value)) where
  stored r' hr' := by
    rw [contents_write]
    by_cases he : r' = r
    · simp [he]
    · rw [if_neg fun ht => he (RecordKey.text_injective hr' hr ht), Records.set_of_ne m _ he]
      exact h.stored r' hr'
  only key hkey := by
    rw [contents_write] at hkey
    by_cases hk : key = r.text
    · exact ⟨r, hr, hk⟩
    · rw [if_neg hk] at hkey
      exact h.only key hkey

/-- Deleting a record empties the table there. -/
theorem Engine.Holds.erase {e : Engine σ} (h : e.Holds m) (hr : r.Valid) :
    ({ e with store := LawfulBackend.erase r.text e.store } : Engine σ).Holds
      (m.set r none) where
  stored r' hr' := by
    rw [contents_erase]
    by_cases he : r' = r
    · simp [he]
    · rw [if_neg fun ht => he (RecordKey.text_injective hr' hr ht), Records.set_of_ne m _ he]
      exact h.stored r' hr'
  only key hkey := by
    rw [contents_erase] at hkey
    by_cases hk : key = r.text
    · exact ⟨r, hr, hk⟩
    · rw [if_neg hk] at hkey
      exact h.only key hkey

/-- Reading a record: what follows gets an entry of its value. -/
theorem Does.get_bind {f : Option Entry → Attempt σ α} (hr : r.Valid)
    (h : ∀ entry : Option Entry, entry.map (·.value) = m r → Does (f entry) m a m') :
    Does (call (Backend.get r.text) >>= f) m a m' := by
  intro e he
  rw [show (call (Backend.get r.text) >>= f).run.run e = _ from
    Attempt.bind_ok (Engine.get_run r.text e) f]
  exact h _ (he.stored r hr) e he

theorem Does.put_bind {f : Nat → Attempt σ α} {value : Blob} (hr : r.Valid)
    (h : ∀ n, Does (f n) (m.set r (some value)) a m') :
    Does (call (Backend.put r.text value) >>= f) m a m' := by
  intro e he
  obtain ⟨e', hrun, he', hb⟩ := h _ _ (he.write hr value)
  exact ⟨e', (Attempt.bind_ok (Engine.put_run r.text value e) f).trans hrun, he',
    ⟨hb.issued, hb.log, hb.ids⟩⟩

theorem Does.update_bind {f : Nat → Attempt σ α} {value : Blob} (hr : r.Valid)
    (h : ∀ n, Does (f n) (m.set r (some value)) a m') :
    Does (call (Backend.update r.text value) >>= f) m a m' := by
  intro e he
  obtain ⟨e', hrun, he', hb⟩ := h _ _ (he.write hr value)
  exact ⟨e', (Attempt.bind_ok (Engine.update_run r.text value e) f).trans hrun, he',
    ⟨hb.issued, hb.log, hb.ids⟩⟩

theorem Does.create_bind {f : Nat → Attempt σ α} {value : Blob} (hr : r.Valid) (hnew : m r = none)
    (h : ∀ n, Does (f n) (m.set r (some value)) a m') :
    Does (call (Backend.create r.text value) >>= f) m a m' := by
  intro e he
  obtain ⟨e', hrun, he', hb⟩ := h _ _ (he.write hr value)
  have hfree : e.contents r.text = none := by rw [he.stored r hr, hnew]
  exact ⟨e', (Attempt.bind_ok (Engine.create_run hfree value) f).trans hrun, he',
    ⟨hb.issued, hb.log, hb.ids⟩⟩

theorem does_delete (hr : r.Valid) (m : Records) :
    Does (call (Backend.delete r.text) : Attempt σ Unit) m () (m.set r none) :=
  fun e he => ⟨_, Engine.delete_run r.text e, he.erase hr, ⟨rfl, rfl, rfl⟩⟩

/-- Creating a key that is not there. -/
theorem does_createKey (hr : r.Valid) (hnew : m r = none) (value : String) :
    Does (Graph.createKey r.text value : Attempt σ Unit) m () (m.set r (some (.text value))) :=
  .create_bind hr hnew fun _ => .pure () _

/-- The text under a key. -/
theorem does_readText (hr : r.Valid) (m : Records) :
    Does (Graph.readText r.text : Attempt σ _) m ((m r).map Blob.string) m := by
  refine .get_bind hr fun entry hentry => ?_
  rw [← hentry, Option.map_map]
  exact .pure _ m

theorem acts_deleteQuietly (hr : r.Valid) (m : Records) :
    Acts (Graph.deleteQuietly r.text : Run σ Unit) m () (m.set r none) :=
  .quietly (does_delete hr m)

end Calls

/-! ## Scans -/

section Scans

open Engine

variable {m : Records}

/-- Keys that are all keys of records are the keys of a list of records. -/
theorem exists_records {l : List String} (h : ∀ key ∈ l, ∃ r : RecordKey, r.Valid ∧ key = r.text) :
    ∃ rs : List RecordKey, l = rs.map RecordKey.text ∧ ∀ r ∈ rs, r.Valid := by
  induction l with
  | nil => exact ⟨[], rfl, by simp⟩
  | cons key l ih =>
    obtain ⟨r, hr, hkey⟩ := h key (by simp)
    obtain ⟨rs, hl, hrs⟩ := ih fun k hk => h k (List.mem_cons_of_mem _ hk)
    refine ⟨r :: rs, by rw [hkey, hl]; rfl, ?_⟩
    simpa using ⟨hr, hrs⟩

/-- A record that is there is one of those in a list of keys if its key is. -/
theorem mem_of_text_mem {rs : List RecordKey} (hrs : ∀ r ∈ rs, r.Valid) {r : RecordKey}
    (hr : r.Valid) : r.text ∈ rs.map RecordKey.text ↔ r ∈ rs := by
  rw [List.mem_map]
  constructor
  · rintro ⟨r', hr', he⟩
    rwa [← RecordKey.text_injective (hrs r' hr') hr he]
  · intro h
    exact ⟨r, h, rfl⟩

/-- The keys of a store are those of the records of its table. -/
theorem Engine.Holds.mem_keys_iff {e : Engine σ} (h : e.Holds m) {r : RecordKey} (hr : r.Valid) :
    r.text ∈ e.keys ↔ m r ≠ none := by
  rw [Engine.mem_keys_iff, h.stored r hr]

/-- Some of the keys of a store are the keys of a list of records that are there. -/
theorem Engine.Holds.exists_records {e : Engine σ} (h : e.Holds m) {l : List String}
    (hl : ∀ key ∈ l, key ∈ e.keys) :
    ∃ rs : List RecordKey, l = rs.map RecordKey.text ∧ ∀ r ∈ rs, r.Valid ∧ m r ≠ none := by
  obtain ⟨rs, hrs, hvalid⟩ := PropertyGraph.exists_records (l := l) fun key hkey =>
    h.only key (Engine.mem_keys_iff.1 (hl key hkey))
  refine ⟨rs, hrs, fun r hr => ⟨hvalid r hr, ?_⟩⟩
  rw [← h.mem_keys_iff (hvalid r hr)]
  apply hl
  rw [hrs]
  exact List.mem_map_of_mem hr

theorem acts_deleteAll {rs : List RecordKey} (hrs : ∀ r ∈ rs, r.Valid) (m : Records) :
    Acts ((rs.map RecordKey.text).forM Graph.deleteQuietly : Run σ Unit) m ()
      (m.without (· ∈ rs)) := by
  induction rs generalizing m with
  | nil => exact (Acts.pure () m).congr fun r _ => by simp [Records.without]
  | cons r rs ih =>
    have hhead := acts_deleteQuietly (σ := σ) (hrs r (by simp)) m
    have htail := ih (fun r' hr' => hrs r' (List.mem_cons_of_mem _ hr')) (m.set r none)
    refine (Acts.bind (f := fun _ => (rs.map RecordKey.text).forM Graph.deleteQuietly)
      hhead htail).congr fun r' _ => ?_
    by_cases h : r' = r
    · simp [Records.without, h]
    · simp [Records.without, Records.set_of_ne m none h, h]

theorem collectQuietly_run {pattern : String} {p : KeyPattern}
    (hread : KeyPattern.parse pattern = .ok p) (heverything : p.isEverything = false)
    (hexact : p.isExact = false) (e : Engine σ) :
    (Graph.collectQuietly pattern).run e = (e.keys.filter p.accepts, e) := by
  have hreadAll := KeyPattern.parseAll_singleton hread
  have hps : ∀ q ∈ [p], q.isEverything = false ∧ q.isExact = false := by
    simpa using ⟨heverything, hexact⟩
  have hrun := Engine.keysDespite_run hreadAll (by simp) hps pattern e
  rw [KeyScan.brings_single heverything] at hrun
  exact Engine.quietly_ok hrun

/-- Deleting every key that a scan finds. -/
theorem acts_deleteFound {find : Run σ (List String)} {gone : RecordKey → Prop}
    [DecidablePred gone] (m : Records)
    (hfind : ∀ e : Engine σ, e.Holds m → ∃ l, find.run e = (l, e) ∧ (∀ key ∈ l, key ∈ e.keys) ∧
      ∀ r : RecordKey, r.Valid → r.text ∈ e.keys → (r.text ∈ l ↔ gone r)) :
    Acts (find >>= fun keys => keys.forM Graph.deleteQuietly) m () (m.without gone) := by
  intro e he
  obtain ⟨l, hrun, hsub, hgone⟩ := hfind e he
  obtain ⟨rs, rfl, hrs⟩ := he.exists_records hsub
  have hvalid : ∀ r ∈ rs, r.Valid := fun r hr => (hrs r hr).1
  have hdelete := (acts_deleteAll (σ := σ) hvalid m).congr (n := m.without gone)
    fun r hr => by
      by_cases hthere : m r = none
      · simp [Records.without, hthere]
      · have := hgone r hr ((he.mem_keys_iff hr).2 hthere)
        rw [mem_of_text_mem hvalid hr] at this
        simp [Records.without, this]
  obtain ⟨e', hrun', he', hb⟩ := hdelete e he
  refine ⟨e', ?_, he', hb⟩
  rw [Run.bind_run, hrun]
  exact hrun'

/-- Everything below the marker of an element goes. -/
theorem acts_deleteChildren {id : String} (hid : Key.isToken id = true) (kind : ElementKind)
    (m : Records) :
    Acts (Graph.deleteChildren kind id : Run σ Unit) m ()
      (m.without fun r => r.owner? = some (kind, id)) := by
  refine acts_deleteFound m fun e he => ⟨_, collectQuietly_run (KeyPattern.parse_children hid) rfl
    rfl e, fun key hkey => (List.mem_filter.1 hkey).1, fun r hr hkey => ?_⟩
  rw [List.mem_filter, ← KeyPattern.children_accepts hr]
  exact and_iff_right hkey

end Scans

end PropertyGraph
