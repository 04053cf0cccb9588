/-
What every store promises, in terms of one sorted map of entries: reading looks a key up,
writing inserts, deleting erases, and a page of a scan is the first keys of a range that
begin with a stem (`LawfulBackend`). The store in memory and a bucket of a database keep
these promises, and so does a handle on either.
-/
import PropertyGraph.Proofs.KeyTokens
import PropertyGraph.Store.Handle

namespace PropertyGraph

/-! ## The order of keys -/

theorem compare_eq_lt_iff {a b : String} : compare a b = .lt ↔ a.toList < b.toList := by
  rw [← String.lt_iff]
  exact compareOfLessAndEq_eq_lt

/-- What lies between a text and something that begins with it begins with it too. -/
theorem prefix_of_between {s l rest : List Char} (hl : ¬ l < s) (h : l < s ++ rest) :
    ∃ tail, l = s ++ tail := by
  induction s generalizing l with
  | nil => exact ⟨l, rfl⟩
  | cons c s ih =>
    cases l with
    | nil => exact absurd (List.nil_lt_cons c s) hl
    | cons d l =>
      rw [List.cons_append, List.cons_lt_cons_iff] at h
      rw [List.cons_lt_cons_iff] at hl
      rcases h with h | ⟨rfl, h⟩
      · exact absurd (.inl h) hl
      · obtain ⟨tail, rfl⟩ := ih (fun h' => hl (.inr ⟨rfl, h'⟩)) h
        exact ⟨tail, rfl⟩

/-- What begins with a text and a dot is what lies between that and the same text with the
next character. -/
theorem prefix_dot_of_between {s l : List Char} (hl : ¬ l < s ++ ['.']) (h : l < s ++ ['/']) :
    ∃ tail, l = s ++ ['.'] ++ tail := by
  induction s generalizing l with
  | nil =>
    cases l with
    | nil => exact absurd (List.nil_lt_cons '.' []) hl
    | cons d l =>
      simp only [List.nil_append, List.cons_lt_cons_iff, List.not_lt_nil, and_false,
        or_false] at h hl
      have hlt : d.toNat < 47 := h
      have hge : ¬ d.toNat < 46 := fun hd => hl hd
      have hd : d = '.' := by
        apply Char.toNat_inj.1
        show d.toNat = 46
        omega
      exact ⟨l, by rw [hd]; rfl⟩
  | cons c s ih =>
    cases l with
    | nil => exact absurd (List.nil_lt_cons c _) hl
    | cons d l =>
      rw [List.cons_append, List.cons_lt_cons_iff] at h hl
      rcases h with h | ⟨rfl, h⟩
      · exact absurd (.inl h) hl
      · obtain ⟨tail, rfl⟩ := ih (fun h' => hl (.inr ⟨rfl, h'⟩)) h
        exact ⟨tail, rfl⟩

theorem not_lt_of_prefix (s tail : List Char) : ¬ s ++ tail < s :=
  List.not_lt.2 List.le_append_left

/-! ## Ranges of keys -/

/-- A stem a scan may have: nothing, or a text that ends in a dot. -/
def IsStem (stem : String) : Prop := stem = "" ∨ ∃ cs, stem.toList = cs ++ ['.']

/-- Whether a key begins with `stem` and lies behind `after` if that is given. -/
def inRange (stem : String) (after : Option String) (key : String) : Bool :=
  Key.startsWith key stem &&
    match after with
    | some last => compare last key == .lt
    | none => true

theorem not_before_of_startsWith {key stem : String} (h : Key.startsWith key stem = true) :
    compare key stem ≠ .lt := by
  obtain ⟨rest, hrest⟩ := Key.startsWith_iff.1 h
  rw [Ne, compare_eq_lt_iff, hrest]
  exact not_lt_of_prefix _ _

theorem startsWith_of_between {key later stem : String} (hkey : compare key stem ≠ .lt)
    (hlater : compare key later = .lt) (h : Key.startsWith later stem = true) :
    Key.startsWith key stem = true := by
  obtain ⟨rest, hrest⟩ := Key.startsWith_iff.1 h
  rw [Ne, compare_eq_lt_iff] at hkey
  rw [compare_eq_lt_iff, hrest] at hlater
  exact Key.startsWith_iff.2 (prefix_of_between hkey hlater)

/-- Keys behind one that begins with a stem are not before the stem. -/
theorem not_before_of_behind {key last stem : String} (hlast : Key.startsWith last stem = true)
    (h : compare last key = .lt) : compare key stem ≠ .lt := by
  intro hkey
  exact not_before_of_startsWith hlast (Std.TransCmp.lt_trans h hkey)

section Sorted

variable {α : Type} {R : α → α → Prop} {p : α → Bool}

/-- Among ordered items, dropping a condition that passes to earlier items drops all of
them. -/
theorem dropWhile_eq_filter {l : List α} (hl : l.Pairwise R)
    (hp : ∀ a b, R a b → p b = true → p a = true) :
    l.dropWhile p = l.filter fun a => !p a := by
  induction l with
  | nil => rfl
  | cons a l ih =>
    obtain ⟨ha, hl⟩ := List.pairwise_cons.1 hl
    by_cases h : p a = true
    · simp [h, ih hl]
    · have hall : ∀ b ∈ l, (!p b) = true := fun b hb => by
        simp only [Bool.not_eq_true']
        exact Bool.eq_false_iff.2 fun hpb => h (hp a b (ha b hb) hpb)
      simp [h, List.filter_eq_self.2 hall]

/-- Among ordered items, taking while a condition that passes to earlier items holds takes
all of them. -/
theorem takeWhile_eq_filter {l : List α} (hl : l.Pairwise R)
    (hp : ∀ a ∈ l, ∀ b ∈ l, R a b → p b = true → p a = true) :
    l.takeWhile p = l.filter p := by
  induction l with
  | nil => rfl
  | cons a l ih =>
    obtain ⟨ha, hl⟩ := List.pairwise_cons.1 hl
    have hp' : ∀ a ∈ l, ∀ b ∈ l, R a b → p b = true → p a = true := fun a ha b hb =>
      hp a (List.mem_cons_of_mem _ ha) b (List.mem_cons_of_mem _ hb)
    by_cases h : p a = true
    · simp [h, ih hl hp']
    · have hnone : ∀ b ∈ l, ¬ p b = true := fun b hb hpb =>
        h (hp a (by simp) b (List.mem_cons_of_mem _ hb) (ha b hb) hpb)
      simp [h, List.filter_eq_nil_iff.2 hnone]

end Sorted

/-! ## The promises -/

/-- A store that works as a sorted map of entries does. -/
class LawfulBackend (σ : Type) [Backend σ] where
  entries : σ → SortedMap String Entry
  revision : σ → Nat
  write : String → Blob → σ → σ
  erase : String → σ → σ
  page : σ → (stem : String) → (after : Option String) → (limit : Nat) → List String
  get_run (key : String) (s : σ) :
    (Backend.get key : Access σ _).run.run s = (.ok ((entries s).get? key), s)
  put_run (key : String) (value : Blob) (s : σ) :
    (Backend.put key value : Access σ _).run.run s = (.ok (revision s + 1), write key value s)
  update_run (key : String) (value : Blob) (s : σ) :
    (Backend.update key value : Access σ _).run.run s = (.ok (revision s + 1), write key value s)
  create_run (key : String) (value : Blob) (s : σ) :
    (Backend.create key value : Access σ _).run.run s =
      if (entries s).contains key then (.error (.keyExists key), s)
      else (.ok (revision s + 1), write key value s)
  delete_run (key : String) (s : σ) :
    (Backend.delete key : Access σ _).run.run s = (.ok (), erase key s)
  keys_eq (patterns : List String) :
    (Backend.keys patterns : Access σ _) = Backend.openScan patterns
  advance_eq (stream : KeyStream) :
    (Backend.advance stream : StateM σ _) =
      Backend.advanceScan (fun s stem after limit => .ok (page s stem after limit)) stream
  size_eq (s : σ) : Backend.size s = (entries s).size
  entries_write (key : String) (value : Blob) (s : σ) :
    entries (write key value s) = (entries s).insert key ⟨value, revision s + 1⟩
  revision_write (key : String) (value : Blob) (s : σ) :
    revision (write key value s) = revision s + 1
  entries_erase (key : String) (s : σ) : entries (erase key s) = (entries s).erase key
  revision_erase (key : String) (s : σ) : revision (erase key s) = revision s
  page_eq (s : σ) {stem : String} {after : Option String} (limit : Nat) (hstem : IsStem stem)
    (hafter : ∀ last, after = some last → Key.startsWith last stem = true) :
    page s stem after limit = ((entries s).keys.filter (inRange stem after)).take limit

theorem SortedMap.pairwise_keys {α : Type} (m : SortedMap String α) :
    m.keys.Pairwise fun a b => compare a b = .lt := by
  rw [SortedMap.keys, List.pairwise_map]
  exact m.sorted

theorem SortedMap.mem_keys_iff {α : Type} (m : SortedMap String α) {key : String} :
    key ∈ m.keys ↔ (m.get? key).isSome = true := by
  rw [SortedMap.keys, List.mem_map]
  constructor
  · rintro ⟨⟨k, v⟩, hmem, rfl⟩
    rw [m.mem_toList_iff] at hmem
    simp [hmem]
  · intro h
    obtain ⟨v, hv⟩ := Option.isSome_iff_exists.1 h
    exact ⟨(key, v), m.mem_toList_iff.2 hv, rfl⟩

/-! ## The store in memory -/

theorem Memory.page_eq (m : Memory) {stem : String} {after : Option String} (limit : Nat)
    (hafter : ∀ last, after = some last → Key.startsWith last stem = true) :
    m.page stem after limit = (m.entries.keys.filter (inRange stem after)).take limit := by
  have hsorted := m.entries.pairwise_keys
  simp only [page]
  congr 1
  rw [dropWhile_eq_filter hsorted]
  · have hbehind : ∀ key ∈ m.entries.keys.filter (fun key => !(match after with
        | some last => compare last key != .lt
        | none => compare key stem == .lt)), compare key stem ≠ .lt := by
      intro key hkey
      rw [List.mem_filter] at hkey
      cases after with
      | none => simpa using hkey.2
      | some last =>
        exact not_before_of_behind (hafter last rfl) (by simpa using hkey.2)
    rw [takeWhile_eq_filter (hsorted.filter _)]
    · rw [List.filter_filter]
      apply List.filter_congr
      intro key _
      cases after with
      | none =>
        by_cases h : Key.startsWith key stem = true
        · have := not_before_of_startsWith h
          simp [inRange, h, this]
        · simp [inRange, h]
      | some last =>
        have h : (!(compare last key != .lt)) = (compare last key == .lt) := by simp [bne]
        simp [inRange, h]
    · intro a ha b hb hab h
      exact startsWith_of_between (hbehind a ha) hab h
  · intro a b hab h
    cases after with
    | none =>
      simp only [beq_iff_eq] at h ⊢
      exact Std.TransCmp.lt_trans hab h
    | some last =>
      simp only [bne_iff_ne, ne_eq] at h ⊢
      exact fun ha => h (Std.TransCmp.lt_trans ha hab)

instance : LawfulBackend Memory where
  entries m := m.entries
  revision m := m.revision
  write key value m := m.write key value
  erase key m := { m with entries := m.entries.erase key }
  page := Memory.page
  get_run _ _ := rfl
  put_run _ _ _ := rfl
  update_run _ _ _ := rfl
  create_run key value m := by
    by_cases h : m.entries.contains key = true
    · simp only [h, ite_true]
      show (if m.entries.contains key = true then _ else _ : Access Memory Nat).run.run m = _
      rw [if_pos h]
      rfl
    · simp only [h]
      show (if m.entries.contains key = true then _ else _ : Access Memory Nat).run.run m = _
      rw [if_neg h]
      rfl
  delete_run _ _ := rfl
  keys_eq _ := rfl
  advance_eq _ := rfl
  size_eq _ := rfl
  entries_write _ _ _ := rfl
  revision_write _ _ _ := rfl
  entries_erase _ _ := rfl
  revision_erase _ _ := rfl
  page_eq m _ _ limit _ hafter := m.page_eq limit hafter

/-! ## A bucket of a database -/

namespace Database

/-- The entry of a row of a bucket. -/
def inBucket (bucket : String) (row : RowKey × Entry) : Option (String × Entry) :=
  if row.1.bucket == bucket then some (row.1.key, row.2) else none

theorem inBucket_eq_some {bucket key : String} {entry : Entry} {row : RowKey × Entry} :
    inBucket bucket row = some (key, entry) ↔ row = (⟨bucket, key⟩, entry) := by
  obtain ⟨⟨b, k⟩, e⟩ := row
  by_cases h : b = bucket
  · simp [inBucket, h]
  · simp [inBucket, h]

/-- The entries of a bucket. -/
def entries (db : Database) (bucket : String) : SortedMap String Entry where
  toList := db.rows.toList.filterMap (inBucket bucket)
  sorted := by
    rw [List.pairwise_filterMap]
    refine db.rows.sorted.imp fun {row row'} h e he e' he' => ?_
    obtain ⟨k, v⟩ := e
    obtain ⟨k', v'⟩ := e'
    rw [inBucket_eq_some] at he he'
    subst he he'
    simpa [KeyBefore, RowKey.compare_def] using h

theorem get?_entries (db : Database) (bucket key : String) :
    (db.entries bucket).get? key = db.rows.get? ⟨bucket, key⟩ := by
  apply Option.ext
  intro entry
  rw [← SortedMap.mem_toList_iff, ← SortedMap.mem_toList_iff, entries, List.mem_filterMap]
  constructor
  · rintro ⟨row, hrow, h⟩
    rwa [← inBucket_eq_some.1 h]
  · intro h
    exact ⟨_, h, inBucket_eq_some.2 rfl⟩

theorem keys_entries (db : Database) (bucket : String) :
    (db.entries bucket).keys = db.keys bucket := by
  simp only [SortedMap.keys, entries, keys, List.map_filterMap, List.filterMap_map]
  congr 1
  funext row
  by_cases h : row.1.bucket = bucket
  · simp [inBucket, h]
  · simp [inBucket, h]

theorem revision_write (db : Database) (bucket key : String) (value : Blob) :
    (db.write bucket key value).revision bucket = db.revision bucket + 1 := by
  simp [write, revision]

theorem entries_write (db : Database) (bucket key : String) (value : Blob) :
    (db.write bucket key value).entries bucket =
      (db.entries bucket).insert key ⟨value, db.revision bucket + 1⟩ := by
  apply SortedMap.ext_get?
  intro k
  rw [get?_entries]
  by_cases h : k = key
  · subst h
    simp [write]
  · have hne : (⟨bucket, k⟩ : RowKey) ≠ ⟨bucket, key⟩ := by simpa using h
    rw [SortedMap.get?_insert_of_ne _ _ h, get?_entries, write,
      SortedMap.get?_insert_of_ne _ _ hne]

theorem entries_erase (db : Database) (bucket key : String) :
    (db.erase bucket key).entries bucket = (db.entries bucket).erase key := by
  apply SortedMap.ext_get?
  intro k
  rw [get?_entries]
  by_cases h : k = key
  · subst h
    simp [erase]
  · have hne : (⟨bucket, k⟩ : RowKey) ≠ ⟨bucket, key⟩ := by simpa using h
    rw [SortedMap.get?_erase_of_ne _ h, get?_entries, erase, SortedMap.get?_erase_of_ne _ hne]

theorem upperBound_of_dot {stem : String} {cs : List Char} (h : stem.toList = cs ++ ['.']) :
    (upperBound stem).toList = cs ++ ['/'] := by
  simp [upperBound, h]

theorem page_eq (db : Database) (bucket : String) {stem : String} {after : Option String}
    (limit : Nat) (hstem : IsStem stem)
    (hafter : ∀ last, after = some last → Key.startsWith last stem = true) :
    db.page bucket stem after limit =
      ((db.entries bucket).keys.filter (inRange stem after)).take limit := by
  rw [keys_entries]
  simp only [page]
  congr 1
  apply List.filter_congr
  intro key _
  have habove : ∀ last, after = some last → compare last key = .lt → compare key stem ≠ .lt :=
    fun last hlast => not_before_of_behind (hafter last hlast)
  rcases hstem with rfl | ⟨cs, hcs⟩
  · have hnot := not_before_of_startsWith (Key.startsWith_empty key)
    cases after with
    | none => simp [inRange, Key.startsWith_empty, hnot]
    | some last => simp [inRange, Key.startsWith_empty]
  · have hne : stem.isEmpty = false := by
      rw [Bool.eq_false_iff]
      intro he
      rw [String.isEmpty_iff] at he
      simp [he] at hcs
    have hbound := upperBound_of_dot hcs
    have hbelow : compare key stem ≠ .lt →
        (compare key (upperBound stem) = .lt ↔ Key.startsWith key stem = true) := by
      intro hnot
      rw [Ne, compare_eq_lt_iff, hcs] at hnot
      rw [compare_eq_lt_iff, hbound, Key.startsWith_iff, hcs]
      constructor
      · exact prefix_dot_of_between hnot
      · rintro ⟨rest, hrest⟩
        rw [hrest, List.append_assoc]
        refine List.append_left_lt ?_
        rw [List.singleton_append, List.cons_lt_cons_iff]
        exact .inl (by decide)
    cases after with
    | none =>
      by_cases h : compare key stem = .lt
      · have : Key.startsWith key stem = false :=
          Bool.eq_false_iff.2 fun hs => not_before_of_startsWith hs h
        simp [inRange, h, this]
      · have := hbelow h
        by_cases hs : Key.startsWith key stem = true
        · simp [inRange, h, hne, hs, this.2 hs]
        · simp [inRange, hne, hs, this]
    | some last =>
      by_cases h : compare last key = .lt
      · have := hbelow (habove last rfl h)
        by_cases hs : Key.startsWith key stem = true
        · simp [inRange, h, hs, this.2 hs]
        · simp [inRange, hne, hs, this]
      · have hb : (compare last key == .lt) = false := by simpa using h
        simp [inRange, hb]

end Database

instance : LawfulBackend Bucket where
  entries b := b.database.entries b.name
  revision b := b.database.revision b.name
  write key value b := { b with database := b.database.write b.name key value }
  erase key b := { b with database := b.database.erase b.name key }
  page b := b.database.page b.name
  get_run key b := by
    rw [Database.get?_entries]
    rfl
  put_run key value b := by
    rw [← Database.revision_write b.database b.name key value]
    rfl
  update_run key value b := by
    rw [← Database.revision_write b.database b.name key value]
    rfl
  create_run key value b := by
    have hcontains : (b.database.entries b.name).contains key =
        b.database.rows.contains ⟨b.name, key⟩ := by
      rw [SortedMap.contains, Database.get?_entries, SortedMap.contains]
    rw [hcontains]
    by_cases h : b.database.rows.contains ⟨b.name, key⟩ = true
    · show (if b.database.rows.contains ⟨b.name, key⟩ = true then _ else _ :
        Access Bucket Nat).run.run b = _
      rw [if_pos h, if_pos h]
      rfl
    · show (if b.database.rows.contains ⟨b.name, key⟩ = true then _ else _ :
        Access Bucket Nat).run.run b = _
      rw [if_neg h, if_neg h, ← Database.revision_write b.database b.name key value]
      rfl
  delete_run _ _ := rfl
  keys_eq _ := rfl
  advance_eq _ := rfl
  size_eq b := by
    show (b.database.keys b.name).length = (b.database.entries b.name).toList.length
    rw [← Database.keys_entries, SortedMap.keys, List.length_map]
  entries_write key value b := b.database.entries_write b.name key value
  revision_write key value b := b.database.revision_write b.name key value
  entries_erase key b := b.database.entries_erase b.name key
  revision_erase _ _ := rfl
  page_eq b _ _ limit hstem hafter := b.database.page_eq b.name limit hstem hafter

/-! ## Either kind of store -/

namespace Handle

variable {α : Type}

/-- The outcome of a call on a store in memory. -/
def ofMemory (p : α × Memory) : α × Handle := (p.1, .memory p.2)

/-- The outcome of a call on a bucket of a database. -/
def ofBucket (p : α × Bucket) : α × Handle := (p.1, .database p.2)

theorem dispatchCall_openScan (patterns : List String) :
    dispatchCall (Backend.openScan patterns) (Backend.openScan patterns) =
      (Backend.openScan patterns : Access Handle _) := by
  unfold Backend.openScan
  cases KeyPattern.parseAll patterns with
  | ok ps =>
    funext h
    cases h <;> rfl
  | error e =>
    funext h
    cases h <;> rfl

end Handle

open LawfulBackend Handle in
instance : LawfulBackend Handle where
  entries
    | .memory m => entries m
    | .database b => entries b
  revision
    | .memory m => revision m
    | .database b => revision b
  write key value
    | .memory m => .memory (write key value m)
    | .database b => .database (write key value b)
  erase key
    | .memory m => .memory (erase key m)
    | .database b => .database (erase key b)
  page
    | .memory m => page m
    | .database b => page b
  get_run key h := by
    cases h with
    | memory m => exact congrArg ofMemory (get_run key m)
    | database b => exact congrArg ofBucket (get_run key b)
  put_run key value h := by
    cases h with
    | memory m => exact congrArg ofMemory (put_run key value m)
    | database b => exact congrArg ofBucket (put_run key value b)
  update_run key value h := by
    cases h with
    | memory m => exact congrArg ofMemory (update_run key value m)
    | database b => exact congrArg ofBucket (update_run key value b)
  create_run key value h := by
    cases h with
    | memory m =>
      refine (congrArg ofMemory (create_run key value m)).trans ?_
      rw [apply_ite ofMemory]
      rfl
    | database b =>
      refine (congrArg ofBucket (create_run key value b)).trans ?_
      rw [apply_ite ofBucket]
      rfl
  delete_run key h := by
    cases h with
    | memory m => exact congrArg ofMemory (delete_run key m)
    | database b => exact congrArg ofBucket (delete_run key b)
  keys_eq patterns := dispatchCall_openScan patterns
  advance_eq stream := by
    funext h
    cases h <;> rfl
  size_eq h := by
    cases h with
    | memory m => exact size_eq m
    | database b => exact size_eq b
  entries_write key value h := by
    cases h with
    | memory m => exact entries_write key value m
    | database b => exact entries_write key value b
  revision_write key value h := by
    cases h with
    | memory m => exact revision_write key value m
    | database b => exact revision_write key value b
  entries_erase key h := by
    cases h with
    | memory m => exact entries_erase key m
    | database b => exact entries_erase key b
  revision_erase key h := by
    cases h with
    | memory m => exact revision_erase key m
    | database b => exact revision_erase key b
  page_eq h _ _ limit hstem hafter := by
    cases h with
    | memory m => exact LawfulBackend.page_eq m limit hstem hafter
    | database b => exact LawfulBackend.page_eq b limit hstem hafter

end PropertyGraph
