/-
The store in a database of tables: one table holds the entries of all buckets, with
bucket and key together as its primary key, one the revision of every bucket, and one
the version of the schema.
-/
import PropertyGraph.Store.Backend
import PropertyGraph.Store.SortedMap

namespace PropertyGraph

/-- The primary key of an entry. -/
structure RowKey where
  bucket : String
  key : String
deriving DecidableEq, Repr

/-- Rows are ordered by bucket, then by key. -/
instance : Ord RowKey := ⟨compareLex (compareOn RowKey.bucket) (compareOn RowKey.key)⟩

theorem RowKey.compare_def (a b : RowKey) :
    compare a b = (compare a.bucket b.bucket).then (compare a.key b.key) := rfl

instance : Std.TransOrd RowKey :=
  inferInstanceAs (Std.TransCmp (compareLex (compareOn RowKey.bucket) (compareOn RowKey.key)))

instance : Std.LawfulEqOrd RowKey where
  compare_self {a} := by simp
  eq_of_compare {a b} h := by
    rw [RowKey.compare_def, Ordering.then_eq_eq] at h
    obtain ⟨a1, a2⟩ := a
    obtain ⟨b1, b2⟩ := b
    simp only [Std.LawfulEqOrd.compare_eq_iff_eq] at h
    simp [h.1, h.2]

/-- A database. -/
structure Database where
  rows : SortedMap RowKey Entry
  revisions : SortedMap String Nat
  version : Option Nat
deriving DecidableEq

namespace Database

/-- The version of the schema this library writes. -/
def schemaVersion : Nat := 1

/-- A file without tables. -/
def blank : Database := ⟨.empty, .empty, none⟩

/-- Whether there are no tables. -/
def isBlank (db : Database) : Bool := db.version.isNone

/-- Makes the tables where there are none and notes the version where none is noted. -/
def ensureSchema (db : Database) : Database :=
  { db with version := some (db.version.getD schemaVersion) }

/-- A fresh database. -/
def empty : Database := blank.ensureSchema

instance : Inhabited Database := ⟨empty⟩

/-- The revision of the last write to a bucket. -/
def revision (db : Database) (bucket : String) : Nat := (db.revisions.get? bucket).getD 0

/-- Stores a value in a bucket under its next revision. -/
def write (db : Database) (bucket key : String) (value : Blob) : Database :=
  let next := db.revision bucket + 1
  { db with
    rows := db.rows.insert ⟨bucket, key⟩ ⟨value, next⟩
    revisions := db.revisions.insert bucket next }

/-- Takes a key out of a bucket. -/
def erase (db : Database) (bucket key : String) : Database :=
  { db with rows := db.rows.erase ⟨bucket, key⟩ }

/-- The keys of a bucket. -/
def keys (db : Database) (bucket : String) : List String :=
  db.rows.keys.filterMap fun row => if row.bucket == bucket then some row.key else none

/-- A text above every text that begins with `stem`. Characters from U+007F on are
dropped from its end first, which only widens the range. -/
def upperBound (stem : String) : String :=
  match stem.toList.reverse.dropWhile (0x7F ≤ ·.toNat) with
  | last :: rest => String.ofList (Char.ofNat (last.toNat + 1) :: rest).reverse
  | [] => String.ofList [Char.ofNat 0x10FFFF]

/-- The keys of a bucket from `stem` on, or after `after`, and below the upper bound of a
stem that is not empty. -/
def page (db : Database) (bucket stem : String) (after : Option String) (limit : Nat) :
    List String :=
  let above (key : String) : Bool :=
    match after with
    | some last => compare last key == .lt
    | none => compare key stem != .lt
  let bound := upperBound stem
  let below (key : String) : Bool := stem.isEmpty || compare key bound == .lt
  ((db.keys bucket).filter fun key => above key && below key).take limit

end Database

/-- A bucket of a database. -/
structure Bucket where
  name : String
  database : Database

namespace Bucket

/-- Writes and returns the revision. -/
def writing (key : String) (value : Blob) : Access Bucket Nat := do
  modify fun b => { b with database := b.database.write b.name key value }
  let b ← get
  return b.database.revision b.name

instance : Backend Bucket where
  get key := do
    let b ← MonadState.get
    return b.database.rows.get? ⟨b.name, key⟩
  put := writing
  update := writing
  create key value := do
    let b ← MonadState.get
    if b.database.rows.contains ⟨b.name, key⟩ then throw (.keyExists key)
    else writing key value
  delete key := modify fun b => { b with database := b.database.erase b.name key }
  keys := Backend.openScan
  advance := Backend.advanceScan fun b stem after limit =>
    .ok (b.database.page b.name stem after limit)
  size b := (b.database.keys b.name).length

end Bucket

end PropertyGraph
