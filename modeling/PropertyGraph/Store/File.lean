/-
The text a database is kept as in a file: a JSON object with the version of the schema,
the revision of each bucket and a row for each entry.
-/
import PropertyGraph.Json.Printer
import PropertyGraph.Store.Database

namespace PropertyGraph

namespace Blob

/-- A value as it is kept: a text as a string, bytes as the list of their values. -/
def toJson : Blob → Json
  | .text s => .str s
  | .raw bytes => .arr (bytes.map fun b => .nat b.toNat)

/-- The natural number of a JSON value. -/
def natOf? : Json → Option Nat
  | .num n => n.toIndex?
  | _ => none

/-- A value of the kept form. -/
def ofJson? : Json → Option Blob
  | .str s => some (.text s)
  | .arr items => do
    let ns ← items.mapM natOf?
    return .ofBytes ⟨(ns.map UInt8.ofNat).toArray⟩
  | _ => none

end Blob

namespace Database

/-- The JSON value a database is kept as. -/
def toJson (db : Database) : Json :=
  Json.object
    [("version", match db.version with
      | some v => .nat v
      | none => .null),
    ("buckets", .obj (db.revisions.toList.map fun (bucket, revision) => (bucket, .nat revision))),
    ("rows", .arr (db.rows.toList.map fun (row, entry) =>
      .arr [.str row.bucket, .str row.key, entry.value.toJson, .nat entry.revision]))]

/-- Puts a kept row into a database. -/
def insertRow? (db : Database) : Json → Option Database
  | .arr [.str bucket, .str key, value, revision] => do
    let entry := ⟨← Blob.ofJson? value, ← Blob.natOf? revision⟩
    return { db with rows := db.rows.insert ⟨bucket, key⟩ entry }
  | _ => none

/-- Puts a kept revision of a bucket into a database. -/
def insertRevision? (db : Database) : String × Json → Option Database
  | (bucket, revision) => do
    return { db with revisions := db.revisions.insert bucket (← Blob.natOf? revision) }

/-- The database that is kept as a JSON value. -/
def ofJson? (j : Json) : Option Database := do
  let version := (j.field? "version").bind Blob.natOf?
  let buckets ← match ← j.field? "buckets" with
    | .obj fields => some fields
    | _ => none
  let rows ← (← j.field? "rows").asArray?
  let db ← buckets.foldlM insertRevision? { blank with version := version }
  rows.foldlM insertRow? db

end Database

end PropertyGraph
