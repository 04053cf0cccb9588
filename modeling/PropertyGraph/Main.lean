/-
The program: it looks at the files the arguments name, runs, keeps what becomes of the files
and prints.
-/
import PropertyGraph.CommandLine
import PropertyGraph.Store.File

namespace PropertyGraph.Main

/-- The location of the database the arguments name. -/
def locationOf? (args : List String) : Option Location :=
  match CommandLine.ofArguments args with
  | .ok c =>
    match c.config with
    | .ok config => config.path.bind Location.ofName?
    | .error _ => none
  | .error _ => none

/-- The paths a written path leads through. -/
def through (home : Path) (written : List UInt8) : List Path :=
  let start := Path.origin home written
  ((Path.steps written).foldl
    (fun (before, here) step => (here :: before, Path.go here step)) ([], start)) |>
    fun (before, last) => last :: before

/-- The paths that matter for a location. -/
def pathsFor (home : Path) (l : Location) : List Path :=
  let toFile := (l.path.map (through home)).getD []
  let beside := toFile.head?.toList.flatMap fun p =>
    [Disk.journal p, Disk.log p, Disk.logIndex p, Disk.lock p]
  (toFile ++ beside ++ (l.permissionsOf.map (through home)).getD []).eraseDups

/-- The text of a path, if it is text. -/
def textOf? (p : Path) : Option String :=
  String.fromUTF8? ⟨(p.flatMap fun name => Path.slash :: name).toArray⟩

/-- The bytes of a file, if it can be read. -/
def bytesOf? (file : String) : IO (Option ByteArray) := do
  try return some (← IO.FS.readBinFile file)
  catch _ => return none

/-- The database in the bytes of a file; an empty file is a blank one. -/
def databaseOf? (bytes : ByteArray) : Option Database :=
  if bytes.isEmpty then some .blank
  else do Database.ofJson? (← Json.parse? (← String.fromUTF8? bytes))

/-- Looks what is at a path. -/
def look (disk : Disk) (p : Path) : IO Disk := do
  match textOf? p with
  | none => return disk
  | some text =>
    let place := (← IO.currentDir) / text
    if p.isEmpty || (← place.isDir) then
      return { disk with directories := p :: disk.directories }
    match ← bytesOf? text with
    | none => return if ← place.pathExists then disk.spoil p else disk
    | some bytes =>
      match databaseOf? bytes with
      | some db => return disk.put p db
      | none => return disk.spoil p

/-- Whether a file can be made. -/
def canMake (file : String) : IO Bool := do
  try
    let _ ← IO.FS.Handle.mk file .append
    IO.FS.removeFile file
    return true
  catch _ => return false

/-- The disk as far as a location is concerned. Where no file can be made, there is one that
cannot be opened. -/
def diskFor (home : Path) (l : Location) : IO Disk := do
  let disk ← (pathsFor home l).foldlM look ⟨[], .empty, [], home⟩
  match (l.path.bind disk.filePath?).map fun p => (p, textOf? p) with
  | some (p, some text) =>
    if l.makesFile && (disk.node? p).isNone && disk.isDirectory p.dropLast then
      return if ← canMake text then disk else disk.spoil p
    else return disk
  | some (p, none) => return disk.spoil p
  | none => return disk

/-- Brings a file from the state on one disk into that on another. -/
def save (before after : Disk) (p : Path) : IO Unit := do
  match textOf? p, before.node? p, after.node? p with
  | some text, _, some (.database db) => IO.FS.writeFile text db.toJson.text
  | some text, some (.database _), none | some text, some .other, none => IO.FS.removeFile text
  | _, _, _ => return ()

end PropertyGraph.Main

open PropertyGraph in
def main (args : List String) : IO UInt32 := do
  let log ← IO.getEnv "KVGRAPH_LOG"
  let home := (Path.steps (Text.Utf8.encode (← IO.currentDir).toString)).filter Path.isName
  let location := (Main.locationOf? args).getD { path := none }
  let before ← Main.diskFor home location
  let (outcome, _, after) := CommandLine.run args log 0 before
  (Main.pathsFor home location).forM (Main.save before after)
  IO.print outcome.stdout
  IO.eprint outcome.stderr
  return UInt32.ofNat outcome.code
