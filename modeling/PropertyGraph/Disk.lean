/-
The disk as far as databases are concerned: which files and directories are there, and what
becomes of them when a database is opened and left.

A database in a file may have others beside it: a journal of changes to be taken back, a log
of changes to come with an index, and a lock. Whatever is found under their names when the
database is opened counts as theirs, and goes with them.
-/
import PropertyGraph.Config
import PropertyGraph.Location
import PropertyGraph.Path

namespace PropertyGraph

/-- What a path leads to. -/
inductive Node where
  | directory
  | database (database : Database)
  /-- A file that holds no database. -/
  | other

/-- The directories and files. -/
structure Disk where
  directories : List Path
  databases : SortedMap Path Database
  otherFiles : List Path
  /-- The directory where relative paths start. -/
  home : Path

/-- The file a connection works on, with the location it was opened for. -/
structure HeldFile where
  path : Path
  location : Location

namespace Disk

/-- What a path leads to. -/
def node? (d : Disk) (p : Path) : Option Node :=
  if d.directories.contains p then some .directory
  else if d.otherFiles.contains p then some .other
  else (d.databases.get? p).map .database

def isDirectory (d : Disk) (p : Path) : Bool := d.directories.contains p

/-- Whether there is a file with something in it. -/
def isFilled (d : Disk) (p : Path) : Bool :=
  match d.node? p with
  | some (.database db) => !db.isBlank
  | some .other => true
  | _ => false

/-- Puts a database in a file. -/
def put (d : Disk) (p : Path) (db : Database) : Disk :=
  { d with databases := d.databases.insert p db, otherFiles := d.otherFiles.filter (· != p) }

/-- Puts something else in a file. -/
def spoil (d : Disk) (p : Path) : Disk :=
  { d with databases := d.databases.erase p, otherFiles := p :: d.otherFiles }

/-- Takes a file away. -/
def erase (d : Disk) (p : Path) : Disk :=
  { d with databases := d.databases.erase p, otherFiles := d.otherFiles.filter (· != p) }

/-! ## Ways to a file -/

/-- The most bytes it takes to write a path. -/
def longestPath : Nat := 511

/-- The most bytes it takes to write the path of a database, so that there is room for the
files beside it. -/
def longestFilePath : Nat := 504

/-- A step towards a database. To step back is to drop a name, without a look at the disk.
What is not there may be stepped into, but not a file. -/
def step? (d : Disk) (here : Path) (step : FileName) : Option Path :=
  let next := here.go step
  if !Path.isName step then some next
  else if longestPath < next.size then none
  else
    match d.node? here with
    | some .directory => if step.length ≤ Path.longestName then some next else none
    | some _ => none
    | none => some next

/-- The path of a database, in its shortest form. -/
def filePath? (d : Disk) (written : List UInt8) : Option Path := do
  let p ← (Path.steps written).foldlM d.step? (Path.origin d.home written)
  if !p.isEmpty && p.size ≤ longestFilePath then return p else none

/-- A step from a directory that is there. -/
def enter? (d : Disk) (here : Path) (step : FileName) : Option Path :=
  if d.isDirectory here then some (here.go step) else none

/-- Whether there is something under a path. -/
def has (d : Disk) (written : List UInt8) : Bool :=
  !written.isEmpty &&
    (((Path.steps written).foldlM d.enter? (Path.origin d.home written)).bind d.node?).isSome

/-! ## Opening and leaving -/

/-- The journal beside a database. -/
def journal (p : Path) : Path := p.beside "-journal"

/-- The log beside a database. -/
def log (p : Path) : Path := p.beside "-wal"

/-- The index of the log. -/
def logIndex (p : Path) : Path := p.beside "-shm"

/-- The lock beside a database. -/
def lock (p : Path) : Path := p.beside ".lock"

/-- The path and the database of a location, in a file that is made if it is missing and may
be. -/
def find? (d : Disk) (l : Location) (written : List UInt8) : Option (Path × Database × Disk) := do
  let p ← d.filePath? written
  if l.permissionsOf.any (!d.has ·) then none
  else
    match d.node? p with
    | some (.database db) => return (p, db, d)
    | some _ => none
    | none =>
      if l.makesFile && d.isDirectory p.dropLast then return (p, .blank, d.put p .blank) else none

/-- Whether a lock keeps everyone from a file. -/
def isHeld (d : Disk) (f : HeldFile) : Bool :=
  f.location.isLocked && f.location.fileSystem == .lockFile && (d.node? (lock f.path)).isSome

/-- The disk after a look at a database that may not be changed. What is beside a blank
database goes, but its journal only where no lock stands in the way; a log that can be read
gets its index. -/
def peruse (d : Disk) (f : HeldFile) (db : Database) : Disk :=
  let l := f.location
  if l.isFixed || d.isHeld f then d
  else if db.isBlank then
    let d := if !l.readsLog && d.isFilled (journal f.path) then d.erase (journal f.path) else d
    if d.isFilled (log f.path) then d.erase (log f.path) else d
  else if l.readsLog && d.isFilled (log f.path) && !d.isFilled (journal f.path) then
    d.spoil (logIndex f.path)
  else d

/-- Settles what is beside a database that is about to be changed, and tells whether it can
be. A journal goes: its changes are taken back, or there were none to a blank database. So
does the log of a blank database; another log is read, which not everyone can. -/
def settle (d : Disk) (f : HeldFile) (db : Database) : Bool × Disk :=
  let l := f.location
  if d.isHeld f then (false, d)
  else
    let d := if db.isBlank || d.isFilled (journal f.path) then d.erase (journal f.path) else d
    let isLogged := d.isFilled (log f.path)
    let d := if isLogged && db.isBlank then d.erase (log f.path) else d
    let hasRoom := ((journal f.path).getLast?.getD []).length ≤ Path.longestName
    (hasRoom && (db.isBlank || !isLogged || l.readsLog), d)

/-- Opens the database a name stands for. Comes back with its file, and with the disk even if
it is refused. A database that cannot be changed is refused: to open one is to note its
version. -/
def read (d : Disk) (name : String) : Except Error (Database × Option HeldFile) × Disk :=
  let refused := .error (.storage (.cannotOpen name))
  match Location.ofName? name with
  | none => (refused, d)
  | some l =>
    match l.path with
    | none => (if l.isWritable && !l.isFixed then .ok (.blank, none) else refused, d)
    | some written =>
      match d.find? l written with
      | none => (refused, d)
      | some (p, db, d) =>
        if !l.isWritable || l.isFixed then (refused, d.peruse ⟨p, l⟩ db)
        else
          let (isReady, d) := d.settle ⟨p, l⟩ db
          (if isReady then .ok (db, some ⟨p, l⟩) else refused, d)

/-- Opens the connection some options ask for. -/
def connect (d : Disk) (config : Config) : Except Error (Connection × Option HeldFile) × Disk :=
  match config.backend, config.path with
  | .database, some name =>
    let (opened, d) := d.read name
    (opened.map fun (db, file) => (.ofDatabase db, file), d)
  | kind, _ => (.ok (.fresh kind, none), d)

/-- The disk after work on a connection. Changes take the place of the journal. A log that was
read goes with its index when the connection is closed; else the index stays, and the log has
the changes. -/
def keep (d : Disk) (file : Option HeldFile) (c : Connection) (isClosed : Bool) : Disk :=
  match file, c.database? with
  | some f, some db =>
    let isChanged := d.databases.get? f.path != some db
    let hasIndex := f.location.fileSystem == .standard
    let d' := d.put f.path db
    if !d.isFilled (log f.path) then if isChanged then d'.erase (journal f.path) else d'
    else if isClosed then
      let d' := d'.erase (log f.path)
      if hasIndex then d'.erase (logIndex f.path) else d'
    else
      let d' := if isChanged then d'.spoil (log f.path) else d'
      if hasIndex then d'.spoil (logIndex f.path) else d'
  | _, _ => d

end Disk

end PropertyGraph
