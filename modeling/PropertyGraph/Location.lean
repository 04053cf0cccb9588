/-
Where a database is, as the name given for it says. A name that begins with `file:` is a
URI: an authority, which is empty or `localhost`, a path, options after `?`, and after `#`
what counts for nothing. In the path and the options `%` and two hexadecimal digits stand
for a byte; the byte 0 hides what follows it. Any other name is a path.

The options read are `mode`, what may be done to the file, `cache`, how it is shared,
`vfs`, through which file system, `immutable`, whether it is taken as one that never
changes, `nolock`, whether it stays without locks, and `modeof`, the file whose permissions
a new one gets.
-/
import PropertyGraph.Text.Hexadecimal
import PropertyGraph.Text.Utf8

namespace PropertyGraph

/-- How files are locked and shared. -/
inductive FileSystem where
  | standard
  /-- Without locks. -/
  | lockless
  /-- With a file beside the database for a lock. -/
  | lockFile
  /-- One program at a time. -/
  | exclusive
  /-- Files are in memory. -/
  | memory
deriving DecidableEq, Repr

namespace FileSystem

/-- The file system of a name. -/
def ofName? (name : String) : Option FileSystem :=
  if name == "unix" then some .standard
  else if name == "unix-none" then some .lockless
  else if name == "unix-dotfile" then some .lockFile
  else if name == "unix-excl" then some .exclusive
  else if name == "memdb" then some .memory
  else none

end FileSystem

/-- A place for a database. -/
structure Location where
  /-- The path of the file as it is written; without one the database is gone when it is
  closed. -/
  path : Option (List UInt8)
  fileSystem : FileSystem := .standard
  /-- Whether a file that is missing is made. -/
  makesFile : Bool := true
  /-- Whether the database may be changed. -/
  isWritable : Bool := true
  /-- Whether the file is taken as one that never changes. -/
  isFixed : Bool := false
  /-- Whether the file is locked. -/
  isLocked : Bool := true
  /-- The path of the file whose permissions a new one gets. -/
  permissionsOf : Option (List UInt8) := none
deriving DecidableEq, Repr

namespace Location

/-- A path that stands for a database in memory. -/
def isTransient (path : List UInt8) : Bool :=
  path.isEmpty || path == Text.Utf8.encode ":memory:"

/-- Whether a write-ahead log can be read: its index is shared by those who lock the file. -/
def readsLog (l : Location) : Bool :=
  l.isLocked && (l.fileSystem == .standard || l.fileSystem == .exclusive)

/-! ## Options -/

/-- What may be done to a file. -/
inductive Mode where
  | readOnly
  /-- Read and change, but not make. -/
  | existing
  | make
  /-- There is no file: the database is in memory. -/
  | memory
deriving DecidableEq, Repr

namespace Mode

/-- The mode of a name. -/
def ofName? (name : String) : Option Mode :=
  if name == "ro" then some .readOnly
  else if name == "rw" then some .existing
  else if name == "rwc" then some .make
  else if name == "memory" then some .memory
  else none

/-- How much a mode asks for. -/
def demand : Mode → Nat
  | .memory => 0
  | .readOnly => 1
  | .existing => 2
  | .make => 3

/-- How much may be asked for after a mode. -/
def limit : Mode → Nat
  | .memory => 3
  | mode => mode.demand

end Mode

/-- An option: its name, and the bytes of its value. -/
abbrev UriOption := String × List UInt8

/-- The text of some bytes. -/
def text (bytes : List UInt8) : String := String.ofList (Text.Utf8.repair bytes)

/-- What the options ask for. -/
structure Settings where
  mode : Mode := .make
  /-- The name of the file system. -/
  fileSystem : String := "unix"
deriving DecidableEq, Repr

/-- The settings after an option. A mode asks for no more than the one before it. -/
def Settings.with? (s : Settings) (option : UriOption) : Option Settings :=
  let (name, value) := option
  if name == "vfs" then some { s with fileSystem := text value }
  else if name == "cache" then
    if text value == "shared" || text value == "private" then some s else none
  else if name == "mode" then do
    let mode ← Mode.ofName? (text value)
    if mode.demand ≤ s.mode.limit then return { s with mode := mode } else none
  else some s

/-- The number that some digits write. -/
def numeral (base : Nat) (digits : List Char) : Nat :=
  digits.foldl (fun n c => n * base + (Text.hexValue? c).getD 0) 0

/-- The number at the front of a text, in decimal digits or, after `0x`, in hexadecimal ones;
0 if it takes more than 31 bits. -/
def leadingNumber (cs : List Char) : Nat :=
  let isHex (c : Char) := (Text.hexValue? c).isSome
  let decimal := numeral 10 (cs.takeWhile Char.isDigit)
  let number := match cs with
    | '0' :: x :: digit :: rest =>
      if (x == 'x' || x == 'X') && isHex digit then
        numeral 16 ((digit :: rest).takeWhile isHex)
      else decimal
    | _ => decimal
  if number < 0x80000000 then number else 0

/-- Whether the value of an option stands for true: a word, or a number at the front that is
not 0 in its lowest byte. -/
def isTrue (value : String) : Bool :=
  if (value.toList.head?.any Char.isDigit) then leadingNumber value.toList % 256 != 0
  else ["on", "yes", "true"].contains (value.map Char.toLower)

/-- Whether an option is given and true. Of several of one name the first counts. -/
def hasTrue (options : List UriOption) (name : String) : Bool :=
  ((options.lookup name).map (isTrue ∘ text)).getD false

/-! ## Names -/

/-- The bytes some characters of a URI stand for. -/
def bytes : List Char → List UInt8
  | '%' :: a :: b :: rest =>
    match Text.hexValue? a, Text.hexValue? b with
    | some high, some low =>
      if high == 0 && low == 0 then [] else UInt8.ofNat (high * 16 + low) :: bytes rest
    | _, _ => String.utf8EncodeChar '%' ++ bytes (a :: b :: rest)
  | c :: rest => String.utf8EncodeChar c ++ bytes rest
  | [] => []

/-- The options in the characters after `?`; those without a name count for nothing. -/
def options (cs : List Char) : List UriOption :=
  (cs.splitOn '&').filterMap fun option =>
    let name := text (bytes (option.takeWhile (· != '=')))
    let value := bytes ((option.dropWhile (· != '=')).drop 1)
    if name.isEmpty then none else some (name, value)

/-- The characters after the authority, if it is one of this machine. -/
def afterAuthority? : List Char → Option (List Char)
  | '/' :: '/' :: rest =>
    let authority := rest.takeWhile (· != '/')
    if authority.isEmpty || authority == "localhost".toList then some (rest.dropWhile (· != '/'))
    else none
  | cs => some cs

/-- The location a path and options ask for. -/
def ofOptions? (path : List UInt8) (options : List UriOption) : Option Location := do
  let settings ← options.foldlM Settings.with? {}
  let fileSystem ← FileSystem.ofName? settings.fileSystem
  let inMemory := isTransient path || settings.mode == .memory
  return {
    path := if inMemory || fileSystem == .memory then none else some path
    fileSystem := fileSystem
    makesFile := settings.mode == .make
    isWritable := settings.mode != .readOnly
    isFixed := !inMemory && hasTrue options "immutable"
    isLocked := !hasTrue options "nolock"
    permissionsOf := options.lookup "modeof" }

/-- The location of a URI, after `file:`. -/
def ofUri? (cs : List Char) : Option Location := do
  let cs := (← afterAuthority? cs).takeWhile (· != '#')
  ofOptions? (bytes (cs.takeWhile (· != '?'))) (options ((cs.dropWhile (· != '?')).drop 1))

/-- The location of a name; none if it asks for what there is not. -/
def ofName? (name : String) : Option Location :=
  match name.toList with
  | 'f' :: 'i' :: 'l' :: 'e' :: ':' :: rest => ofUri? rest
  | _ => ofOptions? (Text.Utf8.encode name) []

end Location

end PropertyGraph
